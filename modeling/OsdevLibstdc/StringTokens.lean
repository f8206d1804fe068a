import Mathlib.Data.List.Forall2
import Mathlib.Logic.Function.Basic
import OsdevLibstdc.StringScans
import OsdevLibstdc.TokenSpans

/-!
`strtok_r` and `strtok`, and runs of `strtok_r` over several strings in any order.
-/

namespace OsdevLibstdc.Cstring

open ByteMemory Outcomes TokenSpans

/-- `saveptr` is null, or the variable it points to; the call returns what it leaves there. -/
def strtokR (m : Ram) (str : Option ℕ) (delim : ℕ) (saveptr : Option (Option ℕ)) :
    Except AccessFault (Option ℕ × Ram × Option (Option ℕ)) :=
  match str.or saveptr.join with
  | none => .ok (none, m, saveptr)
  | some oldStr => do
    let res := oldStr + (← strspn m oldStr delim)
    if (← m.load res) = 0 then return (none, m, saveptr)
    let oldStr := res + 1 + (← strcspn m (res + 1) delim)
    if (← m.load oldStr) ≠ 0 then
      let m ← m.store oldStr 0
      return (some res, m, saveptr.map fun _ => some (oldStr + 1))
    else return (some res, m, saveptr.map fun _ => some oldStr)

/-- `oldStr` is the static variable. -/
def strtok (m : Ram) (str : Option ℕ) (delim : ℕ) (oldStr : Option ℕ) :
    Except AccessFault (Option ℕ × Ram × Option ℕ) := do
  let (res, m, saveptr) ← strtokR m str delim (some oldStr)
  return (res, m, saveptr.join)

def isIn (d : List UInt8) (c : UInt8) : Bool := c ∈ d

def Cuts (m m' : Ram) (d : List UInt8) (lo hi : ℕ) : Prop :=
  m' = m ∨ ∃ a c, lo ≤ a ∧ a < hi ∧ c ∈ d ∧ m.byteAt a = some c ∧ m'.byteAt a = some 0 ∧
    m.StoredIn m' a (a + 1)

theorem Cuts.mono {m m' : Ram} {d : List UInt8} {lo hi lo' hi' : ℕ} (h : Cuts m m' d lo hi)
    (hlo : lo' ≤ lo) (hhi : hi ≤ hi') : Cuts m m' d lo' hi' := by
  rcases h with rfl | ⟨a, c, ha, ha', hc⟩
  · exact .inl rfl
  · exact .inr ⟨a, c, by omega, by omega, hc⟩

theorem Cuts.storedIn {m m' : Ram} {d : List UInt8} {lo hi : ℕ} (h : Cuts m m' d lo hi) :
    m.StoredIn m' lo hi := by
  rcases h with rfl | ⟨a, c, hlo, hhi, -, -, -, hst⟩
  · exact .refl m' lo hi
  · exact hst.mono hlo (by omega)

theorem Cuts.string {m m' : Ram} {d s : List UInt8} {lo hi p : ℕ} (h : Cuts m m' d lo hi)
    (hd : 0 ∉ d) (hs : m.IsString p s) (hp : p + s.length ≤ lo ∨ hi ≤ p) : m'.IsString p s := by
  rcases h with rfl | ⟨a, c, hlo, hhi, hc, hbyte, -, hst⟩
  · exact hs
  · apply hs.stored hst
    -- at the end of the string lies its NUL, which is in no set
    have hne : p + s.length ≠ a := by
      intro he
      have hnul := hs.terminator
      rw [he, hbyte] at hnul
      exact hd (Option.some.inj hnul ▸ hc)
    omega

section Call

variable {m : Ram} {str : Option ℕ} {delim q : ℕ} {saveptr : Option (Option ℕ)}
  {part d pre tok rest : List UInt8}

theorem strtokR_null (h : str.or saveptr.join = none) :
    strtokR m str delim saveptr = .ok (none, m, saveptr) := by
  rw [strtokR, h]

theorem strtokR_exhausted (hq : str.or saveptr.join = some q) (hs : m.IsString q part)
    (hd : m.IsString delim d) (h : ∀ b ∈ part, b ∈ d) :
    strtokR m str delim saveptr = .ok (none, m, saveptr) := by
  have hall : part.takeWhile (fun c => decide (c ∈ d)) = part :=
    List.takeWhile_eq_self_iff.mpr (by simpa using h)
  rw [strtokR, hq]
  simp only
  rw [strspn_ok hs hd, ok_bind, hall, Ram.load_eq_ok.mpr hs.terminator]
  rfl

theorem strtokR_scan (hq : str.or saveptr.join = some q) (hs : m.IsString q part)
    (hd : m.IsString delim d) (h : Splits (isIn d) part pre tok rest) :
    strtokR m str delim saveptr = (do
      if (← m.load (q + pre.length + tok.length)) ≠ 0 then
        let m ← m.store (q + pre.length + tok.length) 0
        return (some (q + pre.length), m,
          saveptr.map fun _ => some (q + pre.length + tok.length + 1))
      else
        return (some (q + pre.length), m,
          saveptr.map fun _ => some (q + pre.length + tok.length))) := by
  obtain ⟨t, ts, rfl⟩ : ∃ t ts, tok = t :: ts := List.exists_cons_of_ne_nil h.ne
  have hskip : part.takeWhile (fun c => decide (c ∈ d)) = pre := h.takeWhile_pre
  have hrun : (ts ++ rest).takeWhile (fun c => decide (c ∉ d)) = ts := by
    have := h.takeWhile_tok ts fun b hb => List.mem_cons_of_mem t hb
    simpa [isIn] using this
  have hres : q + pre.length + (t :: ts).length = q + pre.length + 1 + ts.length := by
    rw [List.length_cons]
    omega
  rw [strtokR, hq]
  dsimp only
  rw [strspn_ok hs hd, ok_bind, hskip, hres]
  rw [h.eq, List.cons_append] at hs
  obtain ⟨ht, hne, hs⟩ := hs.append.2.2.cons
  rw [Ram.load_eq_ok.mpr ht, ok_bind, if_neg hne, strcspn_ok hs hd, ok_bind, hrun]

theorem strtokR_token (hq : str.or saveptr.join = some q) (hs : m.IsString q part)
    (hd : m.IsString delim d) (h : Splits (isIn d) part pre tok rest) :
    ∃ m' q', strtokR m str delim saveptr =
        .ok (some (q + pre.length), m', saveptr.map fun _ => some q') ∧
      Cuts m m' d (q + pre.length + tok.length) (q + part.length) ∧
      m'.IsString (q + pre.length) tok ∧ m'.IsString q' rest.tail ∧
      q + pre.length + tok.length ≤ q' ∧ q' + rest.tail.length = q + part.length := by
  rw [strtokR_scan hq hs hd h]
  have hlen : part.length = pre.length + tok.length + rest.length := by
    rw [h.eq, List.length_append, List.length_append, Nat.add_assoc]
  rw [h.eq] at hs
  obtain ⟨htok, hnul, hrest⟩ := hs.append.2.2.append
  cases hr : rest with
  | nil =>
    rw [hr] at hrest hlen
    refine ⟨m, q + pre.length + tok.length, ?_, .inl rfl, ?_, hrest, le_rfl, ?_⟩
    · rw [Ram.load_eq_ok.mpr hrest.nil]
      rfl
    · exact .of_holds htok hnul hrest.nil
    · rw [hlen]
      simp [Nat.add_assoc]
  | cons c s =>
    rw [hr] at hrest hlen
    obtain ⟨hc, hc0, hleft⟩ := hrest.cons
    have hcd : c ∈ d := by
      have := h.ended c (by rw [hr]; rfl)
      simpa [isIn] using this
    obtain ⟨m', hst, hstr, hin⟩ := Ram.IsString.of_store htok hnul (by rw [hc]; rfl)
    rw [List.length_cons] at hlen
    refine ⟨m', q + pre.length + tok.length + 1, ?_, .inr ?_, hstr, ?_, Nat.le_succ _, ?_⟩
    · rw [Ram.load_eq_ok.mpr hc, ok_bind, if_pos hc0, hst]
      rfl
    · exact ⟨_, c, le_rfl, by omega, hcd, hc, hstr.terminator, hin⟩
    · exact hleft.stored hin (.inr le_rfl)
    · rw [List.tail_cons]
      omega

end Call

end OsdevLibstdc.Cstring
