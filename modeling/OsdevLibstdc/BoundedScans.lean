import OsdevLibstdc.StringFields
import OsdevLibstdc.StringScans

/-!
`strnlen`, which is `strlen` cut to the bound, and the strings that `%.*s` reads with it.
-/

namespace OsdevLibstdc.Cstring

open ByteMemory Outcomes Target Vsnprintf

def strnlen (m : Ram) (str maxLen : ℕ) : Except AccessFault ℕ := do
  return min (← strlen m str) maxLen

def stringsIn (m : Ram) : Strings := fun p =>
  match strlen m p >>= m.readBlock p with
  | .ok s => if h : 0 ∉ s then some ⟨s, h⟩ else none
  | .error _ => none

section Memory

variable {m : Ram} {p n : ℕ} {s bs : List UInt8}

theorem stringsIn_string (h : m.IsString p s) : stringsIn m p = some ⟨s, h.no_nul⟩ := by
  have hread := Ram.readBlock_ok (Ram.holds_append.mp h.holds).1
  simp only [stringsIn, strlen_ok h, ok_bind, hread]
  exact dif_pos h.no_nul

theorem stringsIn_none (h : ∀ s, ¬ m.IsString p s) : stringsIn m p = none := by
  cases hl : strlen m p with
  | error e => simp only [stringsIn, hl, error_bind]
  | ok n =>
    obtain ⟨s, hs, -⟩ := strlen_eq_ok.mp hl
    exact absurd hs (h s)

theorem strnlen_ok (h : m.IsString p s) (n : ℕ) : strnlen m p n = .ok (min s.length n) := by
  rw [strnlen, strlen_ok h]
  rfl

theorem only_isString (hb : m.Holds p bs) (h0 : 0 ∈ bs.take n) :
    (m.only (Ram.inBlock p n)).IsString p (upToNul n bs) := by
  apply (isString_upToNul hb h0).only
  intro j hj
  apply Ram.inBlock_add
  have := idxOf_lt_of_mem_take h0
  rw [length_upToNul] at hj
  omega

theorem only_isString_iff (hb : m.Holds p bs) (hn : n ≤ bs.length) :
    (∃ s, (m.only (Ram.inBlock p n)).IsString p s) ↔ 0 ∈ bs.take n := by
  constructor
  · rintro ⟨s, hs⟩
    have hnul := hs.terminator
    have hlt : s.length < n := by
      by_contra hle
      rw [Ram.only_byteAt_eq_none] at hnul
      · cases hnul
      · apply decide_eq_false
        omega
    rw [Ram.only_byteAt (Ram.inBlock_add hlt), hb _ (hlt.trans_le hn)] at hnul
    apply List.mem_of_getElem? (i := s.length)
    rw [List.getElem?_take_of_lt hlt, hnul]
  · intro h0
    exact ⟨_, only_isString hb h0⟩

theorem strnlen_within_iff (hb : m.Holds p bs) (hn : n ≤ bs.length) :
    m.ReturnsWithin (Ram.inBlock p n) (fun m => strnlen m p n) (min n (bs.idxOf 0)) ↔
      0 ∈ bs.take n := by
  constructor
  · rintro ⟨-, hwithin⟩
    obtain ⟨k, hk, -⟩ := bind_eq_ok.mp hwithin
    obtain ⟨s, hs, -⟩ := strlen_eq_ok.mp hk
    exact (only_isString_iff hb hn).mp ⟨s, hs⟩
  · intro h0
    have hlen : min (upToNul n bs).length n = min n (bs.idxOf 0) := by
      rw [length_upToNul]
      omega
    rw [← hlen]
    exact ⟨strnlen_ok (isString_upToNul hb h0) n, strnlen_ok (only_isString hb h0) n⟩

theorem loadString_stringsIn (hs : m.IsString p s) (hp : p ≠ 0) :
    loadString (stringsIn m) p = .ok s := by
  rw [loadString, if_neg (by omega), Int.toNat_natCast, stringsIn_string hs]

theorem loadString_stringsIn_eq_ok (hp : p ≠ 0) (h : loadString (stringsIn m) p = .ok s) :
    ∃ s, m.IsString p s := by
  by_contra hnone
  rw [loadString, if_neg (by omega), Int.toNat_natCast, stringsIn_none (not_exists.mp hnone)] at h
  cases h

end Memory

structure CutArgument (D : DataModel) (d : Directive) (n p : ℕ) (ap ap' : VaList) : Prop where
  specifier : d.specifier = .s
  precision : d.precision.value = n
  width : -1 ≤ d.width.value
  pointer : p ≠ 0
  passed : ∃ ap₁, Passed D d.starArgs ap ap₁ ∧ vaArg D .pointer ap₁ = .ok ((p : ℤ), ap')

section Formats

variable {D : DataModel} {d : Directive} {ap ap' : VaList} {m : Ram} {p n : ℕ} {bs : List UInt8}

theorem cut_upToNul (n : ℕ) (bs : List UInt8) : cut n (upToNul n bs) = upToNul n bs := by
  rw [cut, if_pos (Int.natCast_nonneg n), Int.toNat_natCast]
  apply List.take_of_length_le
  rw [length_upToNul]
  exact Nat.min_le_left _ _

theorem cut_prints_iff (h : CutArgument D d n p ap ap') (hb : m.Holds p bs) (hn : n ≤ bs.length)
    (hlen : ((d.pad (upToNul n bs)).length : ℤ) < INT_MAX) :
    Prints D (stringsIn (m.only (Ram.inBlock p n))) d ap ap' (d.pad (upToNul n bs)) ↔
      0 ∈ bs.take n := by
  obtain ⟨hk, hprec, hw, hp, ap₁, hstars, hv⟩ := h
  have hvalue : argumentValue D d.specifier d.length ap₁ = .ok ((p : ℤ), ap') := by
    rw [hk]
    exact hv
  rw [prints_string_iff hk hstars hvalue]
  constructor
  · rintro ⟨⟨s, hs⟩, -, -⟩
    exact (only_isString_iff hb hn).mp (loadString_stringsIn_eq_ok hp hs)
  · intro h0
    have hload := loadString_stringsIn (only_isString hb h0) hp
    refine ⟨⟨_, hload⟩, pad_eq_full hw ?_ hlen.le, hlen⟩
    rw [Directive.unpadded, hk, hprec, hload, cut_upToNul]

end Formats

structure BoundKept (m : Ram) (p n : ℕ) (bs : List UInt8) : Prop where
  scan : m.ReturnsWithin (Ram.inBlock p n) (fun m => strnlen m p n) (min n (bs.idxOf 0))
  formats : ∀ D d ap ap', CutArgument D d n p ap ap' →
    ((d.pad (upToNul n bs)).length : ℤ) < INT_MAX →
    Prints D (stringsIn (m.only (Ram.inBlock p n))) d ap ap' (d.pad (upToNul n bs))

section BoundKept

variable {m : Ram} {p n : ℕ} {bs : List UInt8}

theorem bound_kept_iff (hb : m.Holds p bs) (hn : n ≤ bs.length) :
    (BoundKept m p n bs ↔ 0 ∈ bs.take n) ∧
    ∀ D d ap ap', CutArgument D d n p ap ap' →
      ((d.pad (upToNul n bs)).length : ℤ) < INT_MAX →
      (Prints D (stringsIn (m.only (Ram.inBlock p n))) d ap ap' (d.pad (upToNul n bs)) ↔
        0 ∈ bs.take n) := by
  have hformats (D : DataModel) (d : Directive) (ap ap' : VaList)
      (h : CutArgument D d n p ap ap') := cut_prints_iff h hb hn
  refine ⟨⟨fun h => (strnlen_within_iff hb hn).mp h.scan, ?_⟩, hformats⟩
  intro h0
  refine ⟨(strnlen_within_iff hb hn).mpr h0, ?_⟩
  intro D d ap ap' h hlen
  exact (hformats D d ap ap' h hlen).mpr h0

theorem bound_kept_ab : BoundKept ⟨[some 97, some 98, some 0, some 99], []⟩ 0 3 [97, 98, 0, 99] :=
  (bound_kept_iff (by decide) (by decide)).1.mpr (by decide)

theorem bound_not_kept : ¬ ∀ (m : Ram) (p n : ℕ) (bs : List UInt8),
    m.Holds p bs → n ≤ bs.length → BoundKept m p n bs := by
  intro h
  obtain ⟨⟨hscan, -⟩, -⟩ := h ⟨[some 97, some 98, some 99], []⟩ 0 3 [97, 98, 99] (by decide)
    (by decide)
  have hfault : strnlen ⟨[some 97, some 98, some 99], []⟩ 0 3 = .error .unmapped := by decide
  cases hfault.symm.trans hscan

end BoundKept

end OsdevLibstdc.Cstring
