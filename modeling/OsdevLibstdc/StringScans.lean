import OsdevLibstdc.ByteMemory
import OsdevLibstdc.Target

/-!
`strlen`, `strchr`, `strspn` and `strcspn`. A scan runs on fuel for the whole memory, so that it
leaves the memory before the fuel is used up.
-/

namespace OsdevLibstdc.Cstring

open ByteMemory Outcomes Target

def strlenLoop (m : Ram) : ℕ → ℕ → ℕ → Except AccessFault ℕ
  | 0, _, _ => .error .runaway
  | fuel + 1, str, res => do
    if (← m.load str) ≠ 0 then strlenLoop m fuel (str + 1) (res + 1) else return res

def strlen (m : Ram) (str : ℕ) : Except AccessFault ℕ := strlenLoop m (m.size + 1) str 0

def strchrLoop (m : Ram) (needle : ℤ) : ℕ → ℕ → Except AccessFault (Option ℕ)
  | 0, _ => .error .runaway
  | fuel + 1, s => do
    let c ← m.load s
    if c = UInt8.ofInt needle then return some s
    else if c ≠ 0 then strchrLoop m needle fuel (s + 1)
    else return none

def strchr (m : Ram) (str : ℕ) (needle : ℤ) : Except AccessFault (Option ℕ) :=
  strchrLoop m needle (m.size + 1) str

/-- The loop of `strspn`, and of `strcspn` where `found` is false. -/
def spanLoop (m : Ram) (set : ℕ) (found : Bool) : ℕ → ℕ → ℕ → Except AccessFault ℕ
  | 0, _, _ => .error .runaway
  | fuel + 1, str, res => do
    let c ← m.load str
    if c = 0 then return res
    else if (← strchr m set (charValue c)).isSome = found then
      spanLoop m set found fuel (str + 1) (res + 1)
    else return res

def strspn (m : Ram) (str accept : ℕ) : Except AccessFault ℕ :=
  spanLoop m accept true (m.size + 1) str 0

def strcspn (m : Ram) (str reject : ℕ) : Except AccessFault ℕ :=
  spanLoop m reject false (m.size + 1) str 0

def upToNul (n : ℕ) (bs : List UInt8) : List UInt8 := bs.take (min n (bs.idxOf 0))

section UpToNul

variable {n : ℕ} {bs : List UInt8}

theorem length_upToNul (n : ℕ) (bs : List UInt8) :
    (upToNul n bs).length = min n (bs.idxOf 0) := by
  apply List.length_take_of_le
  exact (Nat.min_le_right _ _).trans List.idxOf_le_length

theorem idxOf_lt_of_mem_take (h : 0 ∈ bs.take n) : bs.idxOf 0 < n :=
  (List.mem_take_iff_idxOf_lt (List.mem_of_mem_take h)).mp h

theorem zero_notMem_upToNul (n : ℕ) (bs : List UInt8) : 0 ∉ upToNul n bs := by
  intro h
  exact absurd (idxOf_lt_of_mem_take h) (Nat.not_lt.mpr (Nat.min_le_right _ _))

theorem upToNul_of_notMem (hn : n ≤ bs.length) (h : 0 ∉ bs.take n) : upToNul n bs = bs.take n := by
  have hle : n ≤ bs.idxOf 0 := by
    by_contra hlt
    have hmem : 0 ∈ bs := List.idxOf_lt_length_iff.mp (by omega)
    exact h ((List.mem_take_iff_idxOf_lt hmem).mpr (Nat.not_le.mp hlt))
  rw [upToNul, Nat.min_eq_left hle]

theorem isString_upToNul {m : Ram} {p : ℕ} (hb : m.Holds p bs) (h : 0 ∈ bs.take n) :
    m.IsString p (upToNul n bs) := by
  have hmem : 0 ∈ bs := List.mem_of_mem_take h
  apply Ram.IsString.of_holds (s := upToNul n bs) (hb.take _) (zero_notMem_upToNul n bs)
  rw [length_upToNul, Nat.min_eq_right (idxOf_lt_of_mem_take h).le]
  apply hb.byteAt
  rw [List.getElem?_eq_getElem (List.idxOf_lt_length_of_mem hmem), List.getElem_idxOf]

end UpToNul

theorem ofInt_charValue (c : UInt8) : UInt8.ofInt (charValue c) = c := by
  have hv : charValue c = (c.toNat : ℤ).bmod 256 := by
    rw [← UInt8.toNat_toBitVec, ← BitVec.toInt_eq_toNat_bmod]
    rfl
  have hmod : (c.toNat : ℤ).bmod 256 % ((2 : ℤ) ^ 8) = c.toNat := by
    have hc := c.toNat_lt
    rw [show ((2 : ℤ) ^ 8) = ((256 : ℕ) : ℤ) from rfl, Int.bmod_emod]
    omega
  rw [UInt8.ofInt, hv, hmod, Int.toNat_natCast, UInt8.ofNat_toNat]

section Scans

variable {m : Ram}

theorem strlenLoop_ok {s : List UInt8} {p fuel res : ℕ} (h : m.IsString p s)
    (hf : s.length < fuel) : strlenLoop m fuel p res = .ok (res + s.length) := by
  induction s generalizing p fuel res with
  | nil =>
    obtain ⟨fuel, rfl⟩ := Nat.exists_eq_add_of_lt hf
    rw [strlenLoop, Ram.load_eq_ok.mpr h.nil]
    rfl
  | cons c s ih =>
    obtain ⟨hc, hne, hs⟩ := h.cons
    obtain ⟨fuel, rfl⟩ := Nat.exists_eq_add_one_of_ne_zero (Nat.ne_zero_of_lt hf)
    rw [List.length_cons] at hf
    rw [strlenLoop, Ram.load_eq_ok.mpr hc, ok_bind, if_pos hne, ih hs (by omega)]
    rw [List.length_cons, Nat.add_right_comm, Nat.add_assoc]

theorem strlen_ok {s : List UInt8} {p : ℕ} (h : m.IsString p s) : strlen m p = .ok s.length := by
  have := h.lt_size
  rw [strlen, strlenLoop_ok h (by omega), Nat.zero_add]

theorem strlenLoop_eq_ok {p fuel res n : ℕ} (h : strlenLoop m fuel p res = .ok n) :
    ∃ s, m.IsString p s ∧ n = res + s.length := by
  induction fuel generalizing p res with
  | zero => cases h
  | succ fuel ih =>
    obtain ⟨c, hc, hrest⟩ := bind_eq_ok.mp h
    have hbyte := Ram.load_eq_ok.mp hc
    by_cases h0 : c = 0
    · rw [if_neg (not_not.mpr h0)] at hrest
      rw [h0] at hbyte
      exact ⟨[], .of_holds (Ram.holds_nil m p) List.not_mem_nil hbyte, (Except.ok.inj hrest).symm⟩
    · rw [if_pos h0] at hrest
      obtain ⟨s, hs, rfl⟩ := ih hrest
      refine ⟨c :: s, ⟨Ram.holds_cons.mpr ⟨hbyte, hs.holds⟩, ?_⟩, ?_⟩
      · rw [List.mem_cons, not_or]
        exact ⟨Ne.symm h0, hs.no_nul⟩
      · rw [List.length_cons]
        omega

theorem strlen_eq_ok {p n : ℕ} : strlen m p = .ok n ↔ ∃ s, m.IsString p s ∧ n = s.length := by
  constructor
  · intro h
    obtain ⟨s, hs, hn⟩ := strlenLoop_eq_ok h
    exact ⟨s, hs, hn.trans (Nat.zero_add _)⟩
  · rintro ⟨s, hs, rfl⟩
    exact strlen_ok hs

theorem strchrLoop_ok {needle : ℤ} {s : List UInt8} {p fuel : ℕ} (h : m.IsString p s)
    (hf : s.length < fuel) : strchrLoop m needle fuel p =
      .ok (((s ++ [0]).idxOf? (UInt8.ofInt needle)).map (p + ·)) := by
  induction s generalizing p fuel with
  | nil =>
    obtain ⟨fuel, rfl⟩ := Nat.exists_eq_add_one_of_ne_zero (Nat.ne_zero_of_lt hf)
    rw [strchrLoop, Ram.load_eq_ok.mpr h.nil, ok_bind, List.nil_append, List.idxOf?_cons]
    by_cases hc : (0 : UInt8) = UInt8.ofInt needle <;> simp [hc, pure_eq]
  | cons c s ih =>
    obtain ⟨hc, hne, hs⟩ := h.cons
    obtain ⟨fuel, rfl⟩ := Nat.exists_eq_add_one_of_ne_zero (Nat.ne_zero_of_lt hf)
    rw [List.length_cons] at hf
    rw [strchrLoop, Ram.load_eq_ok.mpr hc, ok_bind, List.cons_append, List.idxOf?_cons]
    by_cases hn : c = UInt8.ofInt needle
    · simp [hn, pure_eq]
    · rw [if_neg hn, if_pos hne, ih hs (by omega), if_neg (by simpa using hn), Option.map_map]
      congr 2
      funext k
      simp only [Function.comp_apply]
      omega

theorem strchr_ok {needle : ℤ} {s : List UInt8} {p : ℕ} (h : m.IsString p s) :
    strchr m p needle = .ok (((s ++ [0]).idxOf? (UInt8.ofInt needle)).map (p + ·)) := by
  have := h.lt_size
  apply strchrLoop_ok h
  omega

theorem strchr_isSome {set : ℕ} {t : List UInt8} {c : UInt8} (ht : m.IsString set t)
    (hc : c ≠ 0) : ∃ r, strchr m set (charValue c) = .ok r ∧ r.isSome = decide (c ∈ t) := by
  refine ⟨_, strchr_ok ht, ?_⟩
  rw [Option.isSome_map, ofInt_charValue, Bool.eq_iff_iff, List.isSome_idxOf?]
  simp [hc]

theorem spanLoop_ok {set : ℕ} {t : List UInt8} (found : Bool) (ht : m.IsString set t)
    {s : List UInt8} {p fuel res : ℕ} (h : m.IsString p s) (hf : s.length < fuel) :
    spanLoop m set found fuel p res =
      .ok (res + (s.takeWhile (fun c => decide (c ∈ t) = found)).length) := by
  induction s generalizing p fuel res with
  | nil =>
    obtain ⟨fuel, rfl⟩ := Nat.exists_eq_add_one_of_ne_zero (Nat.ne_zero_of_lt hf)
    rw [spanLoop, Ram.load_eq_ok.mpr h.nil]
    rfl
  | cons c s ih =>
    obtain ⟨hc, hne, hs⟩ := h.cons
    obtain ⟨fuel, rfl⟩ := Nat.exists_eq_add_one_of_ne_zero (Nat.ne_zero_of_lt hf)
    obtain ⟨r, hr, hsome⟩ := strchr_isSome ht hne
    rw [List.length_cons] at hf
    rw [spanLoop, Ram.load_eq_ok.mpr hc, ok_bind, if_neg hne, hr, ok_bind, hsome,
      List.takeWhile_cons]
    by_cases hm : decide (c ∈ t) = found
    · rw [if_pos hm, if_pos (by simpa using hm), ih hs (by omega), List.length_cons]
      congr 1
      omega
    · rw [if_neg hm, if_neg (by simpa using hm)]
      rfl

theorem strspn_ok {str accept : ℕ} {s t : List UInt8} (hs : m.IsString str s)
    (ht : m.IsString accept t) :
    strspn m str accept = .ok (s.takeWhile (fun c => decide (c ∈ t))).length := by
  have := hs.lt_size
  rw [strspn, spanLoop_ok true ht hs (by omega), Nat.zero_add]
  simp

theorem strcspn_ok {str reject : ℕ} {s t : List UInt8} (hs : m.IsString str s)
    (ht : m.IsString reject t) :
    strcspn m str reject = .ok (s.takeWhile (fun c => decide (c ∉ t))).length := by
  have := hs.lt_size
  rw [strcspn, spanLoop_ok false ht hs (by omega), Nat.zero_add]
  simp

end Scans

end OsdevLibstdc.Cstring
