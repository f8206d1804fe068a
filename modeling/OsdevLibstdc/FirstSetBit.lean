import OsdevLibstdc.FueledLoops
import OsdevLibstdc.LowestBits
import OsdevLibstdc.Target

/-!
`ffs`, `ffsl` and `ffsll`, which shift their argument until its lowest bit is set.
-/

namespace OsdevLibstdc.Cstring

open FueledLoops LowestBits Outcomes Target

structure BitScan where
  i : ℤ
  val : ℤ
deriving Repr, DecidableEq

/-- The argument of type `ty` after the shift of its cast to `unsignedTy`. -/
def shifted (D : DataModel) (ty unsignedTy : CType) (val : ℤ) : ℤ :=
  ty.convert D (unsignedTy.convert D val >>> (1 : ℕ))

def ffsBody (T : Machine) (ty unsignedTy : CType) (s : BitScan) :
    Except Fault (Next BitScan ℤ) := do
  if Int.land s.val 1 = 0 then
    let val := shifted T.model ty unsignedTy s.val
    return .again ⟨← T.arith .int (s.i + 1), val⟩
  else return .stop s.i

/-- The loop runs on fuel for the bits of the type. -/
def firstSetBit (T : Machine) (ty unsignedTy : CType) (val : ℤ) : Except Fault ℤ :=
  if val ≠ 0 then run .outOfFuel (ffsBody T ty unsignedTy) (8 * ty.sizeof T.model) ⟨1, val⟩
  else return 0

def ffs (T : Machine) (val : ℤ) : Except Fault ℤ := firstSetBit T .int .unsignedInt val

def ffsl (T : Machine) (val : ℤ) : Except Fault ℤ := firstSetBit T .long .unsignedLong val

def ffsll (T : Machine) (val : ℤ) : Except Fault ℤ :=
  firstSetBit T .longLong .unsignedLongLong val

section Conversions

variable {D : DataModel} {ty : CType} {x : ℤ} {j : ℕ}

theorem pow_sizeof (D : DataModel) (ty : CType) :
    ((256 ^ ty.sizeof D : ℕ) : ℤ) = 2 ^ (8 * ty.sizeof D) := by
  rw [pow_mul]
  norm_num

theorem convert_emod (D : DataModel) (ty : CType) (x : ℤ) :
    ty.convert D x % 2 ^ (8 * ty.sizeof D) = x % 2 ^ (8 * ty.sizeof D) := by
  rw [CType.convert, ← pow_sizeof]
  split_ifs
  · exact Int.bmod_emod
  · exact Int.emod_emod_of_dvd x (dvd_refl _)

theorem convert_testBit (x : ℤ) (hj : j < 8 * ty.sizeof D) :
    (ty.convert D x).testBit j = x.testBit j := by
  rw [← testBit_emod _ hj, convert_emod, testBit_emod _ hj]

theorem shifted_testBit {unsignedTy : CType} (hsize : unsignedTy.sizeof D = ty.sizeof D) (x : ℤ)
    (hj : j + 1 < 8 * ty.sizeof D) : (shifted D ty unsignedTy x).testBit j = x.testBit (j + 1) := by
  rw [shifted, convert_testBit _ (Nat.lt_of_succ_lt hj), testBit_shiftRight_one,
    convert_testBit _ (hsize ▸ hj)]

theorem emod_ne_zero_of_convert (hx : ty.convert D x = x) (h0 : x ≠ 0) :
    x % 2 ^ (8 * ty.sizeof D) ≠ 0 := by
  intro h
  apply h0
  rw [← hx, CType.convert]
  rw [← pow_sizeof] at h
  split_ifs
  · exact Int.dvd_iff_bmod_eq_zero.mp (Int.dvd_of_emod_eq_zero h)
  · exact h

theorem sizeof_le_eight (D : DataModel) (ty : CType) : ty.sizeof D ≤ 8 := by
  cases D <;> cases ty <;> decide

theorem convert_of_int (D : DataModel) (hs : ty.signed = true) (hsize : 4 ≤ ty.sizeof D)
    (hx : CType.int.convert D x = x) : ty.convert D x = x := by
  have hpow : 256 ^ 4 ≤ 256 ^ ty.sizeof D := Nat.pow_le_pow_right (by norm_num) hsize
  have hl := Int.le_bmod (x := x) (m := 4294967296) (by norm_num)
  have hu := Int.bmod_lt (x := x) (m := 4294967296) (by norm_num)
  rw [convert_int, wrapInt] at hx
  rw [hx] at hl hu
  rw [CType.convert, if_pos hs]
  apply Int.bmod_eq_of_le <;> omega

end Conversions

section Loop

variable {T : Machine} {ty unsignedTy : CType} {v : ℤ} {k l : ℕ} {s : BitScan}

structure Scanning (D : DataModel) (ty : CType) (v : ℤ) (l k : ℕ) (s : BitScan) : Prop where
  index : s.i = k + 1
  left : k ≤ l
  bits : ∀ j, k + j < 8 * ty.sizeof D → s.val.testBit j = v.testBit (k + j)

theorem scanning_start (D : DataModel) (ty : CType) (v : ℤ) (l : ℕ) :
    Scanning D ty v l 0 ⟨1, v⟩ := by
  refine ⟨rfl, Nat.zero_le l, ?_⟩
  intro j _
  rw [Nat.zero_add]

theorem Scanning.round (h : Scanning T.model ty v l k s)
    (hsize : unsignedTy.sizeof T.model = ty.sizeof T.model) (hlow : IsLowestBit v l)
    (hl : l < 8 * ty.sizeof T.model) (hk : k < l) :
    ∃ t, ffsBody T ty unsignedTy s = .ok (.again t) ∧ Scanning T.model ty v l (k + 1) t := by
  have hclear : s.val.testBit 0 = false := by
    rw [h.bits 0 (by omega)]
    exact hlow.clear k hk
  have hle := sizeof_le_eight T.model ty
  have harith : T.arith .int (s.i + 1) = .ok (s.i + 1) := by
    have hindex := h.index
    apply arith_int_eq T <;> simp only [INT_MIN, INT_MAX] <;> omega
  refine ⟨⟨s.i + 1, shifted T.model ty unsignedTy s.val⟩, ?_, ?_, hk, ?_⟩
  · rw [ffsBody, if_pos (land_one_eq_zero.mpr hclear), harith]
    rfl
  · rw [h.index]
    push_cast
    rfl
  · intro j hj
    rw [shifted_testBit hsize _ (by omega), h.bits (j + 1) (by omega)]
    congr 1
    omega

theorem Scanning.stop (h : Scanning T.model ty v l l s) (hlow : IsLowestBit v l)
    (hl : l < 8 * ty.sizeof T.model) : ffsBody T ty unsignedTy s = .ok (.stop (l + 1)) := by
  have hset : s.val.testBit 0 = true := by
    rw [h.bits 0 (by omega)]
    exact hlow.set
  have hne : ¬ Int.land s.val 1 = 0 := by
    rw [land_one_eq_zero, hset]
    exact Bool.true_eq_false_eq_False
  rw [ffsBody, if_neg hne, h.index]
  rfl

theorem firstSetBit_ok (hsize : unsignedTy.sizeof T.model = ty.sizeof T.model)
    (hlow : IsLowestBit v l) (hl : l < 8 * ty.sizeof T.model) :
    firstSetBit T ty unsignedTy v = .ok (l + 1) := by
  have hround (s : BitScan) (hs : ∃ k, Scanning T.model ty v l k s) :
      (∃ t, ffsBody T ty unsignedTy s = .ok (.again t) ∧ (∃ k, Scanning T.model ty v l k t) ∧
        ((l : ℤ) + 1 - t.i).toNat < ((l : ℤ) + 1 - s.i).toNat) ∨
      ∃ b, ffsBody T ty unsignedTy s = .ok (.stop b) ∧ b = l + 1 := by
    obtain ⟨k, hs⟩ := hs
    rcases Nat.lt_or_eq_of_le hs.left with hk | rfl
    · obtain ⟨t, hbody, ht⟩ := hs.round hsize hlow hl hk
      have hsi := hs.index
      have hti := ht.index
      exact .inl ⟨t, hbody, ⟨k + 1, ht⟩, by omega⟩
    · exact .inr ⟨_, hs.stop hlow hl, rfl⟩
  have hfuel : ((l : ℤ) + 1 - 1).toNat < 8 * ty.sizeof T.model := by omega
  obtain ⟨b, hrun, rfl⟩ := run_ok (fun s : BitScan => ((l : ℤ) + 1 - s.i).toNat) hround
    ⟨0, scanning_start T.model ty v l⟩ hfuel
  rw [firstSetBit, if_pos hlow.ne_zero, hrun]

theorem scanning_after (hsize : unsignedTy.sizeof T.model = ty.sizeof T.model)
    (hlow : IsLowestBit v l) (hl : l < 8 * ty.sizeof T.model)
    (h : After (ffsBody T ty unsignedTy) k ⟨1, v⟩ s) : Scanning T.model ty v l k s := by
  apply h.invariant (I := Scanning T.model ty v l) (scanning_start T.model ty v l)
  intro k t u ht hbody
  rcases Nat.lt_or_eq_of_le ht.left with hk | rfl
  · obtain ⟨u', hbody', hu⟩ := ht.round hsize hlow hl hk
    rw [hbody] at hbody'
    cases hbody'
    exact hu
  · rw [ht.stop hlow hl] at hbody
    cases hbody

end Loop

structure FindsLowestBit (T : Machine) (ty unsignedTy : CType) (call : ℤ → Except Fault ℤ)
    (v : ℤ) : Prop where
  found : v ≠ 0 → ∃ k < 8 * ty.sizeof T.model, call v = .ok (k + 1) ∧ v.testBit k = true ∧
    ∀ j < k, v.testBit j = false
  zero_iff : call v = .ok 0 ↔ v = 0
  rounds : v ≠ 0 → ∀ k s, After (ffsBody T ty unsignedTy) k ⟨1, v⟩ s → k < 8 * ty.sizeof T.model

section Calls

variable {T : Machine} {ty unsignedTy : CType} {v : ℤ}

theorem firstSetBit_findsLowest (hsize : unsignedTy.sizeof T.model = ty.sizeof T.model)
    (hv : ty.convert T.model v = v) :
    FindsLowestBit T ty unsignedTy (firstSetBit T ty unsignedTy) v := by
  by_cases h0 : v = 0
  · rw [h0]
    exact ⟨fun h => absurd rfl h, iff_of_true rfl rfl, fun h => absurd rfl h⟩
  · obtain ⟨k, hk, hlow⟩ := exists_isLowestBit (emod_ne_zero_of_convert hv h0)
    have hcall := firstSetBit_ok hsize hlow hk
    constructor
    · intro _
      exact ⟨k, hk, hcall, hlow.set, hlow.clear⟩
    · rw [hcall]
      apply iff_of_false _ h0
      intro h
      have hpos := Except.ok.inj h
      omega
    · intro _ n s hs
      exact (scanning_after hsize hlow hk hs).left.trans_lt hk

theorem firstSetBit_of_int (hs : ty.signed = true)
    (hsize : unsignedTy.sizeof T.model = ty.sizeof T.model) (hle : 4 ≤ ty.sizeof T.model)
    (hv : CType.int.convert T.model v = v) :
    firstSetBit T ty unsignedTy (ty.convert T.model v) = ffs T v := by
  rw [convert_of_int T.model hs hle hv]
  by_cases h0 : v = 0
  · rw [h0]
    rfl
  · obtain ⟨k, hk, hlow⟩ := exists_isLowestBit (emod_ne_zero_of_convert hv h0)
    have hfour : k < 8 * 4 := hk
    have hwide : firstSetBit T ty unsignedTy v = .ok (k + 1) :=
      firstSetBit_ok hsize hlow (by omega)
    have hint : firstSetBit T .int .unsignedInt v = .ok (k + 1) := firstSetBit_ok rfl hlow hk
    rw [ffs, hwide, hint]

theorem four_le_sizeof (D : DataModel) (hty : ty = .long ∨ ty = .longLong) : 4 ≤ ty.sizeof D := by
  rcases hty with rfl | rfl <;> cases D <;> decide

theorem first_set_bits (T : Machine) :
    (∀ v, CType.int.convert T.model v = v →
      FindsLowestBit T .int .unsignedInt (ffs T) v) ∧
    (∀ v, CType.long.convert T.model v = v →
      FindsLowestBit T .long .unsignedLong (ffsl T) v) ∧
    (∀ v, CType.longLong.convert T.model v = v →
      FindsLowestBit T .longLong .unsignedLongLong (ffsll T) v) ∧
    ∀ v, CType.int.convert T.model v = v →
      ffsl T (CType.long.convert T.model v) = ffs T v ∧
        ffsll T (CType.longLong.convert T.model v) = ffs T v := by
  refine ⟨?_, ?_, ?_, ?_⟩
  · intro v hv
    exact firstSetBit_findsLowest rfl hv
  · intro v hv
    exact firstSetBit_findsLowest rfl hv
  · intro v hv
    exact firstSetBit_findsLowest rfl hv
  · intro v hv
    constructor
    · exact firstSetBit_of_int rfl rfl (four_le_sizeof T.model (.inl rfl)) hv
    · exact firstSetBit_of_int rfl rfl (four_le_sizeof T.model (.inr rfl)) hv

theorem first_set_bits_negative : FindsLowestBit (wrapping .lp64) .int .unsignedInt
      (ffs (wrapping .lp64)) (-12) ∧
    FindsLowestBit (wrapping .lp64) .long .unsignedLong (ffsl (wrapping .lp64)) (-12) ∧
    FindsLowestBit (wrapping .lp64) .longLong .unsignedLongLong (ffsll (wrapping .lp64)) (-12) ∧
    ffsl (wrapping .lp64) (CType.long.convert .lp64 (-12)) = ffs (wrapping .lp64) (-12) :=
  ⟨(first_set_bits (wrapping .lp64)).1 (-12) (by decide),
    (first_set_bits (wrapping .lp64)).2.1 (-12) (by decide),
    (first_set_bits (wrapping .lp64)).2.2.1 (-12) (by decide),
    ((first_set_bits (wrapping .lp64)).2.2.2 (-12) (by decide)).1⟩

end Calls

end OsdevLibstdc.Cstring
