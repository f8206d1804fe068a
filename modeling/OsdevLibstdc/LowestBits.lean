import Mathlib.Data.Int.Bitwise
import Mathlib.Tactic.Ring

/-!
The lowest set bit of an integer in two's complement, by parity and halving, and what remains of
the bits modulo a power of two.
-/

namespace OsdevLibstdc.LowestBits

section Bits

variable {x : ℤ} {j w : ℕ}

theorem testBit_zero (x : ℤ) : x.testBit 0 = decide (x % 2 = 1) := by
  cases x with
  | ofNat m =>
    rw [Int.testBit, Nat.testBit_zero, decide_eq_decide, Int.ofNat_eq_natCast]
    omega
  | negSucc m =>
    rw [Int.testBit, Nat.testBit_zero, ← decide_not, decide_eq_decide, Int.negSucc_eq]
    omega

theorem testBit_succ (x : ℤ) (j : ℕ) : x.testBit (j + 1) = (x / 2).testBit j := by
  cases x with
  | ofNat m =>
    have hhalf : Int.ofNat m / 2 = Int.ofNat (m / 2) := rfl
    rw [hhalf, Int.testBit, Int.testBit, Nat.testBit_succ]
  | negSucc m =>
    have hhalf : Int.negSucc m / 2 = Int.negSucc (m / 2) := rfl
    rw [hhalf, Int.testBit, Int.testBit, Nat.testBit_succ]

theorem testBit_shiftRight_one (x : ℤ) (j : ℕ) :
    (x >>> (1 : ℕ)).testBit j = x.testBit (j + 1) := by
  rw [Int.shiftRight_eq_div_pow, testBit_succ]
  rfl

theorem testBit_add_mul (q : ℤ) (hj : j < w) : (x + 2 ^ w * q).testBit j = x.testBit j := by
  induction j generalizing x w with
  | zero =>
    obtain ⟨w, rfl⟩ := Nat.exists_eq_add_one_of_ne_zero (Nat.ne_zero_of_lt hj)
    have hdouble : (2 : ℤ) ^ (w + 1) * q = 2 * (2 ^ w * q) := by ring
    rw [testBit_zero, testBit_zero, decide_eq_decide, hdouble]
    omega
  | succ j ih =>
    obtain ⟨w, rfl⟩ := Nat.exists_eq_add_one_of_ne_zero (Nat.ne_zero_of_lt hj)
    have hdouble : (2 : ℤ) ^ (w + 1) * q = 2 * (2 ^ w * q) := by ring
    have hhalf : (x + 2 * (2 ^ w * q)) / 2 = x / 2 + 2 ^ w * q := by omega
    rw [testBit_succ, testBit_succ, hdouble, hhalf]
    apply ih
    omega

theorem testBit_emod (x : ℤ) (hj : j < w) : (x % 2 ^ w).testBit j = x.testBit j := by
  have hsum := testBit_add_mul (x := x % 2 ^ w) (x / 2 ^ w) hj
  rwa [Int.emod_add_mul_ediv, eq_comm] at hsum

theorem land_one_eq_zero : Int.land x 1 = 0 ↔ x.testBit 0 = false := by
  have hbit (j : ℕ) : (Int.land x 1).testBit j = (x.testBit j && Nat.testBit 1 j) :=
    Int.testBit_land x 1 j
  obtain ⟨n, hn⟩ : ∃ n : ℕ, Int.land x 1 = n := by
    cases x with
    | ofNat m => exact ⟨_, rfl⟩
    | negSucc m => exact ⟨_, rfl⟩
  rw [hn] at hbit ⊢
  constructor
  · intro h
    obtain rfl : n = 0 := Int.natCast_eq_zero.mp h
    have hfirst : false = (x.testBit 0 && true) := hbit 0
    rw [hfirst, Bool.and_true]
  · intro h
    apply Int.natCast_eq_zero.mpr
    apply Nat.zero_of_testBit_eq_false
    intro j
    change (n : ℤ).testBit j = false
    rw [hbit]
    cases j with
    | zero => rw [h, Bool.false_and]
    | succ j => rw [Nat.testBit_succ, Nat.zero_testBit, Bool.and_false]

end Bits

structure IsLowestBit (x : ℤ) (k : ℕ) : Prop where
  set : x.testBit k = true
  clear : ∀ j < k, x.testBit j = false

section Lowest

variable {x : ℤ} {k : ℕ}

theorem isLowestBit_zero (h : x % 2 = 1) : IsLowestBit x 0 := by
  constructor
  · rw [testBit_zero, decide_eq_true h]
  · intro j hj
    exact absurd hj (Nat.not_lt_zero j)

theorem IsLowestBit.double (h : IsLowestBit (x / 2) k) (hx : x % 2 ≠ 1) :
    IsLowestBit x (k + 1) := by
  constructor
  · rw [testBit_succ, h.set]
  · intro j hj
    cases j with
    | zero => rw [testBit_zero, decide_eq_false hx]
    | succ j =>
      rw [testBit_succ]
      exact h.clear j (Nat.lt_of_succ_lt_succ hj)

theorem IsLowestBit.ne_zero (h : IsLowestBit x k) : x ≠ 0 := by
  rintro rfl
  have hset : Nat.testBit 0 k = true := h.set
  rw [Nat.zero_testBit] at hset
  cases hset

theorem exists_isLowestBit {w : ℕ} (hx : x % 2 ^ w ≠ 0) : ∃ k < w, IsLowestBit x k := by
  induction w generalizing x with
  | zero => exact absurd (Int.emod_one x) hx
  | succ w ih =>
    by_cases hodd : x % 2 = 1
    · exact ⟨0, Nat.succ_pos w, isLowestBit_zero hodd⟩
    · have hhalf : x / 2 % 2 ^ w ≠ 0 := by
        intro h0
        obtain ⟨q, hq⟩ := Int.dvd_of_emod_eq_zero h0
        apply hx
        apply Int.emod_eq_zero_of_dvd
        refine ⟨q, ?_⟩
        have hdouble : (2 : ℤ) ^ (w + 1) * q = 2 * (2 ^ w * q) := by ring
        rw [hdouble, ← hq]
        omega
      obtain ⟨k, hk, hlow⟩ := ih hhalf
      exact ⟨k + 1, Nat.succ_lt_succ hk, hlow.double hodd⟩

end Lowest

end OsdevLibstdc.LowestBits
