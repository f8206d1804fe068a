import Mathlib.Data.Int.Order.Basic
import Mathlib.Data.List.Lex
import Mathlib.Tactic.Linarith

/-!
Two texts compared by the difference of their keys at the first position where they differ. Both
texts go on with the terminator.
-/

namespace OsdevLibstdc.FirstDifferences

section Positions

variable {α β : Type} [DecidableEq α] [DecidableEq β] {z : α}

def firstDifference (z : α) : List α → List α → α × α
  | [], [] => (z, z)
  | x :: _, [] => (x, z)
  | [], y :: _ => (z, y)
  | x :: xs, y :: ys => if x = y then firstDifference z xs ys else (x, y)

def agreeing : List α → List α → ℕ
  | x :: xs, y :: ys => if x = y then agreeing xs ys + 1 else 0
  | _, _ => 0

theorem firstDifference_self (z : α) (xs : List α) : firstDifference z xs xs = (z, z) := by
  induction xs with
  | nil => rfl
  | cons x xs ih => rw [firstDifference, if_pos rfl, ih]

theorem firstDifference_swap (z : α) (xs ys : List α) :
    firstDifference z ys xs = (firstDifference z xs ys).swap := by
  induction xs generalizing ys with
  | nil => cases ys <;> rfl
  | cons x xs ih =>
    cases ys with
    | nil => rfl
    | cons y ys =>
      rw [firstDifference, firstDifference]
      by_cases h : x = y
      · rw [if_pos h, if_pos h.symm, ih]
      · rw [if_neg h, if_neg (Ne.symm h)]
        rfl

theorem firstDifference_map {v : α → β} (hv : Function.Injective v) (xs ys : List α) :
    firstDifference (v z) (xs.map v) (ys.map v) = (firstDifference z xs ys).map v v := by
  induction xs generalizing ys with
  | nil => cases ys <;> rfl
  | cons x xs ih =>
    cases ys with
    | nil => rfl
    | cons y ys =>
      rw [List.map_cons, List.map_cons, firstDifference, firstDifference]
      by_cases h : x = y
      · rw [if_pos (congrArg v h), if_pos h, ih]
      · rw [if_neg (hv.ne h), if_neg h]
        rfl

theorem firstDifference_take_append {xs ys : List α} (hx : z ∉ xs) (hy : z ∉ ys) (n : ℕ) :
    firstDifference z ((xs ++ [z]).take n) ((ys ++ [z]).take n) =
      firstDifference z (xs.take n) (ys.take n) := by
  induction n generalizing xs ys with
  | zero => rfl
  | succ n ih =>
    cases xs with
    | nil =>
      cases ys with
      | nil => simp [firstDifference]
      | cons y ys =>
        rw [List.mem_cons, not_or] at hy
        simp [firstDifference, hy.1]
    | cons x xs =>
      rw [List.mem_cons, not_or] at hx
      cases ys with
      | nil => simp [firstDifference, Ne.symm hx.1]
      | cons y ys =>
        rw [List.mem_cons, not_or] at hy
        simp only [List.cons_append, List.take_succ_cons, firstDifference]
        rw [ih hx.2 hy.2]

theorem firstDifference_take {xs ys : List α} {n : ℕ} (h : agreeing xs ys < n) :
    firstDifference z (xs.take n) (ys.take n) = firstDifference z xs ys := by
  induction n generalizing xs ys with
  | zero => exact absurd h (Nat.not_lt_zero _)
  | succ n ih =>
    cases xs with
    | nil => cases ys <;> rfl
    | cons x xs =>
      cases ys with
      | nil => rfl
      | cons y ys =>
        rw [agreeing] at h
        simp only [List.take_succ_cons, firstDifference]
        split_ifs with he
        · rw [if_pos he] at h
          exact ih (Nat.lt_of_succ_lt_succ h)
        · rfl

theorem agreeing_comm (xs ys : List α) : agreeing ys xs = agreeing xs ys := by
  induction xs generalizing ys with
  | nil => cases ys <;> rfl
  | cons x xs ih =>
    cases ys with
    | nil => rfl
    | cons y ys => simp only [agreeing, ih ys, eq_comm]

theorem agreeing_le_left (xs ys : List α) : agreeing xs ys ≤ xs.length := by
  induction xs generalizing ys with
  | nil => simp [agreeing]
  | cons x xs ih =>
    cases ys with
    | nil => simp [agreeing]
    | cons y ys =>
      rw [agreeing, List.length_cons]
      split_ifs
      · exact Nat.succ_le_succ (ih ys)
      · exact Nat.zero_le _

theorem agreeing_le_right (xs ys : List α) : agreeing xs ys ≤ ys.length := by
  rw [agreeing_comm]
  exact agreeing_le_left ys xs

end Positions

def difference (xs ys : List ℤ) : ℤ :=
  (firstDifference 0 xs ys).1 - (firstDifference 0 xs ys).2

theorem difference_self (xs : List ℤ) : difference xs xs = 0 := by
  rw [difference, firstDifference_self]
  rfl

theorem difference_swap (xs ys : List ℤ) : difference ys xs = -difference xs ys := by
  rw [difference, difference, firstDifference_swap, Prod.fst_swap, Prod.snd_swap]
  omega

theorem difference_map {α : Type} [DecidableEq α] {z : α} {v : α → ℤ}
    (hv : Function.Injective v) (h0 : v z = 0) (xs ys : List α) : difference (xs.map v) (ys.map v) =
      v (firstDifference z xs ys).1 - v (firstDifference z xs ys).2 := by
  rw [difference, ← h0, firstDifference_map hv]
  rfl

theorem difference_take {xs ys : List ℤ} {n : ℕ} (h : min xs.length ys.length < n) :
    difference (xs.take n) (ys.take n) = difference xs ys := by
  have hl := agreeing_le_left xs ys
  have hr := agreeing_le_right xs ys
  have hn : agreeing xs ys < n := by omega
  rw [difference, firstDifference_take hn]
  rfl

theorem difference_nil_cons (y : ℤ) (ys : List ℤ) : difference [] (y :: ys) = -y := by
  simp [difference, firstDifference]

theorem difference_cons_nil (x : ℤ) (xs : List ℤ) : difference (x :: xs) [] = x := by
  simp [difference, firstDifference]

theorem difference_cons_cons (x y : ℤ) (xs ys : List ℤ) :
    difference (x :: xs) (y :: ys) = if x = y then difference xs ys else x - y := by
  rw [difference, firstDifference]
  split_ifs <;> rfl

theorem difference_map_of_length {α : Type} [DecidableEq α] {v : α → ℤ}
    (hv : Function.Injective v) (z : α) {xs ys : List α} (h : xs.length = ys.length) :
    difference (xs.map v) (ys.map v) =
      v (firstDifference z xs ys).1 - v (firstDifference z xs ys).2 := by
  induction xs generalizing ys with
  | nil =>
    obtain rfl := List.length_eq_zero_iff.mp h.symm
    rw [difference_self, firstDifference_self, sub_self]
  | cons x xs ih =>
    obtain ⟨y, ys, rfl⟩ := List.exists_cons_of_length_eq_add_one h.symm
    rw [List.map_cons, List.map_cons, difference_cons_cons, firstDifference]
    by_cases he : x = y
    · rw [if_pos (congrArg v he), if_pos he]
      exact ih (Nat.succ.inj h)
    · rw [if_neg (hv.ne he), if_neg he]

section Order

variable {xs ys zs : List ℤ}

theorem difference_eq_zero (hx : 0 ∉ xs) (hy : 0 ∉ ys) : difference xs ys = 0 ↔ xs = ys := by
  induction xs generalizing ys with
  | nil =>
    cases ys with
    | nil => simp [difference_self]
    | cons y ys =>
      rw [List.mem_cons, not_or] at hy
      simp [difference_nil_cons, Ne.symm hy.1]
  | cons x xs ih =>
    rw [List.mem_cons, not_or] at hx
    cases ys with
    | nil => simp [difference_cons_nil, Ne.symm hx.1]
    | cons y ys =>
      rw [List.mem_cons, not_or] at hy
      rw [difference_cons_cons]
      split_ifs with h
      · rw [ih hx.2 hy.2, h]
        simp
      · simp [h, sub_eq_zero]

theorem difference_neg (hx : 0 ∉ xs) (hy : 0 ∉ ys) :
    difference xs ys < 0 ↔ xs ++ [0] < ys ++ [0] := by
  induction xs generalizing ys with
  | nil =>
    cases ys with
    | nil => simp [difference_self]
    | cons y ys =>
      rw [List.mem_cons, not_or] at hy
      rw [difference_nil_cons, List.nil_append, List.cons_append, List.cons_lt_cons_iff]
      simp [hy.1]
  | cons x xs ih =>
    rw [List.mem_cons, not_or] at hx
    cases ys with
    | nil =>
      rw [difference_cons_nil, List.nil_append, List.cons_append, List.cons_lt_cons_iff]
      simp [Ne.symm hx.1]
    | cons y ys =>
      rw [List.mem_cons, not_or] at hy
      rw [difference_cons_cons, List.cons_append, List.cons_append, List.cons_lt_cons_iff]
      split_ifs with h
      · rw [ih hx.2 hy.2]
        simp [h]
      · simp [h]

theorem difference_nonpos (hx : 0 ∉ xs) (hy : 0 ∉ ys) :
    difference xs ys ≤ 0 ↔ xs ++ [0] ≤ ys ++ [0] := by
  rw [le_iff_lt_or_eq, le_iff_lt_or_eq, difference_neg hx hy, difference_eq_zero hx hy,
    List.append_left_inj]

theorem difference_trans (hx : 0 ∉ xs) (hy : 0 ∉ ys) (hz : 0 ∉ zs)
    (h : difference xs ys ≤ 0) (h' : difference ys zs ≤ 0) :
    difference xs zs ≤ 0 ∧
      (difference xs ys < 0 ∨ difference ys zs < 0 → difference xs zs < 0) := by
  rw [difference_nonpos hx hy] at h
  rw [difference_nonpos hy hz] at h'
  rw [difference_nonpos hx hz, difference_neg hx hy, difference_neg hy hz, difference_neg hx hz]
  refine ⟨h.trans h', ?_⟩
  rintro (hlt | hlt)
  · exact hlt.trans_le h'
  · exact h.trans_lt hlt

end Order

end OsdevLibstdc.FirstDifferences
