import Mathlib.Data.Nat.Digits.Lemmas

/-! Numerals in any radix, most significant digit first, and the values of strings of digits. -/

namespace OsdevLibstdc.Numerals

def numeral (b n : ℕ) : List ℕ := if n = 0 then [0] else (Nat.digits b n).reverse

def valueOf (b : ℕ) (ds : List ℕ) : ℕ := ds.foldl (fun v d => v * b + d) 0

section Values

variable (b : ℕ)

theorem valueOf_reverse (ds : List ℕ) : valueOf b ds.reverse = Nat.ofDigits b ds := by
  rw [valueOf, List.foldl_reverse, Nat.ofDigits_eq_foldr]
  congr 1
  funext d v
  simp only [Nat.cast_id]
  rw [Nat.mul_comm, Nat.add_comm]

theorem valueOf_zeros (k : ℕ) (ds : List ℕ) : valueOf b (List.replicate k 0 ++ ds) = valueOf b ds := by
  induction k with
  | zero => rfl
  | succ k ih =>
    rw [← ih, List.replicate_succ, List.cons_append, valueOf, List.foldl_cons, Nat.zero_mul]
    rfl

theorem valueOf_numeral (n : ℕ) : valueOf b (numeral b n) = n := by
  unfold numeral
  split_ifs with h
  · rw [h]
    simp [valueOf]
  · rw [valueOf_reverse, Nat.ofDigits_digits]

end Values

section Digits

variable {b n : ℕ}

theorem numeral_ne_nil (b n : ℕ) : numeral b n ≠ [] := by
  unfold numeral
  split_ifs with h
  · simp
  · simpa [Nat.digits_ne_nil_iff_ne_zero] using h

theorem numeral_lt (hb : 1 < b) {d : ℕ} (hd : d ∈ numeral b n) : d < b := by
  unfold numeral at hd
  split_ifs at hd
  · rw [List.mem_singleton.mp hd]
    omega
  · exact Nat.digits_lt_base hb (List.mem_reverse.mp hd)

theorem numeral_length_le (hb : 1 < b) {k : ℕ} (hk : 0 < k) (hn : n < b ^ k) :
    (numeral b n).length ≤ k := by
  unfold numeral
  split_ifs
  · exact hk
  · rw [List.length_reverse]
    exact (Nat.digits_length_le_iff hb n).mpr hn

theorem numeral_head (hn : n ≠ 0) : ∀ d ∈ (numeral b n).head?, d ≠ 0 := by
  intro d hd
  rw [numeral, if_neg hn, List.head?_reverse] at hd
  have hne : Nat.digits b n ≠ [] := Nat.digits_ne_nil_iff_ne_zero.mpr hn
  rw [List.getLast?_eq_some_getLast hne, Option.mem_some_iff] at hd
  rw [← hd]
  exact Nat.getLast_digit_ne_zero b hn

end Digits

end OsdevLibstdc.Numerals
