import OsdevLibstdc.FirstDifferences
import OsdevLibstdc.Numerals

/-!
Numerals of one length are ordered as their values by the first digit in which they differ.
-/

namespace OsdevLibstdc.Numerals

open FirstDifferences

theorem valueOf_eq (b : ℕ) (ds : List ℕ) : valueOf b ds = Nat.ofDigits b ds.reverse := by
  rw [← valueOf_reverse, List.reverse_reverse]

theorem valueOf_cons (b d : ℕ) (ds : List ℕ) :
    valueOf b (d :: ds) = d * b ^ ds.length + valueOf b ds := by
  rw [valueOf_eq, valueOf_eq, List.reverse_cons, Nat.ofDigits_append, Nat.ofDigits_singleton,
    List.length_reverse, Nat.add_comm, Nat.mul_comm]

theorem valueOf_lt {b : ℕ} (hb : 1 < b) {ds : List ℕ} (h : ∀ d ∈ ds, d < b) :
    valueOf b ds < b ^ ds.length := by
  rw [valueOf_eq, ← List.length_reverse]
  apply Nat.ofDigits_lt_base_pow_length hb
  intro d hd
  exact h d (List.mem_reverse.mp hd)

theorem valueOf_cons_lt {b d e : ℕ} (hb : 1 < b) {ds es : List ℕ} (hl : ds.length = es.length)
    (hds : ∀ x ∈ ds, x < b) (h : d < e) : valueOf b (d :: ds) < valueOf b (e :: es) := by
  have hlt := valueOf_lt hb hds
  have hle : (d + 1) * b ^ ds.length ≤ e * b ^ ds.length := Nat.mul_le_mul_right _ h
  rw [Nat.add_mul, Nat.one_mul] at hle
  rw [valueOf_cons, valueOf_cons, ← hl]
  omega

theorem difference_sign {b : ℕ} (hb : 1 < b) {v : ℕ → ℤ}
    (hv : ∀ d e, d < b → e < b → (v d - v e).sign = ((d : ℤ) - e).sign) {ds es : List ℕ}
    (hl : ds.length = es.length) (hds : ∀ d ∈ ds, d < b) (hes : ∀ e ∈ es, e < b) :
    (difference (ds.map v) (es.map v)).sign =
      ((valueOf b ds : ℤ) - (valueOf b es : ℤ)).sign := by
  induction ds generalizing es with
  | nil =>
    obtain rfl := List.length_eq_zero_iff.mp hl.symm
    simp [difference_self]
  | cons d ds ih =>
    obtain ⟨e, es, rfl⟩ := List.exists_cons_of_length_eq_add_one hl.symm
    obtain ⟨hd, hds'⟩ := List.forall_mem_cons.mp hds
    obtain ⟨he, hes'⟩ := List.forall_mem_cons.mp hes
    have hlen : ds.length = es.length := Nat.succ.inj hl
    have hsign := hv d e hd he
    rw [List.map_cons, List.map_cons, difference_cons_cons]
    rcases Nat.lt_trichotomy d e with hlt | rfl | hgt
    · have hvalue := valueOf_cons_lt hb hlen hds' hlt
      have hneg : ((d : ℤ) - e).sign = -1 := Int.sign_eq_neg_one_of_neg (by omega)
      rw [hneg] at hsign
      rw [if_neg (fun h => by rw [h, sub_self, Int.sign_zero] at hsign; omega), hsign, eq_comm]
      exact Int.sign_eq_neg_one_of_neg (by omega)
    · rw [if_pos rfl, ih hlen hds' hes', valueOf_cons, valueOf_cons, hlen]
      congr 1
      push_cast
      omega
    · have hvalue := valueOf_cons_lt hb hlen.symm hes' hgt
      have hpos : ((d : ℤ) - e).sign = 1 := Int.sign_eq_one_of_pos (by omega)
      rw [hpos] at hsign
      rw [if_neg (fun h => by rw [h, sub_self, Int.sign_zero] at hsign; omega), hsign, eq_comm]
      exact Int.sign_eq_one_of_pos (by omega)

theorem difference_around (ws zs : List ℤ) {xs ys : List ℤ} (hl : xs.length = ys.length) :
    difference (ws ++ (xs ++ zs)) (ws ++ (ys ++ zs)) = difference xs ys := by
  induction ws with
  | nil =>
    rw [List.nil_append, List.nil_append]
    induction xs generalizing ys with
    | nil =>
      obtain rfl := List.length_eq_zero_iff.mp hl.symm
      rw [List.nil_append, difference_self, difference_self]
    | cons x xs ih =>
      obtain ⟨y, ys, rfl⟩ := List.exists_cons_of_length_eq_add_one hl.symm
      rw [List.cons_append, List.cons_append, difference_cons_cons, difference_cons_cons,
        ih (Nat.succ.inj hl)]
  | cons w ws ih => rw [List.cons_append, List.cons_append, difference_cons_cons, if_pos rfl, ih]

end OsdevLibstdc.Numerals
