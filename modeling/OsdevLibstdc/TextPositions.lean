import Mathlib.Data.List.TakeWhile
import Mathlib.Order.Bounds.Basic

/-!
The first and the last position of a text at which something is found, if it is found at all,
and the longest prefix of a text whose elements all satisfy a predicate.
-/

namespace OsdevLibstdc.TextPositions

inductive First (S : Set ℕ) : Option ℕ → Prop
  | found {i : ℕ} : IsLeast S i → First S (some i)
  | missing : S = ∅ → First S none

inductive Last (S : Set ℕ) : Option ℕ → Prop
  | found {i : ℕ} : IsGreatest S i → Last S (some i)
  | missing : S = ∅ → Last S none

section Results

variable {S T : Set ℕ} {r r' : Option ℕ}

theorem First.eq_none_iff (h : First S r) : r = none ↔ S = ∅ := by
  cases h with
  | found hi => exact iff_of_false (Option.some_ne_none _) (Set.Nonempty.ne_empty ⟨_, hi.1⟩)
  | missing he => exact iff_of_true rfl he

theorem Last.eq_none_iff (h : Last S r) : r = none ↔ S = ∅ := by
  cases h with
  | found hi => exact iff_of_false (Option.some_ne_none _) (Set.Nonempty.ne_empty ⟨_, hi.1⟩)
  | missing he => exact iff_of_true rfl he

theorem First.unique (h : First S r) (h' : First S r') : r = r' := by
  cases h with
  | missing he => exact (h'.eq_none_iff.mpr he).symm
  | found hi =>
    cases h' with
    | missing he => exact absurd he (Set.Nonempty.ne_empty ⟨_, hi.1⟩)
    | found hi' => rw [hi.unique hi']

theorem Last.unique (h : Last S r) (h' : Last S r') : r = r' := by
  cases h with
  | missing he => exact (h'.eq_none_iff.mpr he).symm
  | found hi =>
    cases h' with
    | missing he => exact absurd he (Set.Nonempty.ne_empty ⟨_, hi.1⟩)
    | found hi' => rw [hi.unique hi']

theorem First.zero (h : 0 ∈ S) : First S (some 0) := .found ⟨h, fun i _ => Nat.zero_le i⟩

theorem First.shift (h : First T r) (h0 : 0 ∉ S) (hs : ∀ i, i + 1 ∈ S ↔ i ∈ T) :
    First S (r.map (· + 1)) := by
  cases h with
  | found hi =>
    refine .found ⟨(hs _).mpr hi.1, ?_⟩
    intro j hj
    cases j with
    | zero => exact absurd hj h0
    | succ j => exact Nat.succ_le_succ (hi.2 ((hs j).mp hj))
  | missing he =>
    apply First.missing
    apply Set.eq_empty_iff_forall_notMem.mpr
    intro j hj
    cases j with
    | zero => exact h0 hj
    | succ j => exact Set.eq_empty_iff_forall_notMem.mp he j ((hs j).mp hj)

end Results

section Elements

variable {α : Type} {a x : α} {xs : List α} {r : Option ℕ}

def positions (a : α) (xs : List α) : Set ℕ := {i | xs[i]? = some a}

theorem mem_positions {i : ℕ} : i ∈ positions a xs ↔ xs[i]? = some a := Iff.rfl

theorem lt_of_mem_positions {i : ℕ} (h : i ∈ positions a xs) : i < xs.length :=
  (List.getElem?_eq_some_iff.mp h).1

theorem positions_eq_empty : positions a xs = ∅ ↔ a ∉ xs := by
  rw [Set.eq_empty_iff_forall_notMem, List.mem_iff_getElem?, not_exists]
  exact Iff.rfl

theorem positions_nil (a : α) : positions a [] = ∅ := positions_eq_empty.mpr List.not_mem_nil

theorem mem_positions_concat {i : ℕ} :
    i ∈ positions a (xs ++ [x]) ↔ i ∈ positions a xs ∨ i = xs.length ∧ x = a := by
  rw [mem_positions, mem_positions, List.getElem?_append]
  split_ifs with h
  · have hne : i ≠ xs.length := Nat.ne_of_lt h
    simp [hne]
  · rw [List.getElem?_eq_none (Nat.not_lt.mp h)]
    rcases Nat.eq_or_lt_of_le (Nat.not_lt.mp h) with he | hlt
    · simp [he]
    · have hsub : i - xs.length ≠ 0 := by omega
      have hne : i ≠ xs.length := Nat.ne_of_gt hlt
      simp [hsub, hne]

theorem first_cons_self (a : α) (xs : List α) : First (positions a (a :: xs)) (some 0) :=
  .zero rfl

theorem first_cons (hx : x ≠ a) (h : First (positions a xs) r) :
    First (positions a (x :: xs)) (r.map (· + 1)) := by
  apply h.shift
  · intro h0
    exact hx (Option.some.inj h0)
  · intro i
    exact Iff.rfl

theorem last_concat_self (a : α) (xs : List α) :
    Last (positions a (xs ++ [a])) (some xs.length) := by
  refine .found ⟨mem_positions_concat.mpr (.inr ⟨rfl, rfl⟩), ?_⟩
  intro i hi
  have := lt_of_mem_positions hi
  rw [List.length_append, List.length_singleton] at this
  omega

theorem last_concat (hx : x ≠ a) (h : Last (positions a xs) r) :
    Last (positions a (xs ++ [x])) r := by
  have hset : positions a (xs ++ [x]) = positions a xs := by
    ext i
    rw [mem_positions_concat]
    exact or_iff_left fun h => hx h.2
  rw [hset]
  exact h

theorem first_idxOf? [DecidableEq α] (a : α) (xs : List α) :
    First (positions a xs) (xs.idxOf? a) := by
  induction xs with
  | nil => exact .missing (positions_nil a)
  | cons x xs ih =>
    rw [List.idxOf?_cons]
    by_cases hx : x = a
    · rw [hx]
      simpa using first_cons_self a xs
    · rw [if_neg (by simpa using hx)]
      exact first_cons hx ih

section Maps

variable {β : Type} {f : α → β} {g : β → α}

theorem positions_map (hf : Function.Injective f) (a : α) (xs : List α) :
    positions (f a) (xs.map f) = positions a xs := by
  ext i
  rw [mem_positions, mem_positions, List.getElem?_map, Option.map_eq_some_iff]
  constructor
  · rintro ⟨x, hx, he⟩
    rwa [hf he] at hx
  · intro h
    exact ⟨a, h, rfl⟩

theorem positions_map_eq_empty (hg : Function.LeftInverse g f) {c : β} (hc : f (g c) ≠ c)
    (xs : List α) : positions c (xs.map f) = ∅ := by
  apply positions_eq_empty.mpr
  intro hmem
  obtain ⟨x, -, rfl⟩ := List.mem_map.mp hmem
  exact hc (congrArg f (hg x))

theorem positions_map_eq (hg : Function.LeftInverse g f) {c : β} (h : f (g c) = c ∨ g c ∉ xs) :
    positions c (xs.map f) = positions (g c) xs := by
  by_cases hc : f (g c) = c
  · calc positions c (xs.map f) = positions (f (g c)) (xs.map f) := by rw [hc]
      _ = positions (g c) xs := positions_map hg.injective (g c) xs
  · rw [positions_map_eq_empty hg hc, positions_eq_empty.mpr (h.resolve_left hc)]

end Maps

theorem mem_positions_reverse {i : ℕ} (hi : i < xs.length) :
    xs.length - 1 - i ∈ positions a xs.reverse ↔ i ∈ positions a xs := by
  rw [mem_positions, mem_positions, List.getElem?_reverse (by omega)]
  have he : xs.length - 1 - (xs.length - 1 - i) = i := by omega
  rw [he]

theorem exists_of_mem_positions_reverse {j : ℕ} (hj : j ∈ positions a xs.reverse) :
    j < xs.length ∧ xs.length - 1 - j ∈ positions a xs := by
  have hlt := lt_of_mem_positions hj
  rw [List.length_reverse] at hlt
  refine ⟨hlt, ?_⟩
  rwa [mem_positions, ← List.getElem?_reverse hlt]

theorem last_reverse (h : First (positions a xs) r) :
    Last (positions a xs.reverse) (r.map (xs.length - 1 - ·)) := by
  cases h with
  | @found i hi =>
    refine .found ⟨(mem_positions_reverse (lt_of_mem_positions hi.1)).mpr hi.1, ?_⟩
    intro j hj
    obtain ⟨hlt, hmirror⟩ := exists_of_mem_positions_reverse hj
    have := hi.2 hmirror
    change j ≤ xs.length - 1 - i
    omega
  | missing he =>
    apply Last.missing
    rw [positions_eq_empty] at he ⊢
    rwa [List.mem_reverse]

theorem first_reverse (h : Last (positions a xs) r) :
    First (positions a xs.reverse) (r.map (xs.length - 1 - ·)) := by
  cases h with
  | @found i hi =>
    refine .found ⟨(mem_positions_reverse (lt_of_mem_positions hi.1)).mpr hi.1, ?_⟩
    intro j hj
    obtain ⟨hlt, hmirror⟩ := exists_of_mem_positions_reverse hj
    have := hi.2 hmirror
    change xs.length - 1 - i ≤ j
    omega
  | missing he =>
    apply First.missing
    rw [positions_eq_empty] at he ⊢
    rwa [List.mem_reverse]

end Elements

section Prefixes

variable {α : Type} (p : α → Bool) (xs : List α)

theorem isGreatest_takeWhile :
    IsGreatest {k | k ≤ xs.length ∧ ∀ x ∈ xs.take k, p x} (xs.takeWhile p).length := by
  constructor
  · refine ⟨(List.takeWhile_prefix p).length_le, ?_⟩
    intro x hx
    rw [← List.prefix_iff_eq_take.mp (List.takeWhile_prefix p)] at hx
    exact List.mem_takeWhile_imp hx
  · rintro k ⟨hk, hall⟩
    have hsplit : xs.takeWhile p = xs.take k ++ (xs.drop k).takeWhile p := by
      rw [← List.takeWhile_append_of_pos hall, List.take_append_drop]
    rw [hsplit, List.length_append, List.length_take_of_le hk]
    exact Nat.le_add_right _ _

end Prefixes

end OsdevLibstdc.TextPositions
