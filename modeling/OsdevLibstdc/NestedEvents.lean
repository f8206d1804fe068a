import Mathlib.Data.List.Basic

/-!
Traces of opening and closing events that nest like brackets, each with a label. A trace is read
with a stack of the labels that are open.
-/

namespace OsdevLibstdc.NestedEvents

inductive Event (α : Type)
  | opened (a : α)
  | closed (a : α)
deriving Repr, DecidableEq

variable {α : Type}

inductive Balanced : List (Event α) → Prop
  | nil : Balanced []
  | append {xs ys : List (Event α)} (a b : α) : Balanced xs → Balanced ys →
      Balanced (xs ++ .opened a :: (ys ++ [.closed b]))

variable [DecidableEq α]

def openAfter : List α → List (Event α) → Option (List α)
  | st, [] => some st
  | st, .opened a :: xs => openAfter (a :: st) xs
  | [], .closed _ :: _ => none
  | a :: st, .closed b :: xs => if a = b then openAfter st xs else none

section Traces

variable {st st' : List α} {xs ys : List (Event α)} {a b : α}

theorem openAfter_append (st : List α) (xs ys : List (Event α)) :
    openAfter st (xs ++ ys) = (openAfter st xs).bind (openAfter · ys) := by
  induction xs generalizing st with
  | nil => rfl
  | cons x xs ih =>
    cases x with
    | opened a => exact ih (a :: st)
    | closed b =>
      cases st with
      | nil => rfl
      | cons a st =>
        rw [List.cons_append, openAfter, openAfter]
        split_ifs
        · exact ih st
        · rfl

theorem openAfter_append_eq_some : openAfter st (xs ++ ys) = some st' ↔
    ∃ mid, openAfter st xs = some mid ∧ openAfter mid ys = some st' := by
  rw [openAfter_append, Option.bind_eq_some_iff]

theorem openAfter_closed : openAfter st [.closed b] = some st' ↔ st = b :: st' := by
  cases st with
  | nil => simp [openAfter]
  | cons a st =>
    rw [openAfter]
    split_ifs with h <;> simp [openAfter, h]

theorem openAfter_opened (st : List α) (a : α) (xs : List (Event α)) :
    openAfter st (.opened a :: xs) = openAfter (a :: st) xs := by
  rw [openAfter]

theorem Balanced.openAfter (h : Balanced xs) (hx : openAfter st xs = some st') : st' = st := by
  induction h generalizing st st' with
  | nil => exact (Option.some.inj hx).symm
  | append a b _ _ ihx ihy =>
    obtain ⟨mid, hmid, hrest⟩ := openAfter_append_eq_some.mp hx
    rw [openAfter_opened] at hrest
    obtain ⟨mid', hmid', hlast⟩ := openAfter_append_eq_some.mp hrest
    obtain rfl := ihx hmid
    obtain rfl := ihy hmid'
    exact (List.cons.inj (openAfter_closed.mp hlast)).2.symm

theorem exists_opened (h : openAfter [] xs = some (a :: st)) :
    ∃ ys zs, xs = ys ++ .opened a :: zs ∧ Balanced zs ∧ openAfter [] ys = some st := by
  induction hn : xs.length using Nat.strongRecOn generalizing xs a st with
  | _ n ih =>
    subst hn
    rcases List.eq_nil_or_concat' xs with rfl | ⟨xs, x, rfl⟩
    · cases h
    · obtain ⟨mid, hmid, hlast⟩ := openAfter_append_eq_some.mp h
      rw [List.length_append, List.length_singleton] at ih
      cases x with
      | opened b =>
        obtain ⟨rfl, rfl⟩ := List.cons.inj (Option.some.inj hlast)
        exact ⟨xs, [], rfl, .nil, hmid⟩
      | closed b =>
        rw [openAfter_closed.mp hlast] at hmid
        obtain ⟨ys, zs, rfl, hzs, hys⟩ := ih _ (Nat.lt_succ_self _) hmid rfl
        have hlt : ys.length < (ys ++ .opened b :: zs).length + 1 := by
          rw [List.length_append]
          omega
        obtain ⟨us, vs, rfl, hvs, hus⟩ := ih _ hlt hys rfl
        refine ⟨us, vs ++ .opened b :: (zs ++ [.closed b]), ?_, .append b b hvs hzs, hus⟩
        simp only [List.append_assoc, List.cons_append]

theorem exists_matching {ws : List (Event α)} (h : openAfter [] (xs ++ .closed b :: ws) = some st) :
    ∃ ys zs, xs = ys ++ .opened b :: zs ∧ Balanced zs := by
  obtain ⟨mid, hmid, hrest⟩ := openAfter_append_eq_some.mp h
  rw [← List.singleton_append] at hrest
  obtain ⟨mid', hclosed, -⟩ := openAfter_append_eq_some.mp hrest
  rw [openAfter_closed.mp hclosed] at hmid
  obtain ⟨ys, zs, hxs, hzs, -⟩ := exists_opened hmid
  exact ⟨ys, zs, hxs, hzs⟩

theorem matching_eq {ws : List (Event α)}
    (h : openAfter [] (xs ++ .opened a :: (ys ++ .closed b :: ws)) = some st)
    (hys : Balanced ys) : b = a := by
  obtain ⟨mid, -, hrest⟩ := openAfter_append_eq_some.mp h
  rw [openAfter_opened] at hrest
  obtain ⟨mid', hmid', hrest⟩ := openAfter_append_eq_some.mp hrest
  rw [← List.singleton_append] at hrest
  obtain ⟨mid'', hclosed, -⟩ := openAfter_append_eq_some.mp hrest
  rw [hys.openAfter hmid'] at hclosed
  exact (List.cons.inj (openAfter_closed.mp hclosed)).1.symm

end Traces

end OsdevLibstdc.NestedEvents
