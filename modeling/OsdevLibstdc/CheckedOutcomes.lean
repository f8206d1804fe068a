import OsdevLibstdc.Outcomes

/-!
Two versions of a computation, one of which checks more. The checked one does the same as long
as a condition holds, and fails with an error of its own otherwise.
-/

namespace OsdevLibstdc.Outcomes

variable {ε α β : Type} {e : ε}

theorem bind_ne_error {x : Except ε α} {f : α → Except ε β} (hx : x ≠ .error e)
    (hf : ∀ a, x = .ok a → f a ≠ .error e) : (x >>= f) ≠ .error e := by
  intro h
  rcases bind_eq_error.mp h with h | ⟨a, ha, h⟩
  · exact hx h
  · exact hf a ha h

theorem ok_ne_error (a : α) : (Except.ok a : Except ε α) ≠ .error e := by
  intro h
  cases h

theorem error_ne_error {e' : ε} (h : e' ≠ e) : (Except.error e' : Except ε α) ≠ .error e :=
  fun he => h (Except.error.inj he)

structure Checks (e : ε) (C : Prop) (x y : Except ε α) : Prop where
  clean : x ≠ .error e
  pass : C → y = x
  fail : ¬ C → y = .error e

namespace Checks

variable {C C' : Prop} {x y : Except ε α}

theorem same (h : x ≠ .error e) (hc : C) : Checks e C x x :=
  ⟨h, fun _ => rfl, fun h => absurd hc h⟩

theorem congr (h : Checks e C x y) (hC : C ↔ C') : Checks e C' x y :=
  ⟨h.clean, fun hc => h.pass (hC.mpr hc), fun hc => h.fail fun hc' => hc (hC.mp hc')⟩

theorem bind {f g : α → Except ε β} {P : α → Prop} (h : Checks e C x y)
    (hf : ∀ a, x = .ok a → Checks e (P a) (f a) (g a)) :
    Checks e (C ∧ ∀ a, x = .ok a → P a) (x >>= f) (y >>= g) := by
  refine ⟨bind_ne_error h.clean fun a ha => (hf a ha).clean, ?_, ?_⟩
  · rintro ⟨hc, hp⟩
    rw [h.pass hc]
    cases hx : x with
    | error e' => rfl
    | ok a => exact (hf a hx).pass (hp a hx)
  · intro hcp
    by_cases hc : C
    · have hp : ¬ ∀ a, x = .ok a → P a := fun hp => hcp ⟨hc, hp⟩
      obtain ⟨a, ha⟩ := not_forall.mp hp
      obtain ⟨hx, hpa⟩ := Classical.not_imp.mp ha
      rw [h.pass hc, hx, ok_bind]
      exact (hf a hx).fail hpa
    · rw [h.fail hc]
      rfl

theorem then_same {f : α → Except ε β} (h : Checks e C x y)
    (hf : ∀ a, x = .ok a → f a ≠ .error e) : Checks e C (x >>= f) (y >>= f) :=
  (h.bind fun a ha => same (hf a ha) trivial).congr ⟨And.left, fun hc => ⟨hc, fun _ _ => trivial⟩⟩

theorem after {f g : α → Except ε β} {P : α → Prop} (hx : x ≠ .error e)
    (hf : ∀ a, x = .ok a → Checks e (P a) (f a) (g a)) :
    Checks e (∀ a, x = .ok a → P a) (x >>= f) (x >>= g) :=
  ((same hx trivial).bind hf).congr ⟨And.right, fun hp => ⟨trivial, hp⟩⟩

theorem ne_error_iff (h : Checks e C x y) : y ≠ .error e ↔ C := by
  constructor
  · intro hy
    exact Classical.byContradiction fun hc => hy (h.fail hc)
  · intro hc
    rw [h.pass hc]
    exact h.clean

theorem of_ok (h : Checks e C x y) {a : α} (hy : y = .ok a) : C ∧ x = .ok a := by
  have hc : C := h.ne_error_iff.mp (by rw [hy]; exact ok_ne_error a)
  exact ⟨hc, by rw [← h.pass hc, hy]⟩

end Checks

end OsdevLibstdc.Outcomes
