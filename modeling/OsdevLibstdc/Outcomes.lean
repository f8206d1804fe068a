import Mathlib.Logic.Basic

/-! How `Except` computations compose: results and failures through `bind` and `map`. -/

namespace OsdevLibstdc.Outcomes

variable {ε α β γ : Type}

@[simp] theorem ok_bind (a : α) (f : α → Except ε β) : (Except.ok a >>= f) = f a := rfl

@[simp] theorem error_bind (e : ε) (f : α → Except ε β) :
    (Except.error e >>= f) = .error e := rfl

@[simp] theorem map_ok (a : α) (f : α → β) : f <$> (Except.ok a : Except ε α) = .ok (f a) := rfl

@[simp] theorem map_error (e : ε) (f : α → β) :
    f <$> (Except.error e : Except ε α) = .error e := rfl

theorem pure_eq (a : α) : (pure a : Except ε α) = .ok a := rfl

theorem bind_eq_ok {x : Except ε α} {f : α → Except ε β} {b : β} :
    (x >>= f) = .ok b ↔ ∃ a, x = .ok a ∧ f a = .ok b := by
  cases x with
  | error e => simp
  | ok a => simp

theorem bind_eq_error {x : Except ε α} {f : α → Except ε β} {e : ε} :
    (x >>= f) = .error e ↔ x = .error e ∨ ∃ a, x = .ok a ∧ f a = .error e := by
  cases x with
  | error e' => simp
  | ok a => simp

theorem map_eq_ok {x : Except ε α} {f : α → β} {b : β} :
    f <$> x = .ok b ↔ ∃ a, x = .ok a ∧ f a = b := by
  cases x with
  | error e => simp
  | ok a => simp

theorem map_eq_error {x : Except ε α} {f : α → β} {e : ε} :
    f <$> x = .error e ↔ x = .error e := by
  cases x with
  | error e' => simp
  | ok a => simp

def Ensures (P : α → Prop) (Q : ε → Prop) : Except ε α → Prop
  | .ok a => P a
  | .error e => Q e

section Ensures

variable {P : α → Prop} {P' : β → Prop} {Q : ε → Prop}

theorem Ensures.bind {x : Except ε α} {f : α → Except ε β} (hx : Ensures P Q x)
    (hf : ∀ a, P a → Ensures P' Q (f a)) : Ensures P' Q (x >>= f) := by
  cases x with
  | error e => exact hx
  | ok a => exact hf a hx

theorem Ensures.of_ok {x : Except ε α} (hx : Ensures P Q x) {a : α} (h : x = .ok a) : P a := by
  rw [h] at hx
  exact hx

theorem Ensures.of_error {x : Except ε α} (hx : Ensures P Q x) {e : ε} (h : x = .error e) :
    Q e := by
  rw [h] at hx
  exact hx

end Ensures

end OsdevLibstdc.Outcomes
