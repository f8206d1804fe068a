import Mathlib.Data.Nat.Notation
import OsdevLibstdc.Outcomes

/-!
Loops as a body that goes on with a new state or stops with a result, run on fuel. A loop is
proved with an invariant of its states and a variant, which also bounds the fuel it needs.
-/

namespace OsdevLibstdc.FueledLoops

open Outcomes

inductive Next (σ β : Type)
  | again (s : σ)
  | stop (b : β)
deriving Repr, DecidableEq

variable {ε σ β : Type}

def run (exhausted : ε) (body : σ → Except ε (Next σ β)) : ℕ → σ → Except ε β
  | 0, _ => .error exhausted
  | fuel + 1, s => do
    match ← body s with
    | .again s => run exhausted body fuel s
    | .stop b => return b

inductive After (body : σ → Except ε (Next σ β)) : ℕ → σ → σ → Prop
  | start (s : σ) : After body 0 s s
  | round {n : ℕ} {s t u : σ} : After body n s t → body t = .ok (.again u) → After body (n + 1) s u

variable {exhausted : ε} {body : σ → Except ε (Next σ β)}

theorem run_again {fuel : ℕ} {s t : σ} (h : body s = .ok (.again t)) :
    run exhausted body (fuel + 1) s = run exhausted body fuel t := by
  rw [run, h, ok_bind]

theorem run_stop {fuel : ℕ} {s : σ} {b : β} (h : body s = .ok (.stop b)) :
    run exhausted body (fuel + 1) s = .ok b := by
  rw [run, h, ok_bind]
  rfl

theorem After.invariant {I : ℕ → σ → Prop} {n : ℕ} {s t : σ} (h : After body n s t) (h0 : I 0 s)
    (hround : ∀ n t u, I n t → body t = .ok (.again u) → I (n + 1) u) : I n t := by
  induction h with
  | start s => exact h0
  | round _ hbody ih => exact hround _ _ _ (ih h0) hbody

theorem run_ok {I : σ → Prop} {Q : β → Prop} (variant : σ → ℕ)
    (hround : ∀ s, I s → (∃ t, body s = .ok (.again t) ∧ I t ∧ variant t < variant s) ∨
      ∃ b, body s = .ok (.stop b) ∧ Q b) {fuel : ℕ} {s : σ} (hs : I s) (hf : variant s < fuel) :
    ∃ b, run exhausted body fuel s = .ok b ∧ Q b := by
  induction fuel generalizing s with
  | zero => exact absurd hf (Nat.not_lt_zero _)
  | succ fuel ih =>
    rcases hround s hs with ⟨t, hbody, ht, hlt⟩ | ⟨b, hbody, hb⟩
    · obtain ⟨b, hrun, hb⟩ := ih ht (Nat.lt_of_lt_of_le hlt (Nat.le_of_lt_succ hf))
      exact ⟨b, (run_again hbody).trans hrun, hb⟩
    · exact ⟨b, run_stop hbody, hb⟩

end OsdevLibstdc.FueledLoops
