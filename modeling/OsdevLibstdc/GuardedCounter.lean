import Mathlib.Algebra.BigOperators.Group.Finset.Basic
import Mathlib.Data.Fintype.Card
import OsdevLibstdc.SpinLock

/-!
The workers of the lock's tests and benchmarks: each increments a shared counter, which is not
atomic, a number of times under a `lock_guard`.
-/

namespace OsdevLibstdc.Dux.CounterIncrement

open TransitionSystems

/-- `reading` is in front of the load of `++counter` and `writing` in front of its store. -/
inductive Phase
  | head
  | loading
  | exchanging
  | reading
  | writing (read : UInt64)
  | unlocking
deriving Repr, DecidableEq

structure Worker where
  iteration : ℕ := 0
  phase : Phase := .head
deriving Repr, DecidableEq

structure Shared where
  value : ℤ := kFree
  counter : UInt64 := 0

inductive WorkerStep (kIterations : ℕ) : Shared → Worker → Shared → Worker → Prop
  | lockGuard (g) {i : ℕ} : i < kIterations → WorkerStep kIterations g ⟨i, .head⟩ g ⟨i, .loading⟩
  | load (g : Shared) (i) : WorkerStep kIterations g ⟨i, .loading⟩
      g ⟨i, if g.value = kLocked then .loading else .exchanging⟩
  | exchange (g : Shared) (i) {v : ℤ} :
      compareExchangeStrong g.value kFree kLocked = (true, v) →
      WorkerStep kIterations g ⟨i, .exchanging⟩ { g with value := v } ⟨i, .reading⟩
  | exchangeFails (g : Shared) (i) {v : ℤ} :
      compareExchangeStrong g.value kFree kLocked = (false, v) →
      WorkerStep kIterations g ⟨i, .exchanging⟩ { g with value := v } ⟨i, .loading⟩
  | read (g : Shared) (i) :
      WorkerStep kIterations g ⟨i, .reading⟩ g ⟨i, .writing g.counter⟩
  | write (g : Shared) (i) (v : UInt64) : WorkerStep kIterations g ⟨i, .writing v⟩
      { g with counter := v + 1 } ⟨i, .unlocking⟩
  | unlock (g : Shared) (i) : WorkerStep kIterations g ⟨i, .unlocking⟩
      { g with value := kFree } ⟨i + 1, .head⟩

def workers (kIterations : ℕ) (Thread : Type) [DecidableEq Thread] :
    System (Config Thread Shared Worker) :=
  interleave (fun g => g = {}) (fun l => l = {}) (WorkerStep kIterations)

namespace Worker

def lockLocal (l : Worker) : Local :=
  match l.phase with
  | .head => ⟨.outside, false⟩
  | .loading => ⟨.load, false⟩
  | .exchanging => ⟨.exchange, false⟩
  | .reading | .writing _ | .unlocking => ⟨.outside, true⟩

def stored (l : Worker) : ℕ := if l.phase = .unlocking then l.iteration + 1 else l.iteration

end Worker

variable {kIterations : ℕ} {Thread : Type} [DecidableEq Thread]
  {s t : Config Thread Shared Worker}

def lockConfig (s : Config Thread Shared Worker) : Config Thread ℤ Local :=
  ⟨s.shared.value, fun θ => (s.locals θ).lockLocal⟩

theorem lockConfig_move (s : Config Thread Shared Worker) (θ : Thread) (g : Shared)
    (l : Worker) : lockConfig (s.move θ g l) = (lockConfig s).move θ g.value l.lockLocal := by
  unfold lockConfig Config.move
  congr 1
  funext θ'
  by_cases he : θ' = θ
  · subst he
    simp only [Function.update_self]
  · simp only [Function.update_of_ne he]

theorem WorkerStep.lockSteps {g g' : Shared} {l l' : Worker}
    (h : WorkerStep kIterations g l g' l') :
    Relation.ReflTransGen (fun p q => LockStep p.1 p.2 q.1 q.2)
      (g.value, l.lockLocal) (g'.value, l'.lockLocal) := by
  cases h with
  | lockGuard => exact .single (LockStep.callLock g.value false)
  | load =>
    apply Relation.ReflTransGen.single
    have h := LockStep.load g.value false
    simp only [Worker.lockLocal]
    split_ifs at h ⊢ <;> exact h
  | exchange i hx =>
    rename_i v
    refine .tail (b := (v, ⟨.lockReturn, true⟩)) (.single ?_) ?_
    · exact LockStep.exchange g.value false hx
    · exact LockStep.lockReturn _ true
  | exchangeFails i hx => exact .single (LockStep.exchange g.value false hx)
  | read => exact .refl
  | write => exact .refl
  | unlock i =>
    refine .tail (b := (g.value, ⟨.store, true⟩)) (.single ?_) ?_
    · exact LockStep.callUnlock g.value
    · exact LockStep.store _ true

theorem lockConfig_reachable (h : Reachable (workers kIterations Thread) s) :
    Reachable (spinLock Thread) (lockConfig s) := by
  apply h.simulate
  · rintro s ⟨hg, hl⟩
    constructor
    · simp only [lockConfig, hg]
    · intro θ
      simp only [lockConfig, Worker.lockLocal, hl θ]
  · rintro s t ⟨θ, g, l, hstep, rfl⟩
    rw [lockConfig_move]
    exact interleave_steps (lockConfig s) θ hstep.lockSteps

def Fresh (counter : UInt64) (l : Worker) : Prop := ∀ v, l.phase = .writing v → v = counter

theorem fresh_of_ne {counter : UInt64} {l : Worker} (h : ∀ v, l.phase ≠ .writing v) :
    Fresh counter l := fun v hv => absurd hv (h v)

theorem fresh_step (hr : Reachable (workers kIterations Thread) s)
    (hs : ∀ θ, Fresh s.shared.counter (s.locals θ))
    (hstep : (workers kIterations Thread).step s t) :
    ∀ θ, Fresh t.shared.counter (t.locals θ) := by
  obtain ⟨θ, g, l, hstep, rfl⟩ := hstep
  have hunique := (invariant_reachable (lockConfig_reachable hr)).owned.unique
  generalize hold : s.locals θ = old at hstep
  generalize hshared : s.shared = shared at hstep hs
  have hothers (θ' : Thread) (_ : θ' ≠ θ) : Fresh shared.counter (s.locals θ') := hs θ'
  cases hstep with
  | read =>
    refine Config.forall_move (P := fun _ => Fresh _) hothers ?_
    rintro v ⟨⟩
    rfl
  | write i v =>
    apply Config.forall_move (P := fun _ => Fresh (v + 1))
    · intro θ' hne w hw
      have heq : θ' = θ := by
        apply hunique
        · simp only [lockConfig, Worker.lockLocal, hw]
        · simp only [lockConfig, Worker.lockLocal, hold]
      exact absurd heq hne
    · exact fresh_of_ne fun w => by rintro ⟨⟩
  | load i =>
    refine Config.forall_move (P := fun _ => Fresh _) hothers (fresh_of_ne ?_)
    intro v
    simp only
    split_ifs <;> rintro ⟨⟩
  | _ =>
    refine Config.forall_move (P := fun _ => Fresh _) hothers (fresh_of_ne ?_)
    rintro v ⟨⟩

theorem fresh_reachable (h : Reachable (workers kIterations Thread) s) :
    ∀ θ, Fresh s.shared.counter (s.locals θ) := by
  apply h.invariant (I := fun s => ∀ θ, Fresh s.shared.counter (s.locals θ))
  · rintro s ⟨-, hl⟩ θ
    rw [hl θ]
    exact fresh_of_ne fun v => by rintro ⟨⟩
  · intro s t hr hs hstep
    exact fresh_step hr hs hstep

theorem WorkerStep.stored {g g' : Shared} {l l' : Worker} (h : WorkerStep kIterations g l g' l')
    (hl : Fresh g.counter l) :
    g'.counter = g.counter ∧ l'.stored = l.stored ∨
      g'.counter = g.counter + 1 ∧ l'.stored = l.stored + 1 := by
  cases h with
  | write i v =>
    right
    rw [hl v rfl]
    exact ⟨rfl, rfl⟩
  | load i =>
    refine .inl ⟨rfl, ?_⟩
    simp only [Worker.stored]
    split_ifs <;> rfl
  | _ => exact .inl ⟨rfl, rfl⟩

section Count

variable [Fintype Thread]

theorem sum_move (f : Worker → ℕ) (θ : Thread) (g : Shared) (l : Worker) :
    ∑ θ', f ((s.move θ g l).locals θ') + f (s.locals θ) = ∑ θ', f (s.locals θ') + f l := by
  have hrest : ∑ θ' ∈ Finset.univ.erase θ, f ((s.move θ g l).locals θ') =
      ∑ θ' ∈ Finset.univ.erase θ, f (s.locals θ') := by
    apply Finset.sum_congr rfl
    intro θ' hθ'
    rw [Config.move_other (Finset.ne_of_mem_erase hθ')]
  rw [← Finset.sum_erase_add _ _ (Finset.mem_univ θ), hrest, Config.move_self,
    ← Finset.sum_erase_add _ (fun θ' => f (s.locals θ')) (Finset.mem_univ θ)]
  omega

theorem counter_reachable (h : Reachable (workers kIterations Thread) s) :
    s.shared.counter = UInt64.ofNat (∑ θ, (s.locals θ).stored) := by
  apply h.invariant (I := fun s => s.shared.counter = UInt64.ofNat (∑ θ, (s.locals θ).stored))
  · rintro s ⟨hg, hl⟩
    have hzero (θ : Thread) : (s.locals θ).stored = 0 := by
      rw [hl θ]
      rfl
    rw [hg, Finset.sum_congr rfl fun θ _ => hzero θ, Finset.sum_const_zero]
    rfl
  · rintro s t hr hs ⟨θ, g, l, hstep, rfl⟩
    have hfresh := fresh_reachable hr θ
    have hsum := sum_move (s := s) Worker.stored θ g l
    obtain ⟨hcounter, hstored⟩ | ⟨hcounter, hstored⟩ := hstep.stored hfresh
    · rw [hstored, Nat.add_right_cancel_iff] at hsum
      rw [Config.move_shared, hcounter, hsum]
      exact hs
    · have hsucc : ∑ θ', ((s.move θ g l).locals θ').stored =
          ∑ θ', (s.locals θ').stored + 1 := by
        omega
      rw [Config.move_shared, hcounter, hsucc, UInt64.ofNat_add, ← hs]
      rfl

theorem workers_counter (h : Reachable (workers kIterations Thread) s)
    (hdone : ∀ θ, s.locals θ = ⟨kIterations, .head⟩) :
    s.shared.counter = UInt64.ofNat (Fintype.card Thread * kIterations) := by
  rw [counter_reachable h]
  congr 1
  have hstored (θ : Thread) : (s.locals θ).stored = kIterations := by
    rw [hdone θ]
    rfl
  rw [Finset.sum_const_nat fun θ _ => hstored θ, Finset.card_univ]

theorem workers_counter_contended : ∃ s : Config Bool Shared Worker,
    s.shared.counter = UInt64.ofNat (Fintype.card Bool * 1) := by
  have h0 : Reachable (workers 1 Bool) ⟨{}, fun _ => {}⟩ := .init ⟨rfl, fun _ => rfl⟩
  have h1 := h0.step ⟨true, _, _, .lockGuard _ (by decide), rfl⟩
  have h2 := h1.step ⟨true, _, _, .load _ _, rfl⟩
  have h3 := h2.step ⟨false, _, _, .lockGuard _ (by decide), rfl⟩
  have h4 := h3.step ⟨false, _, _, .load _ _, rfl⟩
  have h5 := h4.step ⟨true, _, _, .exchange _ _ rfl, rfl⟩
  have h6 := h5.step ⟨true, _, _, .read _ _, rfl⟩
  have h7 := h6.step ⟨false, _, _, .exchangeFails _ _ rfl, rfl⟩
  have h8 := h7.step ⟨true, _, _, .write _ _ _, rfl⟩
  have h9 := h8.step ⟨true, _, _, .unlock _ _, rfl⟩
  have h10 := h9.step ⟨false, _, _, .load _ _, rfl⟩
  have h11 := h10.step ⟨false, _, _, .exchange _ _ rfl, rfl⟩
  have h12 := h11.step ⟨false, _, _, .read _ _, rfl⟩
  have h13 := h12.step ⟨false, _, _, .write _ _ _, rfl⟩
  have h14 := h13.step ⟨false, _, _, .unlock _ _, rfl⟩
  exact ⟨_, workers_counter h14 fun θ => by cases θ <;> rfl⟩

end Count
end OsdevLibstdc.Dux.CounterIncrement
