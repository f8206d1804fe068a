import OsdevLibstdc.SpinLock
import OsdevLibstdc.MutexTraces

/-!
The traces of `dux::spin_lock` and of the locks that its benchmark compares, `tas_spin_lock` and
`ttas_spin_lock`: which acquisitions, releases and failures of `try_lock` can follow one another.
-/

namespace OsdevLibstdc.Dux

open TransitionSystems MutexTraces

def exchange (value desired : ℤ) : ℤ × ℤ := (value, desired)

def lockEntry (readsFirst : Bool) : Pc := if readsFirst then .load else .exchange

inductive BenchStep (readsFirst : Bool) : ℤ → Local → ℤ → Local → Prop
  | callLock (v : ℤ) (holds : Bool) :
      BenchStep readsFirst v ⟨.outside, holds⟩ v ⟨lockEntry readsFirst, holds⟩
  | callTryLock (v : ℤ) (holds : Bool) :
      BenchStep readsFirst v ⟨.outside, holds⟩ v ⟨.tryExchange, holds⟩
  | callUnlock (v : ℤ) : BenchStep readsFirst v ⟨.outside, true⟩ v ⟨.store, true⟩
  | load (v : ℤ) (holds : Bool) : BenchStep readsFirst v ⟨.load, holds⟩
      v ⟨if v = kLocked then .load else .exchange, holds⟩
  | exchange (v : ℤ) (holds : Bool) {old v' : ℤ} : exchange v kLocked = (old, v') →
      BenchStep readsFirst v ⟨.exchange, holds⟩ v'
        ⟨if old = kFree then .lockReturn else lockEntry readsFirst, holds || decide (old = kFree)⟩
  | lockReturn (v : ℤ) (holds : Bool) :
      BenchStep readsFirst v ⟨.lockReturn, holds⟩ v ⟨.outside, holds⟩
  | tryExchange (v : ℤ) (holds : Bool) {old v' : ℤ} : exchange v kLocked = (old, v') →
      BenchStep readsFirst v ⟨.tryExchange, holds⟩ v'
        ⟨.tryReturn (decide (old = kFree)), holds || decide (old = kFree)⟩
  | tryReturn (v : ℤ) (holds ok : Bool) :
      BenchStep readsFirst v ⟨.tryReturn ok, holds⟩ v ⟨.outside, holds⟩
  | store (v : ℤ) (holds : Bool) :
      BenchStep readsFirst v ⟨.store, holds⟩ kFree ⟨.outside, false⟩

def TasStep : ℤ → Local → ℤ → Local → Prop := BenchStep false

def TtasStep : ℤ → Local → ℤ → Local → Prop := BenchStep true

def lockEvents : Pc → Pc → List MutexEvent
  | .exchange, .lockReturn | .tryExchange, .tryReturn true => [.acquire]
  | .tryExchange, .tryReturn false => [.refuse]
  | .store, .outside => [.release]
  | _, _ => []

def labelled (step : ℤ → Local → ℤ → Local → Prop) : LabelledStep ℤ Local MutexEvent :=
  fun v l es v' l' => step v l v' l' ∧ es = lockEvents l.pc l'.pc

def lockTraces (step : ℤ → Local → ℤ → Local → Prop) (Thread : Type) [DecidableEq Thread] :
    System (Traced Thread ℤ Local MutexEvent) :=
  traced (fun v => v = kFree) (fun l => l = {}) (labelled step)

def Taken (v : ℤ) : Prop := v = kLocked

def Local.Holds (l : Local) : Prop := l.holds = true

abbrev StepEffect (v : ℤ) (l : Local) (v' : ℤ) (l' : Local) : Prop :=
  LockEffect Taken Local.Holds v l (lockEvents l.pc l'.pc) v' l'

section Effects

variable {v v' : ℤ} {l l' : Local}

theorem effect_call {pc : Pc} (holds : Bool) (hpc : lockEvents l.pc pc = [])
    (hl : holds = l.holds) : StepEffect v l v ⟨pc, holds⟩ := by
  unfold StepEffect
  rw [hpc]
  apply LockEffect.silent Iff.rfl
  simp only [Local.Holds, hl]

theorem effect_acquire {pc : Pc} (hpc : lockEvents l.pc pc = [.acquire]) (hfree : v = kFree)
    (hlocked : v' = kLocked) : StepEffect v l v' ⟨pc, true⟩ := by
  unfold StepEffect
  rw [hpc]
  apply LockEffect.acquire
  · intro h
    exact kLocked_ne_kFree (h.symm.trans hfree)
  · exact hlocked
  · rfl

theorem effect_refuse {pc : Pc} (holds : Bool) (hpc : lockEvents l.pc pc = [.refuse])
    (hlocked : v = kLocked) (hl : holds = l.holds) : StepEffect v l v ⟨pc, holds⟩ := by
  unfold StepEffect
  rw [hpc]
  apply LockEffect.refuse
  · exact hlocked
  · exact hlocked
  · simp only [Local.Holds, hl]

theorem effect_store {holds : Bool} (hl : holds = true) :
    StepEffect v ⟨.store, holds⟩ kFree ⟨.outside, false⟩ := by
  apply LockEffect.release
  · exact hl
  · exact kLocked_ne_kFree.symm
  · exact Bool.false_ne_true

def FreeOrLocked (v : ℤ) : Prop := v = kFree ∨ v = kLocked

structure Effective (v : ℤ) (l : Local) (v' : ℤ) (l' : Local) : Prop where
  value : FreeOrLocked v'
  consistent : l'.Consistent
  effect : StepEffect v l v' l'

theorem LockStep.effective (h : LockStep v l v' l') (hv : FreeOrLocked v) (hl : l.Consistent) :
    Effective v l v' l' := by
  cases h with
  | callLock holds | callTryLock holds | lockReturn holds =>
    exact ⟨hv, Local.consistent_of_pc (by decide), effect_call holds rfl rfl⟩
  | callUnlock => exact ⟨hv, fun _ => rfl, effect_call true rfl rfl⟩
  | tryReturn holds ok =>
    refine ⟨hv, Local.consistent_of_pc (by decide), effect_call holds ?_ rfl⟩
    cases ok <;> rfl
  | load holds =>
    constructor
    · exact hv
    · apply Local.consistent_of_pc
      split_ifs <;> decide
    · apply effect_call holds _ rfl
      split_ifs <;> rfl
  | exchange holds hx =>
    rcases compareExchangeStrong_cases hx with ⟨rfl, hfree, rfl⟩ | ⟨rfl, -, rfl⟩
    · rw [Bool.or_true]
      exact ⟨.inr rfl, fun _ => rfl, effect_acquire rfl hfree rfl⟩
    · rw [Bool.or_false]
      exact ⟨hv, Local.consistent_of_pc (by decide), effect_call holds rfl rfl⟩
  | tryExchange holds hx =>
    rcases compareExchangeStrong_cases hx with ⟨rfl, hfree, rfl⟩ | ⟨rfl, hne, rfl⟩
    · rw [Bool.or_true]
      exact ⟨.inr rfl, fun _ => rfl, effect_acquire rfl hfree rfl⟩
    · rw [Bool.or_false]
      exact ⟨hv, Local.consistent_of_pc (by decide),
        effect_refuse holds rfl (hv.resolve_left hne) rfl⟩
  | store holds =>
    exact ⟨.inl rfl, Local.consistent_of_pc (by decide), effect_store (hl (.inr (.inr rfl)))⟩

theorem BenchStep.effective {readsFirst : Bool} (h : BenchStep readsFirst v l v' l')
    (hv : FreeOrLocked v) (hl : l.Consistent) : Effective v l v' l' := by
  cases h with
  | callLock holds =>
    constructor
    · exact hv
    · apply Local.consistent_of_pc
      cases readsFirst <;> decide
    · apply effect_call holds _ rfl
      cases readsFirst <;> rfl
  | callTryLock holds | lockReturn holds =>
    exact ⟨hv, Local.consistent_of_pc (by decide), effect_call holds rfl rfl⟩
  | callUnlock => exact ⟨hv, fun _ => rfl, effect_call true rfl rfl⟩
  | tryReturn holds ok =>
    refine ⟨hv, Local.consistent_of_pc (by decide), effect_call holds ?_ rfl⟩
    cases ok <;> rfl
  | load holds =>
    constructor
    · exact hv
    · apply Local.consistent_of_pc
      split_ifs <;> decide
    · apply effect_call holds _ rfl
      split_ifs <;> rfl
  | exchange holds hx =>
    obtain ⟨rfl, rfl⟩ := Prod.mk.inj hx
    rcases hv with rfl | rfl
    · rw [if_pos rfl, decide_eq_true rfl, Bool.or_true]
      exact ⟨.inr rfl, fun _ => rfl, effect_acquire rfl rfl rfl⟩
    · rw [if_neg kLocked_ne_kFree, decide_eq_false kLocked_ne_kFree, Bool.or_false]
      refine ⟨.inr rfl, Local.consistent_of_pc ?_, effect_call holds ?_ rfl⟩
      · cases readsFirst <;> decide
      · cases readsFirst <;> rfl
  | tryExchange holds hx =>
    obtain ⟨rfl, rfl⟩ := Prod.mk.inj hx
    rcases hv with rfl | rfl
    · rw [decide_eq_true rfl, Bool.or_true]
      exact ⟨.inr rfl, fun _ => rfl, effect_acquire rfl rfl rfl⟩
    · rw [decide_eq_false kLocked_ne_kFree, Bool.or_false]
      exact ⟨.inr rfl, Local.consistent_of_pc (by decide), effect_refuse holds rfl rfl rfl⟩
  | store holds =>
    exact ⟨.inl rfl, Local.consistent_of_pc (by decide), effect_store (hl (.inr (.inr rfl)))⟩

end Effects

section Traces

variable {Thread : Type} [DecidableEq Thread] {step : ℤ → Local → ℤ → Local → Prop}

def resting (holds : Bool) : Local := ⟨.outside, holds⟩

def LockRun (step : ℤ → Local → ℤ → Local → Prop) (v : ℤ) (l : Local) (es : List MutexEvent)
    (v' : ℤ) (l' : Local) : Prop := LocalRun (labelled step) v l es v' l'

def Produces (step : ℤ → Local → ℤ → Local → Prop) (es : List (Thread × MutexEvent))
    (owner : Option Thread) : Prop :=
  ∃ s, Reachable (lockTraces step Thread) s ∧ s.events = es ∧ Owns Taken Local.Holds s owner

/-- What makes a lock a mutex: no step does more than a mutex, and each of its operations can be
executed by a thread on its own. -/
structure IsMutex (step : ℤ → Local → ℤ → Local → Prop) : Prop where
  effective : ∀ v l v' l', FreeOrLocked v → l.Consistent → step v l v' l' → Effective v l v' l'
  acquires : LockRun step kFree (resting false) [.acquire] kLocked (resting true)
  refuses : ∀ b, LockRun step kLocked (resting b) [.refuse] kLocked (resting b)
  releases : LockRun step kLocked (resting true) [.release] kFree (resting false)

theorem IsMutex.iff (hm : IsMutex step) (es : List (Thread × MutexEvent))
    (owner : Option Thread) : Produces step es owner ↔ MutexRun es owner := by
  have hsound {s : Traced Thread ℤ Local MutexEvent} (h : Reachable (lockTraces step Thread) s) :
      ∃ owner, MutexRun s.events owner ∧ Owns Taken Local.Holds s owner := by
    apply mutexRun_of_effects FreeOrLocked Local.Consistent _ _ _ h
    · rintro v rfl
      exact ⟨.inl rfl, kLocked_ne_kFree.symm⟩
    · rintro l rfl
      exact ⟨Local.consistent_of_pc (by decide), Bool.false_ne_true⟩
    · rintro v l es v' l' hv hl ⟨hstep, rfl⟩
      obtain ⟨hv', hl', heffect⟩ := hm.effective v l v' l' hv hl hstep
      exact ⟨hv', hl', heffect⟩
  constructor
  · rintro ⟨s, hr, rfl, howns⟩
    obtain ⟨owner', hrun, howns'⟩ := hsound hr
    rw [howns.unique howns']
    exact hrun
  · intro h
    have hr := traced_of_mutexRun (fun v => v = kFree) (fun l => l = {}) kFree kLocked resting
      rfl rfl hm.acquires hm.refuses hm.releases h
    refine ⟨_, hr, rfl, ?_, ?_⟩
    · intro θ
      exact decide_eq_true_iff
    · cases owner with
      | none => exact iff_of_false kLocked_ne_kFree.symm fun h => h rfl
      | some θ => exact iff_of_true rfl (Option.some_ne_none θ)

theorem LockRun.then {v v' v'' : ℤ} {l l' l'' : Local} {es : List MutexEvent}
    (h : LockRun step v l es v' l') (hstep : step v' l' v'' l'') :
    LockRun step v l (es ++ lockEvents l'.pc l''.pc) v'' l'' :=
  LocalRun.snoc h ⟨hstep, rfl⟩

theorem LockRun.nil (step : ℤ → Local → ℤ → Local → Prop) (v : ℤ) (l : Local) :
    LockRun step v l [] v l := LocalRun.nil v l

theorem lockStep_isMutex : IsMutex LockStep := by
  constructor
  · exact fun v l v' l' hv hl h => h.effective hv hl
  · have h1 := (LockRun.nil LockStep kFree (resting false)).then (.callLock kFree false)
    have h2 := h1.then (.load kFree false)
    have h3 := h2.then (.exchange kFree false rfl)
    exact h3.then (.lockReturn kLocked true)
  · intro b
    have h1 := (LockRun.nil LockStep kLocked (resting b)).then (.callTryLock kLocked b)
    have h2 := h1.then (.tryExchange kLocked b rfl)
    rw [Bool.or_false] at h2
    exact h2.then (.tryReturn kLocked b false)
  · have h1 := (LockRun.nil LockStep kLocked (resting true)).then (.callUnlock kLocked)
    exact h1.then (.store kLocked true)

theorem benchStep_isMutex (readsFirst : Bool) : IsMutex (BenchStep readsFirst) := by
  constructor
  · exact fun v l v' l' hv hl h => h.effective hv hl
  · cases readsFirst with
    | true =>
      have h1 := (LockRun.nil (BenchStep true) kFree (resting false)).then (.callLock kFree false)
      have h2 := h1.then (.load kFree false)
      have h3 := h2.then (.exchange kFree false rfl)
      exact h3.then (.lockReturn kLocked true)
    | false =>
      have h1 := (LockRun.nil (BenchStep false) kFree (resting false)).then (.callLock kFree false)
      have h2 := h1.then (.exchange kFree false rfl)
      exact h2.then (.lockReturn kLocked true)
  · intro b
    have h1 := (LockRun.nil (BenchStep readsFirst) kLocked (resting b)).then (.callTryLock kLocked b)
    have h2 := h1.then (.tryExchange kLocked b rfl)
    rw [decide_eq_false kLocked_ne_kFree, Bool.or_false] at h2
    exact h2.then (.tryReturn kLocked b false)
  · have h1 := (LockRun.nil (BenchStep readsFirst) kLocked (resting true)).then (.callUnlock kLocked)
    exact h1.then (.store kLocked true)

theorem spinLock_produces_iff (es : List (Thread × MutexEvent)) (owner : Option Thread) :
    Produces LockStep es owner ↔ MutexRun es owner :=
  lockStep_isMutex.iff es owner

theorem benchLocks_produce_iff (es : List (Thread × MutexEvent)) (owner : Option Thread) :
    (Produces TasStep es owner ↔ Produces LockStep es owner) ∧
      (Produces TtasStep es owner ↔ Produces LockStep es owner) := by
  rw [lockStep_isMutex.iff]
  exact ⟨(benchStep_isMutex false).iff es owner, (benchStep_isMutex true).iff es owner⟩

end Traces
end OsdevLibstdc.Dux
