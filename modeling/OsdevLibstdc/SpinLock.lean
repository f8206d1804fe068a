import Mathlib.Data.Int.Basic
import OsdevLibstdc.TransitionSystems

/-!
`dux::spin_lock`: the atomic steps of `lock`, `try_lock` and `unlock`, interleaved for any number
of threads.
-/

namespace OsdevLibstdc.Dux

open TransitionSystems

def kFree : ℤ := 0
def kLocked : ℤ := 1

def compareExchangeStrong (value expected desired : ℤ) : Bool × ℤ :=
  if value = expected then (true, desired) else (false, value)

inductive Pc
  | outside
  | load
  | exchange
  | lockReturn
  | tryExchange
  | tryReturn (result : Bool)
  | store
deriving Repr, DecidableEq

/-- `holds` is true from a successful exchange of the thread to its store. -/
structure Local where
  pc : Pc := .outside
  holds : Bool := false
deriving Repr, DecidableEq

/-- A step of one thread with `_M_value`. Only a holder calls `unlock`. -/
inductive LockStep : ℤ → Local → ℤ → Local → Prop
  | callLock (v : ℤ) (holds : Bool) : LockStep v ⟨.outside, holds⟩ v ⟨.load, holds⟩
  | callTryLock (v : ℤ) (holds : Bool) : LockStep v ⟨.outside, holds⟩ v ⟨.tryExchange, holds⟩
  | callUnlock (v : ℤ) : LockStep v ⟨.outside, true⟩ v ⟨.store, true⟩
  | load (v : ℤ) (holds : Bool) :
      LockStep v ⟨.load, holds⟩ v ⟨if v = kLocked then .load else .exchange, holds⟩
  | exchange (v : ℤ) (holds : Bool) {ok : Bool} {v' : ℤ} :
      compareExchangeStrong v kFree kLocked = (ok, v') →
      LockStep v ⟨.exchange, holds⟩ v' ⟨if ok then .lockReturn else .load, holds || ok⟩
  | lockReturn (v : ℤ) (holds : Bool) : LockStep v ⟨.lockReturn, holds⟩ v ⟨.outside, holds⟩
  | tryExchange (v : ℤ) (holds : Bool) {ok : Bool} {v' : ℤ} :
      compareExchangeStrong v kFree kLocked = (ok, v') →
      LockStep v ⟨.tryExchange, holds⟩ v' ⟨.tryReturn ok, holds || ok⟩
  | tryReturn (v : ℤ) (holds ok : Bool) : LockStep v ⟨.tryReturn ok, holds⟩ v ⟨.outside, holds⟩
  | store (v : ℤ) (holds : Bool) : LockStep v ⟨.store, holds⟩ kFree ⟨.outside, false⟩

def spinLock (Thread : Type) [DecidableEq Thread] : System (Config Thread ℤ Local) :=
  interleave (fun v => v = kFree) (fun l => l = {}) LockStep

theorem kLocked_ne_kFree : kLocked ≠ kFree := by decide

theorem compareExchangeStrong_cases {v v' : ℤ} {ok : Bool}
    (h : compareExchangeStrong v kFree kLocked = (ok, v')) :
    ok = true ∧ v = kFree ∧ v' = kLocked ∨ ok = false ∧ v ≠ kFree ∧ v' = v := by
  unfold compareExchangeStrong at h
  split_ifs at h with hv
  · obtain ⟨rfl, rfl⟩ := Prod.mk.inj h
    exact .inl ⟨rfl, hv, rfl⟩
  · obtain ⟨rfl, rfl⟩ := Prod.mk.inj h
    exact .inr ⟨rfl, hv, rfl⟩

def Local.Consistent (l : Local) : Prop :=
  l.pc = .lockReturn ∨ l.pc = .tryReturn true ∨ l.pc = .store → l.holds = true

structure Invariant {Thread : Type} (s : Config Thread ℤ Local) : Prop where
  value : s.shared = kFree ∨ s.shared = kLocked
  owned : Owned (fun l : Local => l.holds = true) (s.shared = kLocked) s.locals
  consistent : ∀ θ, (s.locals θ).Consistent

variable {Thread : Type} [DecidableEq Thread] {s t : Config Thread ℤ Local}

theorem invariant_init (h : (spinLock Thread).init s) : Invariant s := by
  obtain ⟨hv, hl⟩ := h
  have hfree : ¬ s.shared = kLocked := fun h => kLocked_ne_kFree (h.symm.trans hv)
  constructor
  · exact .inl hv
  · constructor
    · intro θ θ' h
      rw [hl] at h
      cases h
    · apply iff_of_false hfree
      rintro ⟨θ, h⟩
      rw [hl] at h
      cases h
  · intro θ h
    rw [hl] at h
    rcases h with h | h | h <;> cases h

theorem Invariant.keep {θ : Thread} {l : Local} (h : Invariant s)
    (hl : l.holds = (s.locals θ).holds) (hc : l.Consistent) :
    Invariant (s.move θ s.shared l) := by
  constructor
  · exact h.value
  · apply h.owned.keep
    rw [hl]
  · exact Config.forall_move (P := fun _ => Local.Consistent) (fun θ' _ => h.consistent θ') hc

theorem Invariant.exchange {θ : Thread} {l : Local} {v : ℤ} {ok : Bool} (h : Invariant s)
    (hx : compareExchangeStrong s.shared kFree kLocked = (ok, v))
    (hl : l.holds = ((s.locals θ).holds || ok)) (hc : l.Consistent) :
    Invariant (s.move θ v l) := by
  rcases compareExchangeStrong_cases hx with ⟨rfl, hfree, rfl⟩ | ⟨rfl, -, rfl⟩
  · constructor
    · exact .inr rfl
    · apply h.owned.take
      · rw [hfree]
        exact kLocked_ne_kFree.symm
      · rw [hl, Bool.or_true]
      · rfl
    · exact Config.forall_move (P := fun _ => Local.Consistent) (fun θ' _ => h.consistent θ') hc
  · rw [Bool.or_false] at hl
    exact h.keep hl hc

theorem Local.consistent_of_pc {pc : Pc} {holds : Bool}
    (h : pc ≠ .lockReturn ∧ pc ≠ .tryReturn true ∧ pc ≠ .store) :
    Local.Consistent ⟨pc, holds⟩ := by
  rintro (hpc | hpc | hpc)
  · exact absurd hpc h.1
  · exact absurd hpc h.2.1
  · exact absurd hpc h.2.2

theorem Local.consistent_exchanged {pc : Pc} {holds ok : Bool}
    (h : ok = false → pc ≠ .lockReturn ∧ pc ≠ .tryReturn true ∧ pc ≠ .store) :
    Local.Consistent ⟨pc, holds || ok⟩ := by
  cases ok with
  | true =>
    intro _
    exact Bool.or_true holds
  | false =>
    apply Local.consistent_of_pc
    exact h rfl

theorem Invariant.step (h : Invariant s) (hs : (spinLock Thread).step s t) : Invariant t := by
  obtain ⟨θ, v, l, hstep, rfl⟩ := hs
  have hc := h.consistent θ
  generalize hold : s.locals θ = old at hstep hc
  generalize hval : s.shared = value at hstep
  cases hstep with
  | callLock | callTryLock | lockReturn | tryReturn =>
    subst hval
    apply h.keep
    · rw [hold]
    · apply Local.consistent_of_pc
      decide
  | callUnlock =>
    subst hval
    apply h.keep
    · rw [hold]
    · intro _
      rfl
  | load holds =>
    subst hval
    apply h.keep
    · rw [hold]
    · apply Local.consistent_of_pc
      split_ifs <;> decide
  | exchange holds hx =>
    subst hval
    apply h.exchange hx
    · rw [hold]
    · apply Local.consistent_exchanged
      rintro rfl
      decide
  | tryExchange holds hx =>
    subst hval
    apply h.exchange hx
    · rw [hold]
    · apply Local.consistent_exchanged
      rintro rfl
      decide
  | store holds =>
    constructor
    · exact .inl rfl
    · apply h.owned.release
      · rw [hold]
        exact hc (.inr (.inr rfl))
      · exact Bool.false_ne_true
      · exact kLocked_ne_kFree.symm
    · apply Config.forall_move (P := fun _ => Local.Consistent)
      · intro θ' _
        exact h.consistent θ'
      · apply Local.consistent_of_pc
        decide

theorem invariant_reachable (h : Reachable (spinLock Thread) s) : Invariant s :=
  h.invariant (fun _ => invariant_init) fun _ _ _ hs hstep => hs.step hstep

structure Excludes (s : Config Thread ℤ Local) : Prop where
  one : ∀ θ θ', (s.locals θ).holds = true → (s.locals θ').holds = true → θ = θ'
  locked : s.shared = kLocked ↔ ∃ θ, (s.locals θ).holds = true
  free : s.shared = kFree ↔ ¬ ∃ θ, (s.locals θ).holds = true
  lock_returns : ∀ θ, (s.locals θ).pc = .lockReturn → (s.locals θ).holds = true
  try_lock_fails : ∀ θ v l, LockStep s.shared (s.locals θ) v l → l.pc = .tryReturn false →
    v = s.shared ∧ l.holds = (s.locals θ).holds

theorem spinLock_excludes (h : Reachable (spinLock Thread) s) : Excludes s := by
  have hinv := invariant_reachable h
  constructor
  · exact hinv.owned.unique
  · exact hinv.owned.taken_iff
  · rw [← hinv.owned.taken_iff]
    rcases hinv.value with hv | hv
    · exact iff_of_true hv fun h => kLocked_ne_kFree (h.symm.trans hv)
    · exact iff_of_false (fun h => kLocked_ne_kFree (hv.symm.trans h)) (not_not.mpr hv)
  · intro θ hpc
    exact hinv.consistent θ (.inl hpc)
  · intro θ v l hstep hpc
    generalize s.locals θ = old at hstep ⊢
    generalize s.shared = value at hstep ⊢
    cases hstep with
    | tryExchange holds hx =>
      obtain rfl := Pc.tryReturn.inj hpc
      rcases compareExchangeStrong_cases hx with ⟨h, -, -⟩ | ⟨-, -, rfl⟩
      · cases h
      · exact ⟨rfl, Bool.or_false holds⟩
    | load =>
      simp only at hpc
      split_ifs at hpc
    | exchange =>
      simp only at hpc
      split_ifs at hpc
    | _ => cases hpc

theorem spinLock_excludes_stale : ∃ s : Config Bool ℤ Local,
    (s.locals true).holds = true ∧ (s.locals false).pc = .exchange ∧ Excludes s := by
  have h0 : Reachable (spinLock Bool) ⟨kFree, fun _ => {}⟩ := .init ⟨rfl, fun _ => rfl⟩
  have h1 := h0.step ⟨false, _, _, .callLock _ _, rfl⟩
  have h2 := h1.step ⟨false, _, _, .load _ _, rfl⟩
  have h3 := h2.step ⟨true, _, _, .callLock _ _, rfl⟩
  have h4 := h3.step ⟨true, _, _, .load _ _, rfl⟩
  have h5 := h4.step ⟨true, _, _, .exchange _ _ rfl, rfl⟩
  exact ⟨_, rfl, rfl, spinLock_excludes h5⟩

end OsdevLibstdc.Dux
