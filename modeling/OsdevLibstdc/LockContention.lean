import Mathlib.Data.List.Count
import Mathlib.Data.Prod.Basic
import OsdevLibstdc.LockTraces

/-!
Exchanges that fail in `lock`. A lock that reads its value before each exchange makes one only
after another thread has come first; one that does not makes any number.
-/

namespace OsdevLibstdc.Dux

open TransitionSystems MutexTraces

inductive Contention
  | acquired
  | missed
deriving Repr, DecidableEq

def contentionEvents : Pc → Pc → List Contention
  | .exchange, .lockReturn | .tryExchange, .tryReturn true => [.acquired]
  | .exchange, .load | .exchange, .exchange => [.missed]
  | _, _ => []

def contending (step : ℤ → Local → ℤ → Local → Prop) : LabelledStep ℤ Local Contention :=
  fun v l es v' l' => step v l v' l' ∧ es = contentionEvents l.pc l'.pc

theorem contending_of {step : ℤ → Local → ℤ → Local → Prop} {v v' : ℤ} {l l' : Local}
    (h : step v l v' l') : contending step v l (contentionEvents l.pc l'.pc) v' l' := ⟨h, rfl⟩

def contention (step : ℤ → Local → ℤ → Local → Prop) (Thread : Type) [DecidableEq Thread] :
    System (Traced Thread ℤ Local Contention) :=
  traced (fun v => v = kFree) (fun l => l = {}) (contending step)

/-- The thread has seen the lock free and is about to find that it is taken. -/
def stale (v : ℤ) (l : Local) : ℕ := if l.pc = .exchange ∧ v = kLocked then 1 else 0

theorem stale_of_ne {v : ℤ} {l : Local} (h : l.pc ≠ .exchange) : stale v l = 0 :=
  if_neg fun hs => h hs.1

theorem stale_le (v : ℤ) (l : Local) : stale v l ≤ 1 := by
  unfold stale
  split_ifs <;> omega

theorem stale_mono {v v' : ℤ} (l : Local) (h : v' = kLocked → v = kLocked) :
    stale v' l ≤ stale v l := by
  unfold stale
  split_ifs with h1 h2
  · exact Nat.le_refl 1
  · exact absurd ⟨h1.1, h h1.2⟩ h2
  · exact Nat.zero_le _
  · exact Nat.le_refl 0

structure Contends (v : ℤ) (l : Local) (v' : ℤ) (l' : Local) : Prop where
  value : FreeOrLocked v'
  own : (contentionEvents l.pc l'.pc).count .missed + stale v' l' ≤ stale v l
  others : v' = kLocked → v = kLocked ∨ contentionEvents l.pc l'.pc = [.acquired]

section Steps

variable {v v' : ℤ} {l l' : Local}

theorem contends_silent {pc : Pc} {holds : Bool} (hv : FreeOrLocked v)
    (hes : contentionEvents l.pc pc = []) (hpc : pc ≠ .exchange) :
    Contends v l v ⟨pc, holds⟩ := by
  refine ⟨hv, ?_, .inl⟩
  rw [hes, List.count_nil, stale_of_ne hpc]
  exact Nat.zero_le _

theorem contends_acquired {pc : Pc} {holds : Bool}
    (hes : contentionEvents l.pc pc = [.acquired]) (hpc : pc ≠ .exchange) :
    Contends v l kLocked ⟨pc, holds⟩ := by
  refine ⟨.inr rfl, ?_, fun _ => .inr hes⟩
  rw [hes, stale_of_ne hpc]
  exact Nat.zero_le _

theorem contends_missed {holds holds' : Bool} :
    Contends kLocked ⟨.exchange, holds⟩ kLocked ⟨.load, holds'⟩ :=
  ⟨.inr rfl, Nat.le_refl 1, .inl⟩

theorem contends_load {holds : Bool} (hv : FreeOrLocked v) : Contends v ⟨.load, holds⟩ v
    ⟨if v = kLocked then .load else .exchange, holds⟩ := by
  split_ifs with hlocked
  · exact contends_silent hv rfl (by decide)
  · refine ⟨hv, ?_, .inl⟩
    have hstale : stale v ⟨.exchange, holds⟩ = 0 := if_neg fun hs => hlocked hs.2
    rw [hstale]
    exact Nat.zero_le _

theorem contends_store {holds : Bool} :
    Contends v ⟨.store, holds⟩ kFree ⟨.outside, false⟩ :=
  ⟨.inl rfl, Nat.zero_le _, fun h => absurd h.symm kLocked_ne_kFree⟩

theorem LockStep.contends (h : LockStep v l v' l') (hv : FreeOrLocked v) :
    Contends v l v' l' := by
  cases h with
  | callLock | callTryLock | callUnlock | lockReturn => exact contends_silent hv rfl (by decide)
  | tryReturn holds ok =>
    apply contends_silent hv _ (by decide)
    cases ok <;> rfl
  | load => exact contends_load hv
  | exchange holds hx =>
    rcases compareExchangeStrong_cases hx with ⟨rfl, -, rfl⟩ | ⟨rfl, hne, rfl⟩
    · exact contends_acquired rfl (by decide)
    · rw [hv.resolve_left hne]
      exact contends_missed
  | tryExchange holds hx =>
    rcases compareExchangeStrong_cases hx with ⟨rfl, -, rfl⟩ | ⟨rfl, -, rfl⟩
    · exact contends_acquired rfl (by decide)
    · exact contends_silent hv rfl (by decide)
  | store => exact contends_store

theorem TtasStep.contends (h : TtasStep v l v' l') (hv : FreeOrLocked v) :
    Contends v l v' l' := by
  cases h with
  | callLock | callTryLock | callUnlock | lockReturn => exact contends_silent hv rfl (by decide)
  | tryReturn holds ok =>
    apply contends_silent hv _ (by decide)
    cases ok <;> rfl
  | load => exact contends_load hv
  | exchange holds hx =>
    obtain ⟨rfl, rfl⟩ := Prod.mk.inj hx
    rcases hv with rfl | rfl
    · exact contends_acquired rfl (by decide)
    · exact contends_missed
  | tryExchange holds hx =>
    obtain ⟨rfl, rfl⟩ := Prod.mk.inj hx
    rcases hv with rfl | rfl
    · exact contends_acquired rfl (by decide)
    · exact contends_silent (.inr rfl) rfl (by decide)
  | store => exact contends_store

end Steps

section Runs

variable {Thread : Type} [DecidableEq Thread] {step : ℤ → Local → ℤ → Local → Prop}
  {s t : Traced Thread ℤ Local Contention}

def missedBy (θ : Thread) (es : List (Thread × Contention)) : ℕ := es.count (θ, .missed)

def acquiredByOthers (θ : Thread) (es : List (Thread × Contention)) : ℕ :=
  es.countP fun e => decide (e.1 ≠ θ ∧ e.2 = .acquired)

def Traced.stale (s : Traced Thread ℤ Local Contention) (θ : Thread) : ℕ :=
  Dux.stale s.config.shared (s.config.locals θ)

def Paid (θ : Thread) (s t : Traced Thread ℤ Local Contention) : Prop :=
  ∃ es, t.events = s.events ++ es ∧
    missedBy θ es + Traced.stale t θ ≤ acquiredByOthers θ es + Traced.stale s θ

theorem missedBy_own (θ : Thread) (es : List Contention) :
    missedBy θ (es.map (Prod.mk θ)) = es.count .missed :=
  List.count_map_of_injective es (Prod.mk θ) (Prod.mk_right_injective θ) .missed

theorem missedBy_other {θ θ' : Thread} (h : θ' ≠ θ) (es : List Contention) :
    missedBy θ (es.map (Prod.mk θ')) = 0 := by
  apply List.count_eq_zero_of_not_mem
  intro hmem
  obtain ⟨e, -, he⟩ := List.mem_map.mp hmem
  exact h (Prod.mk.inj he).1

theorem Paid.trans {θ : Thread} {u : Traced Thread ℤ Local Contention} (h : Paid θ s u)
    (h' : Paid θ u t) : Paid θ s t := by
  obtain ⟨es, hes, hle⟩ := h
  obtain ⟨es', hes', hle'⟩ := h'
  refine ⟨es ++ es', ?_, ?_⟩
  · rw [hes', hes, List.append_assoc]
  · simp only [missedBy, acquiredByOthers, List.count_append, List.countP_append] at hle hle' ⊢
    omega

theorem paid_step {θ₀ : Thread} {v : ℤ} {l : Local}
    (h : Contends s.config.shared (s.config.locals θ₀) v l) (θ : Thread) :
    Paid θ s ⟨s.config.move θ₀ v l, s.events ++
      (contentionEvents (s.config.locals θ₀).pc l.pc).map (Prod.mk θ₀)⟩ := by
  refine ⟨_, rfl, ?_⟩
  by_cases he : θ₀ = θ
  · subst he
    have hown := h.own
    simp only [Traced.stale, Config.move_shared, Config.move_self, missedBy_own]
    omega
  · have hne : θ ≠ θ₀ := fun h => he h.symm
    simp only [Traced.stale, Config.move_shared, Config.move_other hne, missedBy_other he]
    by_cases hv : v = kLocked → s.config.shared = kLocked
    · have hmono := stale_mono (s.config.locals θ) hv
      omega
    · obtain ⟨hlocked, hfree⟩ := Classical.not_imp.mp hv
      have hle := stale_le v (s.config.locals θ)
      rw [(h.others hlocked).resolve_left hfree]
      have hone : acquiredByOthers θ ([Contention.acquired].map (Prod.mk θ₀)) = 1 := by
        rw [List.map_singleton, acquiredByOthers, List.countP_singleton, if_pos]
        exact decide_eq_true ⟨he, rfl⟩
      omega

theorem paid_steps (hstep : ∀ v l v' l', FreeOrLocked v → step v l v' l' → Contends v l v' l')
    (h : Reachable (contention step Thread) s)
    (hst : Relation.ReflTransGen (contention step Thread).step s t) (θ : Thread) :
    Paid θ s t := by
  have hvalue {s : Traced Thread ℤ Local Contention}
      (h : Reachable (contention step Thread) s) : FreeOrLocked s.config.shared := by
    apply h.invariant (I := fun s => FreeOrLocked s.config.shared)
    · rintro s ⟨⟨hv, -⟩, -⟩
      exact .inl hv
    · rintro s t - hv ⟨θ, es, v, l, ⟨hs, -⟩, rfl⟩
      exact (hstep _ _ _ _ hv hs).value
  induction hst with
  | refl => exact ⟨[], (List.append_nil _).symm, Nat.le_refl _⟩
  | @tail u t hsu hs ih =>
    apply ih.trans
    obtain ⟨θ₀, es, v, l, ⟨hs, rfl⟩, rfl⟩ := hs
    exact paid_step (hstep _ _ _ _ (hvalue (h.steps hsu)) hs) θ

theorem missedBy_le (hstep : step = LockStep ∨ step = TtasStep)
    (h : Reachable (contention step Thread) s)
    (hst : Relation.ReflTransGen (contention step Thread).step s t) (θ : Thread) :
    ∃ es, t.events = s.events ++ es ∧ missedBy θ es + Traced.stale t θ ≤
      acquiredByOthers θ es + Traced.stale s θ := by
  rcases hstep with rfl | rfl
  · exact paid_steps (fun v l v' l' hv hs => hs.contends hv) h hst θ
  · exact paid_steps (fun v l v' l' hv hs => TtasStep.contends hs hv) h hst θ

theorem missedBy_le_contended : ∃ s t : Traced Bool ℤ Local Contention, s.events = [] ∧
    t.events = [(true, .acquired), (false, .missed)] ∧
      ∃ es, t.events = s.events ++ es ∧ missedBy false es + Traced.stale t false ≤
        acquiredByOthers false es + Traced.stale s false := by
  have h0 : Reachable (contention LockStep Bool) ⟨⟨kFree, fun _ => {}⟩, []⟩ :=
    .init ⟨⟨rfl, fun _ => rfl⟩, rfl⟩
  have h1 := Relation.ReflTransGen.single (a := (⟨⟨kFree, fun _ => {}⟩, []⟩ : Traced Bool ℤ _ _))
    (r := (contention LockStep Bool).step) ⟨false, _, _, _, ⟨.callLock _ _, rfl⟩, rfl⟩
  have h2 := h1.tail ⟨false, _, _, _, ⟨.load _ _, rfl⟩, rfl⟩
  have h3 := h2.tail ⟨true, _, _, _, ⟨.callLock _ _, rfl⟩, rfl⟩
  have h4 := h3.tail ⟨true, _, _, _, ⟨.load _ _, rfl⟩, rfl⟩
  have h5 := h4.tail ⟨true, _, _, _, ⟨.exchange _ _ rfl, rfl⟩, rfl⟩
  have h6 := h5.tail ⟨false, _, _, _, ⟨.exchange _ _ rfl, rfl⟩, rfl⟩
  exact ⟨_, _, rfl, rfl, missedBy_le (.inl rfl) h0 h6 false⟩

theorem tasStep_missed {θ θ' : Thread} (hne : θ' ≠ θ) (n : ℕ) :
    ∃ t, Reachable (contention TasStep Thread) t ∧ t.config.shared = kLocked ∧
      t.config.locals θ = ⟨.exchange, false⟩ ∧ missedBy θ t.events = n ∧
        acquiredByOthers θ t.events = 1 := by
  induction n with
  | zero =>
    have h0 : Reachable (contention TasStep Thread) ⟨⟨kFree, fun _ => {}⟩, []⟩ :=
      .init ⟨⟨rfl, fun _ => rfl⟩, rfl⟩
    have hacquire : LocalRun (contending TasStep) kFree {} [.acquired] kLocked
        ⟨.lockReturn, true⟩ :=
      .snoc (.snoc (.nil _ _) (contending_of (BenchStep.callLock kFree false)))
        (contending_of (BenchStep.exchange kFree false rfl))
    have h1 := Reachable.localRun (θ := θ') h0 hacquire
    refine ⟨_, h1.step ⟨θ, [], kLocked, ⟨.exchange, false⟩, ?_, rfl⟩, rfl,
      Config.move_self _ _ _ _, ?_, ?_⟩
    · rw [Config.move_other hne.symm]
      exact contending_of (BenchStep.callLock kLocked false)
    · exact missedBy_other hne [.acquired]
    · rw [acquiredByOthers, List.nil_append, List.map_nil, List.append_nil, List.map_singleton,
        List.countP_singleton, if_pos (decide_eq_true ⟨hne, rfl⟩)]
  | succ n ih =>
    obtain ⟨t, ht, hlocked, hlocal, hmissed, hacquired⟩ := ih
    refine ⟨_, ht.step ⟨θ, [.missed], kLocked, ⟨.exchange, false⟩, ?_, rfl⟩, rfl,
      Config.move_self _ _ _ _, ?_, ?_⟩
    · rw [hlocked, hlocal]
      exact contending_of (BenchStep.exchange kLocked false rfl)
    · rw [missedBy, List.count_append, ← missedBy, hmissed, ← missedBy, missedBy_own]
      rfl
    · rw [acquiredByOthers, List.countP_append, ← acquiredByOthers, hacquired, List.map_singleton,
        List.countP_singleton, if_neg]
      simp

end Runs
end OsdevLibstdc.Dux
