import Mathlib.Data.Fintype.Basic
import OsdevLibstdc.KernelCalls

/-!
No state of the kernel's allocator calls is a dead end: the calls and the handlers that are under
way can all return.
-/

namespace OsdevLibstdc.Malloc

open TransitionSystems Dux

variable {A : Allocator} {kind : GuardKind}

section Calls

def CallSteps (kind : GuardKind) : Shared A × Caller A → Shared A × Caller A → Prop :=
  Relation.ReflTransGen fun p q => CallStep kind p.1 p.2 q.1 q.2

variable {g : Shared A} {flag : Bool} {c : Call}

theorem CallStep.then {g g' g'' : Shared A} {l l' l'' : Caller A} (h : CallStep kind g l g' l')
    (hrest : CallSteps kind (g', l') (g'', l'')) : CallSteps kind (g, l) (g'', l'') :=
  Relation.ReflTransGen.head (b := (g', l')) h hrest

theorem execute_steps {guard : Option Held} {frame : A.Frame} {heap heap' : A.Heap} {v : A.Value}
    (h : A.Finishes heap frame heap' v) (hg : g.heap = heap) :
    CallSteps kind (g, ⟨flag, .executing c guard frame⟩)
      ({ g with heap := heap' }, ⟨flag, .leaving c guard v⟩) := by
  induction h generalizing g with
  | done hd =>
    subst hg
    exact (CallStep.finish g flag c guard _ hd).then .refl
  | step hd _ ih =>
    subst hg
    exact (CallStep.execute g flag c guard _ hd).then (ih rfl)

theorem leave_steps (guard : Held) (v : A.Value) :
    CallSteps kind (g, ⟨flag, .leaving c (some guard) v⟩)
      ({ g with value := kFree, returned := ⟨some guard.ticket, c, c.result v⟩ :: g.returned },
        ⟨flag || guard.wasEnabled.getD false, .outside⟩) :=
  (CallStep.unlock g flag c guard v).then ((CallStep.restore _ flag c guard v).then .refl)

def Returns (kind : GuardKind) (g : Shared A) (l : Caller A) : Prop :=
  ∃ g' flag', CallSteps kind (g, l) (g', ⟨flag', .outside⟩) ∧ g'.value = kFree

theorem CallStep.returns {g g' : Shared A} {l l' : Caller A} (h : CallStep kind g l g' l')
    (hl : Returns kind g' l') : Returns kind g l := by
  obtain ⟨g'', flag', hsteps, hfree⟩ := hl
  exact ⟨g'', flag', h.then hsteps, hfree⟩

theorem leaving_returns (guard : Held) (v : A.Value) :
    Returns kind g ⟨flag, .leaving c (some guard) v⟩ :=
  ⟨_, _, leave_steps guard v, rfl⟩

theorem executing_returns {guard : Held} {frame : A.Frame} {heap' : A.Heap} {v : A.Value}
    (h : A.Finishes g.heap frame heap' v) :
    Returns kind g ⟨flag, .executing c (some guard) frame⟩ :=
  ⟨_, _, (execute_steps h rfl).trans (leave_steps guard v), rfl⟩

theorem exchanging_returns (hA : A.Terminates) (hfree : g.value = kFree)
    (wasEnabled : Option Bool) : Returns kind g ⟨flag, .exchanging c wasEnabled⟩ := by
  have hx : compareExchangeStrong g.value kFree kLocked = (true, kLocked) := by
    rw [hfree]
    rfl
  apply (CallStep.exchange g flag c wasEnabled hx).returns
  obtain ⟨heap', v, hfin⟩ := hA g.heap c.operation
  exact executing_returns hfin

theorem loading_returns (hA : A.Terminates) (hfree : g.value = kFree)
    (wasEnabled : Option Bool) : Returns kind g ⟨flag, .loading c wasEnabled⟩ := by
  apply (CallStep.load g flag c wasEnabled).returns
  have hne : ¬ g.value = kLocked := by
    rw [hfree]
    exact kLocked_ne_kFree.symm
  rw [if_neg hne]
  exact exchanging_returns hA hfree wasEnabled

theorem call_returns (hA : A.Terminates) (hfree : g.value = kFree) {pc : Pc A} (hpc : ¬ pc.Holds)
    (hguarded : (callerOf pc).Guarded) : Returns kind g ⟨flag, pc⟩ := by
  cases pc with
  | outside => exact ⟨g, flag, .refl, hfree⟩
  | flagsRead c wasEnabled =>
    apply (CallStep.cli g flag c wasEnabled).returns
    exact loading_returns hA hfree (some wasEnabled)
  | loading c wasEnabled => exact loading_returns hA hfree wasEnabled
  | exchanging c wasEnabled => exact exchanging_returns hA hfree wasEnabled
  | executing c guard frame =>
    cases guard with
    | none => exact absurd rfl hguarded
    | some held => exact absurd (Option.some_ne_none held) hpc
  | leaving c guard v =>
    cases guard with
    | none => exact absurd rfl hguarded
    | some held => exact absurd (Option.some_ne_none held) hpc
  | unlocked c guard v =>
    apply (CallStep.restore g flag c guard v).returns
    exact ⟨_, _, .refl, hfree⟩

end Calls

section Cores

def Core.Idle (cpu : Core A) : Prop := cpu.running = .outside ∧ cpu.interrupted = []

def CoreSteps (kind : GuardKind) : Shared A × Core A → Shared A × Core A → Prop :=
  Relation.ReflTransGen fun p q => CoreStep kind p.1 p.2 q.1 q.2

theorem CallSteps.core {g g' : Shared A} {flag flag' : Bool} {pc pc' : Pc A}
    (h : CallSteps kind (g, ⟨flag, pc⟩) (g', ⟨flag', pc'⟩)) (stack : List (Pc A × Bool)) :
    CoreSteps kind (g, ⟨flag, pc, stack⟩) (g', ⟨flag', pc', stack⟩) := by
  let core (p : Shared A × Caller A) : Shared A × Core A :=
    (p.1, ⟨p.2.enabled, p.2.pc, stack⟩)
  have hstep (p q : Shared A × Caller A) (h : CallStep kind p.1 p.2 q.1 q.2) :
      CoreStep kind (core p).1 (core p).2 (core q).1 (core q).2 :=
    CoreStep.call p.1 q.1 p.2.enabled q.2.enabled p.2.pc q.2.pc stack h
  exact Relation.ReflTransGen.lift (p := fun p q => CoreStep kind p.1 p.2 q.1 q.2) core hstep
    _ _ h

theorem core_returns (kind : GuardKind) (hA : A.Terminates) {stack : List (Pc A × Bool)} :
    ∀ {g : Shared A} (flag : Bool) {pc : Pc A}, g.value = kFree → ¬ pc.Holds →
      (callerOf pc).Guarded → (∀ p ∈ stack, ¬ p.1.Inside) →
      ∃ g' flag', CoreSteps kind (g, ⟨flag, pc, stack⟩) (g', ⟨flag', .outside, []⟩) ∧
        g'.value = kFree := by
  induction stack with
  | nil =>
    intro g flag pc hfree hpc hguarded _
    obtain ⟨g', flag', hsteps, hfree'⟩ := call_returns hA hfree hpc hguarded
    exact ⟨g', flag', hsteps.core [], hfree'⟩
  | cons p stack ih =>
    intro g flag pc hfree hpc hguarded hstack
    obtain ⟨hp, hstack⟩ := List.forall_mem_cons.mp hstack
    obtain ⟨g', flag', hsteps, hfree'⟩ := call_returns hA hfree hpc hguarded
    have hguarded' : (callerOf p.1).Guarded := by
      rcases Pc.not_inside_cases hp with h | ⟨call, wasEnabled, h⟩ <;> rw [h] <;> trivial
    obtain ⟨g'', flag'', hrest, hfree''⟩ :=
      ih p.2 hfree' (fun h => hp h.inside) hguarded' hstack
    refine ⟨g'', flag'', ?_, hfree''⟩
    apply (hsteps.core (p :: stack)).trans
    exact .head (CoreStep.iret g' flag' p.1 p.2 stack) hrest

end Cores

section Kernel

variable {CpuId : Type} [DecidableEq CpuId] {heap₀ : A.Heap}
  {s t : Config CpuId (Shared A) (Core A)}

theorem CoreSteps.move {c : CpuId} {g : Shared A} {cpu : Core A}
    (h : CoreSteps kind (s.shared, s.locals c) (g, cpu)) :
    Relation.ReflTransGen (kernelCalls A kind heap₀ CpuId).step s (s.move c g cpu) :=
  interleave_steps s c h

theorem running_guarded (h : Reachable (kernelCalls A kind heap₀ CpuId) s) (c : CpuId) :
    (callerOf (s.locals c).running).Guarded := by
  have hg := guarded_reachable (contextConfig_reachable h) (c, (s.locals c).interrupted.length)
  simp only [contextConfig, Core.context_length] at hg
  exact hg

theorem holder_returns (hA : A.Terminates) (h : Reachable (kernelCalls A kind heap₀ CpuId) s)
    {c : CpuId} (hc : (s.locals c).running.Holds) :
    Returns kind s.shared ⟨(s.locals c).flag, (s.locals c).running⟩ := by
  obtain ⟨values, heap, -, hs⟩ := agreement_reachable hA (contextConfig_reachable h)
  have hagrees := hs.callers (c, (s.locals c).interrupted.length)
  simp only [contextConfig, Core.context_length] at hagrees
  generalize (s.locals c).running = pc at hc hagrees
  cases pc with
  | outside | flagsRead | loading | exchanging | unlocked => exact hc.elim
  | executing call guard frame =>
    obtain ⟨held, rfl⟩ := Option.ne_none_iff_exists'.mp hc
    obtain ⟨v, -, hfin⟩ := hagrees held.withoutFlag rfl
    exact executing_returns hfin
  | leaving call guard v =>
    obtain ⟨held, rfl⟩ := Option.ne_none_iff_exists'.mp hc
    exact leaving_returns held v

theorem idle_move {c : CpuId} {g : Shared A} {cpu : Core A} (h : (s.locals c).Idle → cpu.Idle)
    (c' : CpuId) (hc' : (s.locals c').Idle) : ((s.move c g cpu).locals c').Idle := by
  by_cases he : c' = c
  · subst he
    rw [Config.move_self]
    exact h hc'
  · rw [Config.move_other he]
    exact hc'

theorem value_reachable (h : Reachable (kernelCalls A kind heap₀ CpuId) s) :
    s.shared.value = kFree ∨ s.shared.value = kLocked :=
  (invariant_reachable (lockConfig_reachable (contextConfig_reachable h))).value

theorem lock_released (hA : A.Terminates)
    (h : Reachable (kernelCalls A .irqSaveLockGuard heap₀ CpuId) s) :
    ∃ t, Relation.ReflTransGen (kernelCalls A .irqSaveLockGuard heap₀ CpuId).step s t ∧
      t.shared.value = kFree ∧ ∀ c, (s.locals c).Idle → (t.locals c).Idle := by
  rcases value_reachable h with hfree | hlocked
  · exact ⟨s, .refl, hfree, fun _ hc => hc⟩
  · obtain ⟨c, hc⟩ := (running_holder_iff h).mp hlocked
    obtain ⟨g, flag, hsteps, hfree⟩ := holder_returns hA h hc
    refine ⟨s.move c g ⟨flag, .outside, (s.locals c).interrupted⟩, ?_, hfree, ?_⟩
    · exact CoreSteps.move (hsteps.core (s.locals c).interrupted)
    · apply idle_move
      rintro ⟨hout, -⟩
      rw [hout] at hc
      exact hc.elim

theorem cpu_returns (hA : A.Terminates)
    (h : Reachable (kernelCalls A .irqSaveLockGuard heap₀ CpuId) s) (c : CpuId) :
    ∃ t, Relation.ReflTransGen (kernelCalls A .irqSaveLockGuard heap₀ CpuId).step s t ∧
      (t.locals c).Idle ∧ ∀ c, (s.locals c).Idle → (t.locals c).Idle := by
  obtain ⟨u, hsu, hfree, hidle⟩ := lock_released hA h
  have hu := h.steps hsu
  have hnot : ¬ (u.locals c).running.Holds := by
    intro hc
    have hlocked := (running_holder_iff hu).mpr ⟨c, hc⟩
    exact kLocked_ne_kFree (hlocked.symm.trans hfree)
  obtain ⟨g, flag, hsteps, -⟩ := core_returns .irqSaveLockGuard hA (u.locals c).flag hfree hnot
    (running_guarded hu c) (core_safe_reachable hu c).interrupted
  refine ⟨u.move c g ⟨flag, .outside, []⟩, hsu.trans (CoreSteps.move hsteps), ?_, ?_⟩
  · rw [Config.move_self]
    exact ⟨rfl, rfl⟩
  · intro c' hc'
    exact idle_move (fun _ => ⟨rfl, rfl⟩) c' (hidle c' hc')

theorem cpus_return (hA : A.Terminates)
    (h : Reachable (kernelCalls A .irqSaveLockGuard heap₀ CpuId) s) (cpus : Finset CpuId) :
    ∃ t, Relation.ReflTransGen (kernelCalls A .irqSaveLockGuard heap₀ CpuId).step s t ∧
      ∀ c ∈ cpus, (t.locals c).Idle := by
  induction cpus using Finset.induction_on with
  | empty => exact ⟨s, .refl, fun c hc => absurd hc (Finset.notMem_empty c)⟩
  | insert c cpus _ ih =>
    obtain ⟨u, hsu, hu⟩ := ih
    obtain ⟨t, hut, hc, hkeep⟩ := cpu_returns hA (h.steps hsu) c
    refine ⟨t, hsu.trans hut, ?_⟩
    intro c' hc'
    rcases Finset.mem_insert.mp hc' with rfl | hc'
    · exact hc
    · exact hkeep c' (hu c' hc')

theorem CallStep.acquired {g g' : Shared A} {l l' : Caller A} (h : CallStep kind g l g' l') :
    g.acquired <+: g'.acquired := by
  cases h with
  | exchange => exact List.prefix_append _ _
  | _ => exact List.prefix_refl _

theorem CoreStep.acquired {g g' : Shared A} {cpu cpu' : Core A}
    (h : CoreStep kind g cpu g' cpu') : g.acquired <+: g'.acquired := by
  cases h with
  | call g' flag flag' pc pc' stack hcall => exact hcall.acquired
  | _ => exact List.prefix_refl _

theorem acquired_prefix
    (h : Relation.ReflTransGen (kernelCalls A kind heap₀ CpuId).step s t) :
    s.shared.acquired <+: t.shared.acquired := by
  induction h with
  | refl => exact List.prefix_refl _
  | tail _ hstep ih =>
    obtain ⟨c, g, cpu, hstep, rfl⟩ := hstep
    exact ih.trans hstep.acquired

structure Quiescent (heap₀ : A.Heap) (s : Config CpuId (Shared A) (Core A)) : Prop where
  idle : ∀ c, (s.locals c).Idle
  free : s.shared.value = kFree
  returned : ∀ k < s.shared.acquired.length,
    k ∈ s.shared.returned.filterMap Returned.ticket
  executed : ∃ values,
    A.Sequential heap₀ (s.shared.acquired.map Call.operation) values s.shared.heap ∧
      ∀ r ∈ s.shared.returned, r.Agrees s.shared.acquired values

theorem Core.Idle.context {cpu : Core A} (h : cpu.Idle) (d : ℕ) : cpu.context d = .outside := by
  obtain ⟨flag, pc, stack⟩ := cpu
  obtain ⟨rfl, rfl⟩ := h
  cases d <;> rfl

theorem quiescent_of_idle (hA : A.Terminates)
    (h : Reachable (kernelCalls A .irqSaveLockGuard heap₀ CpuId) s)
    (hidle : ∀ c, (s.locals c).Idle) : Quiescent heap₀ s := by
  have hr := contextConfig_reachable h
  have hout (θ : CpuId × ℕ) : (contextConfig s).locals θ = callerOf .outside :=
    congrArg callerOf ((hidle θ.1).context θ.2)
  obtain ⟨values, heap, hseq, hs⟩ := agreement_reachable hA hr
  have hheap : s.shared.heap = heap := by
    apply hs.idle
    rintro θ ⟨call, guard, frame, hpc⟩
    rw [hout] at hpc
    cases hpc
  constructor
  · exact hidle
  · rcases value_reachable h with hfree | hlocked
    · exact hfree
    · obtain ⟨c, hc⟩ := (running_holder_iff h).mp hlocked
      rw [(hidle c).1] at hc
      exact hc.elim
  · intro k hk
    rcases (tickets_reachable hr).covered k hk with hback | ⟨θ, hθ⟩
    · exact hback
    · rw [hout] at hθ
      cases hθ
  · refine ⟨values, ?_, hs.returned⟩
    rw [hheap]
    exact hseq

theorem kernelCalls_quiesces [Finite CpuId] (hA : A.Terminates)
    (h : Reachable (kernelCalls A .irqSaveLockGuard heap₀ CpuId) s) :
    ∃ t, Relation.ReflTransGen (kernelCalls A .irqSaveLockGuard heap₀ CpuId).step s t ∧
      s.shared.acquired <+: t.shared.acquired ∧ Quiescent heap₀ t := by
  cases nonempty_fintype CpuId
  obtain ⟨t, hst, hidle⟩ := cpus_return hA h Finset.univ
  refine ⟨t, hst, acquired_prefix hst, quiescent_of_idle hA (h.steps hst) ?_⟩
  intro c
  exact hidle c (Finset.mem_univ c)

theorem kernelCalls_quiesces_spinning : ∃ s t : Config Bool (Shared bump) (Core bump),
    (s.locals true).running.Holds ∧ (s.locals false).running = .loading (.free 64) (some true) ∧
      (s.locals false).interrupted = [(.flagsRead (.malloc 16) true, true)] ∧
      s.shared.acquired <+: t.shared.acquired ∧ Quiescent (A := bump) (64 : ℕ) t := by
  have h0 : Reachable (kernelCalls bump .irqSaveLockGuard (64 : ℕ) Bool)
      ⟨{ heap := (64 : ℕ) }, fun _ => ⟨true, .outside, []⟩⟩ := .init ⟨rfl, fun _ => ⟨true, rfl⟩⟩
  have h1 := h0.step ⟨true, _, _, .call _ _ _ _ _ _ _ (.readFlags _ _ (.calloc 2 8) rfl rfl), rfl⟩
  have h2 := h1.step ⟨true, _, _, .call _ _ _ _ _ _ _ (.cli _ _ _ _), rfl⟩
  have h3 := h2.step ⟨true, _, _, .call _ _ _ _ _ _ _ (.load _ _ _ _), rfl⟩
  have h4 := h3.step ⟨true, _, _, .call _ _ _ _ _ _ _ (.exchange _ _ _ _ rfl), rfl⟩
  have h5 := h4.step ⟨false, _, _, .call _ _ _ _ _ _ _ (.readFlags _ _ (.malloc 16) rfl rfl), rfl⟩
  have h6 := h5.step ⟨false, _, _, .interrupt _ _ _, rfl⟩
  have h7 := h6.step ⟨false, _, _, .irqEnable _ _ _, rfl⟩
  have h8 := h7.step ⟨false, _, _, .call _ _ _ _ _ _ _ (.readFlags _ _ (.free 64) rfl rfl), rfl⟩
  have h9 := h8.step ⟨false, _, _, .call _ _ _ _ _ _ _ (.cli _ _ _ _), rfl⟩
  have h10 := h9.step ⟨false, _, _, .call _ _ _ _ _ _ _ (.load _ _ _ _), rfl⟩
  obtain ⟨t, -, hacq, hquiet⟩ := kernelCalls_quiesces bump_terminates h10
  refine ⟨_, t, ?_, ?_, ?_, hacq, hquiet⟩
  · exact Option.some_ne_none _
  · rfl
  · rfl

def Pc.Waits (pc : Pc A) : Prop :=
  ∃ call wasEnabled, pc = .loading call wasEnabled ∨ pc = .exchanging call wasEnabled

def Core.Stuck (cpu : Core A) : Prop :=
  ∃ above holder saved below, cpu.interrupted = above ++ (holder, saved) :: below ∧
    holder.Holds ∧ ∃ pc ∈ cpu.running :: above.map Prod.fst, pc.Waits

theorem Core.Stuck.holder {cpu : Core A} (h : cpu.Stuck) :
    ∃ d < cpu.interrupted.length, (cpu.context d).Holds := by
  obtain ⟨above, holder, saved, below, hstack, hholds, -⟩ := h
  refine ⟨below.length, ?_, ?_⟩
  · rw [hstack, List.length_append, List.length_cons]
    omega
  · have hget : cpu.contexts[below.length]? = some holder := by
      have hcontexts : cpu.contexts = below.reverse.map Prod.fst ++
          holder :: (above.reverse.map Prod.fst ++ [cpu.running]) := by
        simp only [contexts, hstack, List.reverse_append, List.reverse_cons, List.append_assoc,
          List.map_append, List.map_cons, List.cons_append, List.nil_append]
      have hlen : below.length = (below.reverse.map Prod.fst).length := by
        rw [List.length_map, List.length_reverse]
      rw [hcontexts, hlen, List.getElem?_append_right (Nat.le_refl _), Nat.sub_self]
      rfl
    rw [context, hget, Option.getD_some]
    exact hholds

theorem CallStep.locked {g g' : Shared A} {l l' : Caller A} (h : CallStep kind g l g' l')
    (hlocked : g.value = kLocked) (hl : ¬ l.pc.Holds) :
    g'.value = kLocked ∧ g'.acquired = g.acquired ∧ (l.pc.Waits → l'.pc.Waits) := by
  have hnot {v : ℤ} {ok : Bool} (hx : compareExchangeStrong g.value kFree kLocked = (ok, v)) :
      ok = false ∧ v = kLocked := by
    rcases compareExchangeStrong_cases hx with ⟨-, hfree, -⟩ | ⟨hok, -, hv⟩
    · exact absurd (hlocked.symm.trans hfree) kLocked_ne_kFree
    · exact ⟨hok, hv.trans hlocked⟩
  have hidle {pc : Pc A} (hpc : ∀ call w, pc ≠ .loading call w ∧ pc ≠ .exchanging call w)
      (pc' : Pc A) : pc.Waits → pc'.Waits := by
    rintro ⟨call, w, h | h⟩
    · exact absurd h (hpc call w).1
    · exact absurd h (hpc call w).2
  cases h with
  | load enabled c wasEnabled =>
    refine ⟨hlocked, rfl, fun _ => ⟨c, wasEnabled, .inl ?_⟩⟩
    exact if_pos hlocked
  | exchange enabled c wasEnabled hx => exact absurd (hnot hx).1 Bool.true_eq_false.mp
  | exchangeFails enabled c wasEnabled hx =>
    exact ⟨(hnot hx).2, rfl, fun _ => ⟨c, wasEnabled, .inl rfl⟩⟩
  | unlock enabled c guard => exact absurd (Option.some_ne_none guard) hl
  | _ =>
    refine ⟨hlocked, rfl, hidle ?_ _⟩
    intro call w
    constructor <;> rintro ⟨⟩

theorem CoreStep.stuck {g g' : Shared A} {cpu cpu' : Core A} (h : CoreStep kind g cpu g' cpu')
    (hlocked : g.value = kLocked) (hrunning : ¬ cpu.running.Holds) (hs : cpu.Stuck) :
    cpu'.Stuck := by
  obtain ⟨above, holder, saved, below, hstack, hholds, pc, hpc, hwaits⟩ := hs
  cases h with
  | call g' flag flag' pc₁ pc₂ stack hcall =>
    refine ⟨above, holder, saved, below, hstack, hholds, ?_⟩
    rcases List.mem_cons.mp hpc with rfl | hpc
    · exact ⟨pc₂, List.mem_cons_self, (hcall.locked hlocked hrunning).2.2 hwaits⟩
    · exact ⟨pc, List.mem_cons_of_mem pc₂ hpc, hwaits⟩
  | irqEnable | irqDisable => exact ⟨above, holder, saved, below, hstack, hholds, pc, hpc, hwaits⟩
  | interrupt pc₁ stack =>
    refine ⟨(pc₁, true) :: above, holder, saved, below, ?_, hholds, pc, ?_, hwaits⟩
    · rw [List.cons_append, ← hstack]
    · exact List.mem_cons_of_mem _ hpc
  | iret flag pc₁ saved₁ stack =>
    have hout : pc ≠ .outside := by
      rintro rfl
      obtain ⟨call, w, h | h⟩ := hwaits <;> cases h
    have habove := (List.mem_cons.mp hpc).resolve_left hout
    cases above with
    | nil => exact absurd habove List.not_mem_nil
    | cons p above =>
      obtain ⟨rfl, rfl⟩ := List.cons.inj hstack
      exact ⟨above, holder, saved, below, rfl, hholds, pc, habove, hwaits⟩

theorem running_of_stuck (h : Reachable (kernelCalls A kind heap₀ CpuId) s) {c : CpuId}
    (hs : (s.locals c).Stuck) (c' : CpuId) : ¬ (s.locals c').running.Holds := by
  intro hc'
  obtain ⟨d, hd, hholds⟩ := hs.holder
  have hinv := invariant_reachable (lockConfig_reachable (contextConfig_reachable h))
  have hθ' : ((s.locals c').context (s.locals c').interrupted.length).Holds := by
    rw [Core.context_length]
    exact hc'
  have heq := hinv.owned.unique (c, d) (c', (s.locals c').interrupted.length)
    ((Pc.holds_iff _).mpr hholds) ((Pc.holds_iff _).mpr hθ')
  obtain ⟨rfl, rfl⟩ := Prod.mk.inj heq
  exact Nat.lt_irrefl _ hd

theorem CoreStep.locked {g g' : Shared A} {cpu cpu' : Core A} (h : CoreStep kind g cpu g' cpu')
    (hlocked : g.value = kLocked) (hrunning : ¬ cpu.running.Holds) :
    g'.value = kLocked ∧ g'.acquired = g.acquired := by
  cases h with
  | call g' flag flag' pc pc' stack hcall =>
    obtain ⟨hvalue, hacq, -⟩ := hcall.locked hlocked hrunning
    exact ⟨hvalue, hacq⟩
  | _ => exact ⟨hlocked, rfl⟩

theorem kernelCalls_stuck (h : Reachable (kernelCalls A kind heap₀ CpuId) s) {c : CpuId}
    (hs : (s.locals c).Stuck)
    (hst : Relation.ReflTransGen (kernelCalls A kind heap₀ CpuId).step s t) :
    (t.locals c).Stuck ∧ t.shared.value = kLocked ∧ t.shared.acquired = s.shared.acquired := by
  induction hst with
  | refl =>
    obtain ⟨d, -, hholds⟩ := hs.holder
    exact ⟨hs, (holder_iff h).mpr ⟨c, d, hholds⟩, rfl⟩
  | @tail u v hsu hstep ih =>
    obtain ⟨hu, hlocked, hacq⟩ := ih
    have hrunning := running_of_stuck (h.steps hsu) hu
    obtain ⟨c', g, cpu, hstep, rfl⟩ := hstep
    obtain ⟨hvalue, hacq'⟩ := hstep.locked hlocked (hrunning c')
    refine ⟨?_, hvalue, hacq'.trans hacq⟩
    by_cases he : c = c'
    · subst he
      rw [Config.move_self]
      exact hstep.stuck hlocked (hrunning c) hu
    · rw [Config.move_other he]
      exact hu

theorem kernelCalls_stuck_lockGuard : ∃ s : Config Bool (Shared bump) (Core bump),
    Reachable (kernelCalls bump .lockGuard (64 : ℕ) Bool) s ∧ ∀ t,
      Relation.ReflTransGen (kernelCalls bump .lockGuard (64 : ℕ) Bool).step s t →
        (t.locals true).Stuck ∧ t.shared.value = kLocked ∧
          t.shared.acquired = s.shared.acquired := by
  have h0 : Reachable (kernelCalls bump .lockGuard (64 : ℕ) Bool)
      ⟨{ heap := (64 : ℕ) }, fun _ => ⟨true, .outside, []⟩⟩ := .init ⟨rfl, fun _ => ⟨true, rfl⟩⟩
  have h1 := h0.step ⟨true, _, _, .call _ _ _ _ _ _ _ (.lockGuard _ _ (.malloc 16) rfl rfl), rfl⟩
  have h2 := h1.step ⟨true, _, _, .call _ _ _ _ _ _ _ (.load _ _ _ _), rfl⟩
  have h3 := h2.step ⟨true, _, _, .call _ _ _ _ _ _ _ (.exchange _ _ _ _ rfl), rfl⟩
  have h4 := h3.step ⟨true, _, _, .interrupt _ _ _, rfl⟩
  have h5 := h4.step ⟨true, _, _, .call _ _ _ _ _ _ _ (.lockGuard _ _ (.free 64) rfl rfl), rfl⟩
  refine ⟨_, h5, fun t => kernelCalls_stuck h5 ?_⟩
  refine ⟨[], _, true, [], rfl, Option.some_ne_none _, .loading (.free 64) none, ?_, ?_⟩
  · exact List.mem_singleton.mpr rfl
  · exact ⟨_, _, .inl rfl⟩

end Kernel
end OsdevLibstdc.Malloc
