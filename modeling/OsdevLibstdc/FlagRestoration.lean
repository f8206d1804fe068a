import OsdevLibstdc.InterruptGuard
import OsdevLibstdc.NestedEvents

/-!
The interrupt flag of a CPU under nested `irq_save_guard` and `irq_save_lock_guard` objects. All
other code, the locks' own and that of other CPUs included, changes the memory and not the flag.
-/

namespace OsdevLibstdc.Dux.Irq

open NestedEvents TransitionSystems

section Model

variable (Lock : Type)

inductive GuardClass
  | irqSaveGuard
  | irqSaveLockGuard (lock : Lock)

/-- Where a context is with the guard it constructs or destructs: in front of `pushfl`, past
`popl`, in `lock`, in `unlock`, in front of `irq_restore` and past it. -/
inductive Phase
  | running
  | constructing (cls : GuardClass Lock)
  | flagsRead (cls : GuardClass Lock) (wasEnabled : Bool)
  | locking (lock : Lock) (wasEnabled : Bool)
  | unlocking (lock : Lock) (wasEnabled : Bool)
  | restoring (wasEnabled : Bool)
  | returning

structure Guard where
  cls : GuardClass Lock
  wasEnabled : Bool

structure Context where
  phase : Phase Lock := .running
  guards : List (Guard Lock) := []

/-- The interrupt flag, the running context and the contexts it has interrupted, the last of them
first, each with the flag that its interrupt has saved. -/
structure Cpu where
  flag : Bool
  current : Context Lock
  interrupted : List (Context Lock × Bool)

end Model

variable {Lock Memory : Type}

def GuardClass.disabled (wasEnabled : Bool) (guards : List (Guard Lock)) :
    GuardClass Lock → Context Lock
  | .irqSaveGuard => ⟨.running, ⟨.irqSaveGuard, wasEnabled⟩ :: guards⟩
  | .irqSaveLockGuard lock => ⟨.locking lock wasEnabled, guards⟩

def Guard.destructor : Guard Lock → Phase Lock
  | ⟨.irqSaveGuard, wasEnabled⟩ => .restoring wasEnabled
  | ⟨.irqSaveLockGuard lock, wasEnabled⟩ => .unlocking lock wasEnabled

def irqRestore (wasEnabled flag : Bool) : Bool := if wasEnabled then true else flag

/-- A step of the CPU. A call of a constructor and the return of a destructor are events that
carry the flag. -/
inductive Step : Memory → Cpu Lock → List (Event Bool) → Memory → Cpu Lock → Prop
  | code (memory memory' cpu) : Step memory cpu [] memory' cpu
  | construct (memory flag guards stack cls) :
      Step memory ⟨flag, ⟨.running, guards⟩, stack⟩ [.opened flag]
        memory ⟨flag, ⟨.constructing cls, guards⟩, stack⟩
  | readFlags (memory flag guards stack cls) :
      Step memory ⟨flag, ⟨.constructing cls, guards⟩, stack⟩ []
        memory ⟨flag, ⟨.flagsRead cls flag, guards⟩, stack⟩
  | cli (memory flag guards stack cls wasEnabled) :
      Step memory ⟨flag, ⟨.flagsRead cls wasEnabled, guards⟩, stack⟩ []
        memory ⟨false, cls.disabled wasEnabled guards, stack⟩
  | locked (memory flag guards stack lock wasEnabled) :
      Step memory ⟨flag, ⟨.locking lock wasEnabled, guards⟩, stack⟩ []
        memory ⟨flag, ⟨.running, ⟨.irqSaveLockGuard lock, wasEnabled⟩ :: guards⟩, stack⟩
  | destruct (memory flag guards stack guard) :
      Step memory ⟨flag, ⟨.running, guard :: guards⟩, stack⟩ []
        memory ⟨flag, ⟨guard.destructor, guards⟩, stack⟩
  | unlocked (memory flag guards stack lock wasEnabled) :
      Step memory ⟨flag, ⟨.unlocking lock wasEnabled, guards⟩, stack⟩ []
        memory ⟨flag, ⟨.restoring wasEnabled, guards⟩, stack⟩
  | restore (memory flag guards stack wasEnabled) :
      Step memory ⟨flag, ⟨.restoring wasEnabled, guards⟩, stack⟩ []
        memory ⟨irqRestore wasEnabled flag, ⟨.returning, guards⟩, stack⟩
  | destructed (memory flag guards stack) :
      Step memory ⟨flag, ⟨.returning, guards⟩, stack⟩ [.closed flag]
        memory ⟨flag, ⟨.running, guards⟩, stack⟩
  | interrupt (memory context stack) :
      Step memory ⟨true, context, stack⟩ [] memory ⟨false, {}, (context, true) :: stack⟩
  | iret (memory flag context saved stack) :
      Step memory ⟨flag, {}, (context, saved) :: stack⟩ [] memory ⟨saved, context, stack⟩

structure Run (Memory Lock : Type) where
  memory : Memory
  cpu : Cpu Lock
  trace : List (Event Bool)

def guardRuns (Memory Lock : Type) : System (Run Memory Lock) where
  init s := s.trace = [] ∧ ∃ flag, s.cpu = ⟨flag, {}, []⟩
  step s t := ∃ es, Step s.memory s.cpu es t.memory t.cpu ∧ t.trace = s.trace ++ es

def Context.Inside (c : Context Lock) : Prop :=
  c.guards ≠ [] ∨ match c.phase with
    | .locking _ _ | .unlocking _ _ | .restoring _ => True
    | .running | .constructing _ | .flagsRead _ _ | .returning => False

def Phase.pending (flag : Bool) : Phase Lock → List Bool
  | .running => []
  | .constructing _ | .returning => [flag]
  | .flagsRead _ b | .locking _ b | .unlocking _ b | .restoring b => [b]

def Context.pending (flag : Bool) (c : Context Lock) : List Bool :=
  c.phase.pending flag ++ c.guards.map Guard.wasEnabled

def Cpu.pending (cpu : Cpu Lock) : List Bool :=
  cpu.current.pending cpu.flag ++ cpu.interrupted.flatMap fun c => c.1.pending c.2

def Nested : List Bool → Prop
  | [] => True
  | b :: bs => (bs ≠ [] → b = false) ∧ Nested bs

structure Cpu.Safe (cpu : Cpu Lock) : Prop where
  flag : cpu.current.Inside → cpu.flag = false
  interrupted : ∀ c ∈ cpu.interrupted, ¬ c.1.Inside
  nested : Nested (cpu.current.pending cpu.flag)
  nested_interrupted : ∀ c ∈ cpu.interrupted, Nested (c.1.pending c.2)

def Cpu.contexts (cpu : Cpu Lock) : List (Context Lock) :=
  cpu.current :: cpu.interrupted.map Prod.fst

section Steps

variable {memory memory' : Memory} {cpu cpu' : Cpu Lock} {es : List (Event Bool)}

theorem not_inside_empty : ¬ ({} : Context Lock).Inside := by
  rintro (h | h)
  · exact h rfl
  · exact h

theorem irqRestore_false (b : Bool) : irqRestore b false = b := by
  cases b <;> rfl

theorem pending_disabled (cls : GuardClass Lock) (flag b : Bool) (guards : List (Guard Lock)) :
    (cls.disabled b guards).pending flag = b :: guards.map Guard.wasEnabled := by
  cases cls <;> rfl

theorem pending_destructor (guard : Guard Lock) (flag : Bool) :
    guard.destructor.pending flag = [guard.wasEnabled] := by
  obtain ⟨cls, b⟩ := guard
  cases cls <;> rfl

theorem Step.safe (h : Step memory cpu es memory' cpu') (hs : cpu.Safe) : cpu'.Safe := by
  obtain ⟨hflag, hout, hnested, hnested'⟩ := hs
  cases h with
  | code => exact ⟨hflag, hout, hnested, hnested'⟩
  | construct flag guards stack cls =>
    refine ⟨?_, hout, ⟨?_, hnested⟩, hnested'⟩
    · rintro (h | h)
      · exact hflag (.inl h)
      · exact h.elim
    · intro h
      exact hflag (.inl fun h0 => h (by rw [h0]; rfl))
  | readFlags flag guards stack cls =>
    refine ⟨?_, hout, hnested, hnested'⟩
    rintro (h | h)
    · exact hflag (.inl h)
    · exact h.elim
  | cli flag guards stack cls wasEnabled =>
    refine ⟨fun _ => rfl, hout, ?_, hnested'⟩
    rw [pending_disabled]
    exact hnested
  | locked flag guards stack lock wasEnabled =>
    exact ⟨fun _ => hflag (.inr trivial), hout, hnested, hnested'⟩
  | destruct flag guards stack guard =>
    refine ⟨fun _ => hflag (.inl (List.cons_ne_nil _ _)), hout, ?_, hnested'⟩
    rw [Context.pending, pending_destructor]
    exact hnested
  | unlocked flag guards stack lock wasEnabled =>
    exact ⟨fun _ => hflag (.inr trivial), hout, hnested, hnested'⟩
  | restore flag guards stack wasEnabled =>
    obtain rfl : flag = false := hflag (.inr trivial)
    rw [irqRestore_false]
    refine ⟨?_, hout, hnested, hnested'⟩
    rintro (h | h)
    · exact hnested.1 fun h0 => h (List.map_eq_nil_iff.mp h0)
    · exact h.elim
  | destructed flag guards stack =>
    refine ⟨?_, hout, hnested.2, hnested'⟩
    rintro (h | h)
    · exact hflag (.inl h)
    · exact h.elim
  | interrupt context stack =>
    have hnot : ¬ context.Inside := by
      intro h
      exact Bool.noConfusion (hflag h)
    exact ⟨fun h => absurd h not_inside_empty, List.forall_mem_cons.mpr ⟨hnot, hout⟩, trivial,
      List.forall_mem_cons.mpr ⟨hnested, hnested'⟩⟩
  | iret flag context saved stack =>
    obtain ⟨hnot, hrest⟩ := List.forall_mem_cons.mp hout
    obtain ⟨hcontext, hrest'⟩ := List.forall_mem_cons.mp hnested'
    exact ⟨fun h => absurd h hnot, hrest, hcontext, hrest'⟩

theorem Step.openAfter (h : Step memory cpu es memory' cpu') (hs : cpu.Safe) :
    openAfter cpu.pending es = some cpu'.pending := by
  cases h with
  | code | construct | readFlags | locked | unlocked | interrupt | iret => rfl
  | cli flag guards stack cls wasEnabled =>
    cases cls <;> rfl
  | destruct flag guards stack guard =>
    obtain ⟨cls, wasEnabled⟩ := guard
    cases cls <;> rfl
  | restore flag guards stack wasEnabled =>
    obtain rfl : flag = false := hs.flag (.inr trivial)
    rw [irqRestore_false]
    rfl
  | destructed flag guards stack =>
    exact openAfter_closed.mpr rfl

end Steps

section Runs

variable {s : Run Memory Lock}

theorem reachable_step {memory memory' : Memory} {cpu cpu' : Cpu Lock}
    {trace es : List (Event Bool)} (h : Reachable (guardRuns Memory Lock) ⟨memory, cpu, trace⟩)
    (hs : Step memory cpu es memory' cpu') :
    Reachable (guardRuns Memory Lock) ⟨memory', cpu', trace ++ es⟩ := h.step ⟨es, hs, rfl⟩

theorem guardRuns_invariant (h : Reachable (guardRuns Memory Lock) s) :
    s.cpu.Safe ∧ NestedEvents.openAfter [] s.trace = some s.cpu.pending := by
  apply h.invariant
    (I := fun s => s.cpu.Safe ∧ NestedEvents.openAfter [] s.trace = some s.cpu.pending)
  · rintro s ⟨htrace, flag, hcpu⟩
    rw [htrace, hcpu]
    exact ⟨⟨fun h => absurd h not_inside_empty, List.forall_mem_nil _, trivial,
      List.forall_mem_nil _⟩, rfl⟩
  · rintro s t - ⟨hsafe, hopen⟩ ⟨es, hstep, htrace⟩
    refine ⟨hstep.safe hsafe, ?_⟩
    rw [htrace]
    exact openAfter_append_eq_some.mpr ⟨_, hopen, hstep.openAfter hsafe⟩

structure FlagRestored (s : Run Memory Lock) : Prop where
  clear : ∀ c ∈ s.cpu.contexts, c.Inside → s.cpu.flag = false
  nested : ∀ us after ws, s.trace = us ++ .closed after :: ws →
    ∃ us' before vs, us = us' ++ .opened before :: vs ∧ Balanced vs
  restored : ∀ us before vs after ws,
    s.trace = us ++ .opened before :: (vs ++ .closed after :: ws) → Balanced vs → after = before

theorem guardRuns_flagRestored (h : Reachable (guardRuns Memory Lock) s) : FlagRestored s := by
  obtain ⟨hsafe, hopen⟩ := guardRuns_invariant h
  constructor
  · intro c hc hin
    rcases List.mem_cons.mp hc with rfl | hc
    · exact hsafe.flag hin
    · obtain ⟨c', hmem, rfl⟩ := List.mem_map.mp hc
      exact absurd hin (hsafe.interrupted c' hmem)
  · intro us after ws htrace
    rw [htrace] at hopen
    obtain ⟨us', vs, hus, hvs⟩ := exists_matching hopen
    exact ⟨us', after, vs, hus, hvs⟩
  · intro us before vs after ws htrace hvs
    rw [htrace] at hopen
    exact matching_eq hopen hvs

theorem guardRuns_flagRestored_handler : ∃ s : Run Unit Unit,
    s.trace = [.opened true, .opened false, .closed false, .closed true] ∧ FlagRestored s := by
  have h0 : Reachable (guardRuns Unit Unit) ⟨(), ⟨true, {}, []⟩, []⟩ := .init ⟨rfl, true, rfl⟩
  have h1 := reachable_step h0 (.construct _ _ _ _ .irqSaveGuard)
  have h2 := reachable_step h1 (.readFlags _ _ _ _ _)
  have h3 := reachable_step h2 (.interrupt _ _ _)
  have h4 := reachable_step h3 (.construct _ _ _ _ (.irqSaveLockGuard ()))
  have h5 := reachable_step h4 (.readFlags _ _ _ _ _)
  have h6 := reachable_step h5 (.cli _ _ _ _ _ _)
  have h7 := reachable_step h6 (.locked _ _ _ _ _ _)
  have h8 := reachable_step h7 (.destruct _ _ _ _ _)
  have h9 := reachable_step h8 (.unlocked _ _ _ _ _ _)
  have h10 := reachable_step h9 (.restore _ _ _ _ _)
  have h11 := reachable_step h10 (.destructed _ _ _ _)
  have h12 := reachable_step h11 (.iret _ _ _ _ _)
  have h13 := reachable_step h12 (.cli _ _ _ _ _ _)
  have h14 := reachable_step h13 (.destruct _ _ _ _ _)
  have h15 := reachable_step h14 (.restore _ _ _ _ _)
  have h16 := reachable_step h15 (.destructed _ _ _ _)
  exact ⟨_, rfl, guardRuns_flagRestored h16⟩

end Runs

section SpinLocks

def ofPhase : Dux.Phase Lock → Phase Lock
  | .running => .running
  | .flagsRead lock wasEnabled => .flagsRead (.irqSaveLockGuard lock) wasEnabled
  | .loading lock wasEnabled | .exchanging lock wasEnabled => .locking lock wasEnabled
  | .restoring wasEnabled => .restoring wasEnabled

def ofGuard (g : Dux.Guard Lock) : Guard Lock := ⟨.irqSaveLockGuard g.lock, g.wasEnabled⟩

def ofContext (c : Dux.Context Lock) : Context Lock := ⟨ofPhase c.phase, c.guards.map ofGuard⟩

def ofCpu (cpu : Dux.Cpu Lock) : Cpu Lock :=
  ⟨cpu.flag, ofContext cpu.current, cpu.interrupted.map fun c => (ofContext c.1, c.2)⟩

theorem irqRestore_eq_or (b flag : Bool) : irqRestore b flag = (flag || b) := by
  cases b <;> cases flag <;> rfl

variable [DecidableEq Lock]

theorem reachable_cpuStep {value value' : Lock → ℤ} {cpu cpu' : Dux.Cpu Lock}
    {trace : List (Event Bool)}
    (h : Reachable (guardRuns (Lock → ℤ) Lock) ⟨value, ofCpu cpu, trace⟩)
    (hs : CpuStep value cpu value' cpu') :
    ∃ trace, Reachable (guardRuns (Lock → ℤ) Lock) ⟨value', ofCpu cpu', trace⟩ := by
  cases hs with
  | readFlags flag guards stack lock =>
    have h₁ := reachable_step h (.construct _ _ _ _ (.irqSaveLockGuard lock))
    exact ⟨_, reachable_step h₁ (.readFlags _ _ _ _ _)⟩
  | cli flag guards stack lock wasEnabled =>
    exact ⟨_, reachable_step h (.cli _ _ _ _ _ _)⟩
  | load flag guards stack lock wasEnabled =>
    refine ⟨trace, ?_⟩
    simp only [ofCpu, ofContext] at h ⊢
    split_ifs <;> exact h
  | exchange flag guards stack lock wasEnabled =>
    exact ⟨_, reachable_step (reachable_step h (.code _ _ _)) (.locked _ _ _ _ _ _)⟩
  | exchangeFails flag guards stack lock wasEnabled =>
    exact ⟨_, reachable_step h (.code _ _ _)⟩
  | unlock flag guards stack lock wasEnabled =>
    have h₁ := reachable_step h (.destruct _ _ _ _ _)
    exact ⟨_, reachable_step (reachable_step h₁ (.code _ _ _)) (.unlocked _ _ _ _ _ _)⟩
  | restore flag guards stack wasEnabled =>
    have h₁ := reachable_step h (.restore _ _ _ _ _)
    rw [irqRestore_eq_or] at h₁
    exact ⟨_, reachable_step h₁ (.destructed _ _ _ _)⟩
  | interrupt context stack =>
    exact ⟨_, reachable_step h (.interrupt _ _ _)⟩
  | iret flag context saved stack =>
    exact ⟨_, reachable_step h (.iret _ _ _ _ _)⟩

theorem interruptGuards_guardRuns {CpuId : Type} [DecidableEq CpuId]
    {s : Config CpuId (Lock → ℤ) (Dux.Cpu Lock)}
    (h : Reachable (interruptGuards CpuId Lock) s) (c : CpuId) :
    ∃ trace, Reachable (guardRuns (Lock → ℤ) Lock) ⟨s.shared, ofCpu (s.locals c), trace⟩ := by
  revert c
  apply h.invariant (I := fun s => ∀ c, ∃ trace,
    Reachable (guardRuns (Lock → ℤ) Lock) ⟨s.shared, ofCpu (s.locals c), trace⟩)
  · rintro s ⟨-, hidle⟩ c
    obtain ⟨flag, hc⟩ := hidle c
    rw [hc]
    exact ⟨[], .init ⟨rfl, flag, rfl⟩⟩
  · rintro s t - hs ⟨c, value, cpu, hstep, rfl⟩
    apply Config.forall_move (P := fun _ l => ∃ trace,
      Reachable (guardRuns (Lock → ℤ) Lock) ⟨value, ofCpu l, trace⟩)
    · intro c' _
      obtain ⟨trace, hreach⟩ := hs c'
      exact ⟨_, reachable_step hreach (.code _ _ _)⟩
    · obtain ⟨trace, hreach⟩ := hs c
      exact reachable_cpuStep hreach hstep

end SpinLocks

end OsdevLibstdc.Dux.Irq
