import OsdevLibstdc.SpinLock

/-!
`dux::irq_save_lock_guard` on any number of CPUs. Interrupt handlers start between any two steps
while the flag of their CPU is set, and take locks through the same guard.
-/

namespace OsdevLibstdc.Dux

open TransitionSystems

section Model

variable (Lock : Type)

/-- Where a context is with its innermost guard: past the read of the flags, past `cli` and in
`lock`, or past `unlock` and in front of `irq_restore`. -/
inductive Phase
  | running
  | flagsRead (lock : Lock) (wasEnabled : Bool)
  | loading (lock : Lock) (wasEnabled : Bool)
  | exchanging (lock : Lock) (wasEnabled : Bool)
  | restoring (wasEnabled : Bool)

structure Guard where
  lock : Lock
  wasEnabled : Bool

structure Context where
  phase : Phase Lock := .running
  guards : List (Guard Lock) := []

/-- The interrupt flag, the running context and the contexts it has interrupted, the last of them
first, each with the flag that its interrupt has saved. -/
structure Cpu where
  flag : Bool
  current : Context Lock
  interrupted : List (Context Lock × Bool)

end Model

variable {Lock : Type}

inductive CpuStep [DecidableEq Lock] : (Lock → ℤ) → Cpu Lock → (Lock → ℤ) → Cpu Lock → Prop
  | readFlags (value flag guards stack) (lock : Lock) :
      CpuStep value ⟨flag, ⟨.running, guards⟩, stack⟩
        value ⟨flag, ⟨.flagsRead lock flag, guards⟩, stack⟩
  | cli (value flag guards stack) (lock : Lock) (wasEnabled) :
      CpuStep value ⟨flag, ⟨.flagsRead lock wasEnabled, guards⟩, stack⟩
        value ⟨false, ⟨.loading lock wasEnabled, guards⟩, stack⟩
  | load (value : Lock → ℤ) (flag guards stack) (lock : Lock) (wasEnabled) :
      CpuStep value ⟨flag, ⟨.loading lock wasEnabled, guards⟩, stack⟩
        value ⟨flag, ⟨if value lock = kLocked then .loading lock wasEnabled
          else .exchanging lock wasEnabled, guards⟩, stack⟩
  | exchange (value : Lock → ℤ) (flag guards stack) (lock : Lock) (wasEnabled) {v : ℤ} :
      compareExchangeStrong (value lock) kFree kLocked = (true, v) →
      CpuStep value ⟨flag, ⟨.exchanging lock wasEnabled, guards⟩, stack⟩
        (Function.update value lock v) ⟨flag, ⟨.running, ⟨lock, wasEnabled⟩ :: guards⟩, stack⟩
  | exchangeFails (value : Lock → ℤ) (flag guards stack) (lock : Lock) (wasEnabled) {v : ℤ} :
      compareExchangeStrong (value lock) kFree kLocked = (false, v) →
      CpuStep value ⟨flag, ⟨.exchanging lock wasEnabled, guards⟩, stack⟩
        (Function.update value lock v) ⟨flag, ⟨.loading lock wasEnabled, guards⟩, stack⟩
  | unlock (value flag guards stack) (lock : Lock) (wasEnabled) :
      CpuStep value ⟨flag, ⟨.running, ⟨lock, wasEnabled⟩ :: guards⟩, stack⟩
        (Function.update value lock kFree) ⟨flag, ⟨.restoring wasEnabled, guards⟩, stack⟩
  | restore (value flag guards stack wasEnabled) :
      CpuStep value ⟨flag, ⟨.restoring wasEnabled, guards⟩, stack⟩
        value ⟨flag || wasEnabled, ⟨.running, guards⟩, stack⟩
  | interrupt (value context stack) :
      CpuStep value ⟨true, context, stack⟩ value ⟨false, {}, (context, true) :: stack⟩
  | iret (value flag context saved stack) :
      CpuStep value ⟨flag, {}, (context, saved) :: stack⟩ value ⟨saved, context, stack⟩

def interruptGuards (CpuId Lock : Type) [DecidableEq CpuId] [DecidableEq Lock] :
    System (Config CpuId (Lock → ℤ) (Cpu Lock)) :=
  interleave (fun value => ∀ lock, value lock = kFree)
    (fun cpu => ∃ flag, cpu = ⟨flag, {}, []⟩) CpuStep

namespace Context

def Inside (c : Context Lock) : Prop :=
  c.guards ≠ [] ∨ match c.phase with
    | .loading _ _ | .exchanging _ _ | .restoring _ => True
    | .running | .flagsRead _ _ => False

def Holds (c : Context Lock) (lock : Lock) : Prop := ∃ g ∈ c.guards, g.lock = lock

def Spins (c : Context Lock) (lock : Lock) : Prop :=
  ∃ wasEnabled, c.phase = .loading lock wasEnabled ∨ c.phase = .exchanging lock wasEnabled

theorem Holds.inside {c : Context Lock} {lock : Lock} (h : c.Holds lock) : c.Inside := by
  obtain ⟨g, hg, -⟩ := h
  exact .inl (List.ne_nil_of_mem hg)

def Outermost (wasEnabled : Bool) (guards : List (Guard Lock)) : Prop :=
  guards ≠ [] → wasEnabled = false

def NestedGuards : List (Guard Lock) → Prop
  | [] => True
  | g :: guards => Outermost g.wasEnabled guards ∧ NestedGuards guards

structure Nested (c : Context Lock) : Prop where
  guards : NestedGuards c.guards
  phase : match c.phase with
    | .running => True
    | .flagsRead _ b | .loading _ b | .exchanging _ b | .restoring b => Outermost b c.guards

end Context

structure Cpu.Safe (cpu : Cpu Lock) : Prop where
  flag : cpu.current.Inside → cpu.flag = false
  interrupted : ∀ c ∈ cpu.interrupted, ¬ c.1.Inside
  nested : cpu.current.Nested
  nested_interrupted : ∀ c ∈ cpu.interrupted, c.1.Nested

theorem Context.nested_empty : ({} : Context Lock).Nested := ⟨trivial, trivial⟩

theorem Context.not_inside_empty : ¬ ({} : Context Lock).Inside := by
  rintro (h | h)
  · exact h rfl
  · exact h

def Cpu.contexts (cpu : Cpu Lock) : List (Context Lock) :=
  cpu.current :: cpu.interrupted.map Prod.fst

structure NoSelfDeadlock (cpu : Cpu Lock) : Prop where
  flag_clear : ∀ c ∈ cpu.contexts, ∀ lock, Context.Holds c lock → cpu.flag = false
  alone : ∀ (i j : ℕ) (c c' : Context Lock), cpu.contexts[i]? = some c →
    cpu.contexts[j]? = some c' → j ≠ i → ∀ lock, c.Holds lock → ¬ c'.Inside
  no_spin : ∀ (i j : ℕ) (c c' : Context Lock), cpu.contexts[i]? = some c →
    cpu.contexts[j]? = some c' → i < j → ∀ lock, c.Spins lock → ¬ c'.Holds lock

theorem Cpu.Safe.inside_iff {cpu : Cpu Lock} (h : cpu.Safe) {i : ℕ} {c : Context Lock}
    (hc : cpu.contexts[i]? = some c) (hin : c.Inside) : i = 0 ∧ c = cpu.current := by
  cases i with
  | zero => exact ⟨rfl, (Option.some.inj hc).symm⟩
  | succ i =>
    obtain ⟨c', hmem, rfl⟩ := List.mem_map.mp (List.mem_of_getElem? hc)
    exact absurd hin (h.interrupted c' hmem)

variable [DecidableEq Lock]

theorem CpuStep.safe {value value' : Lock → ℤ} {cpu cpu' : Cpu Lock}
    (h : CpuStep value cpu value' cpu') (hs : cpu.Safe) : cpu'.Safe := by
  obtain ⟨hflag, hout, ⟨hguards, hphase⟩, hnested⟩ := hs
  cases h with
  | readFlags flag guards stack lock =>
    refine ⟨?_, hout, ⟨hguards, ?_⟩, hnested⟩
    · rintro (h | h)
      · exact hflag (.inl h)
      · exact h.elim
    · intro h
      exact hflag (.inl h)
  | cli flag guards stack lock wasEnabled =>
    exact ⟨fun _ => rfl, hout, ⟨hguards, hphase⟩, hnested⟩
  | load flag guards stack lock wasEnabled =>
    have hin : flag = false := hflag (.inr trivial)
    refine ⟨fun _ => hin, hout, ⟨hguards, ?_⟩, hnested⟩
    simp only
    split_ifs <;> exact hphase
  | exchange flag guards stack lock wasEnabled =>
    have hin : flag = false := hflag (.inr trivial)
    exact ⟨fun _ => hin, hout, ⟨⟨hphase, hguards⟩, trivial⟩, hnested⟩
  | exchangeFails flag guards stack lock wasEnabled =>
    have hin : flag = false := hflag (.inr trivial)
    exact ⟨fun _ => hin, hout, ⟨hguards, hphase⟩, hnested⟩
  | unlock flag guards stack lock wasEnabled =>
    have hin : flag = false := hflag (.inl (List.cons_ne_nil _ _))
    exact ⟨fun _ => hin, hout, ⟨hguards.2, hguards.1⟩, hnested⟩
  | restore flag guards stack wasEnabled =>
    have hin : flag = false := hflag (.inr trivial)
    refine ⟨?_, hout, ⟨hguards, trivial⟩, hnested⟩
    rintro (h | h)
    · have hb : wasEnabled = false := hphase h
      simp only [hin, hb, Bool.or_self]
    · exact h.elim
  | interrupt context stack =>
    have hnot : ¬ context.Inside := by
      intro h
      exact Bool.noConfusion (hflag h)
    exact ⟨fun h => absurd h Context.not_inside_empty, List.forall_mem_cons.mpr ⟨hnot, hout⟩,
      Context.nested_empty, List.forall_mem_cons.mpr ⟨⟨hguards, hphase⟩, hnested⟩⟩
  | iret flag context saved stack =>
    obtain ⟨hnot, hrest⟩ := List.forall_mem_cons.mp hout
    obtain ⟨hcontext, hrest'⟩ := List.forall_mem_cons.mp hnested
    exact ⟨fun h => absurd h hnot, hrest, hcontext, hrest'⟩

variable {CpuId : Type} [DecidableEq CpuId] {s : Config CpuId (Lock → ℤ) (Cpu Lock)}

theorem safe_reachable (h : Reachable (interruptGuards CpuId Lock) s) :
    ∀ c, (s.locals c).Safe := by
  apply h.invariant (I := fun s => ∀ c, (s.locals c).Safe)
  · rintro s ⟨-, hidle⟩ c
    obtain ⟨flag, hc⟩ := hidle c
    rw [hc]
    exact ⟨fun h => absurd h Context.not_inside_empty, List.forall_mem_nil _,
      Context.nested_empty, List.forall_mem_nil _⟩
  · rintro s t - hs ⟨c, value, cpu, hstep, rfl⟩
    exact Config.forall_move (P := fun _ => Cpu.Safe) (fun c' _ => hs c') (hstep.safe (hs c))

theorem interruptGuards_noSelfDeadlock (h : Reachable (interruptGuards CpuId Lock) s)
    (c : CpuId) : NoSelfDeadlock (s.locals c) := by
  have hs := safe_reachable h c
  constructor
  · intro ctx hctx lock hholds
    obtain ⟨i, hi⟩ := List.mem_iff_getElem?.mp hctx
    obtain ⟨-, rfl⟩ := hs.inside_iff hi hholds.inside
    exact hs.flag hholds.inside
  · intro i j ctx ctx' hi hj hne lock hholds hin
    have h1 := (hs.inside_iff hi hholds.inside).1
    have h2 := (hs.inside_iff hj hin).1
    exact hne (h2.trans h1.symm)
  · intro i j ctx ctx' _ hj hlt lock _ hholds
    have h2 := (hs.inside_iff hj hholds.inside).1
    omega

theorem interruptGuards_noSelfDeadlock_nested : ∃ s : Config Bool (Unit → ℤ) (Cpu Unit),
    (s.locals true).current.Holds () ∧
      (s.locals true).interrupted = [(⟨.flagsRead () true, []⟩, true)] ∧
      NoSelfDeadlock (s.locals true) := by
  have h0 : Reachable (interruptGuards Bool Unit) ⟨fun _ => kFree, fun _ => ⟨true, {}, []⟩⟩ :=
    .init ⟨fun _ => rfl, fun _ => ⟨true, rfl⟩⟩
  have h1 := h0.step ⟨true, _, _, .readFlags _ _ _ _ (), rfl⟩
  have h2 := h1.step ⟨true, _, _, .interrupt _ _ _, rfl⟩
  have h3 := h2.step ⟨true, _, _, .readFlags _ _ _ _ (), rfl⟩
  have h4 := h3.step ⟨true, _, _, .cli _ _ _ _ _ _, rfl⟩
  have h5 := h4.step ⟨true, _, _, .load _ _ _ _ _ _, rfl⟩
  have h6 := h5.step ⟨true, _, _, .exchange _ _ _ _ _ _ rfl, rfl⟩
  refine ⟨_, ⟨⟨(), false⟩, ?_, rfl⟩, rfl, interruptGuards_noSelfDeadlock h6 true⟩
  exact List.mem_singleton.mpr rfl

end OsdevLibstdc.Dux
