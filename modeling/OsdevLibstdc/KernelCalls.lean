import OsdevLibstdc.AllocatorLock

/-!
The allocator's calls in the kernel: any number of CPUs, handlers that nest without a bound, and
`irq_enable` and `irq_disable` at any place outside of the calls.
-/

namespace OsdevLibstdc.Malloc

open TransitionSystems Dux

/-- The interrupt flag of a CPU, the running context and the contexts it has interrupted, the last
of them first, each with the flag that its interrupt has saved. -/
structure Core (A : Allocator) where
  flag : Bool
  running : Pc A
  interrupted : List (Pc A × Bool)

variable {A : Allocator}

inductive CoreStep (kind : GuardKind) : Shared A → Core A → Shared A → Core A → Prop
  | call (g g' flag flag' pc pc' stack) : CallStep kind g ⟨flag, pc⟩ g' ⟨flag', pc'⟩ →
      CoreStep kind g ⟨flag, pc, stack⟩ g' ⟨flag', pc', stack⟩
  | irqEnable (g flag stack) :
      CoreStep kind g ⟨flag, .outside, stack⟩ g ⟨true, .outside, stack⟩
  | irqDisable (g flag stack) :
      CoreStep kind g ⟨flag, .outside, stack⟩ g ⟨false, .outside, stack⟩
  | interrupt (g pc stack) :
      CoreStep kind g ⟨true, pc, stack⟩ g ⟨false, .outside, (pc, true) :: stack⟩
  | iret (g flag pc saved stack) :
      CoreStep kind g ⟨flag, .outside, (pc, saved) :: stack⟩ g ⟨saved, pc, stack⟩

def kernelCalls (A : Allocator) (kind : GuardKind) (heap₀ : A.Heap) (CpuId : Type)
    [DecidableEq CpuId] : System (Config CpuId (Shared A) (Core A)) :=
  interleave (fun g => g = { heap := heap₀ })
    (fun cpu => ∃ flag, cpu = ⟨flag, .outside, []⟩) (CoreStep kind)

section Contexts

def Held.withoutFlag (h : Held) : Held := ⟨h.ticket, none⟩

def Pc.withoutFlag : Pc A → Pc A
  | .outside | .flagsRead _ _ => .outside
  | .loading c _ => .loading c none
  | .exchanging c _ => .exchanging c none
  | .executing c guard frame => .executing c (guard.map Held.withoutFlag) frame
  | .leaving c guard v => .leaving c (guard.map Held.withoutFlag) v
  | .unlocked c guard v => .unlocked c guard.withoutFlag v

def callerOf (pc : Pc A) : Caller A := ⟨false, pc.withoutFlag⟩

theorem CallStep.withoutFlag {kind : GuardKind} {g g' : Shared A} {l l' : Caller A}
    (h : CallStep kind g l g' l') :
    Relation.ReflTransGen (fun p q => CallStep .lockGuard p.1 p.2 q.1 q.2)
      (g, callerOf l.pc) (g', callerOf l'.pc) := by
  cases h with
  | lockGuard enabled c => exact .single (CallStep.lockGuard g false c rfl c.guarded)
  | readFlags => exact .refl
  | cli enabled c => exact .single (CallStep.lockGuard g false c rfl c.guarded)
  | load enabled c wasEnabled =>
    have h : CallStep .lockGuard g ⟨false, .loading c none⟩ g _ := .load g false c none
    apply Relation.ReflTransGen.single
    simp only [callerOf]
    split_ifs at h ⊢ <;> exact h
  | exchange enabled c wasEnabled hx => exact .single (CallStep.exchange g false c none hx)
  | exchangeFails enabled c wasEnabled hx =>
    exact .single (CallStep.exchangeFails g false c none hx)
  | unguarded enabled c hc => exact .single (CallStep.unguarded g false c hc)
  | execute enabled c guard frame hs => exact .single (CallStep.execute g false c _ frame hs)
  | finish enabled c guard frame hs => exact .single (CallStep.finish g false c _ frame hs)
  | unlock enabled c guard v => exact .single (CallStep.unlock g false c guard.withoutFlag v)
  | restore enabled c guard v => exact .single (CallStep.restore g false c guard.withoutFlag v)
  | leave enabled c v => exact .single (CallStep.leave g false c v)

namespace Core

def contexts (cpu : Core A) : List (Pc A) :=
  cpu.interrupted.reverse.map Prod.fst ++ [cpu.running]

def context (cpu : Core A) (depth : ℕ) : Pc A := cpu.contexts[depth]?.getD .outside

theorem context_length (cpu : Core A) : cpu.context cpu.interrupted.length = cpu.running := by
  have hlen : (cpu.interrupted.reverse.map Prod.fst).length = cpu.interrupted.length := by
    rw [List.length_map, List.length_reverse]
  rw [context, contexts, ← hlen, List.getElem?_concat_length, Option.getD_some]

theorem context_of_ne {flag flag' : Bool} {pc pc' : Pc A} {stack : List (Pc A × Bool)} {d : ℕ}
    (hd : d ≠ stack.length) : (Core.mk flag pc stack).context d =
      (Core.mk flag' pc' stack).context d := by
  have hlen : (stack.reverse.map Prod.fst).length = stack.length := by
    rw [List.length_map, List.length_reverse]
  simp only [context, contexts]
  rcases Nat.lt_or_gt_of_ne hd with hlt | hgt
  · rw [← hlen] at hlt
    rw [List.getElem?_append_left hlt, List.getElem?_append_left hlt]
  · have hout (pc : Pc A) : (stack.reverse.map Prod.fst ++ [pc])[d]? = none := by
      apply List.getElem?_eq_none
      rw [List.length_append, hlen]
      exact hgt
    rw [hout, hout]

theorem context_interrupt (flag flag' saved : Bool) (pc : Pc A) (stack : List (Pc A × Bool)) :
    (Core.mk flag .outside ((pc, saved) :: stack)).context = (Core.mk flag' pc stack).context := by
  funext d
  simp only [context, contexts, List.reverse_cons, List.map_append, List.map_cons, List.map_nil]
  generalize stack.reverse.map Prod.fst ++ [pc] = l
  rcases Nat.lt_trichotomy d l.length with hlt | rfl | hgt
  · rw [List.getElem?_append_left hlt]
  · rw [List.getElem?_concat_length, List.getElem?_eq_none (Nat.le_refl _)]
    rfl
  · rw [List.getElem?_eq_none (Nat.le_of_lt hgt), List.getElem?_eq_none]
    rw [List.length_append]
    exact hgt

end Core

variable {CpuId : Type} [DecidableEq CpuId] {kind : GuardKind} {heap₀ : A.Heap}
  {s t : Config CpuId (Shared A) (Core A)}

/-- Each context of each CPU as a thread of its own, which takes `gLock` with a `lock_guard`. -/
def contextConfig (s : Config CpuId (Shared A) (Core A)) :
    Config (CpuId × ℕ) (Shared A) (Caller A) :=
  ⟨s.shared, fun θ => callerOf ((s.locals θ.1).context θ.2)⟩

theorem contextConfig_keep {c : CpuId} {cpu : Core A}
    (h : cpu.context = (s.locals c).context) :
    contextConfig (s.move c s.shared cpu) = contextConfig s := by
  unfold contextConfig
  congr 1
  funext θ
  by_cases hc : θ.1 = c
  · subst hc
    rw [Config.move_self, h]
  · rw [Config.move_other hc]

theorem contextConfig_call {c : CpuId} {g : Shared A} {flag flag' : Bool} {pc pc' : Pc A}
    {stack : List (Pc A × Bool)} (h : s.locals c = ⟨flag, pc, stack⟩) :
    contextConfig (s.move c g ⟨flag', pc', stack⟩) =
      (contextConfig s).move (c, stack.length) g (callerOf pc') := by
  unfold contextConfig Config.move
  congr 1
  funext ⟨c', d⟩
  by_cases hθ : (c', d) = (c, stack.length)
  · obtain ⟨rfl, rfl⟩ := Prod.mk.inj hθ
    simp only [Function.update_self]
    exact congrArg callerOf (Core.context_length ⟨flag', pc', stack⟩)
  · rw [Function.update_of_ne hθ]
    by_cases hc : c' = c
    · subst hc
      have hd : d ≠ stack.length := fun hd => hθ (by rw [hd])
      simp only [Function.update_self]
      rw [h, Core.context_of_ne hd]
    · simp only [Function.update_of_ne hc]

theorem contextConfig_reachable (h : Reachable (kernelCalls A kind heap₀ CpuId) s) :
    Reachable (allocatorCalls A .lockGuard heap₀ (CpuId × ℕ)) (contextConfig s) := by
  apply h.simulate
  · rintro s ⟨hg, hidle⟩
    refine ⟨hg, ?_⟩
    rintro ⟨c, d⟩
    obtain ⟨flag, hc⟩ := hidle c
    simp only [contextConfig, hc]
    cases d <;> rfl
  · rintro s t ⟨c, g, cpu, hstep, rfl⟩
    generalize hold : s.locals c = old at hstep
    generalize hshared : s.shared = shared at hstep
    cases hstep with
    | call g' flag flag' pc pc' stack hcall =>
      subst hshared
      rw [contextConfig_call hold]
      have hcaller : (contextConfig s).locals (c, stack.length) = callerOf pc := by
        simp only [contextConfig, hold]
        exact congrArg callerOf (Core.context_length ⟨flag, pc, stack⟩)
      have hsteps := hcall.withoutFlag
      simp only at hsteps
      rw [← hcaller] at hsteps
      exact interleave_steps (contextConfig s) (c, stack.length) hsteps
    | irqEnable flag stack | irqDisable flag stack =>
      subst hshared
      rw [contextConfig_keep]
      rw [hold]
      rfl
    | interrupt pc stack =>
      subst hshared
      rw [contextConfig_keep]
      rw [hold]
      exact Core.context_interrupt _ _ _ _ _
    | iret flag pc saved stack =>
      subst hshared
      rw [contextConfig_keep]
      rw [hold]
      exact (Core.context_interrupt _ _ _ _ _).symm

theorem kernelCalls_serialised (hA : A.Terminates)
    (h : Reachable (kernelCalls A kind heap₀ CpuId) s) : Serialised heap₀ (contextConfig s) := by
  have hr := contextConfig_reachable h
  obtain ⟨values, heap, hseq, hs⟩ := agreement_reachable hA hr
  refine ⟨fun θ θ' => executing_unique hr, ⟨values, heap, hseq⟩, ?_, tickets_reachable hr⟩
  intro values' heap' hseq'
  obtain ⟨rfl, rfl⟩ := hseq.unique hseq'
  exact hs

theorem kernelCalls_serialised_nested : ∃ s : Config Bool (Shared bump) (Core bump),
    s.shared.acquired = [.calloc 2 8] ∧
      (s.locals true).interrupted =
        [(.flagsRead (.malloc 16) true, true), (.flagsRead (.free 64) true, true)] ∧
      Serialised (A := bump) (64 : ℕ) (contextConfig s) := by
  have h0 : Reachable (kernelCalls bump .irqSaveLockGuard (64 : ℕ) Bool)
      ⟨{ heap := (64 : ℕ) }, fun _ => ⟨true, .outside, []⟩⟩ := .init ⟨rfl, fun _ => ⟨true, rfl⟩⟩
  have h1 := h0.step ⟨true, _, _, .call _ _ _ _ _ _ _ (.readFlags _ _ (.free 64) rfl rfl), rfl⟩
  have h2 := h1.step ⟨true, _, _, .interrupt _ _ _, rfl⟩
  have h3 := h2.step ⟨true, _, _, .irqEnable _ _ _, rfl⟩
  have h4 := h3.step ⟨true, _, _, .call _ _ _ _ _ _ _ (.readFlags _ _ (.malloc 16) rfl rfl), rfl⟩
  have h5 := h4.step ⟨true, _, _, .interrupt _ _ _, rfl⟩
  have h6 := h5.step ⟨true, _, _, .call _ _ _ _ _ _ _ (.readFlags _ _ (.calloc 2 8) rfl rfl), rfl⟩
  have h7 := h6.step ⟨true, _, _, .call _ _ _ _ _ _ _ (.cli _ _ _ _), rfl⟩
  have h8 := h7.step ⟨true, _, _, .call _ _ _ _ _ _ _ (.load _ _ _ _), rfl⟩
  have h9 := h8.step ⟨true, _, _, .call _ _ _ _ _ _ _ (.exchange _ _ _ _ rfl), rfl⟩
  exact ⟨_, rfl, rfl, kernelCalls_serialised bump_terminates h9⟩

end Contexts

section Safety

namespace Pc

def Inside : Pc A → Prop
  | .outside | .flagsRead _ _ => False
  | .loading _ _ | .exchanging _ _ | .executing _ _ _ | .leaving _ _ _ | .unlocked _ _ _ => True

def Holds : Pc A → Prop
  | .executing _ guard _ | .leaving _ guard _ => guard ≠ none
  | .outside | .flagsRead _ _ | .loading _ _ | .exchanging _ _ | .unlocked _ _ _ => False

theorem Holds.inside {pc : Pc A} (h : pc.Holds) : pc.Inside := by
  cases pc with
  | outside | flagsRead | loading | exchanging | unlocked => exact h.elim
  | executing | leaving => trivial

theorem not_inside_cases {pc : Pc A} (h : ¬ pc.Inside) :
    pc = .outside ∨ ∃ call wasEnabled, pc = .flagsRead call wasEnabled := by
  cases pc with
  | outside => exact .inl rfl
  | flagsRead call wasEnabled => exact .inr ⟨call, wasEnabled, rfl⟩
  | _ => exact absurd trivial h

theorem holds_iff (pc : Pc A) : (callerOf pc).lockLocal.holds = true ↔ pc.Holds := by
  cases pc with
  | outside | flagsRead | loading | exchanging | unlocked =>
    exact iff_of_false Bool.false_ne_true id
  | executing call guard | leaving call guard =>
    cases guard with
    | none => exact iff_of_false Bool.false_ne_true fun h => h rfl
    | some held => exact iff_of_true rfl (Option.some_ne_none held)

end Pc

namespace Core

structure Safe (cpu : Core A) : Prop where
  flag : cpu.running.Inside → cpu.flag = false
  interrupted : ∀ p ∈ cpu.interrupted, ¬ p.1.Inside

theorem Safe.running_of_inside {cpu : Core A} (h : cpu.Safe) {d : ℕ}
    (hd : (cpu.context d).Inside) : cpu.context d = cpu.running := by
  rw [context] at hd ⊢
  cases hget : cpu.contexts[d]? with
  | none =>
    rw [hget] at hd
    exact hd.elim
  | some pc =>
    rw [hget, Option.getD_some] at hd
    rw [Option.getD_some]
    rcases List.mem_append.mp (List.mem_of_getElem? hget) with hmem | hmem
    · obtain ⟨p, hp, rfl⟩ := List.mem_map.mp hmem
      exact absurd hd (h.interrupted p (List.mem_reverse.mp hp))
    · exact List.mem_singleton.mp hmem

end Core

theorem CallStep.inside {g g' : Shared A} {flag flag' : Bool} {pc pc' : Pc A}
    (h : CallStep .irqSaveLockGuard g ⟨flag, pc⟩ g' ⟨flag', pc'⟩) (hpc : pc.Inside → flag = false)
    (hpc' : pc'.Inside) : flag' = false := by
  cases h with
  | lockGuard enabled c hkind => cases hkind
  | readFlags => exact hpc'.elim
  | cli => rfl
  | unguarded enabled c hc => exact absurd (c.guarded.symm.trans hc) (by decide)
  | restore => exact hpc'.elim
  | leave => exact hpc'.elim
  | _ => exact hpc trivial

variable {CpuId : Type} [DecidableEq CpuId] {kind : GuardKind} {heap₀ : A.Heap}
  {s t : Config CpuId (Shared A) (Core A)}

theorem CoreStep.safe {g g' : Shared A} {cpu cpu' : Core A}
    (h : CoreStep .irqSaveLockGuard g cpu g' cpu') (hs : cpu.Safe) : cpu'.Safe := by
  obtain ⟨hflag, hout⟩ := hs
  cases h with
  | call g' flag flag' pc pc' stack hcall => exact ⟨hcall.inside hflag, hout⟩
  | irqEnable flag stack => exact ⟨fun h => h.elim, hout⟩
  | irqDisable flag stack => exact ⟨fun _ => rfl, hout⟩
  | interrupt pc stack =>
    have hnot : ¬ pc.Inside := fun h => Bool.noConfusion (hflag h)
    exact ⟨fun _ => rfl, List.forall_mem_cons.mpr ⟨hnot, hout⟩⟩
  | iret flag pc saved stack =>
    obtain ⟨hnot, hrest⟩ := List.forall_mem_cons.mp hout
    exact ⟨fun h => absurd h hnot, hrest⟩

theorem core_safe_reachable (h : Reachable (kernelCalls A .irqSaveLockGuard heap₀ CpuId) s) :
    ∀ c, (s.locals c).Safe := by
  apply h.invariant (I := fun s => ∀ c, (s.locals c).Safe)
  · rintro s ⟨-, hidle⟩ c
    obtain ⟨flag, hc⟩ := hidle c
    rw [hc]
    exact ⟨fun h => h.elim, List.forall_mem_nil _⟩
  · rintro s t - hs ⟨c, g, cpu, hstep, rfl⟩
    exact Config.forall_move (P := fun _ => Core.Safe) (fun c' _ => hs c') (hstep.safe (hs c))

theorem holder_iff (h : Reachable (kernelCalls A kind heap₀ CpuId) s) :
    s.shared.value = kLocked ↔ ∃ c d, ((s.locals c).context d).Holds := by
  have hinv := invariant_reachable (lockConfig_reachable (contextConfig_reachable h))
  apply hinv.owned.taken_iff.trans
  constructor
  · rintro ⟨⟨c, d⟩, hθ⟩
    exact ⟨c, d, (Pc.holds_iff _).mp hθ⟩
  · rintro ⟨c, d, hpc⟩
    exact ⟨(c, d), (Pc.holds_iff _).mpr hpc⟩

theorem running_holder_iff (h : Reachable (kernelCalls A .irqSaveLockGuard heap₀ CpuId) s) :
    s.shared.value = kLocked ↔ ∃ c, (s.locals c).running.Holds := by
  rw [holder_iff h]
  constructor
  · rintro ⟨c, d, hpc⟩
    refine ⟨c, ?_⟩
    rw [← (core_safe_reachable h c).running_of_inside hpc.inside]
    exact hpc
  · rintro ⟨c, hpc⟩
    refine ⟨c, (s.locals c).interrupted.length, ?_⟩
    rw [Core.context_length]
    exact hpc

/-- `gLock` is taken exactly while the running context of one CPU is in the allocator. The flag of
that CPU is clear, and no context that has been interrupted is past the `cli` of its guard. -/
structure HeldByRunning (s : Config CpuId (Shared A) (Core A)) : Prop where
  locked_iff : s.shared.value = kLocked ↔ ∃ c, (s.locals c).running.Holds
  unique : ∀ c c', (s.locals c).running.Holds → (s.locals c').running.Holds → c = c'
  flag_clear : ∀ c, (s.locals c).running.Inside → (s.locals c).flag = false
  interrupted : ∀ c, ∀ p ∈ (s.locals c).interrupted,
    p.1 = .outside ∨ ∃ call wasEnabled, p.1 = .flagsRead call wasEnabled

theorem kernelCalls_heldByRunning
    (h : Reachable (kernelCalls A .irqSaveLockGuard heap₀ CpuId) s) : HeldByRunning s := by
  have hsafe := core_safe_reachable h
  constructor
  · exact running_holder_iff h
  · intro c c' hc hc'
    have hinv := invariant_reachable (lockConfig_reachable (contextConfig_reachable h))
    have hholds {c : CpuId} (hc : (s.locals c).running.Holds) :
        ((lockConfig (contextConfig s)).locals (c, (s.locals c).interrupted.length)).holds =
          true := by
      apply (Pc.holds_iff _).mpr
      rw [Core.context_length]
      exact hc
    exact (Prod.mk.inj (hinv.owned.unique _ _ (hholds hc) (hholds hc'))).1
  · exact fun c => (hsafe c).flag
  · exact fun c p hp => Pc.not_inside_cases ((hsafe c).interrupted p hp)

theorem kernelCalls_heldByRunning_nested : ∃ s : Config Bool (Shared bump) (Core bump),
    (s.locals true).running.Holds ∧
      (s.locals true).interrupted = [(.flagsRead (.free 64) true, true)] ∧ HeldByRunning s := by
  have h0 : Reachable (kernelCalls bump .irqSaveLockGuard (64 : ℕ) Bool)
      ⟨{ heap := (64 : ℕ) }, fun _ => ⟨true, .outside, []⟩⟩ := .init ⟨rfl, fun _ => ⟨true, rfl⟩⟩
  have h1 := h0.step ⟨true, _, _, .call _ _ _ _ _ _ _ (.readFlags _ _ (.free 64) rfl rfl), rfl⟩
  have h2 := h1.step ⟨true, _, _, .interrupt _ _ _, rfl⟩
  have h3 := h2.step ⟨true, _, _, .call _ _ _ _ _ _ _ (.readFlags _ _ (.malloc 16) rfl rfl), rfl⟩
  have h4 := h3.step ⟨true, _, _, .call _ _ _ _ _ _ _ (.cli _ _ _ _), rfl⟩
  have h5 := h4.step ⟨true, _, _, .call _ _ _ _ _ _ _ (.load _ _ _ _), rfl⟩
  have h6 := h5.step ⟨true, _, _, .call _ _ _ _ _ _ _ (.exchange _ _ _ _ rfl), rfl⟩
  refine ⟨_, ?_, ?_, kernelCalls_heldByRunning h6⟩
  · exact Option.some_ne_none _
  · rfl

end Safety
end OsdevLibstdc.Malloc
