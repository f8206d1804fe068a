import OsdevLibstdc.SpinLock

/-!
The wrappers of `malloc.cpp` around the `mem_*` functions of the allocator, called by any number of
threads. The allocator itself is a parameter: a state transformer made of steps.
-/

namespace OsdevLibstdc.Malloc

open TransitionSystems Dux

inductive Operation
  | memInitialize (base size : ℕ)
  | memMallocAligned (alignment size : ℕ)
  | memCalloc (num size : ℕ)
  | memFree (ptr : ℕ)
  | memMalloc (size : ℕ)
  | memRealloc (ptr newSize : ℕ)
deriving Repr, DecidableEq

structure Body where
  guarded : Bool
  operation : Operation
  returns : Bool

def libstdcAllocatorInitialize (base size : ℕ) : Body := ⟨true, .memInitialize base size, true⟩

def alignedAlloc (alignment size : ℕ) : Body := ⟨true, .memMallocAligned alignment size, true⟩

def calloc (num size : ℕ) : Body := ⟨true, .memCalloc num size, true⟩

def free (ptr : ℕ) : Body := ⟨true, .memFree ptr, false⟩

def malloc (size : ℕ) : Body := ⟨true, .memMalloc size, true⟩

def realloc (ptr newSize : ℕ) : Body := ⟨true, .memRealloc ptr newSize, true⟩

inductive Call
  | libstdcAllocatorInitialize (base size : ℕ)
  | alignedAlloc (alignment size : ℕ)
  | calloc (num size : ℕ)
  | free (ptr : ℕ)
  | malloc (size : ℕ)
  | realloc (ptr newSize : ℕ)
deriving Repr, DecidableEq

def Call.body : Call → Body
  | .libstdcAllocatorInitialize base size => Malloc.libstdcAllocatorInitialize base size
  | .alignedAlloc alignment size => Malloc.alignedAlloc alignment size
  | .calloc num size => Malloc.calloc num size
  | .free ptr => Malloc.free ptr
  | .malloc size => Malloc.malloc size
  | .realloc ptr newSize => Malloc.realloc ptr newSize

def Call.operation (c : Call) : Operation := c.body.operation

def Call.result {Value : Type} (c : Call) (v : Value) : Option Value :=
  if c.body.returns then some v else none

theorem Call.guarded (c : Call) : c.body.guarded = true := by
  cases c <;> rfl

structure Allocator where
  Heap : Type
  Frame : Type
  Value : Type
  start : Operation → Frame
  step : Heap → Frame → Heap × (Frame ⊕ Value)

namespace Allocator

variable {A : Allocator}

inductive Finishes (A : Allocator) : A.Heap → A.Frame → A.Heap → A.Value → Prop
  | done {heap heap' frame v} : A.step heap frame = (heap', .inr v) → Finishes A heap frame heap' v
  | step {heap mid heap' frame frame' v} : A.step heap frame = (mid, .inl frame') →
      Finishes A mid frame' heap' v → Finishes A heap frame heap' v

def Terminates (A : Allocator) : Prop :=
  ∀ heap op, ∃ heap' v, A.Finishes heap (A.start op) heap' v

theorem Finishes.of_done {heap h heap' : A.Heap} {frame : A.Frame} {v w : A.Value}
    (hf : A.Finishes heap frame heap' v) (hs : A.step heap frame = (h, .inr w)) :
    heap' = h ∧ v = w := by
  cases hf with
  | done hd =>
    obtain ⟨rfl, hv⟩ := Prod.mk.inj (hd.symm.trans hs)
    exact ⟨rfl, Sum.inr.inj hv⟩
  | step hd =>
    obtain ⟨-, hv⟩ := Prod.mk.inj (hd.symm.trans hs)
    cases hv

theorem Finishes.of_step {heap h heap' : A.Heap} {frame f : A.Frame} {v : A.Value}
    (hf : A.Finishes heap frame heap' v) (hs : A.step heap frame = (h, .inl f)) :
    A.Finishes h f heap' v := by
  cases hf with
  | done hd =>
    obtain ⟨-, hv⟩ := Prod.mk.inj (hd.symm.trans hs)
    cases hv
  | step hd hrest =>
    obtain ⟨rfl, hv⟩ := Prod.mk.inj (hd.symm.trans hs)
    obtain rfl := Sum.inl.inj hv
    exact hrest

theorem Finishes.unique {heap heap₁ heap₂ : A.Heap} {frame : A.Frame} {v₁ v₂ : A.Value}
    (h₁ : A.Finishes heap frame heap₁ v₁) (h₂ : A.Finishes heap frame heap₂ v₂) :
    heap₁ = heap₂ ∧ v₁ = v₂ := by
  induction h₁ with
  | done hd =>
    obtain ⟨rfl, rfl⟩ := h₂.of_done hd
    exact ⟨rfl, rfl⟩
  | step hd _ ih => exact ih (h₂.of_step hd)

inductive Sequential (A : Allocator) (heap₀ : A.Heap) :
    List Operation → List A.Value → A.Heap → Prop
  | nil : Sequential A heap₀ [] [] heap₀
  | snoc {ops values heap op heap' v} : Sequential A heap₀ ops values heap →
      A.Finishes heap (A.start op) heap' v →
      Sequential A heap₀ (ops ++ [op]) (values ++ [v]) heap'

variable {heap₀ : A.Heap}

theorem Sequential.length {ops : List Operation} {values : List A.Value} {heap : A.Heap}
    (h : A.Sequential heap₀ ops values heap) : values.length = ops.length := by
  induction h with
  | nil => rfl
  | snoc _ _ ih => rw [List.length_append, List.length_append, ih, List.length_singleton,
      List.length_singleton]

theorem Sequential.unique {ops : List Operation} {values values' : List A.Value}
    {heap heap' : A.Heap} (h : A.Sequential heap₀ ops values heap)
    (h' : A.Sequential heap₀ ops values' heap') : values = values' ∧ heap = heap' := by
  induction h generalizing values' heap' with
  | nil =>
    generalize hops : ([] : List Operation) = ops at h'
    cases h' with
    | nil => exact ⟨rfl, rfl⟩
    | snoc => exact absurd hops.symm (List.append_ne_nil_of_right_ne_nil _ (List.cons_ne_nil _ _))
  | snoc _ hf ih =>
    rename_i ops values heap op heap₁ v h
    generalize hops : ops ++ [op] = all at h'
    cases h' with
    | nil => exact absurd hops (List.append_ne_nil_of_right_ne_nil _ (List.cons_ne_nil _ _))
    | snoc hseq hf' =>
      obtain ⟨rfl, hop⟩ := List.append_inj' hops rfl
      obtain rfl := List.singleton_inj.mp hop
      obtain ⟨rfl, rfl⟩ := ih hseq
      obtain ⟨rfl, rfl⟩ := hf.unique hf'
      exact ⟨rfl, rfl⟩

end Allocator

/-- What `__lock_guard` stands for: the test build takes the lock only. -/
inductive GuardKind
  | lockGuard
  | irqSaveLockGuard
deriving Repr, DecidableEq

structure Held where
  ticket : ℕ
  wasEnabled : Option Bool

section Model

variable (A : Allocator)

inductive Pc
  | outside
  | flagsRead (call : Call) (wasEnabled : Bool)
  | loading (call : Call) (wasEnabled : Option Bool)
  | exchanging (call : Call) (wasEnabled : Option Bool)
  | executing (call : Call) (guard : Option Held) (frame : A.Frame)
  | leaving (call : Call) (guard : Option Held) (value : A.Value)
  | unlocked (call : Call) (guard : Held) (value : A.Value)

structure Caller where
  enabled : Bool
  pc : Pc A

structure Returned where
  ticket : Option ℕ
  call : Call
  result : Option A.Value

/-- `gLock` and the heap, with the calls in the order in which they have acquired the lock and
those that have returned, the last one first. -/
structure Shared where
  value : ℤ := kFree
  heap : A.Heap
  acquired : List Call := []
  returned : List (Returned A) := []

end Model

variable {A : Allocator}

inductive CallStep (kind : GuardKind) : Shared A → Caller A → Shared A → Caller A → Prop
  | lockGuard (g enabled) (c : Call) : kind = .lockGuard → c.body.guarded = true →
      CallStep kind g ⟨enabled, .outside⟩ g ⟨enabled, .loading c none⟩
  | readFlags (g enabled) (c : Call) : kind = .irqSaveLockGuard → c.body.guarded = true →
      CallStep kind g ⟨enabled, .outside⟩ g ⟨enabled, .flagsRead c enabled⟩
  | cli (g enabled c wasEnabled) :
      CallStep kind g ⟨enabled, .flagsRead c wasEnabled⟩ g ⟨false, .loading c (some wasEnabled)⟩
  | load (g enabled c wasEnabled) :
      CallStep kind g ⟨enabled, .loading c wasEnabled⟩ g ⟨enabled,
        if g.value = kLocked then .loading c wasEnabled else .exchanging c wasEnabled⟩
  | exchange (g enabled c wasEnabled) {v : ℤ} :
      compareExchangeStrong g.value kFree kLocked = (true, v) →
      CallStep kind g ⟨enabled, .exchanging c wasEnabled⟩
        { g with value := v, acquired := g.acquired ++ [c] }
        ⟨enabled, .executing c (some ⟨g.acquired.length, wasEnabled⟩) (A.start c.operation)⟩
  | exchangeFails (g enabled c wasEnabled) {v : ℤ} :
      compareExchangeStrong g.value kFree kLocked = (false, v) →
      CallStep kind g ⟨enabled, .exchanging c wasEnabled⟩ { g with value := v }
        ⟨enabled, .loading c wasEnabled⟩
  | unguarded (g enabled) (c : Call) : c.body.guarded = false →
      CallStep kind g ⟨enabled, .outside⟩ g ⟨enabled, .executing c none (A.start c.operation)⟩
  | execute (g enabled c guard frame) {heap frame'} : A.step g.heap frame = (heap, .inl frame') →
      CallStep kind g ⟨enabled, .executing c guard frame⟩ { g with heap := heap }
        ⟨enabled, .executing c guard frame'⟩
  | finish (g enabled c guard frame) {heap v} : A.step g.heap frame = (heap, .inr v) →
      CallStep kind g ⟨enabled, .executing c guard frame⟩ { g with heap := heap }
        ⟨enabled, .leaving c guard v⟩
  | unlock (g enabled c guard v) :
      CallStep kind g ⟨enabled, .leaving c (some guard) v⟩ { g with value := kFree }
        ⟨enabled, .unlocked c guard v⟩
  | restore (g enabled c guard v) :
      CallStep kind g ⟨enabled, .unlocked c guard v⟩
        { g with returned := ⟨some guard.ticket, c, c.result v⟩ :: g.returned }
        ⟨enabled || guard.wasEnabled.getD false, .outside⟩
  | leave (g enabled c v) :
      CallStep kind g ⟨enabled, .leaving c none v⟩
        { g with returned := ⟨none, c, c.result v⟩ :: g.returned } ⟨enabled, .outside⟩

def allocatorCalls (A : Allocator) (kind : GuardKind) (heap₀ : A.Heap) (Thread : Type)
    [DecidableEq Thread] : System (Config Thread (Shared A) (Caller A)) :=
  interleave (fun g => g = { heap := heap₀ }) (fun l => l.pc = .outside) (CallStep kind)

namespace Caller

def Executing (l : Caller A) : Prop := ∃ c guard frame, l.pc = .executing c guard frame

def ticket (l : Caller A) : Option ℕ :=
  match l.pc with
  | .executing _ guard _ | .leaving _ guard _ => guard.map Held.ticket
  | .unlocked _ guard _ => some guard.ticket
  | .outside | .flagsRead _ _ | .loading _ _ | .exchanging _ _ => none

def lockLocal (l : Caller A) : Local :=
  match l.pc with
  | .loading _ _ => ⟨.load, false⟩
  | .exchanging _ _ => ⟨.exchange, false⟩
  | .executing _ (some _) _ | .leaving _ (some _) _ => ⟨.outside, true⟩
  | .outside | .flagsRead _ _ | .executing _ none _ | .leaving _ none _ | .unlocked _ _ _ =>
    ⟨.outside, false⟩

def Guarded (l : Caller A) : Prop :=
  match l.pc with
  | .executing _ guard _ | .leaving _ guard _ => guard ≠ none
  | .outside | .flagsRead _ _ | .loading _ _ | .exchanging _ _ | .unlocked _ _ _ => True

theorem Executing.holds {l : Caller A} (h : l.Executing) (hg : l.Guarded) :
    l.lockLocal.holds = true := by
  obtain ⟨enabled, pc⟩ := l
  obtain ⟨c, guard, frame, rfl⟩ := h
  cases guard with
  | none => exact absurd rfl hg
  | some => rfl

end Caller

section Lock

variable {kind : GuardKind} {heap₀ : A.Heap} {Thread : Type} [DecidableEq Thread]
  {s t : Config Thread (Shared A) (Caller A)}

def lockConfig (s : Config Thread (Shared A) (Caller A)) : Config Thread ℤ Local :=
  ⟨s.shared.value, fun θ => (s.locals θ).lockLocal⟩

theorem lockConfig_move (s : Config Thread (Shared A) (Caller A)) (θ : Thread) (g : Shared A)
    (l : Caller A) : lockConfig (s.move θ g l) = (lockConfig s).move θ g.value l.lockLocal := by
  unfold lockConfig Config.move
  congr 1
  funext θ'
  by_cases he : θ' = θ
  · subst he
    simp only [Function.update_self]
  · simp only [Function.update_of_ne he]

theorem CallStep.lockSteps {g g' : Shared A} {l l' : Caller A} (h : CallStep kind g l g' l') :
    Relation.ReflTransGen (fun p q => LockStep p.1 p.2 q.1 q.2)
      (g.value, l.lockLocal) (g'.value, l'.lockLocal) := by
  cases h with
  | lockGuard enabled c => exact .single (LockStep.callLock g.value false)
  | readFlags => exact .refl
  | cli => exact .single (LockStep.callLock g.value false)
  | load enabled c wasEnabled =>
    apply Relation.ReflTransGen.single
    have h := LockStep.load g.value false
    simp only [Caller.lockLocal]
    split_ifs at h ⊢ <;> exact h
  | exchange enabled c wasEnabled hx =>
    rename_i v
    refine .tail (b := (v, ⟨.lockReturn, true⟩)) (.single ?_) ?_
    · exact LockStep.exchange g.value false hx
    · exact LockStep.lockReturn _ true
  | exchangeFails enabled c wasEnabled hx => exact .single (LockStep.exchange g.value false hx)
  | unguarded => exact .refl
  | execute enabled c guard => cases guard <;> exact .refl
  | finish enabled c guard => cases guard <;> exact .refl
  | unlock enabled c guard v =>
    refine .tail (b := (g.value, ⟨.store, true⟩)) (.single ?_) ?_
    · exact LockStep.callUnlock g.value
    · exact LockStep.store _ true
  | restore => exact .refl
  | leave => exact .refl

theorem lockConfig_reachable (h : Reachable (allocatorCalls A kind heap₀ Thread) s) :
    Reachable (spinLock Thread) (lockConfig s) := by
  apply h.simulate
  · rintro s ⟨hg, hl⟩
    constructor
    · simp only [lockConfig, hg]
    · intro θ
      simp only [lockConfig, Caller.lockLocal, hl θ]
  · rintro s t ⟨θ, g, l, hstep, rfl⟩
    rw [lockConfig_move]
    exact interleave_steps (lockConfig s) θ hstep.lockSteps

theorem CallStep.guarded {g g' : Shared A} {l l' : Caller A} (h : CallStep kind g l g' l')
    (hl : l.Guarded) : l'.Guarded := by
  cases h with
  | load enabled c wasEnabled =>
    simp only [Caller.Guarded]
    split_ifs <;> trivial
  | exchange => exact Option.some_ne_none _
  | unguarded enabled c hc => exact absurd (c.guarded.symm.trans hc) (by decide)
  | execute => exact hl
  | finish => exact hl
  | _ => trivial

theorem guarded_reachable (h : Reachable (allocatorCalls A kind heap₀ Thread) s) :
    ∀ θ, (s.locals θ).Guarded := by
  apply h.invariant (I := fun s => ∀ θ, (s.locals θ).Guarded)
  · rintro s ⟨-, hl⟩ θ
    simp only [Caller.Guarded, hl θ]
  · rintro s t - hs ⟨θ, g, l, hstep, rfl⟩
    exact Config.forall_move (P := fun _ => Caller.Guarded) (fun θ' _ => hs θ')
      (hstep.guarded (hs θ))

theorem executing_unique (h : Reachable (allocatorCalls A kind heap₀ Thread) s) {θ θ' : Thread}
    (hθ : (s.locals θ).Executing) (hθ' : (s.locals θ').Executing) : θ = θ' := by
  have hinv := invariant_reachable (lockConfig_reachable h)
  apply hinv.owned.unique
  · exact hθ.holds (guarded_reachable h θ)
  · exact hθ'.holds (guarded_reachable h θ')

theorem not_executing_of_free (h : Reachable (allocatorCalls A kind heap₀ Thread) s)
    (hfree : s.shared.value = kFree) (θ : Thread) : ¬ (s.locals θ).Executing := by
  intro hθ
  have hinv := invariant_reachable (lockConfig_reachable h)
  have hlocked : s.shared.value = kLocked :=
    hinv.owned.taken_iff.mpr ⟨θ, hθ.holds (guarded_reachable h θ)⟩
  exact kLocked_ne_kFree (hlocked.symm.trans hfree)

theorem tickets_reachable (h : Reachable (allocatorCalls A kind heap₀ Thread) s) :
    Tickets Caller.ticket s.shared.acquired.length
      (s.shared.returned.filterMap Returned.ticket) s.locals := by
  apply h.invariant (I := fun s => Tickets Caller.ticket s.shared.acquired.length
    (s.shared.returned.filterMap Returned.ticket) s.locals)
  · rintro s ⟨hg, hl⟩
    simp only [hg, List.length_nil, List.filterMap_nil]
    apply Tickets.none
    intro θ
    simp only [Caller.ticket, hl θ]
  · rintro s t - hs ⟨θ, g, l, hstep, rfl⟩
    generalize hold : s.locals θ = old at hstep
    generalize hshared : s.shared = shared at hstep hs
    cases hstep with
    | exchange =>
      simp only [Config.move_shared, List.length_append, List.length_singleton]
      exact hs.issue (by rw [hold]; rfl) rfl
    | load enabled c wasEnabled =>
      apply hs.keep
      rw [hold]
      simp only [Caller.ticket]
      split_ifs <;> rfl
    | unguarded enabled c hc => exact absurd (c.guarded.symm.trans hc) (by decide)
    | restore => exact hs.giveBack (by rw [hold]; rfl) rfl
    | leave => exact hs.keep (by rw [hold]; rfl)
    | _ => exact hs.keep (by rw [hold]; rfl)

def Recorded (acquired : List Call) (values : List A.Value) (ticket : ℕ) (c : Call)
    (v : A.Value) : Prop :=
  acquired[ticket]? = some c ∧ values[ticket]? = some v

def Caller.Agrees (acquired : List Call) (values : List A.Value) (heap heap' : A.Heap)
    (l : Caller A) : Prop :=
  match l.pc with
  | .executing c guard frame => ∀ g ∈ guard, ∃ v,
      Recorded acquired values g.ticket c v ∧ A.Finishes heap frame heap' v
  | .leaving c guard v => ∀ g ∈ guard, Recorded acquired values g.ticket c v
  | .unlocked c g v => Recorded acquired values g.ticket c v
  | .outside | .flagsRead _ _ | .loading _ _ | .exchanging _ _ => True

def Returned.Agrees (acquired : List Call) (values : List A.Value) (r : Returned A) : Prop :=
  ∃ k v, r.ticket = some k ∧ Recorded acquired values k r.call v ∧ r.result = r.call.result v

structure Agreement (s : Config Thread (Shared A) (Caller A)) (values : List A.Value)
    (heap : A.Heap) : Prop where
  callers : ∀ θ, (s.locals θ).Agrees s.shared.acquired values s.shared.heap heap
  returned : ∀ r ∈ s.shared.returned, r.Agrees s.shared.acquired values
  idle : (∀ θ, ¬ (s.locals θ).Executing) → s.shared.heap = heap

theorem Recorded.append {acquired : List Call} {values : List A.Value} {k : ℕ} {c : Call}
    {v : A.Value} (h : Recorded acquired values k c v) (c' : Call) (v' : A.Value) :
    Recorded (acquired ++ [c']) (values ++ [v']) k c v := by
  obtain ⟨hk, -⟩ := List.getElem?_eq_some_iff.mp h.1
  obtain ⟨hk', -⟩ := List.getElem?_eq_some_iff.mp h.2
  constructor
  · rw [List.getElem?_append_left hk, h.1]
  · rw [List.getElem?_append_left hk', h.2]

theorem Caller.Agrees.of_idle {acquired : List Call} {values : List A.Value}
    {heap heap' mid mid' : A.Heap} {l : Caller A} (h : l.Agrees acquired values heap heap')
    (hl : ¬ l.Executing) : l.Agrees acquired values mid mid' := by
  obtain ⟨enabled, pc⟩ := l
  cases pc with
  | executing c guard frame => exact absurd ⟨c, guard, frame, rfl⟩ hl
  | _ => exact h

theorem Caller.Agrees.append {acquired : List Call} {values : List A.Value}
    {heap heap' : A.Heap} {l : Caller A} (h : l.Agrees acquired values heap heap')
    (c : Call) (v : A.Value) : l.Agrees (acquired ++ [c]) (values ++ [v]) heap heap' := by
  obtain ⟨enabled, pc⟩ := l
  cases pc with
  | executing c' guard frame =>
    intro g hg
    obtain ⟨w, hrec, hfin⟩ := h g hg
    exact ⟨w, hrec.append c v, hfin⟩
  | leaving c' guard w => exact fun g hg => (h g hg).append c v
  | unlocked c' g w => exact Recorded.append h c v
  | _ => trivial

theorem Returned.Agrees.append {acquired : List Call} {values : List A.Value} {r : Returned A}
    (h : r.Agrees acquired values) (c : Call) (v : A.Value) :
    r.Agrees (acquired ++ [c]) (values ++ [v]) := by
  obtain ⟨k, w, hk, hrec, hres⟩ := h
  exact ⟨k, w, hk, hrec.append c v, hres⟩

theorem Agreement.keep {values : List A.Value} {heap : A.Heap} {θ : Thread} {g : Shared A}
    {l : Caller A} (h : Agreement s values heap) (hheap : g.heap = s.shared.heap)
    (hacq : g.acquired = s.shared.acquired) (hret : g.returned = s.shared.returned)
    (hl : l.Agrees s.shared.acquired values s.shared.heap heap)
    (hex : ¬ (s.locals θ).Executing) : Agreement (s.move θ g l) values heap := by
  constructor
  · rw [Config.move_shared, hheap, hacq]
    exact Config.forall_move (P := fun _ => Caller.Agrees s.shared.acquired values s.shared.heap heap)
      (fun θ' _ => h.callers θ') hl
  · rw [Config.move_shared, hret, hacq]
    exact h.returned
  · intro hidle
    rw [Config.move_shared, hheap]
    apply h.idle
    exact Config.forall_of_move (P := fun l : Caller A => ¬ l.Executing) hex hidle

theorem Agreement.execute {values : List A.Value} {heap mid : A.Heap} {θ : Thread} {l : Caller A}
    (h : Agreement s values heap) (hl : l.Agrees s.shared.acquired values mid heap)
    (hothers : ∀ θ', θ' ≠ θ → ¬ (s.locals θ').Executing) (hidle : ¬ l.Executing → mid = heap) :
    Agreement (s.move θ { s.shared with heap := mid } l) values heap := by
  constructor
  · exact Config.forall_move (P := fun _ => Caller.Agrees s.shared.acquired values mid heap)
      (fun θ' hne => (h.callers θ').of_idle (hothers θ' hne)) hl
  · exact h.returned
  · intro hnone
    apply hidle
    have := hnone θ
    rw [Config.move_self] at this
    exact this

theorem Agreement.acquire {values : List A.Value} {heap heap' : A.Heap} {θ : Thread}
    {c : Call} {enabled : Bool} {w : Option Bool} {u : ℤ} {v : A.Value}
    (h : Agreement s values heap) (hlen : values.length = s.shared.acquired.length)
    (hfin : A.Finishes s.shared.heap (A.start c.operation) heap' v)
    (hothers : ∀ θ', ¬ (s.locals θ').Executing) :
    Agreement (s.move θ { s.shared with value := u, acquired := s.shared.acquired ++ [c] }
      ⟨enabled, .executing c (some ⟨s.shared.acquired.length, w⟩) (A.start c.operation)⟩)
      (values ++ [v]) heap' := by
  constructor
  · apply Config.forall_move (P := fun _ =>
      Caller.Agrees (s.shared.acquired ++ [c]) (values ++ [v]) s.shared.heap heap')
    · intro θ' _
      exact ((h.callers θ').append c v).of_idle (hothers θ')
    · rintro g ⟨⟩
      refine ⟨v, ⟨?_, ?_⟩, hfin⟩
      · exact List.getElem?_concat_length
      · rw [← hlen]
        exact List.getElem?_concat_length
  · intro r hr
    exact (h.returned r hr).append c v
  · intro hnone
    have := hnone θ
    rw [Config.move_self] at this
    exact absurd ⟨c, _, _, rfl⟩ this

theorem Agreement.giveBack {values : List A.Value} {heap : A.Heap} {θ : Thread} {enabled : Bool}
    {c : Call} {guard : Held} {v : A.Value} (h : Agreement s values heap)
    (hrec : Recorded s.shared.acquired values guard.ticket c v)
    (hθ : ¬ (s.locals θ).Executing) :
    Agreement (s.move θ { s.shared with
      returned := ⟨some guard.ticket, c, c.result v⟩ :: s.shared.returned }
      ⟨enabled, .outside⟩) values heap := by
  constructor
  · exact Config.forall_move (P := fun _ =>
      Caller.Agrees s.shared.acquired values s.shared.heap heap) (fun θ' _ => h.callers θ') trivial
  · intro r hmem
    rcases List.mem_cons.mp hmem with rfl | hmem
    · exact ⟨guard.ticket, v, rfl, hrec, rfl⟩
    · exact h.returned r hmem
  · intro hidle
    apply h.idle
    exact Config.forall_of_move (P := fun l : Caller A => ¬ l.Executing) hθ hidle

theorem Caller.not_executing {l l' : Caller A} (hold : l = l')
    (h : ∀ c guard frame, l'.pc ≠ .executing c guard frame) : ¬ l.Executing := by
  rintro ⟨c, guard, frame, hpc⟩
  rw [hold] at hpc
  exact h c guard frame hpc

theorem agreement_step {values : List A.Value} {heap : A.Heap} (hA : A.Terminates)
    (hr : Reachable (allocatorCalls A kind heap₀ Thread) s)
    (hseq : A.Sequential heap₀ (s.shared.acquired.map Call.operation) values heap)
    (h : Agreement s values heap) (hstep : (allocatorCalls A kind heap₀ Thread).step s t) :
    ∃ values' heap', A.Sequential heap₀ (t.shared.acquired.map Call.operation) values' heap' ∧
      Agreement t values' heap' := by
  obtain ⟨θ, g, l, hstep, rfl⟩ := hstep
  have hcaller := h.callers θ
  have hguarded := guarded_reachable hr θ
  have hothers (hθ : (s.locals θ).Executing) (θ' : Thread) (hne : θ' ≠ θ) :
      ¬ (s.locals θ').Executing := fun hθ' => hne (executing_unique hr hθ' hθ)
  generalize hold : s.locals θ = old at hstep hcaller hguarded
  generalize hshared : s.shared = shared at hstep
  cases hstep with
  | exchange enabled c wasEnabled hx =>
    subst hshared
    obtain ⟨-, hfree, -⟩ | ⟨hfail, -⟩ := compareExchangeStrong_cases hx
    · have hnone := not_executing_of_free hr hfree
      have hheap := h.idle hnone
      obtain ⟨heap', v, hfin⟩ := hA s.shared.heap c.operation
      refine ⟨values ++ [v], heap', ?_, h.acquire ?_ hfin hnone⟩
      · rw [Config.move_shared, List.map_append]
        apply hseq.snoc
        rw [← hheap]
        exact hfin
      · rw [hseq.length, List.length_map]
    · cases hfail
  | unguarded enabled c hc => exact absurd (c.guarded.symm.trans hc) (by decide)
  | execute enabled c guard frame hs =>
    subst hshared
    refine ⟨values, heap, hseq, h.execute ?_ ?_ ?_⟩
    · intro g hg
      obtain ⟨v, hrec, hfin⟩ := hcaller g hg
      exact ⟨v, hrec, hfin.of_step hs⟩
    · exact hothers ⟨c, guard, frame, by rw [hold]⟩
    · intro hidle
      exact absurd ⟨c, guard, _, rfl⟩ hidle
  | finish enabled c guard frame hs =>
    subst hshared
    obtain ⟨held, rfl⟩ := Option.ne_none_iff_exists'.mp hguarded
    obtain ⟨v, hrec, hfin⟩ := hcaller held rfl
    obtain ⟨hheap, rfl⟩ := hfin.of_done hs
    refine ⟨values, heap, hseq, h.execute ?_ ?_ ?_⟩
    · rintro g ⟨⟩
      exact hrec
    · exact hothers ⟨c, some held, frame, by rw [hold]⟩
    · intro _
      exact hheap.symm
  | restore enabled c guard v =>
    subst hshared
    refine ⟨values, heap, hseq, h.giveBack hcaller ?_⟩
    apply Caller.not_executing hold
    rintro _ _ _ ⟨⟩
  | leave => exact absurd rfl hguarded
  | unlock enabled c guard v =>
    subst hshared
    refine ⟨values, heap, hseq, h.keep rfl rfl rfl ?_ ?_⟩
    · exact hcaller guard rfl
    · apply Caller.not_executing hold
      rintro _ _ _ ⟨⟩
  | load enabled c wasEnabled =>
    subst hshared
    refine ⟨values, heap, hseq, h.keep rfl rfl rfl ?_ ?_⟩
    · simp only [Caller.Agrees]
      split_ifs <;> trivial
    · apply Caller.not_executing hold
      rintro _ _ _ ⟨⟩
  | _ =>
    subst hshared
    refine ⟨values, heap, hseq, h.keep rfl rfl rfl trivial ?_⟩
    apply Caller.not_executing hold
    rintro _ _ _ ⟨⟩

theorem agreement_reachable (hA : A.Terminates)
    (h : Reachable (allocatorCalls A kind heap₀ Thread) s) :
    ∃ values heap, A.Sequential heap₀ (s.shared.acquired.map Call.operation) values heap ∧
      Agreement s values heap := by
  apply h.invariant (I := fun s => ∃ values heap,
    A.Sequential heap₀ (s.shared.acquired.map Call.operation) values heap ∧
      Agreement s values heap)
  · rintro s ⟨hg, hl⟩
    refine ⟨[], heap₀, ?_, ?_, ?_, ?_⟩
    · rw [hg]
      exact .nil
    · intro θ
      simp only [Caller.Agrees, hl θ]
    · rw [hg]
      intro r hr
      exact absurd hr List.not_mem_nil
    · rw [hg]
      intro _
      exact rfl
  · rintro s t hr ⟨values, heap, hseq, hs⟩ hstep
    exact agreement_step hA hr hseq hs hstep

/-- The calls are as if executed one at a time in the order in which they have acquired `gLock`. No
two operations run at a time, and each acquisition belongs to one call, which has returned once or
is still with its thread. -/
structure Serialised (heap₀ : A.Heap) (s : Config Thread (Shared A) (Caller A)) : Prop where
  one : ∀ θ θ', (s.locals θ).Executing → (s.locals θ').Executing → θ = θ'
  executes : ∃ values heap,
    A.Sequential heap₀ (s.shared.acquired.map Call.operation) values heap
  agrees : ∀ values heap,
    A.Sequential heap₀ (s.shared.acquired.map Call.operation) values heap →
      Agreement s values heap
  tickets : Tickets Caller.ticket s.shared.acquired.length
    (s.shared.returned.filterMap Returned.ticket) s.locals

theorem allocatorCalls_serialised (hA : A.Terminates)
    (h : Reachable (allocatorCalls A kind heap₀ Thread) s) : Serialised heap₀ s := by
  obtain ⟨values, heap, hseq, hs⟩ := agreement_reachable hA h
  constructor
  · intro θ θ'
    exact executing_unique h
  · exact ⟨values, heap, hseq⟩
  · intro values' heap' hseq'
    obtain ⟨rfl, rfl⟩ := hseq.unique hseq'
    exact hs
  · exact tickets_reachable h

end Lock

def bump : Allocator where
  Heap := ℕ
  Frame := Operation
  Value := ℕ
  start := id
  step heap op := match op with
    | .memInitialize base _ => (base, .inr 0)
    | .memMallocAligned alignment size =>
      ((heap + alignment - 1) / alignment * alignment + size,
        .inr ((heap + alignment - 1) / alignment * alignment))
    | .memCalloc num size => (heap + num * size, .inr heap)
    | .memFree _ => (heap, .inr 0)
    | .memMalloc size => (heap + size, .inr heap)
    | .memRealloc _ newSize => (heap + newSize, .inr heap)

theorem bump_terminates : bump.Terminates := by
  intro heap op
  cases op <;> exact ⟨_, _, .done rfl⟩

theorem allocatorCalls_serialised_bump : ∃ s : Config Bool (Shared bump) (Caller bump),
    s.shared.acquired = [.malloc 16] ∧ (s.locals false).pc = .exchanging (.free 64) (some true) ∧
      Serialised (A := bump) (64 : ℕ) s := by
  have h0 : Reachable (allocatorCalls bump .irqSaveLockGuard (64 : ℕ) Bool)
      ⟨{ heap := (64 : ℕ) }, fun _ => ⟨true, .outside⟩⟩ := .init ⟨rfl, fun _ => rfl⟩
  have h1 := h0.step ⟨false, _, _, .readFlags _ _ (.free 64) rfl rfl, rfl⟩
  have h2 := h1.step ⟨false, _, _, .cli _ _ _ _, rfl⟩
  have h3 := h2.step ⟨false, _, _, .load _ _ _ _, rfl⟩
  have h4 := h3.step ⟨true, _, _, .readFlags _ _ (.malloc 16) rfl rfl, rfl⟩
  have h5 := h4.step ⟨true, _, _, .cli _ _ _ _, rfl⟩
  have h6 := h5.step ⟨true, _, _, .load _ _ _ _, rfl⟩
  have h7 := h6.step ⟨true, _, _, .exchange _ _ _ _ rfl, rfl⟩
  have h8 := h7.step ⟨true, _, _, .finish _ _ _ _ _ rfl, rfl⟩
  exact ⟨_, rfl, rfl, allocatorCalls_serialised bump_terminates h8⟩

end OsdevLibstdc.Malloc
