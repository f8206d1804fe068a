import OsdevLibstdc.LockTraces
import OsdevLibstdc.ViewMemory

/-!
`dux::spin_lock` and the locks of its benchmark with the memory orders of their accesses, on a
memory whose writes are not seen by all threads at once: what the data that a lock guards are to the
threads that hold it.
-/

namespace OsdevLibstdc.Dux

open TransitionSystems MutexTraces ViewMemory

inductive MemoryOrder
  | relaxed
  | acquire
  | release
  | acqRel
  | seqCst
deriving Repr, DecidableEq

def casFailureOrder : MemoryOrder → MemoryOrder
  | .release => .relaxed
  | .acqRel => .acquire
  | order => order

def MemoryOrder.acquires : MemoryOrder → Bool
  | .acquire | .acqRel | .seqCst => true
  | .relaxed | .release => false

def MemoryOrder.releases : MemoryOrder → Bool
  | .release | .acqRel | .seqCst => true
  | .relaxed | .acquire => false

/-- Whether `lock` loads before its exchange, whether the exchange compares, and the orders of the
load, the exchange and the store. -/
structure LockCode where
  readsFirst : Bool
  compares : Bool
  load : MemoryOrder
  exchange : MemoryOrder
  store : MemoryOrder
deriving Repr, DecidableEq

def spinLockCode : LockCode := ⟨true, true, .relaxed, .acquire, .release⟩

def tasSpinLockCode : LockCode := ⟨false, false, .relaxed, .acquire, .release⟩

def ttasSpinLockCode : LockCode := ⟨true, false, .relaxed, .acquire, .release⟩

def LockCode.Synchronizes (c : LockCode) : Prop :=
  c.exchange.acquires = true ∧ c.store.releases = true

instance (c : LockCode) : Decidable c.Synchronizes := by
  unfold LockCode.Synchronizes
  infer_instance

section Machine

variable {X : Type} [DecidableEq X]

inductive GuardedEvent (X : Type)
  | acquire
  | release
  | read (x : X) (v : ℤ)
  | write (x : X) (v : ℤ)
  | race (x : X)
deriving Repr, DecidableEq

/-- `_M_value` is the one atomic location. -/
abbrev LockMemory (X : Type) := Memory Unit X ℤ

structure Viewer (X : Type) where
  lock : Local := {}
  view : View Unit X := 0

/-- The steps of a lock, and the accesses of the holder to the data, which are not atomic. -/
inductive GuardedStep (c : LockCode) : LabelledStep (LockMemory X) (Viewer X) (GuardedEvent X)
  | callLock (m holds w) : GuardedStep c m ⟨⟨.outside, holds⟩, w⟩ []
      m ⟨⟨lockEntry c.readsFirst, holds⟩, w⟩
  | callTryLock (m holds w) :
      GuardedStep c m ⟨⟨.outside, holds⟩, w⟩ [] m ⟨⟨.tryExchange, holds⟩, w⟩
  | callUnlock (m w) : GuardedStep c m ⟨⟨.outside, true⟩, w⟩ [] m ⟨⟨.store, true⟩, w⟩
  | load {m : LockMemory X} (holds) {w w' : View Unit X} {v : ℤ} :
      m.Loads c.load.acquires () w v w' → GuardedStep c m ⟨⟨.load, holds⟩, w⟩ []
        m ⟨⟨if v = kLocked then .load else .exchange, holds⟩, w'⟩
  | exchange {m m' : LockMemory X} (holds) {w w' : View Unit X} :
      m.Exchanges c.exchange.acquires c.exchange.releases () w kFree kLocked m' w' →
      GuardedStep c m ⟨⟨.exchange, holds⟩, w⟩ [.acquire] m' ⟨⟨.lockReturn, true⟩, w'⟩
  -- a `compare_exchange_strong` that fails is a load
  | compareFails {m : LockMemory X} (holds) {w w' : View Unit X} {v : ℤ} : c.compares = true →
      m.Loads (casFailureOrder c.exchange).acquires () w v w' → v ≠ kFree →
      GuardedStep c m ⟨⟨.exchange, holds⟩, w⟩ [] m ⟨⟨lockEntry c.readsFirst, holds⟩, w'⟩
  -- and an `exchange` stores in any case
  | exchangeFails {m m' : LockMemory X} (holds) {w w' : View Unit X} {v : ℤ} : c.compares = false →
      m.Exchanges c.exchange.acquires c.exchange.releases () w v kLocked m' w' → v ≠ kFree →
      GuardedStep c m ⟨⟨.exchange, holds⟩, w⟩ [] m' ⟨⟨lockEntry c.readsFirst, holds⟩, w'⟩
  | lockReturn (m holds w) :
      GuardedStep c m ⟨⟨.lockReturn, holds⟩, w⟩ [] m ⟨⟨.outside, holds⟩, w⟩
  | tryExchange {m m' : LockMemory X} (holds) {w w' : View Unit X} :
      m.Exchanges c.exchange.acquires c.exchange.releases () w kFree kLocked m' w' →
      GuardedStep c m ⟨⟨.tryExchange, holds⟩, w⟩ [.acquire] m' ⟨⟨.tryReturn true, true⟩, w'⟩
  | tryCompareFails {m : LockMemory X} (holds) {w w' : View Unit X} {v : ℤ} : c.compares = true →
      m.Loads (casFailureOrder c.exchange).acquires () w v w' → v ≠ kFree →
      GuardedStep c m ⟨⟨.tryExchange, holds⟩, w⟩ [] m ⟨⟨.tryReturn false, holds⟩, w'⟩
  | tryExchangeFails {m m' : LockMemory X} (holds) {w w' : View Unit X} {v : ℤ} :
      c.compares = false →
      m.Exchanges c.exchange.acquires c.exchange.releases () w v kLocked m' w' → v ≠ kFree →
      GuardedStep c m ⟨⟨.tryExchange, holds⟩, w⟩ [] m' ⟨⟨.tryReturn false, holds⟩, w'⟩
  | tryReturn (m holds ok w) :
      GuardedStep c m ⟨⟨.tryReturn ok, holds⟩, w⟩ [] m ⟨⟨.outside, holds⟩, w⟩
  | store {m m' : LockMemory X} {w w' : View Unit X} :
      m.Stores c.store.releases () w kFree m' w' →
      GuardedStep c m ⟨⟨.store, true⟩, w⟩ [.release] m' ⟨⟨.outside, false⟩, w'⟩
  | read {m : LockMemory X} {w : View Unit X} {x : X} : m.Ordered x w →
      GuardedStep c m ⟨⟨.outside, true⟩, w⟩ [.read x (m.cells x).value]
        (m.access x (m.cells x).value) ⟨⟨.outside, true⟩, m.accessed x w⟩
  | write {m : LockMemory X} {w : View Unit X} {x : X} (v : ℤ) : m.Ordered x w →
      GuardedStep c m ⟨⟨.outside, true⟩, w⟩ [.write x v]
        (m.access x v) ⟨⟨.outside, true⟩, m.accessed x w⟩
  | race {m : LockMemory X} {w : View Unit X} {x : X} : ¬ m.Ordered x w →
      GuardedStep c m ⟨⟨.outside, true⟩, w⟩ [.race x] m ⟨⟨.outside, true⟩, w⟩

def startMemory (init : X → ℤ) : LockMemory X where
  messages _ t := if t = 0 then some ⟨kFree, 0⟩ else none
  cells x := ⟨init x, 0⟩

def guardedTraces (c : LockCode) (init : X → ℤ) (Thread : Type) [DecidableEq Thread] :
    System (Traced Thread (LockMemory X) (Viewer X) (GuardedEvent X)) :=
  traced (fun m => m = startMemory init) (fun l => l = {}) (GuardedStep c)

def Guarded (c : LockCode) (init : X → ℤ) {Thread : Type} [DecidableEq Thread]
    (es : List (Thread × GuardedEvent X)) : Prop :=
  ∃ s, Reachable (guardedTraces c init Thread) s ∧ s.events = es

end Machine

inductive OwnedRun {Thread X : Type} [DecidableEq X] (init : X → ℤ) :
    List (Thread × GuardedEvent X) → Option Thread → (X → ℤ) → Prop
  | nil : OwnedRun init [] none init
  | acquire {es values} (θ) : OwnedRun init es none values →
      OwnedRun init (es ++ [(θ, .acquire)]) (some θ) values
  | release {es values θ} : OwnedRun init es (some θ) values →
      OwnedRun init (es ++ [(θ, .release)]) none values
  | read {es values θ} (x) : OwnedRun init es (some θ) values →
      OwnedRun init (es ++ [(θ, .read x (values x))]) (some θ) values
  | write {es values θ} (x v) : OwnedRun init es (some θ) values →
      OwnedRun init (es ++ [(θ, .write x v)]) (some θ) (Function.update values x v)

section Effects

variable {X : Type} [DecidableEq X]

inductive ViewEffect (c : LockCode) (m : LockMemory X) (l : Viewer X) :
    List (GuardedEvent X) → LockMemory X → Viewer X → Prop
  | silent {l'} : l.view ≤ l'.view → l'.lock.holds = l.lock.holds → ViewEffect c m l [] m l'
  | spin {m' l' v} :
      m.Exchanges c.exchange.acquires c.exchange.releases () l.view v kLocked m' l'.view →
      v ≠ kFree → l'.lock.holds = l.lock.holds → ViewEffect c m l [] m' l'
  | acquire {m' l'} :
      m.Exchanges c.exchange.acquires c.exchange.releases () l.view kFree kLocked m' l'.view →
      l'.lock.holds = true → ViewEffect c m l [.acquire] m' l'
  | release {m' l'} : l.lock.holds = true → m.Stores c.store.releases () l.view kFree m' l'.view →
      l'.lock.holds = false → ViewEffect c m l [.release] m' l'
  | access {l' x v e} : l.lock.holds = true → l'.lock.holds = true → m.Ordered x l.view →
      l'.view = m.accessed x l.view → e = .read x v ∧ v = (m.cells x).value ∨ e = .write x v →
      ViewEffect c m l [e] (m.access x v) l'
  | race {l' x} : l.lock.holds = true → l'.lock.holds = true → l'.view = l.view →
      ¬ m.Ordered x l.view → ViewEffect c m l [.race x] m l'

theorem GuardedStep.effect {c : LockCode} {m m' : LockMemory X} {l l' : Viewer X}
    {es : List (GuardedEvent X)} (h : GuardedStep c m l es m' l') : ViewEffect c m l es m' l' := by
  cases h with
  | callLock | callTryLock | callUnlock | lockReturn | tryReturn => exact .silent le_rfl rfl
  | load holds h => exact .silent h.le rfl
  | exchange holds h | tryExchange holds h => exact .acquire h rfl
  | compareFails holds _ h | tryCompareFails holds _ h => exact .silent h.le rfl
  | exchangeFails holds _ h hv | tryExchangeFails holds _ h hv => exact .spin h hv rfl
  | store h => exact .release rfl h rfl
  | read h => exact .access rfl rfl h rfl (.inl ⟨rfl, rfl⟩)
  | write v h => exact .access rfl rfl h rfl (.inr rfl)
  | race h => exact .race rfl rfl rfl h

end Effects

def nextOwner {X Thread : Type} (owner : Option Thread) (θ : Thread) :
    List (GuardedEvent X) → Option Thread
  | [.acquire] => some θ
  | [.release] => none
  | _ => owner

theorem nextOwner_access {X Thread : Type} {owner : Option Thread} {θ : Thread}
    {e : GuardedEvent X} {x : X} {v : ℤ} {P : Prop} (h : e = .read x v ∧ P ∨ e = .write x v) :
    nextOwner owner θ [e] = owner := by
  rcases h with ⟨rfl, -⟩ | rfl <;> rfl

section Invariants

variable {X Thread : Type} {c : LockCode} {init : X → ℤ}
  {s : Config Thread (LockMemory X) (Viewer X)} {θ : Thread} {g : LockMemory X} {l : Viewer X}
  {es : List (GuardedEvent X)} {owner : Option Thread}

/-- The owner is the thread that holds the lock; the message that an exchange can take is the last
one, and there is none while the lock is held. -/
structure Guards (owner : Option Thread) (s : Config Thread (LockMemory X) (Viewer X)) : Prop where
  holds_iff : ∀ θ, (s.locals θ).lock.holds = true ↔ owner = some θ
  taken : ∀ θ, owner = some θ → s.shared.Taken () kFree (s.locals θ).view
  sole : s.shared.Sole () kFree

structure Informs (owner : Option Thread) (s : Config Thread (LockMemory X) (Viewer X)) :
    Prop where
  ordered : ∀ θ, owner = some θ → ∀ x, s.shared.Ordered x (s.locals θ).view
  offered : ∀ t msg, s.shared.Offers () kFree t msg → ∀ x, s.shared.Ordered x msg.view

theorem Guards.free (h : Guards owner s) {t : ℕ} {msg : Message Unit X ℤ}
    (ho : s.shared.Offers () kFree t msg) : owner = none := by
  cases owner with
  | none => rfl
  | some θ => exact absurd ho ((h.taken θ rfl).closed t msg)

variable [DecidableEq Thread]

theorem Guards.holds_move (h : Guards owner s) {owner' : Option Thread}
    (hl : l.lock.holds = true ↔ owner' = some θ)
    (hrest : ∀ θ', θ' ≠ θ → (owner = some θ' ↔ owner' = some θ')) (θ' : Thread) :
    ((s.move θ g l).locals θ').lock.holds = true ↔ owner' = some θ' := by
  apply Config.forall_move (P := fun θ' (l : Viewer X) => l.lock.holds = true ↔ owner' = some θ') _ hl θ'
  intro θ' hne
  rw [h.holds_iff, hrest θ' hne]

theorem Guards.keep (h : Guards owner s) (hg : ∀ w, s.shared.Taken () kFree w → g.Taken () kFree w)
    (hsole : g.Sole () kFree) (hl : l.lock.holds = (s.locals θ).lock.holds)
    (hview : (s.locals θ).view (.inl ()) ≤ l.view (.inl ())) : Guards owner (s.move θ g l) := by
  constructor
  · apply h.holds_move _ fun _ _ => Iff.rfl
    rw [hl, h.holds_iff]
  · apply Config.forall_move
      (P := fun θ' (l : Viewer X) => owner = some θ' → g.Taken () kFree l.view)
    · exact fun θ' _ ho => hg _ (h.taken θ' ho)
    · exact fun ho => (hg _ (h.taken θ ho)).keep rfl hview
  · exact hsole

variable [DecidableEq X]

theorem Guards.step (h : Guards owner s) (he : ViewEffect c s.shared (s.locals θ) es g l) :
    Guards (nextOwner owner θ es) (s.move θ g l) := by
  cases he with
  | silent hview hholds => exact h.keep (fun _ ht => ht) h.sole hholds (hview _)
  | spin hx hv hholds =>
    apply h.keep (fun _ ht => hx.taken_other kLocked_ne_kFree ht) _ hholds (hx.le _)
    exact hx.sole hv kLocked_ne_kFree h.sole
  | race hheld hholds hview _ =>
    exact h.keep (fun _ ht => ht) h.sole (hholds.trans hheld.symm) (by rw [hview])
  | @access _ x v _ hheld hholds _ hview he =>
    rw [nextOwner_access he]
    apply h.keep (g := s.shared.access x v) (fun _ ht => ht.keep rfl le_rfl) (h.sole.keep rfl)
      (hholds.trans hheld.symm)
    rw [hview, Memory.accessed_atomic]
  | acquire hx hholds =>
    have hfree : owner = none := by
      obtain ⟨t, msg, -, hmsg, hv, hnext, -⟩ := hx
      exact h.free ⟨hmsg, hv, hnext⟩
    subst hfree
    have htaken := hx.taken h.sole kLocked_ne_kFree
    constructor
    · apply h.holds_move (iff_of_true hholds rfl)
      intro θ' hne
      exact iff_of_false (Option.some_ne_none _).symm fun he => hne (Option.some.inj he).symm
    · intro θ' ho
      obtain rfl := Option.some.inj ho
      rw [Config.move_self]
      exact htaken
    · exact htaken.sole
  | release hheld hst hholds =>
    obtain rfl := (h.holds_iff θ).mp hheld
    constructor
    · apply h.holds_move
      · exact iff_of_false (by rw [hholds]; exact Bool.false_ne_true) (Option.some_ne_none _).symm
      · intro θ' hne
        exact iff_of_false (fun he => hne (Option.some.inj he).symm) (Option.some_ne_none _).symm
    · intro θ' ho
      cases ho
    · exact hst.sole (h.taken θ rfl)

omit [DecidableEq X] in
theorem Informs.keep (h : Informs owner s) (hcells : g.cells = s.shared.cells)
    (hoffers : ∀ t msg, g.Offers () kFree t msg → s.shared.Offers () kFree t msg)
    (hview : (s.locals θ).view ≤ l.view) : Informs owner (s.move θ g l) := by
  constructor
  · apply Config.forall_move
      (P := fun θ' (l : Viewer X) => owner = some θ' → ∀ x, g.Ordered x l.view)
    · exact fun θ' _ howner x => (h.ordered θ' howner x).mono hcells le_rfl
    · exact fun howner x => (h.ordered θ howner x).mono hcells hview
  · exact fun t msg hoffer x => (h.offered t msg (hoffers t msg hoffer) x).mono hcells le_rfl

theorem Informs.step (hg : Guards owner s) (h : Informs owner s) (hc : c.Synchronizes)
    (he : ViewEffect c s.shared (s.locals θ) es g l) :
    Informs (nextOwner owner θ es) (s.move θ g l) := by
  have hnext := hg.step he
  cases he with
  | silent hview hholds => exact h.keep rfl (fun _ _ hoffer => hoffer) hview
  | spin hx hv hholds =>
    exact h.keep hx.cells (fun _ _ hoffer => hx.offers kLocked_ne_kFree hoffer) hx.le
  | race hheld _ _ hrace => exact absurd (h.ordered θ ((hg.holds_iff θ).mp hheld) _) hrace
  | acquire hx hholds =>
    rw [hc.1] at hx
    constructor
    · intro θ' he x
      obtain rfl := Option.some.inj he
      obtain ⟨t, msg, hoffer, hle⟩ := hx.view_le
      rw [Config.move_self]
      exact (h.offered t msg hoffer x).mono hx.cells hle
    · intro t msg hoffer
      exact absurd hoffer ((hnext.taken θ rfl).closed t msg)
  | release hheld hst hholds =>
    obtain rfl := (hg.holds_iff θ).mp hheld
    rw [hc.2] at hst
    constructor
    · intro θ' he
      cases he
    · intro t msg hoffer x
      rw [(hst.offers (hg.taken θ rfl) hoffer).1]
      exact (h.ordered θ rfl x).mono hst.cells hst.le
  | @access _ x v _ hheld hholds hord hview he =>
    obtain rfl := (hg.holds_iff θ).mp hheld
    rw [nextOwner_access he] at hnext ⊢
    constructor
    · intro θ' he'
      obtain rfl := Option.some.inj he'
      rw [Config.move_self, hview]
      exact Memory.ordered_access (h.ordered θ rfl)
    · intro t msg hoffer
      exact absurd hoffer ((hnext.taken θ rfl).closed t msg)

def dataOf (m : LockMemory X) (x : X) : ℤ := (m.cells x).value

omit [DecidableEq Thread] [DecidableEq X] in
theorem dataOf_congr {m m' : LockMemory X} (h : m'.cells = m.cells) : dataOf m' = dataOf m := by
  unfold dataOf
  rw [h]

omit [DecidableEq Thread] in
theorem dataOf_access (m : LockMemory X) (x : X) (v : ℤ) :
    dataOf (m.access x v) = Function.update (dataOf m) x v := by
  funext y
  by_cases hy : y = x
  · subst hy
    simp only [dataOf, Memory.access, Function.update_self]
  · simp only [dataOf, Memory.access, Function.update_of_ne hy]

omit [DecidableEq Thread] in
theorem OwnedRun.step {trace : List (Thread × GuardedEvent X)} (hg : Guards owner s)
    (h : Informs owner s) (hrun : OwnedRun init trace owner (dataOf s.shared))
    (he : ViewEffect c s.shared (s.locals θ) es g l) :
    OwnedRun init (trace ++ es.map (Prod.mk θ)) (nextOwner owner θ es) (dataOf g) := by
  cases he with
  | silent =>
    rw [List.map_nil, List.append_nil]
    exact hrun
  | spin hx _ _ =>
    rw [List.map_nil, List.append_nil, dataOf_congr hx.cells]
    exact hrun
  | race hheld _ _ hrace => exact absurd (h.ordered θ ((hg.holds_iff θ).mp hheld) _) hrace
  | acquire hx _ =>
    have hfree : owner = none := by
      obtain ⟨t, msg, -, hmsg, hv, hnext, -⟩ := hx
      exact hg.free ⟨hmsg, hv, hnext⟩
    subst hfree
    rw [dataOf_congr hx.cells]
    exact hrun.acquire θ
  | release hheld hst _ =>
    obtain rfl := (hg.holds_iff θ).mp hheld
    rw [dataOf_congr hst.cells]
    exact hrun.release
  | @access _ x v _ hheld _ _ _ he =>
    obtain rfl := (hg.holds_iff θ).mp hheld
    rw [nextOwner_access he, dataOf_access]
    rcases he with ⟨rfl, rfl⟩ | rfl
    · have hsame : Function.update (dataOf s.shared) x (s.shared.cells x).value =
          dataOf s.shared := Function.update_eq_self x _
      rw [hsame]
      exact hrun.read x
    · exact hrun.write x v

omit [DecidableEq Thread] [DecidableEq X] in
theorem start_messages {t : ℕ} {msg : Message Unit X ℤ}
    (h : (startMemory init).messages () t = some msg) : t = 0 ∧ msg.view = 0 := by
  simp only [startMemory] at h
  split_ifs at h with h0
  exact ⟨h0, by rw [← Option.some.inj h]⟩

omit [DecidableEq Thread] [DecidableEq X] in
theorem guards_start (hs : s.shared = startMemory init) (hl : ∀ θ, s.locals θ = {}) :
    Guards none s ∧ Informs none s := by
  refine ⟨⟨?_, ?_, ?_⟩, ?_, ?_⟩
  · intro θ
    rw [hl]
    exact iff_of_false Bool.false_ne_true (Option.some_ne_none _).symm
  · intro θ he
    cases he
  · intro t msg _ t' ht'
    rw [hs] at ht'
    obtain ⟨msg', hmsg'⟩ := Option.ne_none_iff_exists'.mp ht'
    rw [(start_messages hmsg').1]
    exact Nat.zero_le t
  · intro θ he
    cases he
  · intro t msg hoffer x
    rw [hs] at hoffer ⊢
    exact Nat.zero_le _

theorem guards_reachable {s : Traced Thread (LockMemory X) (Viewer X) (GuardedEvent X)}
    (h : Reachable (guardedTraces c init Thread) s) : ∃ owner, Guards owner s.config := by
  induction h with
  | init h => exact ⟨none, (guards_start h.1.1 h.1.2).1⟩
  | step _ hs ih =>
    obtain ⟨owner, hg⟩ := ih
    obtain ⟨θ, es, g, l, hs, rfl⟩ := hs
    exact ⟨_, hg.step hs.effect⟩

theorem ownedRun_reachable (hc : c.Synchronizes)
    {s : Traced Thread (LockMemory X) (Viewer X) (GuardedEvent X)}
    (h : Reachable (guardedTraces c init Thread) s) : ∃ owner, Guards owner s.config ∧
      Informs owner s.config ∧ OwnedRun init s.events owner (dataOf s.config.shared) := by
  induction h with
  | @init s h =>
    obtain ⟨⟨hshared, hlocals⟩, hevents⟩ := h
    obtain ⟨hg, hi⟩ := guards_start hshared hlocals
    refine ⟨none, hg, hi, ?_⟩
    rw [hevents, hshared]
    exact .nil
  | step _ hs ih =>
    obtain ⟨owner, hg, hi, hrun⟩ := ih
    obtain ⟨θ, es, g, l, hs, rfl⟩ := hs
    exact ⟨_, hg.step hs.effect, hi.step hg hc hs.effect, hrun.step hg hi hs.effect⟩

end Invariants

end OsdevLibstdc.Dux
