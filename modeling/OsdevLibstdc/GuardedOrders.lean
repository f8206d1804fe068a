import OsdevLibstdc.GuardedData

/-!
Which memory orders `dux::spin_lock` needs: none for its threads to exclude one another, and an
acquire and a release for the data. Without these a thread that has taken the lock need not know
what the last one has written.
-/

namespace OsdevLibstdc.Dux

open TransitionSystems MutexTraces ViewMemory

variable {X Thread : Type} [DecidableEq X] [DecidableEq Thread] {c : LockCode} {init : X → ℤ}

section Calls

variable {m : LockMemory X} {w : View Unit X}

theorem acquire_run (c : LockCode) {t : ℕ} {msg : Message Unit X ℤ} (h : m.Offers () kFree t msg)
    (hw : w (.inl ()) ≤ t) (holds : Bool) : ∃ m' w',
      LocalRun (GuardedStep c) m ⟨⟨.outside, holds⟩, w⟩ [.acquire] m' ⟨⟨.outside, true⟩, w'⟩ ∧
      m.Exchanges c.exchange.acquires c.exchange.releases () w kFree kLocked m' w' ∧
      w' = Memory.joined c.exchange.acquires w msg.view ⊔ Memory.known () (t + 1) := by
  obtain ⟨hmsg, hv, hnext⟩ := h
  have hx : m.Exchanges c.exchange.acquires c.exchange.releases () w kFree kLocked _ _ :=
    ⟨t, msg, hw, hmsg, hv, hnext, rfl, rfl⟩
  have h1 := LocalRun.snoc (.nil _ _) (GuardedStep.callTryLock (c := c) m holds w)
  have h2 := h1.snoc (.tryExchange holds hx)
  exact ⟨_, _, h2.snoc (.tryReturn _ true true _), hx, rfl⟩

theorem release_run (c : LockCode) (h : m.Seen () w) : ∃ m' w',
    LocalRun (GuardedStep c) m ⟨⟨.outside, true⟩, w⟩ [.release] m' ⟨⟨.outside, false⟩, w'⟩ ∧
    m.Stores c.store.releases () w kFree m' w' ∧
    ∃ msg, m'.Offers () kFree (w' (.inl ())) msg := by
  have hfresh {t : ℕ} (ht : w (.inl ()) < t) : m.messages () t = none := by
    by_contra hne
    exact absurd (h t hne) (Nat.not_le.mpr ht)
  have hstores : m.Stores c.store.releases () w kFree _ _ :=
    ⟨w (.inl ()) + 1, Nat.lt_succ_self _, hfresh (Nat.lt_succ_self _), rfl, rfl⟩
  have hlast : (w ⊔ Memory.known () (w (.inl ()) + 1)) (.inl ()) = w (.inl ()) + 1 := by
    rw [Pi.sup_apply, Memory.known_self]
    exact sup_of_le_right (Nat.le_succ _)
  refine ⟨_, _, ?_, hstores, ?_⟩
  · have h1 := LocalRun.snoc (.nil _ _) (GuardedStep.callUnlock (c := c) m w)
    exact h1.snoc (.store hstores)
  · rw [hlast]
    refine ⟨_, Memory.post_self, rfl, ?_⟩
    rw [Memory.post_other (Nat.succ_ne_self _)]
    exact hfresh (by omega)

end Calls

section Completeness

variable {s : Config Thread (LockMemory X) (Viewer X)} {owner : Option Thread} {values : X → ℤ}

structure Rests (owner : Option Thread) (s : Config Thread (LockMemory X) (Viewer X)) : Prop where
  lock : ∀ θ, (s.locals θ).lock = ⟨.outside, decide (owner = some θ)⟩
  offered : owner = none →
    ∃ t msg, s.shared.Offers () kFree t msg ∧ ∀ θ, (s.locals θ).view (.inl ()) ≤ t
  seen : ∀ θ, owner = some θ → s.shared.Seen () (s.locals θ).view
  ahead : ∀ θ, owner = some θ → ∀ θ', (s.locals θ').view (.inl ()) ≤ (s.locals θ).view (.inl ())

omit [DecidableEq X] in
theorem Rests.start (hs : s.shared = startMemory init) (hl : ∀ θ, s.locals θ = {}) :
    Rests none s := by
  constructor
  · intro θ
    rw [hl]
    rfl
  · intro _
    refine ⟨0, ⟨kFree, 0⟩, ⟨?_, rfl, ?_⟩, ?_⟩
    · rw [hs]
      rfl
    · rw [hs]
      rfl
    · intro θ
      rw [hl]
      exact le_rfl
  · intro θ h
    cases h
  · intro θ h
    cases h

omit [DecidableEq X] in
theorem Rests.lock_move (h : Rests owner s) {owner' : Option Thread} {θ : Thread}
    {m : LockMemory X} {w : View Unit X}
    (hrest : ∀ θ', θ' ≠ θ → (owner = some θ' ↔ owner' = some θ')) (θ' : Thread) :
    ((s.move θ m ⟨⟨.outside, decide (owner' = some θ)⟩, w⟩).locals θ').lock =
      ⟨.outside, decide (owner' = some θ')⟩ := by
  apply Config.forall_move
    (P := fun θ' (l : Viewer X) => l.lock = ⟨.outside, decide (owner' = some θ')⟩) _ rfl θ'
  intro θ' hne
  rw [h.lock θ']
  simp only [hrest θ' hne]

theorem Rests.extend {es : List (Thread × GuardedEvent X)} {owner' : Option Thread} {θ : Thread}
    {e : GuardedEvent X} {m : LockMemory X} {w : View Unit X} (h : Rests owner s)
    (hr : Reachable (guardedTraces c init Thread) ⟨s, es⟩)
    (hrun : LocalRun (GuardedStep c) s.shared
      ⟨⟨.outside, decide (owner = some θ)⟩, (s.locals θ).view⟩ [e] m
      ⟨⟨.outside, decide (owner' = some θ)⟩, w⟩) :
    Reachable (guardedTraces c init Thread)
      ⟨s.move θ m ⟨⟨.outside, decide (owner' = some θ)⟩, w⟩, es ++ [(θ, e)]⟩ := by
  have hlocal : s.locals θ = ⟨⟨.outside, decide (owner = some θ)⟩, (s.locals θ).view⟩ := by
    rw [← h.lock θ]
  rw [← hlocal] at hrun
  exact Reachable.localRun (s := ⟨s, es⟩) hr hrun

theorem Rests.ordered {es : List (Thread × GuardedEvent X)} {θ : Thread} (h : Rests (some θ) s)
    (hc : c.Synchronizes) (hr : Reachable (guardedTraces c init Thread) ⟨s, es⟩) (x : X) :
    s.shared.Ordered x (s.locals θ).view := by
  obtain ⟨owner, hg, hi, -⟩ := ownedRun_reachable hc hr
  have howner : owner = some θ := by
    apply (hg.holds_iff θ).mp
    rw [h.lock θ]
    exact decide_eq_true rfl
  exact hi.ordered θ howner x

theorem Rests.access {es : List (Thread × GuardedEvent X)} {θ : Thread} {e : GuardedEvent X} {x : X}
    {v : ℤ} (h : Rests (some θ) s) (hr : Reachable (guardedTraces c init Thread) ⟨s, es⟩)
    (hstep : GuardedStep c s.shared ⟨⟨.outside, true⟩, (s.locals θ).view⟩ [e] (s.shared.access x v)
      ⟨⟨.outside, true⟩, s.shared.accessed x (s.locals θ).view⟩) :
    ∃ s', Reachable (guardedTraces c init Thread) ⟨s', es ++ [(θ, e)]⟩ ∧ Rests (some θ) s' ∧
      dataOf s'.shared = Function.update (dataOf s.shared) x v := by
  have hθ : decide (some θ = some θ) = true := decide_eq_true rfl
  have hrun := LocalRun.snoc (.nil _ _) hstep
  rw [← hθ] at hrun
  have hsame : s.shared.accessed x (s.locals θ).view (.inl ()) = (s.locals θ).view (.inl ()) :=
    Memory.accessed_atomic
  refine ⟨_, h.extend hr hrun, ⟨?_, ?_, ?_, ?_⟩, dataOf_access _ x v⟩
  · exact h.lock_move fun _ _ => Iff.rfl
  · intro he
    cases he
  · intro θ' he
    obtain rfl := Option.some.inj he
    rw [Config.move_self]
    exact fun t ht => (h.seen θ rfl t ht).trans hsame.ge
  · intro θ' he
    obtain rfl := Option.some.inj he
    rw [Config.move_self]
    apply Config.forall_move (P := fun _ (l : Viewer X) => l.view (.inl ()) ≤ _)
    · exact fun θ' _ => (h.ahead θ rfl θ').trans hsame.ge
    · exact le_rfl

theorem Rests.acquire {es : List (Thread × GuardedEvent X)} (h : Rests none s)
    (hr : Reachable (guardedTraces c init Thread) ⟨s, es⟩) (θ : Thread) :
    ∃ s', Reachable (guardedTraces c init Thread) ⟨s', es ++ [(θ, .acquire)]⟩ ∧
      Rests (some θ) s' ∧ dataOf s'.shared = dataOf s.shared := by
  obtain ⟨_, hg⟩ := guards_reachable hr
  obtain ⟨t, msg, hoffer, hviews⟩ := h.offered rfl
  obtain ⟨m', w', hrun, hx, hw⟩ := acquire_run c hoffer (hviews θ) (decide (none = some θ))
  have hlast : t ≤ w' (.inl ()) := by
    rw [hw, Pi.sup_apply, Memory.known_self]
    exact (Nat.le_succ t).trans le_sup_right
  rw [← decide_eq_true (Eq.refl (some θ))] at hrun
  refine ⟨_, h.extend hr hrun, ⟨?_, ?_, ?_, ?_⟩, dataOf_congr hx.cells⟩
  · apply h.lock_move
    intro θ' hne
    exact iff_of_false (Option.some_ne_none _).symm fun he => hne (Option.some.inj he).symm
  · intro he
    cases he
  · intro θ' he
    obtain rfl := Option.some.inj he
    rw [Config.move_self]
    exact hx.seen hg.sole
  · intro θ' he
    obtain rfl := Option.some.inj he
    rw [Config.move_self]
    apply Config.forall_move (P := fun _ (l : Viewer X) => l.view (.inl ()) ≤ _)
    · exact fun θ' _ => (hviews θ').trans hlast
    · exact le_rfl

theorem Rests.release {es : List (Thread × GuardedEvent X)} {θ : Thread} (h : Rests (some θ) s)
    (hr : Reachable (guardedTraces c init Thread) ⟨s, es⟩) :
    ∃ s', Reachable (guardedTraces c init Thread) ⟨s', es ++ [(θ, .release)]⟩ ∧
      Rests none s' ∧ dataOf s'.shared = dataOf s.shared := by
  obtain ⟨m', w', hrun, hst, hoffer⟩ := release_run c (h.seen θ rfl)
  rw [← decide_eq_true (Eq.refl (some θ)), ← decide_eq_false (Option.some_ne_none θ).symm] at hrun
  refine ⟨_, h.extend hr hrun, ⟨?_, ?_, ?_, ?_⟩, dataOf_congr hst.cells⟩
  · apply h.lock_move
    intro θ' hne
    exact iff_of_false (fun he => hne (Option.some.inj he).symm) (Option.some_ne_none _).symm
  · intro _
    obtain ⟨msg, hoffer⟩ := hoffer
    refine ⟨_, msg, hoffer, ?_⟩
    apply Config.forall_move (P := fun _ (l : Viewer X) => l.view (.inl ()) ≤ _)
    · exact fun θ' _ => (h.ahead θ rfl θ').trans (hst.le _)
    · exact le_rfl
  · intro θ' he
    cases he
  · intro θ' he
    cases he

variable (Thread) in
theorem rests_start (c : LockCode) (init : X → ℤ) : ∃ s : Config Thread (LockMemory X) (Viewer X),
    Reachable (guardedTraces c init Thread) ⟨s, []⟩ ∧ Rests none s ∧ dataOf s.shared = init := by
  refine ⟨⟨startMemory init, fun _ => {}⟩, .init ⟨⟨rfl, fun _ => rfl⟩, rfl⟩, ?_, rfl⟩
  exact .start rfl fun _ => rfl

theorem rests_of_ownedRun (hc : c.Synchronizes) {es : List (Thread × GuardedEvent X)}
    (h : OwnedRun init es owner values) : ∃ s, Reachable (guardedTraces c init Thread) ⟨s, es⟩ ∧
      Rests owner s ∧ dataOf s.shared = values := by
  induction h with
  | nil => exact rests_start Thread c init
  | acquire θ _ ih =>
    obtain ⟨s, hr, hrest, rfl⟩ := ih
    exact hrest.acquire hr θ
  | release _ ih =>
    obtain ⟨s, hr, hrest, rfl⟩ := ih
    exact hrest.release hr
  | read x _ ih =>
    obtain ⟨s, hr, hrest, rfl⟩ := ih
    obtain ⟨s', hr', hrest', hdata⟩ := hrest.access hr (.read (hrest.ordered hc hr x))
    refine ⟨s', hr', hrest', hdata.trans ?_⟩
    exact Function.update_eq_self x _
  | write x v _ ih =>
    obtain ⟨s, hr, hrest, rfl⟩ := ih
    exact hrest.access hr (.write v (hrest.ordered hc hr x))

end Completeness

section Exclusion

def mutexEvent : Thread × GuardedEvent X → Option (Thread × MutexEvent)
  | (θ, .acquire) => some (θ, .acquire)
  | (θ, .release) => some (θ, .release)
  | _ => none

def Alternates (c : LockCode) (init : X → ℤ) (ms : List (Thread × MutexEvent))
    (owner : Option Thread) : Prop :=
  ∃ s, Reachable (guardedTraces c init Thread) s ∧ s.events.filterMap mutexEvent = ms ∧
    ∀ θ, (s.config.locals θ).lock.holds = true ↔ owner = some θ

variable {s : Config Thread (LockMemory X) (Viewer X)} {owner : Option Thread}
  {ms : List (Thread × MutexEvent)}

omit [DecidableEq Thread] in
theorem mutexRun_step {θ : Thread} {g : LockMemory X} {l : Viewer X} {es : List (GuardedEvent X)}
    (hg : Guards owner s) (hrun : MutexRun ms owner)
    (he : ViewEffect c s.shared (s.locals θ) es g l) :
    MutexRun (ms ++ (es.map (Prod.mk θ)).filterMap mutexEvent) (nextOwner owner θ es) := by
  cases he with
  | silent | spin | race =>
    have hnone : ms ++ [] = ms := List.append_nil ms
    rw [← hnone] at hrun
    exact hrun
  | acquire hx _ =>
    obtain ⟨t, msg, -, hmsg, hv, hnext, -⟩ := hx
    obtain rfl := hg.free ⟨hmsg, hv, hnext⟩
    exact hrun.acquire θ
  | release hheld _ _ =>
    obtain rfl := (hg.holds_iff θ).mp hheld
    exact hrun.release
  | access _ _ _ _ he =>
    have hnone : ms ++ [] = ms := List.append_nil ms
    rw [← hnone] at hrun
    rw [nextOwner_access he]
    rcases he with ⟨rfl, -⟩ | rfl
    · exact hrun
    · exact hrun

omit [DecidableEq Thread] [DecidableEq X] in
theorem not_refused (es : List (Thread × GuardedEvent X)) (θ : Thread) :
    (θ, .refuse) ∉ es.filterMap mutexEvent := by
  intro h
  obtain ⟨⟨θ', e⟩, -, he⟩ := List.mem_filterMap.mp h
  cases e <;> cases he

theorem rests_of_mutexRun (c : LockCode) (init : X → ℤ) (h : MutexRun ms owner)
    (hms : ∀ θ, (θ, .refuse) ∉ ms) : ∃ s es, Reachable (guardedTraces c init Thread) ⟨s, es⟩ ∧
      Rests owner s ∧ es.filterMap mutexEvent = ms := by
  have hfront {ms ms' : List (Thread × MutexEvent)} (hms : ∀ θ, (θ, .refuse) ∉ ms ++ ms') :
      ∀ θ, (θ, .refuse) ∉ ms := fun θ h => hms θ (List.mem_append_left _ h)
  induction h with
  | nil =>
    obtain ⟨s, hr, hrest, -⟩ := rests_start Thread c init
    exact ⟨s, [], hr, hrest, rfl⟩
  | acquire θ _ ih =>
    obtain ⟨s, es, hr, hrest, rfl⟩ := ih (hfront hms)
    obtain ⟨s', hr', hrest', -⟩ := hrest.acquire hr θ
    refine ⟨s', _, hr', hrest', ?_⟩
    rw [List.filterMap_append]
    rfl
  | refuse θ _ _ => exact absurd (List.mem_append_right _ List.mem_cons_self) (hms θ)
  | release _ ih =>
    obtain ⟨s, es, hr, hrest, rfl⟩ := ih (hfront hms)
    obtain ⟨s', hr', hrest', -⟩ := hrest.release hr
    refine ⟨s', _, hr', hrest', ?_⟩
    rw [List.filterMap_append]
    rfl

theorem mutexRun_reachable {s : Traced Thread (LockMemory X) (Viewer X) (GuardedEvent X)}
    (h : Reachable (guardedTraces c init Thread) s) :
    ∃ owner, Guards owner s.config ∧ MutexRun (s.events.filterMap mutexEvent) owner := by
  induction h with
  | @init s h =>
    obtain ⟨⟨hshared, hlocals⟩, hevents⟩ := h
    refine ⟨none, (guards_start hshared hlocals).1, ?_⟩
    rw [hevents]
    exact .nil
  | step _ hs ih =>
    obtain ⟨owner, hg, hrun⟩ := ih
    obtain ⟨θ, es, g, l, hs, rfl⟩ := hs
    refine ⟨_, hg.step hs.effect, ?_⟩
    rw [List.filterMap_append]
    exact mutexRun_step hg hrun hs.effect

theorem alternates_iff (c : LockCode) (init : X → ℤ) (ms : List (Thread × MutexEvent))
    (owner : Option Thread) :
    Alternates c init ms owner ↔ MutexRun ms owner ∧ ∀ θ, (θ, .refuse) ∉ ms := by
  constructor
  · rintro ⟨s, hs, rfl, howner⟩
    refine ⟨?_, not_refused s.events⟩
    obtain ⟨owner', hg, hrun⟩ := mutexRun_reachable hs
    have heq : owner' = owner := by
      apply Option.ext
      intro θ
      rw [← hg.holds_iff, ← howner]
    rw [← heq]
    exact hrun
  · rintro ⟨hrun, hms⟩
    obtain ⟨s, es, hr, hrest, hes⟩ := rests_of_mutexRun c init hrun hms
    refine ⟨_, hr, hes, ?_⟩
    intro θ
    rw [hrest.lock θ]
    exact decide_eq_true_iff

end Exclusion

omit [DecidableEq Thread] in
theorem OwnedRun.no_race {es : List (Thread × GuardedEvent X)} {owner : Option Thread}
    {values : X → ℤ} (h : OwnedRun init es owner values) (θ : Thread) (x : X) :
    (θ, .race x) ∉ es := by
  induction h with
  | nil => exact List.not_mem_nil
  | acquire _ _ ih | release _ ih | read _ _ ih | write _ _ _ ih =>
    simp only [List.mem_append, ih, List.mem_singleton, Prod.mk.injEq, reduceCtorEq, and_false,
      or_false, not_false_eq_true]

theorem race_of_not_synchronizes (hc : ¬ c.Synchronizes) {θ₁ θ₂ : Thread} (hne : θ₂ ≠ θ₁) (x : X) :
    ∃ es : List (Thread × GuardedEvent X), Guarded c init es ∧ (θ₂, .race x) ∈ es := by
  have hstart : Reachable (guardedTraces c init Thread) ⟨⟨startMemory init, fun _ => {}⟩, []⟩ :=
    .init ⟨⟨rfl, fun _ => rfl⟩, rfl⟩
  obtain ⟨hguards, -⟩ := guards_start (s := ⟨startMemory init, fun _ : Thread => {}⟩) rfl
    fun _ => rfl
  have hoffer₀ : (startMemory init).Offers () kFree 0 ⟨kFree, 0⟩ := ⟨rfl, rfl, rfl⟩
  obtain ⟨m₁, w₁, hrun₁, hx₁, -⟩ := acquire_run (w := 0) c hoffer₀ le_rfl false
  have htaken₁ := hx₁.taken hguards.sole kLocked_ne_kFree
  have hord₁ : m₁.Ordered x w₁ := by
    unfold Memory.Ordered
    rw [hx₁.cells]
    exact Nat.zero_le _
  have hsame : m₁.accessed x w₁ (.inl ()) = w₁ (.inl ()) := Memory.accessed_atomic
  have htaken₂ : (m₁.access x 1).Taken () kFree (m₁.accessed x w₁) := htaken₁.keep rfl hsame.ge
  have hseen₂ : (m₁.access x 1).Seen () (m₁.accessed x w₁) := fun t ht =>
    (hx₁.seen hguards.sole t ht).trans hsame.ge
  obtain ⟨m₃, w₃, hrun₃, hst₃, msg, hoffer₃⟩ := release_run c hseen₂
  obtain ⟨m₄, w₄, hrun₄, hx₄, hw₄⟩ := acquire_run (w := 0) c hoffer₃ (Nat.zero_le _) false
  have hrace : ¬ m₄.Ordered x w₄ := by
    have hmissed : w₄ (.inr x) = 0 := by
      rw [hw₄, Pi.sup_apply, Memory.known_plain]
      unfold Memory.joined
      split_ifs with hacq
      · have hrel : c.store.releases = false := by
          rw [← Bool.not_eq_true]
          exact fun hrel => hc ⟨hacq, hrel⟩
        have hzero : msg.view (.inr x) = 0 := by
          rw [(hst₃.offers htaken₂ hoffer₃).1, hrel]
          exact Memory.released_plain
        rw [Pi.sup_apply, hzero]
        rfl
      · rfl
    have hcount : (m₄.cells x).accesses = 1 := by
      rw [hx₄.cells, hst₃.cells]
      simp only [Memory.access, Function.update_self, hx₁.cells, startMemory]
    unfold Memory.Ordered
    rw [hcount, hmissed]
    exact Nat.not_succ_le_zero 0
  have hcritical : LocalRun (GuardedStep c) (startMemory init) ⟨⟨.outside, false⟩, 0⟩
      ([.acquire] ++ [.write x 1]) (m₁.access x 1) ⟨⟨.outside, true⟩, m₁.accessed x w₁⟩ :=
    hrun₁.snoc (.write 1 hord₁)
  have h₁ := Reachable.localRun (θ := θ₁) hstart hcritical
  have h₃ := Reachable.localRun (θ := θ₁) h₁ (by rw [Config.move_self]; exact hrun₃)
  have h₄ := Reachable.localRun (θ := θ₂) h₃ (by
    rw [Config.move_other hne, Config.move_other hne]
    exact hrun₄.snoc (.race hrace))
  exact ⟨_, ⟨_, h₄, rfl⟩, List.mem_append_right _ (List.mem_cons_of_mem _ List.mem_cons_self)⟩

/-- The memory orders with which the threads make of the guarded data exactly what a mutex makes of
them: nobody is in a race, each read is of the last write, and all that the mutex allows can
happen. -/
theorem guarded_iff_ownedRun [Nontrivial Thread] [Nonempty X] (c : LockCode) (init : X → ℤ) :
    (∀ es : List (Thread × GuardedEvent X),
      Guarded c init es ↔ ∃ owner values, OwnedRun init es owner values) ↔ c.Synchronizes := by
  constructor
  · intro h
    by_contra hc
    obtain ⟨θ₁, θ₂, hne⟩ := exists_pair_ne Thread
    obtain ⟨x⟩ := ‹Nonempty X›
    obtain ⟨es, hes, hrace⟩ := race_of_not_synchronizes hc hne.symm x
    obtain ⟨owner, values, hrun⟩ := (h es).mp hes
    exact hrun.no_race θ₂ x hrace
  · intro hc es
    constructor
    · rintro ⟨s, hs, rfl⟩
      obtain ⟨owner, -, -, hrun⟩ := ownedRun_reachable hc hs
      exact ⟨owner, _, hrun⟩
    · rintro ⟨owner, values, hrun⟩
      obtain ⟨s, hs, -, -⟩ := rests_of_ownedRun hc hrun
      exact ⟨_, hs, rfl⟩

theorem guarded_iff_ownedRun_locks :
    (∀ es : List (Bool × GuardedEvent Unit), Guarded spinLockCode (fun _ => 7) es ↔
      ∃ owner values, OwnedRun (fun _ => 7) es owner values) ∧
    (∀ es : List (Bool × GuardedEvent Unit), Guarded tasSpinLockCode (fun _ => 7) es ↔
      ∃ owner values, OwnedRun (fun _ => 7) es owner values) ∧
    (∀ es : List (Bool × GuardedEvent Unit), Guarded ttasSpinLockCode (fun _ => 7) es ↔
      ∃ owner values, OwnedRun (fun _ => 7) es owner values) := by
  refine ⟨?_, ?_, ?_⟩
  · exact (guarded_iff_ownedRun spinLockCode fun _ => 7).mpr (by decide)
  · exact (guarded_iff_ownedRun tasSpinLockCode fun _ => 7).mpr (by decide)
  · exact (guarded_iff_ownedRun ttasSpinLockCode fun _ => 7).mpr (by decide)

end OsdevLibstdc.Dux
