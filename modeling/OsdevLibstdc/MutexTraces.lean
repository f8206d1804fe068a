import OsdevLibstdc.TransitionSystems

/-!
Traces of interleaved threads, and locks whose traces are those of an abstract mutex: a state that
says who owns it, and events that name the thread.
-/

namespace OsdevLibstdc.MutexTraces

open TransitionSystems

section Traces

variable {Thread Shared Local Event : Type*} [DecidableEq Thread]

structure Traced (Thread Shared Local Event : Type*) where
  config : Config Thread Shared Local
  events : List (Thread × Event)

abbrev LabelledStep (Shared Local Event : Type*) :=
  Shared → Local → List Event → Shared → Local → Prop

def traced (start : Shared → Prop) (idle : Local → Prop)
    (step : LabelledStep Shared Local Event) : System (Traced Thread Shared Local Event) where
  init s := (start s.config.shared ∧ ∀ θ, idle (s.config.locals θ)) ∧ s.events = []
  step s t := ∃ θ es g l, step s.config.shared (s.config.locals θ) es g l ∧
    t = ⟨s.config.move θ g l, s.events ++ es.map (Prod.mk θ)⟩

inductive LocalRun (step : LabelledStep Shared Local Event) :
    Shared → Local → List Event → Shared → Local → Prop
  | nil (g l) : LocalRun step g l [] g l
  | snoc {g l es g' l' es' g'' l''} : LocalRun step g l es g' l' → step g' l' es' g'' l'' →
      LocalRun step g l (es ++ es') g'' l''

variable {start : Shared → Prop} {idle : Local → Prop} {step : LabelledStep Shared Local Event}
  {s : Traced Thread Shared Local Event} {θ : Thread} {g : Shared} {l : Local} {es : List Event}

theorem Reachable.localRun (h : Reachable (traced start idle step) s)
    (hrun : LocalRun step s.config.shared (s.config.locals θ) es g l) :
    Reachable (traced start idle step)
      (⟨s.config.move θ g l, s.events ++ es.map (Prod.mk θ)⟩ : Traced Thread Shared Local Event) := by
  generalize hshared : s.config.shared = g₀ at hrun
  generalize hlocal : s.config.locals θ = l₀ at hrun
  induction hrun with
  | nil =>
    subst hshared hlocal
    rw [Config.move_same, List.map_nil, List.append_nil]
    exact h
  | @snoc es g' l' es' g'' l'' _ hstep ih =>
    refine ih.step ⟨θ, es', g'', l'', ?_, ?_⟩
    · rw [Config.move_shared, Config.move_self]
      exact hstep
    · simp only [Config.move_move, List.map_append, List.append_assoc]

end Traces

inductive MutexEvent
  | acquire
  | refuse
  | release
deriving Repr, DecidableEq

/-- The runs of a mutex, with its owner at the end. It is refused exactly while it is owned. -/
inductive MutexRun {Thread : Type*} : List (Thread × MutexEvent) → Option Thread → Prop
  | nil : MutexRun [] none
  | acquire {es} (θ) : MutexRun es none → MutexRun (es ++ [(θ, .acquire)]) (some θ)
  | refuse {es owner} (θ) : MutexRun es (some owner) →
      MutexRun (es ++ [(θ, .refuse)]) (some owner)
  | release {es θ} : MutexRun es (some θ) → MutexRun (es ++ [(θ, .release)]) none

section Lock

variable {Thread Shared Local : Type*} [DecidableEq Thread]

inductive LockEffect (taken : Shared → Prop) (holds : Local → Prop) (g : Shared) (l : Local) :
    List MutexEvent → Shared → Local → Prop
  | silent {g' l'} : (taken g' ↔ taken g) → (holds l' ↔ holds l) → LockEffect taken holds g l [] g' l'
  | acquire {g' l'} : ¬ taken g → taken g' → holds l' →
      LockEffect taken holds g l [.acquire] g' l'
  | refuse {g' l'} : taken g → taken g' → (holds l' ↔ holds l) →
      LockEffect taken holds g l [.refuse] g' l'
  | release {g' l'} : holds l → ¬ taken g' → ¬ holds l' →
      LockEffect taken holds g l [.release] g' l'

variable {taken : Shared → Prop} {holds : Local → Prop} {start : Shared → Prop}
  {idle : Local → Prop} {step : LabelledStep Shared Local MutexEvent}

structure Owns (taken : Shared → Prop) (holds : Local → Prop)
    (s : Traced Thread Shared Local MutexEvent) (owner : Option Thread) : Prop where
  holds_iff : ∀ θ, holds (s.config.locals θ) ↔ owner = some θ
  taken_iff : taken s.config.shared ↔ owner ≠ none

omit [DecidableEq Thread] in
theorem Owns.unique {s : Traced Thread Shared Local MutexEvent} {owner owner' : Option Thread}
    (h : Owns taken holds s owner) (h' : Owns taken holds s owner') : owner = owner' := by
  apply Option.ext
  intro θ
  rw [← h.holds_iff, ← h'.holds_iff]

theorem Owns.effect {s : Traced Thread Shared Local MutexEvent} {owner : Option Thread} {θ : Thread}
    {es : List MutexEvent} {g : Shared} {l : Local} (h : Owns taken holds s owner)
    (hrun : MutexRun s.events owner)
    (heffect : LockEffect taken holds s.config.shared (s.config.locals θ) es g l) :
    ∃ owner', MutexRun (s.events ++ es.map (Prod.mk θ)) owner' ∧
      Owns taken holds ⟨s.config.move θ g l, s.events ++ es.map (Prod.mk θ)⟩ owner' := by
  have hother {owner' : Option Thread} (hl : holds l ↔ owner' = some θ)
      (hrest : ∀ θ', θ' ≠ θ → (owner = some θ' ↔ owner' = some θ')) (θ' : Thread) :
      holds ((s.config.move θ g l).locals θ') ↔ owner' = some θ' := by
    apply Config.forall_move (P := fun θ' l => holds l ↔ owner' = some θ') _ hl θ'
    intro θ' hne
    rw [h.holds_iff, hrest θ' hne]
  cases heffect with
  | silent htaken hholds =>
    refine ⟨owner, ?_, hother (hholds.trans (h.holds_iff θ)) fun _ _ => Iff.rfl,
      htaken.trans h.taken_iff⟩
    rw [List.map_nil, List.append_nil]
    exact hrun
  | acquire hfree htaken hholds =>
    have hnone : owner = none := by
      by_contra hne
      exact hfree (h.taken_iff.mpr hne)
    subst hnone
    refine ⟨some θ, hrun.acquire θ, hother (iff_of_true hholds rfl) ?_,
      iff_of_true htaken (Option.some_ne_none θ)⟩
    intro θ' hne
    exact iff_of_false (Option.some_ne_none _).symm fun he => hne (Option.some.inj he).symm
  | refuse htaken htaken' hholds =>
    obtain ⟨θ₀, rfl⟩ := Option.ne_none_iff_exists'.mp (h.taken_iff.mp htaken)
    exact ⟨some θ₀, hrun.refuse θ, hother (hholds.trans (h.holds_iff θ)) fun _ _ => Iff.rfl,
      iff_of_true htaken' (Option.some_ne_none θ₀)⟩
  | release hheld hfree hholds =>
    obtain rfl := (h.holds_iff θ).mp hheld
    refine ⟨none, hrun.release, hother (iff_of_false hholds (Option.some_ne_none _).symm) ?_,
      iff_of_false hfree fun hne => hne rfl⟩
    intro θ' hne
    exact iff_of_false (fun he => hne (Option.some.inj he).symm) (Option.some_ne_none _).symm

theorem mutexRun_of_effects (good : Shared → Prop) (fine : Local → Prop)
    (hstart : ∀ g, start g → good g ∧ ¬ taken g) (hidle : ∀ l, idle l → fine l ∧ ¬ holds l)
    (hstep : ∀ g l es g' l', good g → fine l → step g l es g' l' →
      good g' ∧ fine l' ∧ LockEffect taken holds g l es g' l')
    {s : Traced Thread Shared Local MutexEvent} (h : Reachable (traced start idle step) s) :
    ∃ owner, MutexRun s.events owner ∧ Owns taken holds s owner := by
  have hinv : good s.config.shared ∧ (∀ θ, fine (s.config.locals θ)) ∧
      ∃ owner, MutexRun s.events owner ∧ Owns taken holds s owner := by
    induction h with
    | @init s h =>
      obtain ⟨⟨hshared, hlocals⟩, hevents⟩ := h
      obtain ⟨hgood, hfree⟩ := hstart _ hshared
      refine ⟨hgood, fun θ => (hidle _ (hlocals θ)).1, none, ?_, ?_, ?_⟩
      · rw [hevents]
        exact .nil
      · intro θ
        exact iff_of_false (hidle _ (hlocals θ)).2 (Option.some_ne_none _).symm
      · exact iff_of_false hfree fun hne => hne rfl
    | step _ hs ih =>
      obtain ⟨hgood, hfine, owner, hrun, howns⟩ := ih
      obtain ⟨θ, es, g, l, hs, rfl⟩ := hs
      obtain ⟨hgood', hfine', heffect⟩ := hstep _ _ _ _ _ hgood (hfine θ) hs
      refine ⟨hgood', ?_, howns.effect hrun heffect⟩
      exact Config.forall_move (P := fun _ => fine) (fun θ' _ => hfine θ') hfine'
  exact hinv.2.2

theorem move_out (out : Bool → Local) {owner owner' : Option Thread} {θ : Thread}
    (h : ∀ θ', θ' ≠ θ → (owner = some θ' ↔ owner' = some θ')) (g g' : Shared) :
    (⟨g, fun θ' => out (decide (owner = some θ'))⟩ : Config Thread Shared Local).move θ g'
      (out (decide (owner' = some θ))) = ⟨g', fun θ' => out (decide (owner' = some θ'))⟩ := by
  unfold Config.move
  congr 1
  funext θ'
  by_cases he : θ' = θ
  · subst he
    rw [Function.update_self]
  · rw [Function.update_of_ne he]
    simp only [h θ' he]

theorem traced_of_mutexRun (start : Shared → Prop) (idle : Local → Prop) (free locked : Shared)
    (out : Bool → Local)
    (hstart : start free) (hidle : idle (out false))
    (hacquire : LocalRun step free (out false) [.acquire] locked (out true))
    (hrefuse : ∀ b, LocalRun step locked (out b) [.refuse] locked (out b))
    (hrelease : LocalRun step locked (out true) [.release] free (out false))
    {es : List (Thread × MutexEvent)} {owner : Option Thread} (h : MutexRun es owner) :
    Reachable (traced start idle step)
      ⟨⟨if owner = none then free else locked, fun θ => out (decide (owner = some θ))⟩, es⟩ := by
  induction h with
  | nil => exact .init ⟨⟨hstart, fun _ => hidle⟩, rfl⟩
  | @acquire es θ _ ih =>
    have hrun := Reachable.localRun (θ := θ) ih hacquire
    rw [← decide_eq_true (Eq.refl (some θ)), move_out] at hrun
    · exact hrun
    · intro θ' hne
      exact iff_of_false (Option.some_ne_none _).symm fun he => hne (Option.some.inj he).symm
  | @refuse es owner θ _ ih =>
    have hrun := Reachable.localRun (θ := θ) ih (hrefuse (decide (some owner = some θ)))
    rw [move_out _ fun _ _ => Iff.rfl] at hrun
    exact hrun
  | @release es θ _ ih =>
    rw [← decide_eq_true (Eq.refl (some θ))] at hrelease
    have hrun := Reachable.localRun (θ := θ) ih hrelease
    rw [← decide_eq_false (Option.some_ne_none θ).symm, move_out] at hrun
    · exact hrun
    · intro θ' hne
      exact iff_of_false (fun he => hne (Option.some.inj he).symm) (Option.some_ne_none _).symm

end Lock
end OsdevLibstdc.MutexTraces
