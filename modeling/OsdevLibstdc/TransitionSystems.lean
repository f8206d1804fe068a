import Mathlib.Data.List.Basic
import Mathlib.Logic.Function.Basic
import Mathlib.Logic.Relation

/-!
Transition systems, their reachable states and invariants, and systems in which one of many
threads takes a step at a time on shared state and on its own.
-/

namespace OsdevLibstdc.TransitionSystems

structure System (σ : Type*) where
  init : σ → Prop
  step : σ → σ → Prop

section Reachable

variable {σ τ : Type*} {S : System σ} {R : System τ}

inductive Reachable (S : System σ) : σ → Prop
  | init {s : σ} : S.init s → Reachable S s
  | step {s t : σ} : Reachable S s → S.step s t → Reachable S t

theorem Reachable.invariant {I : σ → Prop} {s : σ} (h : Reachable S s)
    (h0 : ∀ s, S.init s → I s) (hstep : ∀ s t, Reachable S s → I s → S.step s t → I t) : I s := by
  induction h with
  | init h => exact h0 _ h
  | step h hs ih => exact hstep _ _ h ih hs

theorem Reachable.steps {s t : σ} (h : Reachable S s) (hs : Relation.ReflTransGen S.step s t) :
    Reachable S t := by
  induction hs with
  | refl => exact h
  | tail _ hstep ih => exact .step ih hstep

theorem Reachable.simulate {f : σ → τ} {s : σ} (h : Reachable S s)
    (h0 : ∀ s, S.init s → R.init (f s))
    (hstep : ∀ s t, S.step s t → Relation.ReflTransGen R.step (f s) (f t)) :
    Reachable R (f s) := by
  induction h with
  | init h => exact .init (h0 _ h)
  | step _ hs ih => exact ih.steps (hstep _ _ hs)

end Reachable

structure Config (Thread Shared Local : Type*) where
  shared : Shared
  locals : Thread → Local

section Interleaved

variable {Thread Shared Local : Type*} [DecidableEq Thread]

def Config.move (s : Config Thread Shared Local) (θ : Thread) (g : Shared) (l : Local) :
    Config Thread Shared Local :=
  ⟨g, Function.update s.locals θ l⟩

@[simp] theorem Config.move_shared (s : Config Thread Shared Local) (θ : Thread) (g : Shared)
    (l : Local) : (s.move θ g l).shared = g := rfl

@[simp] theorem Config.move_self (s : Config Thread Shared Local) (θ : Thread) (g : Shared)
    (l : Local) : (s.move θ g l).locals θ = l := by
  simp only [move, Function.update_self]

@[simp] theorem Config.move_other {s : Config Thread Shared Local} {θ θ' : Thread} {g : Shared}
    {l : Local} (h : θ' ≠ θ) : (s.move θ g l).locals θ' = s.locals θ' := by
  simp only [move, Function.update_of_ne h]

theorem Config.forall_move {s : Config Thread Shared Local} {P : Thread → Local → Prop}
    {θ : Thread} {g : Shared} {l : Local} (h : ∀ θ', θ' ≠ θ → P θ' (s.locals θ')) (hl : P θ l) :
    ∀ θ', P θ' ((s.move θ g l).locals θ') := by
  intro θ'
  by_cases he : θ' = θ
  · subst he
    rw [move_self]
    exact hl
  · rw [move_other he]
    exact h θ' he

theorem Config.forall_of_move {s : Config Thread Shared Local} {P : Local → Prop} {θ : Thread}
    {g : Shared} {l : Local} (hθ : P (s.locals θ)) (h : ∀ θ', P ((s.move θ g l).locals θ')) :
    ∀ θ', P (s.locals θ') := by
  intro θ'
  by_cases he : θ' = θ
  · subst he
    exact hθ
  · have hP := h θ'
    rw [move_other he] at hP
    exact hP

theorem Config.map_move {s : Config Thread Shared Local} {β : Sort*} (f : Local → β) {θ : Thread}
    {g : Shared} {l : Local} (hl : f l = f (s.locals θ)) (θ' : Thread) :
    f ((s.move θ g l).locals θ') = f (s.locals θ') := by
  by_cases he : θ' = θ
  · subst he
    rw [move_self, hl]
  · rw [move_other he]

theorem Config.move_same (s : Config Thread Shared Local) (θ : Thread) :
    s.move θ s.shared (s.locals θ) = s := by
  simp only [move, Function.update_eq_self]

theorem Config.move_move (s : Config Thread Shared Local) (θ : Thread) (g g' : Shared)
    (l l' : Local) : (s.move θ g l).move θ g' l' = s.move θ g' l' := by
  simp only [move, Function.update_idem]

def interleave (start : Shared → Prop) (idle : Local → Prop)
    (local_step : Shared → Local → Shared → Local → Prop) : System (Config Thread Shared Local) where
  init s := start s.shared ∧ ∀ θ, idle (s.locals θ)
  step s t := ∃ θ g l, local_step s.shared (s.locals θ) g l ∧ t = s.move θ g l

theorem interleave_steps {start : Shared → Prop} {idle : Local → Prop}
    {local_step : Shared → Local → Shared → Local → Prop} (s : Config Thread Shared Local)
    (θ : Thread) {p : Shared × Local}
    (h : Relation.ReflTransGen (fun p q => local_step p.1 p.2 q.1 q.2)
      (s.shared, s.locals θ) p) :
    Relation.ReflTransGen (interleave start idle local_step).step s (s.move θ p.1 p.2) := by
  induction h with
  | refl =>
    rw [Config.move_same]
  | @tail p q _ hstep ih =>
    refine ih.tail ⟨θ, q.1, q.2, ?_, (Config.move_move s θ _ _ _ _).symm⟩
    rw [Config.move_shared, Config.move_self]
    exact hstep

structure Owned (C : Local → Prop) (taken : Prop) (locals : Thread → Local) : Prop where
  unique : ∀ θ θ', C (locals θ) → C (locals θ') → θ = θ'
  taken_iff : taken ↔ ∃ θ, C (locals θ)

variable {C : Local → Prop} {taken : Prop} {s : Config Thread Shared Local} {θ : Thread}
  {g : Shared} {l : Local}

theorem Owned.keep (h : Owned C taken s.locals) (hl : C l ↔ C (s.locals θ)) :
    Owned C taken (s.move θ g l).locals := by
  have hC (θ' : Thread) : C ((s.move θ g l).locals θ') ↔ C (s.locals θ') :=
    iff_of_eq (Config.map_move C (propext hl) θ')
  constructor
  · intro θ₁ θ₂ h₁ h₂
    exact h.unique θ₁ θ₂ ((hC θ₁).mp h₁) ((hC θ₂).mp h₂)
  · rw [h.taken_iff]
    exact exists_congr fun θ' => (hC θ').symm

theorem Owned.take (h : Owned C taken s.locals) (hfree : ¬ taken) (hl : C l) {taken' : Prop}
    (ht : taken') : Owned C taken' (s.move θ g l).locals := by
  have hnone (θ' : Thread) : ¬ C (s.locals θ') := fun hc => hfree (h.taken_iff.mpr ⟨θ', hc⟩)
  have honly (θ' : Thread) (hc : C ((s.move θ g l).locals θ')) : θ' = θ := by
    by_contra he
    rw [Config.move_other he] at hc
    exact hnone θ' hc
  constructor
  · intro θ₁ θ₂ h₁ h₂
    rw [honly θ₁ h₁, honly θ₂ h₂]
  · exact iff_of_true ht ⟨θ, by rw [Config.move_self]; exact hl⟩

theorem Owned.release (h : Owned C taken s.locals) (hc : C (s.locals θ)) (hl : ¬ C l)
    {taken' : Prop} (ht : ¬ taken') : Owned C taken' (s.move θ g l).locals := by
  have hnone : ∀ θ', ¬ C ((s.move θ g l).locals θ') := by
    apply Config.forall_move (P := fun _ l => ¬ C l) _ hl
    intro θ' hne h'
    exact hne (h.unique θ' θ h' hc)
  constructor
  · intro θ₁ θ₂ h₁
    exact absurd h₁ (hnone θ₁)
  · exact iff_of_false ht fun ⟨θ', h'⟩ => hnone θ' h'

structure Tickets (ticket : Local → Option ℕ) (issued : ℕ) (back : List ℕ)
    (locals : Thread → Local) : Prop where
  unique : ∀ θ θ' k, ticket (locals θ) = some k → ticket (locals θ') = some k → θ = θ'
  out_lt : ∀ θ k, ticket (locals θ) = some k → k < issued
  back_lt : ∀ k ∈ back, k < issued
  nodup : back.Nodup
  not_out : ∀ k ∈ back, ∀ θ, ticket (locals θ) ≠ some k
  covered : ∀ k < issued, k ∈ back ∨ ∃ θ, ticket (locals θ) = some k

variable {ticket : Local → Option ℕ} {issued : ℕ} {back : List ℕ}

omit [DecidableEq Thread] in
theorem Tickets.none (locals : Thread → Local) (h : ∀ θ, ticket (locals θ) = .none) :
    Tickets ticket 0 [] locals := by
  constructor
  · intro θ θ' k hk
    rw [h] at hk
    cases hk
  · intro θ k hk
    rw [h] at hk
    cases hk
  · intro k hk
    exact absurd hk List.not_mem_nil
  · exact List.nodup_nil
  · intro k hk
    exact absurd hk List.not_mem_nil
  · intro k hk
    exact absurd hk (Nat.not_lt_zero k)

theorem Tickets.keep (h : Tickets ticket issued back s.locals)
    (hl : ticket l = ticket (s.locals θ)) : Tickets ticket issued back (s.move θ g l).locals := by
  have hsame (θ' : Thread) : ticket ((s.move θ g l).locals θ') = ticket (s.locals θ') :=
    Config.map_move ticket hl θ'
  constructor
  · simp only [hsame]
    exact h.unique
  · simp only [hsame]
    exact h.out_lt
  · exact h.back_lt
  · exact h.nodup
  · simp only [hsame]
    exact h.not_out
  · simp only [hsame]
    exact h.covered

theorem Tickets.issue (h : Tickets ticket issued back s.locals)
    (hnone : ticket (s.locals θ) = .none) (hl : ticket l = some issued) :
    Tickets ticket (issued + 1) back (s.move θ g l).locals := by
  have hcases (θ' : Thread) (k : ℕ) (hk : ticket ((s.move θ g l).locals θ') = some k) :
      θ' = θ ∧ k = issued ∨ ticket (s.locals θ') = some k ∧ k < issued := by
    by_cases he : θ' = θ
    · subst he
      rw [Config.move_self, hl] at hk
      exact .inl ⟨rfl, (Option.some.inj hk).symm⟩
    · rw [Config.move_other he] at hk
      exact .inr ⟨hk, h.out_lt θ' k hk⟩
  constructor
  · intro θ₁ θ₂ k h₁ h₂
    rcases hcases θ₁ k h₁ with ⟨rfl, rfl⟩ | ⟨h₁, hlt₁⟩ <;>
      rcases hcases θ₂ k h₂ with ⟨rfl, hk⟩ | ⟨h₂, hlt₂⟩
    · rfl
    · omega
    · omega
    · exact h.unique θ₁ θ₂ k h₁ h₂
  · intro θ' k hk
    rcases hcases θ' k hk with ⟨-, rfl⟩ | ⟨-, hlt⟩
    · exact Nat.lt_succ_self k
    · exact Nat.lt_succ_of_lt hlt
  · intro k hk
    exact Nat.lt_succ_of_lt (h.back_lt k hk)
  · exact h.nodup
  · intro k hk θ' hout
    rcases hcases θ' k hout with ⟨-, rfl⟩ | ⟨hout, -⟩
    · exact Nat.lt_irrefl k (h.back_lt k hk)
    · exact h.not_out k hk θ' hout
  · intro k hk
    rcases Nat.lt_succ_iff_lt_or_eq.mp hk with hlt | rfl
    · rcases h.covered k hlt with hb | ⟨θ', hout⟩
      · exact .inl hb
      · have hne : θ' ≠ θ := by
          rintro rfl
          rw [hnone] at hout
          cases hout
        exact .inr ⟨θ', by rw [Config.move_other hne]; exact hout⟩
    · exact .inr ⟨θ, by rw [Config.move_self]; exact hl⟩

theorem Tickets.giveBack (h : Tickets ticket issued back s.locals) {k : ℕ}
    (hk : ticket (s.locals θ) = some k) (hl : ticket l = .none) :
    Tickets ticket issued (k :: back) (s.move θ g l).locals := by
  have hcases (θ' : Thread) (j : ℕ) (hj : ticket ((s.move θ g l).locals θ') = some j) :
      θ' ≠ θ ∧ ticket (s.locals θ') = some j := by
    by_cases he : θ' = θ
    · subst he
      rw [Config.move_self, hl] at hj
      cases hj
    · rw [Config.move_other he] at hj
      exact ⟨he, hj⟩
  constructor
  · intro θ₁ θ₂ j h₁ h₂
    exact h.unique θ₁ θ₂ j (hcases θ₁ j h₁).2 (hcases θ₂ j h₂).2
  · intro θ' j hj
    exact h.out_lt θ' j (hcases θ' j hj).2
  · intro j hj
    rcases List.mem_cons.mp hj with rfl | hj
    · exact h.out_lt θ j hk
    · exact h.back_lt j hj
  · exact List.nodup_cons.mpr ⟨fun hb => h.not_out k hb θ hk, h.nodup⟩
  · intro j hj θ' hout
    obtain ⟨hne, hout⟩ := hcases θ' j hout
    rcases List.mem_cons.mp hj with rfl | hj
    · exact hne (h.unique θ' θ j hout hk)
    · exact h.not_out j hj θ' hout
  · intro j hj
    rcases h.covered j hj with hb | ⟨θ', hout⟩
    · exact .inl (List.mem_cons_of_mem k hb)
    · by_cases he : θ' = θ
      · subst he
        obtain rfl : k = j := Option.some.inj (hk.symm.trans hout)
        exact .inl List.mem_cons_self
      · exact .inr ⟨θ', by rw [Config.move_other he]; exact hout⟩

end Interleaved

end OsdevLibstdc.TransitionSystems
