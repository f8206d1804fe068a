import Mathlib.Algebra.GroupWithZero.Nat
import Mathlib.Algebra.Group.Pi.Basic
import Mathlib.Algebra.Notation.Pi.Basic
import Mathlib.Order.Lattice

/-!
A memory for threads that do not see each other's writes at once. An atomic location keeps its
writes as messages, in the order of their timestamps; a plain location has one value and counts its
accesses. The view of a thread says how much of each location it knows. A release puts the view into
the message, and an acquire takes it from there.
-/

namespace OsdevLibstdc.ViewMemory

variable {Atomic Plain Val : Type}

/-- The timestamp known of an atomic location, and the number of known accesses to a plain one. -/
abbrev View (Atomic Plain : Type) := Atomic ⊕ Plain → ℕ

structure Message (Atomic Plain Val : Type) where
  value : Val
  view : View Atomic Plain

structure Cell (Val : Type) where
  value : Val
  accesses : ℕ := 0

structure Memory (Atomic Plain Val : Type) where
  messages : Atomic → ℕ → Option (Message Atomic Plain Val)
  cells : Plain → Cell Val

namespace Memory

section Accesses

variable [DecidableEq Atomic] [DecidableEq Plain]

def known (a : Atomic) (t : ℕ) : View Atomic Plain := Pi.single (.inl a) t

def joined (acquires : Bool) (w v : View Atomic Plain) : View Atomic Plain :=
  if acquires then w ⊔ v else w

def released (releases : Bool) (w : View Atomic Plain) (a : Atomic) (t : ℕ) : View Atomic Plain :=
  if releases then w else known a t

def post (m : Memory Atomic Plain Val) (a : Atomic) (t : ℕ) (msg : Message Atomic Plain Val) :
    Memory Atomic Plain Val :=
  { m with messages := Function.update m.messages a (Function.update (m.messages a) t (some msg)) }

/-- A load reads any message that is not older than what the thread knows. -/
def Loads (m : Memory Atomic Plain Val) (acquires : Bool) (a : Atomic) (w : View Atomic Plain)
    (v : Val) (w' : View Atomic Plain) : Prop :=
  ∃ t msg, w (.inl a) ≤ t ∧ m.messages a t = some msg ∧ msg.value = v ∧
    w' = joined acquires w msg.view ⊔ known a t

/-- A store takes any timestamp behind what the thread knows that is not taken yet. -/
def Stores (m : Memory Atomic Plain Val) (releases : Bool) (a : Atomic) (w : View Atomic Plain)
    (v : Val) (m' : Memory Atomic Plain Val) (w' : View Atomic Plain) : Prop :=
  ∃ t, w (.inl a) < t ∧ m.messages a t = none ∧ w' = w ⊔ known a t ∧
    m' = m.post a t ⟨v, released releases w' a t⟩

/-- A read and a write that nothing can come between: the write has the next timestamp. Its message
passes on the view of the one that it has read. -/
def Exchanges (m : Memory Atomic Plain Val) (acquires releases : Bool) (a : Atomic)
    (w : View Atomic Plain) (v v' : Val) (m' : Memory Atomic Plain Val) (w' : View Atomic Plain) :
    Prop :=
  ∃ t msg, w (.inl a) ≤ t ∧ m.messages a t = some msg ∧ msg.value = v ∧
    m.messages a (t + 1) = none ∧ w' = joined acquires w msg.view ⊔ known a (t + 1) ∧
    m' = m.post a (t + 1) ⟨v', released releases w' a (t + 1) ⊔ msg.view⟩

/-- All accesses to the plain location are known. One that is made otherwise is in a race. -/
def Ordered (m : Memory Atomic Plain Val) (x : Plain) (w : View Atomic Plain) : Prop :=
  (m.cells x).accesses ≤ w (.inr x)

def access (m : Memory Atomic Plain Val) (x : Plain) (v : Val) : Memory Atomic Plain Val :=
  { m with cells := Function.update m.cells x ⟨v, (m.cells x).accesses + 1⟩ }

def accessed (m : Memory Atomic Plain Val) (x : Plain) (w : View Atomic Plain) :
    View Atomic Plain :=
  Function.update w (.inr x) ((m.cells x).accesses + 1)

end Accesses

section Views

variable {m m' : Memory Atomic Plain Val} {acquires releases : Bool} {a : Atomic} {x : Plain}
  {t : ℕ} {w w' : View Atomic Plain} {v v' : Val} {msg : Message Atomic Plain Val}

theorem le_joined (acquires : Bool) (w v : View Atomic Plain) : w ≤ joined acquires w v := by
  unfold joined
  split_ifs
  · exact le_sup_left
  · exact le_rfl

theorem Ordered.mono (h : m.Ordered x w) (hm : m'.cells = m.cells) (hw : w ≤ w') :
    m'.Ordered x w' := by
  unfold Ordered
  rw [hm]
  exact h.trans (hw _)

variable [DecidableEq Atomic]

theorem post_self : (m.post a t msg).messages a t = some msg := by
  simp only [post, Function.update_self]

theorem post_other {t' : ℕ} (h : t' ≠ t) : (m.post a t msg).messages a t' = m.messages a t' := by
  simp only [post, Function.update_self, Function.update_of_ne h]

variable [DecidableEq Plain]

@[simp] theorem accessed_atomic : m.accessed x w (.inl a) = w (.inl a) :=
  Function.update_of_ne Sum.inl_ne_inr _ _

@[simp] theorem known_self (a : Atomic) (t : ℕ) : (known a t : View Atomic Plain) (.inl a) = t :=
  Pi.single_eq_same _ _

@[simp] theorem known_plain (a : Atomic) (t : ℕ) (x : Plain) : known a t (.inr x) = 0 :=
  Pi.single_eq_of_ne (M := fun _ => ℕ) Sum.inr_ne_inl t

theorem released_plain : released false w a t (.inr x) = 0 := known_plain a t x

theorem Loads.le (h : m.Loads acquires a w v w') : w ≤ w' := by
  obtain ⟨t, msg, -, -, -, rfl⟩ := h
  exact (le_joined acquires w _).trans le_sup_left

theorem Exchanges.le (h : m.Exchanges acquires releases a w v v' m' w') : w ≤ w' := by
  obtain ⟨t, msg, -, -, -, -, rfl, -⟩ := h
  exact (le_joined acquires w _).trans le_sup_left

theorem Exchanges.cells (h : m.Exchanges acquires releases a w v v' m' w') :
    m'.cells = m.cells := by
  obtain ⟨t, msg, -, -, -, -, -, rfl⟩ := h
  rfl

theorem Stores.le (h : m.Stores releases a w v m' w') : w ≤ w' := by
  obtain ⟨t, -, -, rfl, -⟩ := h
  exact le_sup_left

theorem Stores.cells (h : m.Stores releases a w v m' w') : m'.cells = m.cells := by
  obtain ⟨t, -, -, -, rfl⟩ := h
  rfl

theorem ordered_access (h : ∀ y, m.Ordered y w) (y : Plain) :
    (m.access x v).Ordered y (m.accessed x w) := by
  unfold Ordered
  simp only [access, accessed]
  by_cases hy : y = x
  · subst hy
    rw [Function.update_self, Function.update_self]
  · have hne : (Sum.inr y : Atomic ⊕ Plain) ≠ .inr x := fun he => hy (Sum.inr.inj he)
    rw [Function.update_of_ne hy, Function.update_of_ne hne]
    exact h y

end Views

section Handover

def Offers (m : Memory Atomic Plain Val) (a : Atomic) (v : Val) (t : ℕ)
    (msg : Message Atomic Plain Val) : Prop :=
  m.messages a t = some msg ∧ msg.value = v ∧ m.messages a (t + 1) = none

def Sole (m : Memory Atomic Plain Val) (a : Atomic) (v : Val) : Prop :=
  ∀ t msg, m.Offers a v t msg → ∀ t', m.messages a t' ≠ none → t' ≤ t

def Seen (m : Memory Atomic Plain Val) (a : Atomic) (w : View Atomic Plain) : Prop :=
  ∀ t, m.messages a t ≠ none → t ≤ w (.inl a)

structure Taken (m : Memory Atomic Plain Val) (a : Atomic) (v : Val) (w : View Atomic Plain) :
    Prop where
  closed : ∀ t msg, ¬ m.Offers a v t msg
  filled : ∀ t, m.messages a t ≠ none → ∀ t' ≤ t, w (.inl a) < t' → m.messages a t' ≠ none

variable {m m' : Memory Atomic Plain Val} {acquires releases : Bool} {a : Atomic}
  {w w' : View Atomic Plain} {v v' : Val}

theorem offers_congr (hm : m'.messages = m.messages) {t : ℕ} {msg : Message Atomic Plain Val} :
    m'.Offers a v t msg ↔ m.Offers a v t msg := by
  simp only [Offers, hm]

theorem Sole.keep (h : m.Sole a v) (hm : m'.messages = m.messages) : m'.Sole a v := by
  intro t msg ho t' ht'
  rw [hm] at ht'
  exact h t msg ((offers_congr hm).mp ho) t' ht'

theorem Taken.keep (h : m.Taken a v w) (hm : m'.messages = m.messages)
    (hw : w (.inl a) ≤ w' (.inl a)) : m'.Taken a v w' := by
  constructor
  · intro t msg ho
    exact h.closed t msg ((offers_congr hm).mp ho)
  · intro t ht t' hle hlt
    rw [hm] at ht ⊢
    exact h.filled t ht t' hle (hw.trans_lt hlt)

theorem Taken.sole (h : m.Taken a v w) : m.Sole a v :=
  fun t msg ho => absurd ho (h.closed t msg)

theorem Sole.unique (h : m.Sole a v) {t t' : ℕ} {msg msg' : Message Atomic Plain Val}
    (ho : m.Offers a v t msg) (ho' : m.Offers a v t' msg') : t = t' := by
  have hsome {t msg} (ho : m.Offers a v t msg) : m.messages a t ≠ none := by
    rw [ho.1]
    exact Option.some_ne_none _
  exact Nat.le_antisymm (h _ _ ho' _ (hsome ho)) (h _ _ ho _ (hsome ho'))

variable [DecidableEq Atomic] [DecidableEq Plain]

omit [DecidableEq Plain] in
theorem post_ne_none {t t' : ℕ} {msg : Message Atomic Plain Val}
    (h : m.messages a t' ≠ none) : (m.post a t msg).messages a t' ≠ none := by
  by_cases he : t' = t
  · subst he
    rw [post_self]
    exact Option.some_ne_none _
  · rwa [post_other he]

theorem Exchanges.offers {u : Val} (h : m.Exchanges acquires releases a w v v' m' w') (hne : v' ≠ u)
    {t : ℕ} {msg : Message Atomic Plain Val} (ho : m'.Offers a u t msg) : m.Offers a u t msg := by
  obtain ⟨t₀, msg₀, -, -, -, -, -, rfl⟩ := h
  obtain ⟨hmsg, hu, hnext⟩ := ho
  have he : t ≠ t₀ + 1 := by
    rintro rfl
    rw [post_self] at hmsg
    rw [← Option.some.inj hmsg] at hu
    exact hne hu
  rw [post_other he] at hmsg
  refine ⟨hmsg, hu, ?_⟩
  by_contra hsome
  exact post_ne_none hsome hnext

theorem Exchanges.seen (h : m.Exchanges acquires releases a w v v' m' w') (hs : m.Sole a v) :
    m'.Seen a w' := by
  obtain ⟨t, msg, -, hmsg, hv, hnext, rfl, rfl⟩ := h
  intro t' ht'
  refine le_trans ?_ (le_sup_right (a := joined acquires w msg.view (.inl a)))
  rw [known_self]
  by_cases he : t' = t + 1
  · exact he.le
  · rw [post_other he] at ht'
    exact (hs t msg ⟨hmsg, hv, hnext⟩ t' ht').trans (Nat.le_succ t)

theorem Exchanges.taken (h : m.Exchanges acquires releases a w v v' m' w') (hs : m.Sole a v)
    (hne : v' ≠ v) : m'.Taken a v w' := by
  have hseen := h.seen hs
  constructor
  · intro t msg ho
    have hbefore := h.offers hne ho
    obtain ⟨t₀, msg₀, -, hmsg₀, hv₀, hnext₀, -, rfl⟩ := h
    obtain rfl := hs.unique hbefore ⟨hmsg₀, hv₀, hnext₀⟩
    have hnext := ho.2.2
    rw [post_self] at hnext
    cases hnext
  · intro t ht t' hle hlt
    exact absurd (hle.trans (hseen t ht)) (Nat.not_le.mpr hlt)

theorem Exchanges.sole {u : Val} (h : m.Exchanges acquires releases a w v v' m' w') (hne : v ≠ u)
    (hne' : v' ≠ u) (hs : m.Sole a u) : m'.Sole a u := by
  intro t msg ho t' ht'
  have hbefore := h.offers hne' ho
  have hlast := hs t msg hbefore
  obtain ⟨t₀, msg₀, -, hmsg₀, hv₀, -, -, rfl⟩ := h
  by_cases he : t' = t₀ + 1
  · have hlt : t₀ ≠ t := by
      rintro rfl
      rw [hbefore.1] at hmsg₀
      rw [← Option.some.inj hmsg₀, hbefore.2.1] at hv₀
      exact hne hv₀.symm
    have hle := hlast t₀ (by rw [hmsg₀]; exact Option.some_ne_none _)
    omega
  · rw [post_other he] at ht'
    exact hlast t' ht'

theorem Exchanges.taken_other {u : Val} {w₀ : View Atomic Plain}
    (h : m.Exchanges acquires releases a w v v' m' w') (hne : v' ≠ u) (ht : m.Taken a u w₀) :
    m'.Taken a u w₀ := by
  constructor
  · intro t msg ho
    exact ht.closed t msg (h.offers hne ho)
  · intro t hmsg t' hle hlt
    obtain ⟨t₀, msg₀, -, hmsg₀, -, -, -, rfl⟩ := h
    by_cases he : t = t₀ + 1
    · subst he
      rcases Nat.lt_succ_iff_lt_or_eq.mp (Nat.lt_succ_of_le hle) with hlt' | rfl
      · apply post_ne_none
        refine ht.filled t₀ ?_ t' (Nat.le_of_lt_succ hlt') hlt
        rw [hmsg₀]
        exact Option.some_ne_none _
      · exact hmsg
    · rw [post_other he] at hmsg
      exact post_ne_none (ht.filled t hmsg t' hle hlt)

theorem Stores.offers (h : m.Stores releases a w v m' w') (ht : m.Taken a v w) {t : ℕ}
    {msg : Message Atomic Plain Val} (ho : m'.Offers a v t msg) :
    msg.view = released releases w' a t ∧ ∀ t', m'.messages a t' ≠ none → t' ≤ t := by
  obtain ⟨t₀, hlt, hfresh, rfl, rfl⟩ := h
  obtain ⟨hmsg, hv, hnext⟩ := ho
  by_cases he : t = t₀
  · subst he
    rw [post_self] at hmsg
    refine ⟨by rw [← Option.some.inj hmsg], ?_⟩
    intro t' ht'
    by_contra hgt
    rw [post_other (by omega)] at ht'
    exact ht.filled t' ht' t (by omega) hlt hfresh
  · rw [post_other he] at hmsg
    refine absurd ⟨hmsg, hv, ?_⟩ (ht.closed t msg)
    by_contra hsome
    exact post_ne_none hsome hnext

theorem Stores.sole (h : m.Stores releases a w v m' w') (ht : m.Taken a v w) : m'.Sole a v :=
  fun _ _ ho => (h.offers ht ho).2

theorem Exchanges.view_le (h : m.Exchanges true releases a w v v' m' w') :
    ∃ t msg, m.Offers a v t msg ∧ msg.view ≤ w' := by
  obtain ⟨t, msg, -, hmsg, hv, hnext, rfl, -⟩ := h
  refine ⟨t, msg, ⟨hmsg, hv, hnext⟩, ?_⟩
  exact (le_sup_right (a := w)).trans le_sup_left

end Handover

end Memory
end OsdevLibstdc.ViewMemory
