import Mathlib.Data.List.Basic
import OsdevLibstdc.Outcomes

/-!
Finite memories whose cells are mapped or not. An access to an unmapped cell is a fault, and a
memory keeps the addresses it has been written at.
-/

namespace OsdevLibstdc.ByteMemory

open Outcomes

inductive AccessFault
  | unmapped
  | runaway
deriving Repr, DecidableEq

structure Ram where
  cells : List (Option UInt8)
  writes : List ℕ := []
deriving Repr, DecidableEq

namespace Ram

def size (m : Ram) : ℕ := m.cells.length

def byteAt (m : Ram) (p : ℕ) : Option UInt8 := m.cells[p]?.join

def load (m : Ram) (p : ℕ) : Except AccessFault UInt8 :=
  match m.byteAt p with
  | some b => .ok b
  | none => .error .unmapped

def store (m : Ram) (p : ℕ) (b : UInt8) : Except AccessFault Ram :=
  match m.byteAt p with
  | some _ => .ok ⟨m.cells.set p (some b), p :: m.writes⟩
  | none => .error .unmapped

def readBlock (m : Ram) : ℕ → ℕ → Except AccessFault (List UInt8)
  | _, 0 => .ok []
  | p, n + 1 => do
    let b ← m.load p
    let bs ← m.readBlock (p + 1) n
    return b :: bs

def writeBlock : Ram → ℕ → List UInt8 → Except AccessFault Ram
  | m, _, [] => .ok m
  | m, p, b :: bs => do
    let m ← m.store p b
    m.writeBlock (p + 1) bs

def only (m : Ram) (keep : ℕ → Bool) : Ram :=
  { m with cells := m.cells.mapIdx fun a c => if keep a then c else none }

def inBlock (p n a : ℕ) : Bool := p ≤ a ∧ a < p + n

theorem inBlock_add {p n j : ℕ} (h : j < n) : inBlock p n (p + j) = true :=
  decide_eq_true ⟨Nat.le_add_right p j, Nat.add_lt_add_left h p⟩

/-- The call returns `x`, and has no need of the cells that `keep` does not hold of. -/
def ReturnsWithin {α : Type} (m : Ram) (keep : ℕ → Bool) (call : Ram → Except AccessFault α)
    (x : α) : Prop :=
  call m = .ok x ∧ call (m.only keep) = .ok x

def Apart (p n q k : ℕ) : Prop := ∀ x, ¬ ((p ≤ x ∧ x < p + n) ∧ q ≤ x ∧ x < q + k)

theorem Apart.cases {p n q k : ℕ} (h : Apart p n q k) (hn : 0 < n) (hk : 0 < k) :
    p + n ≤ q ∨ q + k ≤ p := by
  have := h (max p q)
  omega

theorem Apart.of_le {p n q k : ℕ} (h : p + n ≤ q ∨ q + k ≤ p) : Apart p n q k := by
  intro x
  omega

def Mapped (m : Ram) (p n : ℕ) : Prop := ∀ j < n, (m.byteAt (p + j)).isSome

def Holds (m : Ram) (p : ℕ) (bs : List UInt8) : Prop := ∀ j < bs.length, m.byteAt (p + j) = bs[j]?

instance (m : Ram) (p n : ℕ) : Decidable (m.Mapped p n) := by
  unfold Mapped
  infer_instance

instance (m : Ram) (p : ℕ) (bs : List UInt8) : Decidable (m.Holds p bs) := by
  unfold Holds
  infer_instance

structure StoredIn (m m' : Ram) (lo hi : ℕ) : Prop where
  writes : ∃ ws, m'.writes = ws ++ m.writes ∧ ∀ a ∈ ws, lo ≤ a ∧ a < hi
  kept : ∀ a, a < lo ∨ hi ≤ a → m'.byteAt a = m.byteAt a
  mapped : ∀ a, (m'.byteAt a).isSome = (m.byteAt a).isSome
  size : m'.size = m.size

theorem load_eq_ok {m : Ram} {p : ℕ} {b : UInt8} : m.load p = .ok b ↔ m.byteAt p = some b := by
  unfold load
  cases m.byteAt p <;> simp

theorem lt_size {m : Ram} {p : ℕ} {b : UInt8} (h : m.byteAt p = some b) : p < m.size := by
  by_contra hp
  have hn : m.cells[p]? = none := List.getElem?_eq_none_iff.mpr (Nat.not_lt.mp hp)
  simp [byteAt, hn] at h

theorem cells_ext {m m' : Ram} (hs : m.size = m'.size) (h : ∀ a, m.byteAt a = m'.byteAt a) :
    m.cells = m'.cells := by
  apply List.ext_getElem hs
  intro i hi hi'
  have := h i
  simpa [byteAt, hi, hi'] using this

theorem store_ok {m : Ram} {p : ℕ} (b : UInt8) (h : (m.byteAt p).isSome) :
    ∃ m', m.store p b = .ok m' ∧ m'.byteAt p = some b ∧ m.StoredIn m' p (p + 1) := by
  obtain ⟨c, hc⟩ := Option.isSome_iff_exists.mp h
  have hp : p < m.cells.length := lt_size hc
  have hself : (Ram.mk (m.cells.set p (some b)) (p :: m.writes)).byteAt p = some b := by
    simp [byteAt, hp]
  have hkept : ∀ a, a ≠ p →
      (Ram.mk (m.cells.set p (some b)) (p :: m.writes)).byteAt a = m.byteAt a := by
    intro a ha
    simp [byteAt, List.getElem?_set_ne (Ne.symm ha)]
  refine ⟨⟨m.cells.set p (some b), p :: m.writes⟩, by simp [store, hc], hself, ?_⟩
  constructor
  · exact ⟨[p], rfl, by simp⟩
  · intro a ha
    apply hkept a
    omega
  · intro a
    by_cases ha : a = p
    · rw [ha, hself, hc]
      rfl
    · rw [hkept a ha]
  · simp [size]

theorem store_writes {m m' : Ram} {p : ℕ} {b : UInt8} (h : m.store p b = .ok m') :
    m'.writes = p :: m.writes := by
  unfold store at h
  split at h
  · rw [← Except.ok.inj h]
  · cases h

namespace StoredIn

variable {m m' m'' : Ram} {lo hi lo' hi' : ℕ}

theorem refl (m : Ram) (lo hi : ℕ) : m.StoredIn m lo hi :=
  ⟨⟨[], rfl, by simp⟩, fun _ _ => rfl, fun _ => rfl, rfl⟩

theorem mono (h : m.StoredIn m' lo hi) (hlo : lo' ≤ lo) (hhi : hi ≤ hi') :
    m.StoredIn m' lo' hi' := by
  obtain ⟨ws, hws, hin⟩ := h.writes
  refine ⟨⟨ws, hws, ?_⟩, ?_, h.mapped, h.size⟩
  · intro a ha
    have := hin a ha
    omega
  · intro a ha
    apply h.kept a
    omega

theorem trans (h : m.StoredIn m' lo hi) (h' : m'.StoredIn m'' lo hi) : m.StoredIn m'' lo hi := by
  obtain ⟨ws, hws, hin⟩ := h.writes
  obtain ⟨ws', hws', hin'⟩ := h'.writes
  refine ⟨⟨ws' ++ ws, by rw [hws', hws, List.append_assoc], ?_⟩, ?_, ?_, h'.size.trans h.size⟩
  · intro a ha
    rcases List.mem_append.mp ha with ha | ha
    · exact hin' a ha
    · exact hin a ha
  · intro a ha
    rw [h'.kept a ha, h.kept a ha]
  · intro a
    rw [h'.mapped a, h.mapped a]

theorem mapped_range (h : m.StoredIn m' lo hi) {p n : ℕ} (hm : m.Mapped p n) : m'.Mapped p n := by
  intro j hj
  rw [h.mapped]
  exact hm j hj

theorem holds (h : m.StoredIn m' lo hi) {p : ℕ} {bs : List UInt8} (hb : m.Holds p bs)
    (hd : p + bs.length ≤ lo ∨ hi ≤ p) : m'.Holds p bs := by
  intro j hj
  rw [h.kept (p + j) (by omega)]
  exact hb j hj

end StoredIn

section Regions

variable {m : Ram} {p : ℕ}

theorem Mapped.mono {n k : ℕ} (h : m.Mapped p n) (hk : k ≤ n) : m.Mapped p k :=
  fun j hj => h j (Nat.lt_of_lt_of_le hj hk)

theorem Mapped.drop {n : ℕ} (h : m.Mapped p n) (k : ℕ) : m.Mapped (p + k) (n - k) := by
  intro j hj
  rw [Nat.add_assoc]
  exact h (k + j) (by omega)

theorem holds_nil (m : Ram) (p : ℕ) : m.Holds p [] := by simp [Holds]

theorem holds_cons {b : UInt8} {bs : List UInt8} :
    m.Holds p (b :: bs) ↔ m.byteAt p = some b ∧ m.Holds (p + 1) bs := by
  constructor
  · intro h
    refine ⟨h 0 (by simp), ?_⟩
    intro j hj
    have := h (j + 1) (by simp [hj])
    rwa [← Nat.add_assoc, Nat.add_right_comm] at this
  · rintro ⟨h0, h⟩ j hj
    cases j with
    | zero => exact h0
    | succ j =>
      have := h j (by simpa using hj)
      rwa [Nat.add_right_comm] at this

theorem holds_append {bs cs : List UInt8} :
    m.Holds p (bs ++ cs) ↔ m.Holds p bs ∧ m.Holds (p + bs.length) cs := by
  induction bs generalizing p with
  | nil => simp [holds_nil]
  | cons b bs ih =>
    have hl : p + (b :: bs).length = p + 1 + bs.length := by simp only [List.length_cons]; omega
    rw [List.cons_append, holds_cons, holds_cons, ih, hl, and_assoc]

theorem Holds.mapped {bs : List UInt8} (h : m.Holds p bs) : m.Mapped p bs.length := by
  intro j hj
  rw [h j hj]
  simp [hj]

theorem Holds.byteAt {bs : List UInt8} (h : m.Holds p bs) {j : ℕ} {b : UInt8}
    (hb : bs[j]? = some b) : m.byteAt (p + j) = some b := by
  have hj : j < bs.length := (List.getElem?_eq_some_iff.mp hb).1
  rw [h j hj, hb]

theorem Holds.take {bs : List UInt8} (h : m.Holds p bs) (n : ℕ) : m.Holds p (bs.take n) := by
  rw [← List.take_append_drop n bs] at h
  exact (holds_append.mp h).1

theorem only_byteAt {keep : ℕ → Bool} {a : ℕ} (ha : keep a = true) :
    (m.only keep).byteAt a = m.byteAt a := by
  simp [Ram.only, Ram.byteAt, ha]

theorem only_byteAt_eq_none {keep : ℕ → Bool} {a : ℕ} (ha : keep a = false) :
    (m.only keep).byteAt a = none := by
  cases h : m.cells[a]? <;> simp [Ram.only, Ram.byteAt, ha, h]

theorem only_isSome {keep : ℕ → Bool} {a : ℕ} (h : ((m.only keep).byteAt a).isSome) :
    (m.byteAt a).isSome := by
  cases ha : keep a with
  | true => rwa [only_byteAt ha] at h
  | false =>
    rw [only_byteAt_eq_none ha] at h
    cases h

theorem Holds.only {bs : List UInt8} (h : m.Holds p bs) {keep : ℕ → Bool}
    (hk : ∀ j < bs.length, keep (p + j) = true) : (m.only keep).Holds p bs := by
  intro j hj
  rw [only_byteAt (hk j hj), h j hj]

theorem Mapped.only {n : ℕ} (h : m.Mapped p n) {keep : ℕ → Bool}
    (hk : ∀ j < n, keep (p + j) = true) : (m.only keep).Mapped p n := by
  intro j hj
  rw [only_byteAt (hk j hj)]
  exact h j hj

theorem Mapped.holds {n : ℕ} (h : m.Mapped p n) : ∃ bs, bs.length = n ∧ m.Holds p bs := by
  induction n generalizing p with
  | zero => exact ⟨[], rfl, holds_nil m p⟩
  | succ n ih =>
    obtain ⟨b, hb⟩ := Option.isSome_iff_exists.mp (h 0 n.succ_pos)
    obtain ⟨bs, hl, hbs⟩ := ih (h.drop 1)
    refine ⟨b :: bs, ?_, holds_cons.mpr ⟨hb, hbs⟩⟩
    rw [List.length_cons, hl]

theorem readBlock_ok {bs : List UInt8} (h : m.Holds p bs) :
    m.readBlock p bs.length = .ok bs := by
  induction bs generalizing p with
  | nil => rfl
  | cons b bs ih =>
    obtain ⟨hb, hbs⟩ := holds_cons.mp h
    rw [List.length_cons, readBlock, load_eq_ok.mpr hb, ok_bind, ih hbs]
    rfl

theorem writeBlock_ok {bs : List UInt8} (h : m.Mapped p bs.length) :
    ∃ m', m.writeBlock p bs = .ok m' ∧ m'.Holds p bs ∧ m.StoredIn m' p (p + bs.length) := by
  induction bs generalizing m p with
  | nil => exact ⟨m, rfl, holds_nil m p, .refl m _ _⟩
  | cons b bs ih =>
    rw [List.length_cons] at h
    obtain ⟨m₁, hst, hbyte, hin⟩ := store_ok (p := p) b (h 0 (Nat.succ_pos _))
    obtain ⟨m', hwrite, hholds, hin'⟩ := ih (hin.mapped_range (h.drop 1))
    refine ⟨m', ?_, holds_cons.mpr ⟨?_, hholds⟩, ?_⟩
    · rw [writeBlock, hst, ok_bind, hwrite]
    · rw [hin'.kept p (by omega), hbyte]
    · rw [List.length_cons]
      exact (hin.mono (by omega) (by omega)).trans (hin'.mono (by omega) (by omega))

end Regions

structure IsString (m : Ram) (p : ℕ) (s : List UInt8) : Prop where
  holds : m.Holds p (s ++ [0])
  no_nul : 0 ∉ s

instance (m : Ram) (p : ℕ) (s : List UInt8) : Decidable (m.IsString p s) :=
  decidable_of_iff (m.Holds p (s ++ [0]) ∧ 0 ∉ s) ⟨fun h => ⟨h.1, h.2⟩, fun h => ⟨h.1, h.2⟩⟩

namespace IsString

variable {m : Ram} {p : ℕ} {s : List UInt8}

theorem terminator (h : m.IsString p s) : m.byteAt (p + s.length) = some 0 :=
  h.holds.byteAt (by simp)

theorem lt_size (h : m.IsString p s) : p + s.length < m.size := Ram.lt_size h.terminator

theorem cons {c : UInt8} (h : m.IsString p (c :: s)) :
    m.byteAt p = some c ∧ c ≠ 0 ∧ m.IsString (p + 1) s := by
  obtain ⟨hc, hs⟩ := holds_cons.mp h.holds
  have hn := h.no_nul
  rw [List.mem_cons, not_or] at hn
  exact ⟨hc, Ne.symm hn.1, hs, hn.2⟩

theorem nil (h : m.IsString p []) : m.byteAt p = some 0 := h.terminator

theorem of_holds (h : m.Holds p s) (hn : 0 ∉ s) (h0 : m.byteAt (p + s.length) = some 0) :
    m.IsString p s :=
  ⟨holds_append.mpr ⟨h, holds_cons.mpr ⟨h0, holds_nil m _⟩⟩, hn⟩

theorem of_store (h : m.Holds p s) (hn : 0 ∉ s) (hm : (m.byteAt (p + s.length)).isSome) :
    ∃ m', m.store (p + s.length) 0 = .ok m' ∧ m'.IsString p s ∧
      m.StoredIn m' (p + s.length) (p + s.length + 1) := by
  obtain ⟨m', hst, hnul, hin⟩ := store_ok 0 hm
  exact ⟨m', hst, of_holds (hin.holds h (.inl (Nat.le_refl _))) hn hnul, hin⟩

theorem append {t : List UInt8} (h : m.IsString p (s ++ t)) :
    m.Holds p s ∧ 0 ∉ s ∧ m.IsString (p + s.length) t := by
  have hh := h.holds
  rw [List.append_assoc] at hh
  obtain ⟨hs, ht⟩ := holds_append.mp hh
  exact ⟨hs, fun h0 => h.no_nul (List.mem_append_left t h0), ht,
    fun h0 => h.no_nul (List.mem_append_right s h0)⟩

theorem unique {t : List UInt8} (h : m.IsString p s) (h' : m.IsString p t) : s = t := by
  induction s generalizing p t with
  | nil =>
    cases t with
    | nil => rfl
    | cons c t =>
      obtain ⟨hc, hne, -⟩ := h'.cons
      rw [h.nil] at hc
      exact absurd (Option.some.inj hc).symm hne
  | cons b s ih =>
    obtain ⟨hb, hne, hs⟩ := h.cons
    cases t with
    | nil =>
      rw [h'.nil] at hb
      exact absurd (Option.some.inj hb).symm hne
    | cons c t =>
      obtain ⟨hc, -, ht⟩ := h'.cons
      rw [hb] at hc
      rw [Option.some.inj hc, ih hs ht]

theorem stored {m' : Ram} {lo hi : ℕ} (h : m.IsString p s) (hst : m.StoredIn m' lo hi)
    (hd : p + s.length < lo ∨ hi ≤ p) : m'.IsString p s := by
  refine ⟨hst.holds h.holds ?_, h.no_nul⟩
  rw [List.length_append, List.length_singleton]
  omega

theorem only (h : m.IsString p s) {keep : ℕ → Bool}
    (hk : ∀ j < s.length + 1, keep (p + j) = true) : (m.only keep).IsString p s := by
  refine ⟨h.holds.only ?_, h.no_nul⟩
  intro j hj
  rw [List.length_append, List.length_singleton] at hj
  exact hk j hj

end IsString

end Ram

end OsdevLibstdc.ByteMemory
