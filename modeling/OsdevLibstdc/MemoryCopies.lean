import Mathlib.Tactic.Linarith
import OsdevLibstdc.ByteMemory

/-!
`memcpy`, `memmove` and the two builds of `bcopy`.
-/

namespace OsdevLibstdc.Cstring

open ByteMemory Outcomes

def copyForward : ℕ → Ram → ℕ → ℕ → Except AccessFault Ram
  | 0, m, _, _ => .ok m
  | length + 1, m, d, s => do
    let m ← m.store d (← m.load s)
    copyForward length m (d + 1) (s + 1)

/-- `d` and `s` are the starts of the blocks, which the C code reaches counting down. -/
def copyBackward : ℕ → Ram → ℕ → ℕ → Except AccessFault Ram
  | 0, m, _, _ => .ok m
  | length + 1, m, d, s => do
    let m ← m.store (d + length) (← m.load (s + length))
    copyBackward length m d s

def memcpy (m : Ram) (dest src length : ℕ) : Except AccessFault (ℕ × Ram) := do
  if dest = src then return (dest, m)
  let m ← copyForward length m dest src
  return (dest, m)

def memmove (m : Ram) (dest src length : ℕ) : Except AccessFault (ℕ × Ram) := do
  if src ≥ dest then
    let m ← copyForward length m dest src
    return (dest, m)
  else
    let m ← copyBackward length m dest src
    return (dest, m)

/-- The macro under `__POSIX_STRINGS_MACRO__`. -/
def bcopyMacro (m : Ram) (b1 b2 len : ℕ) : Except AccessFault Ram := do
  let (_, m) ← memmove m b2 b1 len
  return m

/-- The inline function of the hosted build. -/
def bcopyInline (m : Ram) (b1 b2 len : ℕ) : Except AccessFault (ℕ × Ram) := memmove m b1 b2 len

structure Copied (m m' : Ram) (src dest n : ℕ) : Prop where
  bytes : ∀ j < n, m'.byteAt (dest + j) = m.byteAt (src + j)
  stored : m.StoredIn m' dest (dest + n)

theorem Copied.holds {m m' : Ram} {src dest : ℕ} {bs : List UInt8}
    (h : Copied m m' src dest bs.length) (hs : m.Holds src bs) : m'.Holds dest bs := by
  intro j hj
  rw [h.bytes j hj, hs j hj]

theorem Copied.cons {m m₁ m' : Ram} {s d k : ℕ} {b : UInt8} (h : Copied m₁ m' (s + 1) (d + 1) k)
    (hb : m.byteAt s = some b) (hbyte : m₁.byteAt d = some b) (hin : m.StoredIn m₁ d (d + 1))
    (hdis : d ≤ s ∨ s + k < d) : Copied m m' s d (k + 1) := by
  constructor
  · intro j hj
    cases j with
    | zero => rw [Nat.add_zero, Nat.add_zero, h.stored.kept _ (by omega), hbyte, hb]
    | succ j =>
      have hcopy := h.bytes j (by omega)
      rw [Nat.add_right_comm, Nat.add_right_comm s] at hcopy
      rw [← Nat.add_assoc, ← Nat.add_assoc, hcopy]
      apply hin.kept _
      omega
  · exact (hin.mono (by omega) (by omega)).trans (h.stored.mono (by omega) (by omega))

theorem copyForward_ok {n : ℕ} {m : Ram} {d s : ℕ} (hs : m.Mapped s n) (hd : m.Mapped d n)
    (h : d ≤ s ∨ s + n ≤ d) : ∃ m', copyForward n m d s = .ok m' ∧ Copied m m' s d n := by
  induction n generalizing m d s with
  | zero => exact ⟨m, rfl, by simp, .refl m _ _⟩
  | succ n ih =>
    obtain ⟨b, hb⟩ := Option.isSome_iff_exists.mp (hs 0 (by omega))
    obtain ⟨m₁, hst, hbyte, hin⟩ := Ram.store_ok b (hd 0 (by omega))
    obtain ⟨m', hcopy, hc⟩ :=
      ih (hin.mapped_range (hs.drop 1)) (hin.mapped_range (hd.drop 1)) (by omega)
    refine ⟨m', ?_, hc.cons hb hbyte hin (by omega)⟩
    have hload : m.load s = .ok b := Ram.load_eq_ok.mpr hb
    have hstore : m.store d b = .ok m₁ := hst
    rw [copyForward, hload, ok_bind, hstore, ok_bind, hcopy]

theorem copyBackward_ok {n : ℕ} {m : Ram} {d s : ℕ} (hs : m.Mapped s n) (hd : m.Mapped d n)
    (h : s ≤ d ∨ d + n ≤ s) : ∃ m', copyBackward n m d s = .ok m' ∧ Copied m m' s d n := by
  induction n generalizing m with
  | zero => exact ⟨m, rfl, by simp, .refl m _ _⟩
  | succ n ih =>
    obtain ⟨b, hb⟩ := Option.isSome_iff_exists.mp (hs n (by omega))
    obtain ⟨m₁, hst, hbyte, hin⟩ := Ram.store_ok b (hd n (by omega))
    obtain ⟨m', hcopy, hc⟩ := ih (hin.mapped_range (hs.mono n.le_succ))
      (hin.mapped_range (hd.mono n.le_succ)) (by omega)
    refine ⟨m', ?_, ?_, ?_⟩
    · rw [copyBackward, Ram.load_eq_ok.mpr hb, ok_bind, hst, ok_bind, hcopy]
    · intro j hj
      by_cases hjn : j = n
      · rw [hjn, hc.stored.kept _ (by omega), hbyte, hb]
      · rw [hc.bytes j (by omega)]
        apply hin.kept _
        omega
    · exact (hin.mono (by omega) (by omega)).trans (hc.stored.mono (by omega) (by omega))

theorem memmove_ok {m : Ram} {dest src n : ℕ} (hs : m.Mapped src n) (hd : m.Mapped dest n) :
    ∃ m', memmove m dest src n = .ok (dest, m') ∧ Copied m m' src dest n := by
  unfold memmove
  split_ifs with h
  · obtain ⟨m', hcopy, hc⟩ := copyForward_ok hs hd (.inl h)
    exact ⟨m', by rw [hcopy]; rfl, hc⟩
  · obtain ⟨m', hcopy, hc⟩ := copyBackward_ok hs hd (.inl (by omega))
    exact ⟨m', by rw [hcopy]; rfl, hc⟩

theorem memcpy_ok {m : Ram} {dest src n : ℕ} (hs : m.Mapped src n) (hd : m.Mapped dest n)
    (h : dest + n ≤ src ∨ src + n ≤ dest) :
    ∃ m', memcpy m dest src n = .ok (dest, m') ∧ Copied m m' src dest n := by
  unfold memcpy
  split_ifs with he
  · exact ⟨m, rfl, fun _ _ => by rw [he], .refl m _ _⟩
  · obtain ⟨m', hcopy, hc⟩ := copyForward_ok hs hd (by omega)
    exact ⟨m', by rw [hcopy]; rfl, hc⟩

theorem copy_step {m : Ram} {d src n : ℕ} {c : UInt8} {bs : List UInt8}
    (hs : m.Holds src (c :: bs)) (hd : m.Mapped d (n + 1))
    (hdis : src + bs.length < d ∨ d + n < src) :
    m.load src = .ok c ∧ ∃ m₁, m.store d c = .ok m₁ ∧ m₁.load src = .ok c ∧ m₁.load d = .ok c ∧
      m₁.Holds (src + 1) bs ∧ m₁.Mapped (d + 1) n ∧
      ∀ m' t hi, d + 1 ≤ hi → m₁.StoredIn m' (d + 1) hi → m'.Holds (d + 1) t →
        m.StoredIn m' d hi ∧ m'.Holds d (c :: t) := by
  have hc := (Ram.holds_cons.mp hs).1
  obtain ⟨m₁, hst, hbyte, hin⟩ := Ram.store_ok c (hd 0 (Nat.succ_pos n))
  have hs₁ := hin.holds hs (by
    rw [List.length_cons]
    omega)
  obtain ⟨hc₁, hbs⟩ := Ram.holds_cons.mp hs₁
  refine ⟨Ram.load_eq_ok.mpr hc, m₁, hst, Ram.load_eq_ok.mpr hc₁, Ram.load_eq_ok.mpr hbyte, hbs,
    hin.mapped_range (hd.drop 1), ?_⟩
  intro m' t hi hle hin' ht
  refine ⟨(hin.mono le_rfl hle).trans (hin'.mono (Nat.le_succ d) le_rfl),
    Ram.holds_cons.mpr ⟨?_, ht⟩⟩
  rw [hin'.kept d (.inl (Nat.lt_succ_self d))]
  exact hbyte

section Overlap

variable {m m' m'' : Ram} {src dest n : ℕ}

def copyThrough (m : Ram) (dest src length : ℕ) : Except AccessFault Ram := do
  let temp ← m.readBlock src length
  m.writeBlock dest temp

theorem copyThrough_ok (hs : m.Mapped src n) (hd : m.Mapped dest n) :
    ∃ m', copyThrough m dest src n = .ok m' ∧ Copied m m' src dest n := by
  obtain ⟨bs, rfl, hbs⟩ := hs.holds
  obtain ⟨m', hwrite, hholds, hin⟩ := Ram.writeBlock_ok hd
  refine ⟨m', ?_, ?_, hin⟩
  · rw [copyThrough, Ram.readBlock_ok hbs, ok_bind, hwrite]
  · intro j hj
    rw [hholds j hj, hbs j hj]

theorem Copied.unique (h : Copied m m' src dest n) (h' : Copied m m'' src dest n) :
    m'.cells = m''.cells := by
  apply Ram.cells_ext
  · rw [h.stored.size, h'.stored.size]
  · intro a
    by_cases ha : dest ≤ a ∧ a < dest + n
    · obtain ⟨j, rfl⟩ := Nat.exists_eq_add_of_le ha.1
      rw [h.bytes j (by omega), h'.bytes j (by omega)]
    · rw [h.stored.kept a (by omega), h'.stored.kept a (by omega)]

theorem memmove_overlapping (hs : m.Mapped src n) (hd : m.Mapped dest n) :
    ∃ m', memmove m dest src n = .ok (dest, m') ∧
      (∀ j < n, m'.byteAt (dest + j) = m.byteAt (src + j)) ∧
      (∀ a, a < dest ∨ dest + n ≤ a → m'.byteAt a = m.byteAt a) ∧
      ∃ m'', copyThrough m dest src n = .ok m'' ∧ m'.cells = m''.cells := by
  obtain ⟨m', hmove, hc⟩ := memmove_ok hs hd
  obtain ⟨m'', hthrough, hc'⟩ := copyThrough_ok hs hd
  exact ⟨m', hmove, hc.bytes, hc.stored.kept, m'', hthrough, hc.unique hc'⟩

theorem memmove_overlapping_upwards :
    ∃ m', memmove ⟨[some 1, some 2, some 3, some 4], []⟩ 1 0 3 = .ok (1, m') ∧
      (∀ j < 3, m'.byteAt (1 + j) =
        (Ram.mk [some 1, some 2, some 3, some 4] []).byteAt (0 + j)) ∧
      (∀ a, a < 1 ∨ 1 + 3 ≤ a → m'.byteAt a =
        (Ram.mk [some 1, some 2, some 3, some 4] []).byteAt a) ∧
      ∃ m'', copyThrough ⟨[some 1, some 2, some 3, some 4], []⟩ 1 0 3 = .ok m'' ∧
        m'.cells = m''.cells :=
  memmove_overlapping (by decide) (by decide)

end Overlap

section Bcopy

variable {m m₁ m₂ : Ram} {x y n : ℕ}

def BcopyAgrees (m : Ram) (x y n : ℕ) : Prop :=
  ∃ m₁ r, bcopyMacro m x y n = .ok m₁ ∧ bcopyInline m x y n = .ok r ∧
    m₁.cells = r.2.cells ∧ Copied m m₁ x y n

theorem shifted_eq {α : Type} {f : ℕ → α} {k n : ℕ} (hk : 0 < k)
    (first : ∀ j < n, j < k → f j = f (j + k))
    (step : ∀ j < n, k ≤ j → f (j - k) = f (j + k)) : ∀ j < n, f j = f (j + k) := by
  intro j
  induction j using Nat.strong_induction_on with
  | _ j ih =>
    intro hj
    by_cases hjk : j < k
    · exact first j hj hjk
    · have hprev := ih (j - k) (by omega) (by omega)
      rw [Nat.sub_add_cancel (by omega)] at hprev
      rw [← step j hj (by omega), hprev]

theorem blocks_eq_of_copies (hxy : x ≤ y) (hc : Copied m m₁ x y n) (hc' : Copied m m₂ y x n)
    (he : m₁.cells = m₂.cells) : ∀ j < n, m.byteAt (x + j) = m.byteAt (y + j) := by
  have same (a : ℕ) : m₁.byteAt a = m₂.byteAt a := by rw [Ram.byteAt, he, Ram.byteAt]
  obtain ⟨k, rfl⟩ := Nat.exists_eq_add_of_le hxy
  rcases Nat.eq_zero_or_pos k with rfl | hk
  · intro j _
    rfl
  have hshift := shifted_eq (f := fun j => m.byteAt (x + j)) hk (n := n) ?_ ?_
  · intro j hj
    rw [hshift j hj]
    congr 1
    omega
  · intro j hj hjk
    have hkept : m₁.byteAt (x + j) = m.byteAt (x + j) := hc.stored.kept _ (by omega)
    rw [← hkept, same, hc'.bytes j hj]
    congr 1
    omega
  · intro j hj hkj
    have hcopy := hc.bytes (j - k) (by omega)
    have haddr : x + k + (j - k) = x + j := by omega
    rw [haddr, same, hc'.bytes j hj] at hcopy
    rw [← hcopy]
    congr 1
    omega

theorem Copied.cells_eq (hc : Copied m m₁ x y n)
    (he : ∀ j < n, m.byteAt (x + j) = m.byteAt (y + j)) : m₁.cells = m.cells := by
  apply Ram.cells_ext hc.stored.size
  intro a
  by_cases ha : y ≤ a ∧ a < y + n
  · obtain ⟨j, rfl⟩ := Nat.exists_eq_add_of_le ha.1
    rw [hc.bytes j (by omega), he j (by omega)]
  · apply hc.stored.kept a
    omega

theorem bcopy_agrees_iff (hx : m.Mapped x n) (hy : m.Mapped y n) :
    BcopyAgrees m x y n ↔ ∀ j < n, m.byteAt (x + j) = m.byteAt (y + j) := by
  obtain ⟨m₁, hmacro, hc⟩ := memmove_ok hx hy
  obtain ⟨m₂, hinline, hc'⟩ := memmove_ok hy hx
  have hm : bcopyMacro m x y n = .ok m₁ := by
    rw [bcopyMacro, hmacro]
    rfl
  constructor
  · rintro ⟨m₁', r, hm', hi', he, -⟩
    have h₁ : m₁ = m₁' := Except.ok.inj (hm.symm.trans hm')
    have h₂ : (x, m₂) = r := Except.ok.inj (hinline.symm.trans hi')
    subst h₁ h₂
    rcases Nat.le_total x y with hxy | hyx
    · exact blocks_eq_of_copies hxy hc hc' he
    · intro j hj
      exact (blocks_eq_of_copies hyx hc' hc he.symm j hj).symm
  · intro he
    refine ⟨m₁, (x, m₂), hm, hinline, ?_, hc⟩
    rw [hc.cells_eq he, hc'.cells_eq fun j hj => (he j hj).symm]

theorem bcopy_agrees_repeated :
    BcopyAgrees ⟨[some 5, some 5, some 5, some 9], []⟩ 0 1 2 :=
  (bcopy_agrees_iff (by decide) (by decide)).mpr (by decide)

theorem bcopy_not_agrees : ¬ BcopyAgrees ⟨[some 1, some 2], []⟩ 0 1 1 := by
  rintro ⟨m₁, r, hm, hi, he, -⟩
  cases hm
  cases hi
  revert he
  decide

end Bcopy

end OsdevLibstdc.Cstring
