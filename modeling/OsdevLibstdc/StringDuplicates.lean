import OsdevLibstdc.StringCopies

/-!
`strdup` over a `malloc` that is not part of the library, and the null pointer it may return.
-/

namespace OsdevLibstdc.Cstring

open ByteMemory Outcomes

/-- `malloc` is given the size and the memory, and returns an address and the memory after it. -/
def strdup (malloc : ℕ → Ram → ℕ × Ram) (m : Ram) (s : ℕ) : Except AccessFault (ℕ × Ram) := do
  if s ≠ 0 then
    let len ← strlen m s
    let (str, m) := malloc (len + 1) m
    strcpy m str s
  else return (0, m)

/-- A `malloc` of `n` bytes keeps the cells in use and returns a null pointer, or a block of at
least `n` cells none of which is in use. -/
structure Allocates (malloc : ℕ → Ram → ℕ × Ram) (inUse : ℕ → Bool) (m : Ram) (n : ℕ) : Prop where
  kept : ∀ a, inUse a → (malloc n m).2.byteAt a = m.byteAt a
  mapped : (malloc n m).1 ≠ 0 → (malloc n m).2.Mapped (malloc n m).1 n
  fresh : (malloc n m).1 ≠ 0 → ∀ a, Ram.inBlock (malloc n m).1 n a → ¬ inUse a

structure Duplicates (malloc : ℕ → Ram → ℕ × Ram) (m : Ram) (s : ℕ) (t : List UInt8) : Prop where
  null : ∀ m₁, malloc (t.length + 1) m = (0, m₁) → strdup malloc m s = .ok (0, m₁)
  copy : ∀ str m₁, malloc (t.length + 1) m = (str, m₁) → str ≠ 0 →
    ∃ m', strdup malloc m s = .ok (str, m') ∧ Leaves m₁ m' str str t ∧
      m'.writes = (List.range' str (t.length + 1)).reverse ++ m₁.writes ∧ m'.IsString s t

section Strdup

variable {malloc : ℕ → Ram → ℕ × Ram} {m m₁ m' : Ram} {d s str fuel : ℕ} {t : List UInt8}

theorem strcpyLoop_stores (h : strcpyLoop fuel m d s = .ok m') :
    m.writes.length < m'.writes.length := by
  induction fuel generalizing m d s with
  | zero => cases h
  | succ fuel ih =>
    obtain ⟨c, -, h⟩ := bind_eq_ok.mp h
    obtain ⟨m₁, hst, h⟩ := bind_eq_ok.mp h
    obtain ⟨c₁, -, h⟩ := bind_eq_ok.mp h
    have hone : m₁.writes.length = m.writes.length + 1 := by
      rw [Ram.store_writes hst, List.length_cons]
    split_ifs at h
    · rw [← Except.ok.inj h]
      omega
    · obtain ⟨c₂, -, h⟩ := bind_eq_ok.mp h
      split_ifs at h
      · rw [← Except.ok.inj h]
        omega
      · have := ih h
        omega

theorem strdup_eq_strcpy (hs : m.IsString s t) (hne : s ≠ 0)
    (hmalloc : malloc (t.length + 1) m = (str, m₁)) : strdup malloc m s = strcpy m₁ str s := by
  rw [strdup, if_pos hne, strlen_ok hs, ok_bind, hmalloc]

theorem strdup_null (hs : m.IsString s t) (hne : s ≠ 0)
    (hmalloc : malloc (t.length + 1) m = (0, m₁)) : strdup malloc m s ≠ .ok (0, m₁) := by
  rw [strdup_eq_strcpy hs hne hmalloc]
  intro h
  obtain ⟨m', hrun, heq⟩ := bind_eq_ok.mp h
  have hlt := strcpyLoop_stores hrun
  rw [Prod.mk.inj (Except.ok.inj heq) |>.2] at hlt
  exact Nat.lt_irrefl _ hlt

theorem strdup_copies (hs : m.IsString s t) (hne : s ≠ 0)
    (halloc : Allocates malloc (Ram.inBlock s (t.length + 1)) m (t.length + 1))
    (hmalloc : malloc (t.length + 1) m = (str, m₁)) (hstr : str ≠ 0) :
    ∃ m', strdup malloc m s = .ok (str, m') ∧ Leaves m₁ m' str str t ∧
      m'.writes = (List.range' str (t.length + 1)).reverse ++ m₁.writes ∧ m'.IsString s t := by
  obtain ⟨hkept, hmapped, hfresh⟩ := halloc
  rw [hmalloc] at hkept hmapped hfresh
  have hs₁ : m₁.IsString s t := by
    refine ⟨?_, hs.no_nul⟩
    intro j hj
    rw [hkept, hs.holds j hj]
    apply Ram.inBlock_add
    rwa [List.length_append, List.length_singleton] at hj
  have hapart : Ram.Apart s (t.length + 1) str (t.length + 1) := by
    rintro x ⟨hx, hy⟩
    exact hfresh hstr x (decide_eq_true hy) (decide_eq_true hx)
  have hcases := hapart.cases (Nat.succ_pos _) (Nat.succ_pos _)
  obtain ⟨m', hcpy, hl, hw⟩ := strcpy_ok hs₁ (hmapped hstr) (by omega)
  refine ⟨m', (strdup_eq_strcpy hs hne hmalloc).trans hcpy, hl, hw, ?_⟩
  apply hs₁.stored hl.stored
  omega

theorem strdup_duplicates_iff (hs : m.IsString s t) (hne : s ≠ 0)
    (halloc : Allocates malloc (Ram.inBlock s (t.length + 1)) m (t.length + 1)) :
    Duplicates malloc m s t ↔ (malloc (t.length + 1) m).1 ≠ 0 := by
  obtain ⟨str, m₁, hmalloc⟩ : ∃ str m₁, malloc (t.length + 1) m = (str, m₁) := ⟨_, _, rfl⟩
  constructor
  · intro h h0
    rw [hmalloc] at h0
    change str = 0 at h0
    rw [h0] at hmalloc
    exact strdup_null hs hne hmalloc (h.null m₁ hmalloc)
  · intro hblock
    constructor
    · intro m₂ h0
      rw [h0] at hblock
      exact absurd rfl hblock
    · intro str m₂ hmalloc hstr
      exact strdup_copies hs hne halloc hmalloc hstr

end Strdup

def appendCells (n : ℕ) (m : Ram) : ℕ × Ram :=
  (m.size, ⟨m.cells ++ List.replicate n (some 0), m.writes⟩)

theorem appendCells_allocates {inUse : ℕ → Bool} {m : Ram} (n : ℕ)
    (h : ∀ a, inUse a → a < m.size) : Allocates appendCells inUse m n := by
  constructor
  · intro a ha
    have hlt : a < m.cells.length := h a ha
    simp [appendCells, Ram.byteAt, List.getElem?_append_left hlt]
  · intro _ j hj
    simp [appendCells, Ram.byteAt, Ram.size, hj]
  · intro _ a ha hin
    have hblock := of_decide_eq_true ha
    exact absurd (h a hin) (Nat.not_lt.mpr hblock.1)

theorem strdup_duplicates_ab :
    Duplicates appendCells ⟨[none, some 97, some 98, some 0], []⟩ 1 [97, 98] := by
  refine (strdup_duplicates_iff (by decide) (by decide) (appendCells_allocates _ ?_)).mpr (by decide)
  intro a ha
  exact (of_decide_eq_true ha).2

def exhausted (_ : ℕ) (m : Ram) : ℕ × Ram := (0, m)

theorem strdup_not_duplicates : ¬ ∀ (malloc : ℕ → Ram → ℕ × Ram) (m : Ram) (s : ℕ)
    (t : List UInt8), m.IsString s t → s ≠ 0 →
    Allocates malloc (Ram.inBlock s (t.length + 1)) m (t.length + 1) → Duplicates malloc m s t := by
  intro h
  have hdup := h exhausted ⟨[none, some 97, some 0], []⟩ 1 [97] (by decide) (by decide)
    ⟨fun _ _ => rfl, fun h0 => absurd rfl h0, fun h0 => absurd rfl h0⟩
  have hfault : strdup exhausted ⟨[none, some 97, some 0], []⟩ 1 = .error .unmapped := by decide
  cases hfault.symm.trans (hdup.null _ rfl)

end OsdevLibstdc.Cstring
