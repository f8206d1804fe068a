import OsdevLibstdc.BoundedScans
import OsdevLibstdc.StringCopies

/-!
`memcpy` on blocks that overlap, and the fills: `memset`, `mempcpy` and `bzero`.
-/

namespace OsdevLibstdc.Cstring

open ByteMemory Outcomes

def memsetLoop (value : ℤ) : ℕ → Ram → ℕ → Except AccessFault Ram
  | 0, m, _ => .ok m
  | length + 1, m, p => do
    let m ← m.store p (UInt8.ofInt value)
    memsetLoop value length m (p + 1)

def memset (m : Ram) (dest : ℕ) (value : ℤ) (length : ℕ) : Except AccessFault (ℕ × Ram) := do
  let m ← memsetLoop value length m dest
  return (dest, m)

def mempcpy (m : Ram) (dest src n : ℕ) : Except AccessFault (ℕ × Ram) := do
  let (p, m) ← memcpy m dest src n
  return (p + n, m)

def bzero (m : Ram) (b len : ℕ) : Except AccessFault Ram := do
  let (_, m) ← memset m b 0 len
  return m

section Stores

variable {m m' m₁ m₂ : Ram} {d n : ℕ}

structure StoredUpwards (m m' : Ram) (d n : ℕ) : Prop where
  stored : m.StoredIn m' d (d + n)
  writes : m'.writes = (List.range' d n).reverse ++ m.writes

theorem StoredUpwards.refl (m : Ram) (d : ℕ) : StoredUpwards m m d 0 := ⟨.refl m _ _, rfl⟩

theorem StoredUpwards.cons {b : UInt8} (hst : m.store d b = .ok m₁)
    (hin : m.StoredIn m₁ d (d + 1)) (h : StoredUpwards m₁ m' (d + 1) n) :
    StoredUpwards m m' d (n + 1) := by
  constructor
  · exact (hin.mono le_rfl (by omega)).trans (h.stored.mono (by omega) (by omega))
  · rw [h.writes, Ram.store_writes hst, range'_reverse_cons]

theorem StoredUpwards.trans {k : ℕ} (h : StoredUpwards m m₁ d n)
    (h' : StoredUpwards m₁ m' (d + n) k) : StoredUpwards m m' d (n + k) := by
  constructor
  · exact (h.stored.mono le_rfl (by omega)).trans (h'.stored.mono (by omega) (by omega))
  · rw [h'.writes, h.writes, ← List.append_assoc, ← List.reverse_append, List.range'_append_1]

theorem StoredUpwards.unique (h₁ : StoredUpwards m m₁ d n) (h₂ : StoredUpwards m m₂ d n)
    (h : ∀ j < n, m₁.byteAt (d + j) = m₂.byteAt (d + j)) : m₁ = m₂ := by
  have hcells : m₁.cells = m₂.cells := by
    apply Ram.cells_ext
    · rw [h₁.stored.size, h₂.stored.size]
    · intro a
      by_cases ha : d ≤ a ∧ a < d + n
      · obtain ⟨j, rfl⟩ := Nat.exists_eq_add_of_le ha.1
        exact h j (by omega)
      · rw [h₁.stored.kept a (by omega), h₂.stored.kept a (by omega)]
  have hwrites : m₁.writes = m₂.writes := h₁.writes.trans h₂.writes.symm
  obtain ⟨cells₁, writes₁⟩ := m₁
  obtain ⟨cells₂, writes₂⟩ := m₂
  simp only at hcells hwrites
  rw [hcells, hwrites]

end Stores

section Copies

variable {m m' m₁ : Ram} {d s n : ℕ}

theorem copyForward_writes (h : copyForward n m d s = .ok m') :
    m'.writes = (List.range' d n).reverse ++ m.writes := by
  induction n generalizing m d s with
  | zero =>
    obtain rfl := Except.ok.inj h
    rfl
  | succ n ih =>
    obtain ⟨b, -, h⟩ := bind_eq_ok.mp h
    obtain ⟨m₁, hst, h⟩ := bind_eq_ok.mp h
    rw [ih h, Ram.store_writes hst, range'_reverse_cons]

theorem copyForward_upwards (hs : m.Mapped s n) (hd : m.Mapped d n) (h : d ≤ s ∨ s + n ≤ d) :
    ∃ m', copyForward n m d s = .ok m' ∧ StoredUpwards m m' d n ∧ Copied m m' s d n := by
  obtain ⟨m', hrun, hcopied⟩ := copyForward_ok hs hd h
  exact ⟨m', hrun, ⟨hcopied.stored, copyForward_writes hrun⟩, hcopied⟩

theorem copyForward_repeats {n : ℕ} {m : Ram} {d s : ℕ} (hs : m.Mapped s n) (hd : m.Mapped d n)
    (hlt : s < d) : ∃ m', copyForward n m d s = .ok m' ∧ StoredUpwards m m' d n ∧
      ∀ j < n, m'.byteAt (d + j) = m.byteAt (s + j % (d - s)) := by
  induction n generalizing m d s with
  | zero => exact ⟨m, rfl, .refl m d, fun j hj => absurd hj (Nat.not_lt_zero j)⟩
  | succ n ih =>
    obtain ⟨b, hb⟩ := Option.isSome_iff_exists.mp (hs 0 (Nat.succ_pos n))
    obtain ⟨m₁, hst, hbyte, hin⟩ := Ram.store_ok b (hd 0 (Nat.succ_pos n))
    obtain ⟨m', hrun, hup, hbytes⟩ := ih (hin.mapped_range (hs.drop 1))
      (hin.mapped_range (hd.drop 1)) (Nat.succ_lt_succ hlt)
    rw [Nat.add_zero] at hb hbyte
    refine ⟨m', ?_, .cons hst hin hup, ?_⟩
    · have hload : m.load s = .ok b := Ram.load_eq_ok.mpr hb
      have hstore : m.store d b = .ok m₁ := hst
      rw [copyForward, hload, ok_bind, hstore, ok_bind, hrun]
    · intro j hj
      cases j with
      | zero =>
        rw [Nat.zero_mod, Nat.add_zero, Nat.add_zero, hup.stored.kept d (by omega), hbyte, hb]
      | succ j =>
        have hstep := hbytes j (Nat.lt_of_succ_lt_succ hj)
        rw [Nat.add_sub_add_right] at hstep
        rw [Nat.add_comm j 1, ← Nat.add_assoc, hstep]
        have hmod := Nat.mod_lt j (Nat.sub_pos_of_lt hlt)
        have hsucc : (1 + j) % (d - s) = (j % (d - s) + 1) % (d - s) := by
          rw [Nat.mod_add_mod, Nat.add_comm]
        rw [hsucc]
        generalize j % (d - s) = r at hmod
        rcases Nat.lt_or_ge (r + 1) (d - s) with hin' | hend
        · rw [Nat.mod_eq_of_lt hin', hin.kept _ (by omega)]
          congr 1
          omega
        · have hlast : r + 1 = d - s := by omega
          have haddr : s + 1 + r = d := by omega
          rw [hlast, Nat.mod_self, haddr, Nat.add_zero, hbyte, hb]

structure Repeated (m m' : Ram) (src dest n : ℕ) : Prop where
  bytes : ∀ j < n,
    m'.byteAt (dest + j) = m.byteAt (src + if src < dest then j % (dest - src) else j)
  stored : m.StoredIn m' dest (dest + n)

theorem memcpy_repeats {src dest : ℕ} (hs : m.Mapped src n) (hd : m.Mapped dest n) :
    ∃ m', memcpy m dest src n = .ok (dest, m') ∧ Repeated m m' src dest n := by
  rcases Nat.lt_trichotomy src dest with hlt | rfl | hgt
  · obtain ⟨m', hrun, hup, hbytes⟩ := copyForward_repeats hs hd hlt
    refine ⟨m', ?_, ?_, hup.stored⟩
    · rw [memcpy, if_neg (Nat.ne_of_gt hlt), hrun]
      rfl
    · intro j hj
      rw [hbytes j hj, if_pos hlt]
  · refine ⟨m, ?_, ?_, .refl m _ _⟩
    · rw [memcpy, if_pos rfl]
      rfl
    · intro j _
      rw [if_neg (Nat.lt_irrefl src)]
  · obtain ⟨m', hrun, hcopied⟩ := copyForward_ok hs hd (.inl (Nat.le_of_lt hgt))
    refine ⟨m', ?_, ?_, hcopied.stored⟩
    · rw [memcpy, if_neg (Nat.ne_of_lt hgt), hrun]
      rfl
    · intro j hj
      rw [hcopied.bytes j hj, if_neg (Nat.lt_asymm hgt)]

theorem mod_eq_of_period {α : Type} {f : ℕ → α} {k n : ℕ} (hk : 0 < k)
    (h : ∀ j, j + k < n → f j = f (j + k)) : ∀ j < n, f j = f (j % k) := by
  intro j
  induction j using Nat.strong_induction_on with
  | _ j ih =>
    intro hj
    rcases Nat.lt_or_ge j k with hlt | hge
    · rw [Nat.mod_eq_of_lt hlt]
    · have hprev := ih (j - k) (by omega) (by omega)
      rw [← Nat.mod_eq_sub_mod hge] at hprev
      have hstep := h (j - k) (by omega)
      rw [Nat.sub_add_cancel hge] at hstep
      rw [← hstep, hprev]

theorem period_of_mod_eq {α : Type} {f : ℕ → α} {k n : ℕ}
    (h : ∀ j < n, f j = f (j % k)) (j : ℕ) (hj : j + k < n) : f j = f (j + k) := by
  rw [h j (by omega), h (j + k) hj, Nat.add_mod_right]

theorem memcpy_memmove_iff {src dest : ℕ} (hs : m.Mapped src n) (hd : m.Mapped dest n) :
    ∃ m₁ m₂, memcpy m dest src n = .ok (dest, m₁) ∧ memmove m dest src n = .ok (dest, m₂) ∧
      Repeated m m₁ src dest n ∧ (m₁.cells = m₂.cells ↔ dest ≤ src ∨
        ∀ j, j + (dest - src) < n → m.byteAt (src + j) = m.byteAt (dest + j)) := by
  obtain ⟨m₁, hcpy, hrep⟩ := memcpy_repeats hs hd
  obtain ⟨m₂, hmove, hcopied⟩ := memmove_ok hs hd
  refine ⟨m₁, m₂, hcpy, hmove, hrep, ?_⟩
  have hcells : m₁.cells = m₂.cells ↔
      ∀ j < n, m.byteAt (src + if src < dest then j % (dest - src) else j) =
        m.byteAt (src + j) := by
    constructor
    · intro he j hj
      rw [← hrep.bytes j hj, ← hcopied.bytes j hj, Ram.byteAt, he, Ram.byteAt]
    · intro he
      apply Copied.unique (m := m) _ hcopied
      exact ⟨fun j hj => (hrep.bytes j hj).trans (he j hj), hrep.stored⟩
  rw [hcells]
  rcases Nat.lt_or_ge src dest with hlt | hge
  · have haddr (j : ℕ) : src + (j + (dest - src)) = dest + j := by omega
    simp only [if_pos hlt, Nat.not_le.mpr hlt, false_or]
    constructor
    · intro h j hj
      rw [← haddr]
      exact period_of_mod_eq (f := fun j => m.byteAt (src + j)) (fun j hj => (h j hj).symm) j hj
    · intro h j hj
      apply (mod_eq_of_period (f := fun j => m.byteAt (src + j)) (Nat.sub_pos_of_lt hlt) _ j hj).symm
      intro j hj
      rw [haddr]
      exact h j hj
  · apply iff_of_true
    · intro j _
      rw [if_neg (Nat.not_lt.mpr hge)]
    · exact .inl hge

theorem memcpy_memmove_iff_run : ∃ m₁ m₂,
    memcpy ⟨[some 7, some 7, some 7, some 9], []⟩ 1 0 3 = .ok (1, m₁) ∧
    memmove ⟨[some 7, some 7, some 7, some 9], []⟩ 1 0 3 = .ok (1, m₂) ∧
    Repeated ⟨[some 7, some 7, some 7, some 9], []⟩ m₁ 0 1 3 ∧
    (m₁.cells = m₂.cells ↔ 1 ≤ 0 ∨ ∀ j, j + (1 - 0) < 3 →
      (Ram.mk [some 7, some 7, some 7, some 9] []).byteAt (0 + j) =
        (Ram.mk [some 7, some 7, some 7, some 9] []).byteAt (1 + j)) :=
  memcpy_memmove_iff (by decide) (by decide)

end Copies

section Fills

variable {m m' : Ram} {p d src n : ℕ}

theorem memsetLoop_ok (value : ℤ) (hp : m.Mapped p n) : ∃ m', memsetLoop value n m p = .ok m' ∧
    StoredUpwards m m' p n ∧ ∀ j < n, m'.byteAt (p + j) = some (UInt8.ofInt value) := by
  induction n generalizing m p with
  | zero => exact ⟨m, rfl, .refl m p, fun j hj => absurd hj (Nat.not_lt_zero j)⟩
  | succ n ih =>
    obtain ⟨m₁, hst, hbyte, hin⟩ := Ram.store_ok (UInt8.ofInt value) (hp 0 (Nat.succ_pos n))
    obtain ⟨m', hrun, hup, hbytes⟩ := ih (hin.mapped_range (hp.drop 1))
    rw [Nat.add_zero] at hbyte
    refine ⟨m', ?_, .cons hst hin hup, ?_⟩
    · have hstore : m.store p (UInt8.ofInt value) = .ok m₁ := hst
      rw [memsetLoop, hstore, ok_bind, hrun]
    · intro j hj
      cases j with
      | zero => rw [Nat.add_zero, hup.stored.kept p (by omega), hbyte]
      | succ j =>
        rw [Nat.add_comm j 1, ← Nat.add_assoc]
        exact hbytes j (Nat.lt_of_succ_lt_succ hj)

theorem memset_ok (value : ℤ) (hp : m.Mapped p n) : ∃ m', memset m p value n = .ok (p, m') ∧
    StoredUpwards m m' p n ∧ ∀ j < n, m'.byteAt (p + j) = some (UInt8.ofInt value) := by
  obtain ⟨m', hrun, hup, hbytes⟩ := memsetLoop_ok value hp
  refine ⟨m', ?_, hup, hbytes⟩
  rw [memset, hrun]
  rfl

theorem memset_by_memcpy (value : ℤ) (hd : m.Mapped d (n + 1)) :
    ∃ m', memset m d value (n + 1) = .ok (d, m') ∧
      (do memcpy (← m.store d (UInt8.ofInt value)) (d + 1) d n) = .ok (d + 1, m') := by
  obtain ⟨m', hset, hup, hbytes⟩ := memset_ok value hd
  obtain ⟨m₁, hst, hbyte, hin⟩ := Ram.store_ok (UInt8.ofInt value) (hd 0 (Nat.succ_pos n))
  obtain ⟨m₂, hrun, hup₂, hbytes₂⟩ := copyForward_repeats
    (hin.mapped_range (hd.mono (Nat.le_succ n))) (hin.mapped_range (hd.drop 1)) (Nat.lt_succ_self d)
  rw [Nat.add_zero] at hbyte
  have hsame : m' = m₂ := by
    apply hup.unique (.cons hst hin hup₂)
    intro j hj
    rw [hbytes j hj]
    cases j with
    | zero => rw [Nat.add_zero, hup₂.stored.kept d (by omega), hbyte]
    | succ j =>
      have hstep := hbytes₂ j (Nat.lt_of_succ_lt_succ hj)
      rw [Nat.add_sub_cancel_left, Nat.mod_one, Nat.add_zero d, hbyte] at hstep
      rw [Nat.add_comm j 1, ← Nat.add_assoc, hstep]
  refine ⟨m', hset, ?_⟩
  have hstore : m.store d (UInt8.ofInt value) = .ok m₁ := hst
  rw [hstore, ok_bind, memcpy, if_neg (Nat.succ_ne_self d), hrun, hsame]
  rfl

theorem memset_by_memcpy_run : ∃ m',
    memset ⟨[some 1, some 2, some 3], []⟩ 0 0x141 (2 + 1) = .ok (0, m') ∧
      (do memcpy (← (Ram.mk [some 1, some 2, some 3] []).store 0 (UInt8.ofInt 0x141)) (0 + 1) 0 2) =
        .ok (0 + 1, m') :=
  memset_by_memcpy 0x141 (by decide)

theorem mempcpy_ok (hs : m.Mapped src n) (hd : m.Mapped d n) (h : d + n ≤ src ∨ src + n ≤ d) :
    ∃ m', mempcpy m d src n = .ok (d + n, m') ∧ StoredUpwards m m' d n ∧ Copied m m' src d n := by
  rcases Nat.eq_zero_or_pos n with rfl | hn
  · refine ⟨m, ?_, .refl m d, fun j hj => absurd hj (Nat.not_lt_zero j), .refl m _ _⟩
    rw [mempcpy, memcpy]
    split_ifs <;> rfl
  · obtain ⟨m', hrun, hup, hcopied⟩ := copyForward_upwards hs hd (by omega)
    refine ⟨m', ?_, hup, hcopied⟩
    rw [mempcpy, memcpy, if_neg (by omega), hrun]
    rfl

def strncpyByBlocks (m : Ram) (dest src n : ℕ) : Except AccessFault (ℕ × Ram) := do
  let k ← strnlen m src n
  let (p, m) ← mempcpy m dest src k
  let m ← bzero m p (n - k)
  return (dest, m)

theorem strncpy_eq_byBlocks {s : List UInt8} (hs : m.IsString src s) (hd : m.Mapped d n)
    (hapart : Ram.Apart src (s.length + 1) d n) :
    ∃ m', strncpy m d src n = .ok (d, m') ∧ strncpyByBlocks m d src n = .ok (d, m') := by
  obtain ⟨⟨m', hcpy, hfilled⟩, -⟩ := strncpy_fills hs hd hapart
  generalize hk : min s.length n = k
  have hkn : k + (n - k) = n := by omega
  have hholds : m.Holds src s := (Ram.holds_append.mp hs.holds).1
  obtain ⟨m₁, hmempcpy, hup₁, hcopied⟩ := mempcpy_ok (n := k)
    (hholds.mapped.mono (by omega)) (hd.mono (by omega)) (by
      have := hapart.cases (Nat.succ_pos _)
      omega)
  obtain ⟨m₂, hset, hup₂, hzero⟩ := memset_ok 0 (hup₁.stored.mapped_range (hd.drop k))
  have hsame : m' = m₂ := by
    have hup := hup₁.trans hup₂
    rw [hkn] at hup
    refine StoredUpwards.unique ⟨hfilled.stored, hfilled.writes⟩ hup ?_
    intro j hj
    have hlen : j < ((s ++ List.replicate n 0).take n).length := by
      rw [List.length_take, List.length_append, List.length_replicate]
      omega
    rw [hfilled.bytes j hlen, List.getElem?_take_of_lt hj]
    rcases Nat.lt_or_ge j k with hlt | hge
    · rw [hup₂.stored.kept _ (by omega), hcopied.bytes j hlt, hholds j (by omega),
        List.getElem?_append_left (by omega)]
    · have hbyte := hzero (j - k) (by omega)
      rw [Nat.add_assoc, Nat.add_sub_cancel' hge] at hbyte
      rw [hbyte, List.getElem?_append_right (by omega), List.getElem?_replicate_of_lt (by omega)]
      rfl
  refine ⟨m', hcpy, ?_⟩
  rw [strncpyByBlocks, strnlen_ok hs, ok_bind, hk, hmempcpy, ok_bind]
  simp only [bzero, hset, ok_bind, pure_eq, hsame]

theorem strncpy_eq_byBlocks_short : ∃ m',
    strncpy ⟨[some 104, some 105, some 0, some 1, some 2, some 3, some 4], []⟩ 3 0 4 =
      .ok (3, m') ∧
    strncpyByBlocks ⟨[some 104, some 105, some 0, some 1, some 2, some 3, some 4], []⟩ 3 0 4 =
      .ok (3, m') :=
  strncpy_eq_byBlocks (s := [104, 105]) (by decide) (by decide) (Ram.Apart.of_le (by decide))

end Fills
end OsdevLibstdc.Cstring
