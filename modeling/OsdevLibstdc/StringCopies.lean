import OsdevLibstdc.BoundedStrings

/-!
`strcpy`, `strncpy`, `stpcpy`, `strcat` and `strncat`, beside `strlcpy` and `strlcat`.
-/

namespace OsdevLibstdc.Cstring

open ByteMemory Outcomes Target

def strcpyLoop : ℕ → Ram → ℕ → ℕ → Except AccessFault Ram
  | 0, _, _, _ => .error .runaway
  | fuel + 1, m, d, s => do
    let m ← m.store d (← m.load s)
    if (← m.load s) = 0 then return m
    if (← m.load d) = 0 then return m
    strcpyLoop fuel m (d + 1) (s + 1)

def strcpy (m : Ram) (dest src : ℕ) : Except AccessFault (ℕ × Ram) := do
  let m ← strcpyLoop (m.size + 1) m dest src
  return (dest, m)

def strncpyLoop : ℕ → Ram → ℕ → ℕ → Except AccessFault Ram
  | 0, m, _, _ => return m
  | n + 1, m, d, s => do
    if (← m.load s) ≠ 0 then
      let m ← m.store d (← m.load s)
      strncpyLoop n m (d + 1) (s + 1)
    else
      let m ← m.store d 0
      strncpyLoop n m (d + 1) s

def strncpy (m : Ram) (dest src n : ℕ) : Except AccessFault (ℕ × Ram) := do
  let m ← strncpyLoop n m dest src
  return (dest, m)

def stpcpy (m : Ram) (dest src : ℕ) : Except AccessFault (ℕ × Ram) := do
  let srcLen ← strlen m src
  let (_, m) ← memcpy m dest src (srcLen + 1)
  return (dest + srcLen, m)

/-- `while (*d++) {}` and `--d` -/
def endLoop (m : Ram) : ℕ → ℕ → Except AccessFault ℕ
  | 0, _ => .error .runaway
  | fuel + 1, d => do
    if (← m.load d) ≠ 0 then endLoop m fuel (d + 1) else return d

/-- The loop of `strcat` and of `strncat`, which tests the character and then the count. `strcat`
has no count, and the loop faults when it runs out. -/
def catLoop (out : Except AccessFault Unit) : ℕ → Ram → ℕ → ℕ → Except AccessFault (Ram × ℕ)
  | 0, m, d, s => do
    if (← m.load s) = 0 then return (m, d)
    out
    return (m, d)
  | length + 1, m, d, s => do
    let c ← m.load s
    if c = 0 then return (m, d)
    let m ← m.store d c
    catLoop out length m (d + 1) (s + 1)

def strcat (m : Ram) (dest src : ℕ) : Except AccessFault (ℕ × Ram) := do
  let d ← endLoop m (m.size + 1) dest
  let (m, d) ← catLoop (.error .runaway) m.size m d src
  let m ← m.store d 0
  return (dest, m)

def strncat (m : Ram) (dest src length : ℕ) : Except AccessFault (ℕ × Ram) := do
  let d ← endLoop m (m.size + 1) dest
  let (m, d) ← catLoop (.ok ()) length m d src
  let m ← m.store d 0
  return (dest, m)

def stpcpyChain : Ram → ℕ → List ℕ → Except AccessFault (ℕ × Ram)
  | m, d, [] => .ok (d, m)
  | m, d, src :: srcs => do
    let (d, m) ← stpcpy m d src
    stpcpyChain m d srcs

section Loops

variable {m : Ram} {d src : ℕ} {s : List UInt8}

theorem range'_reverse_cons (d n : ℕ) (ws : List ℕ) :
    (List.range' (d + 1) n).reverse ++ d :: ws = (List.range' d (n + 1)).reverse ++ ws := by
  rw [List.range'_succ, List.reverse_cons, List.append_assoc]
  rfl

theorem strcpyLoop_ok (fuel : ℕ) (hs : m.IsString src s) (hf : s.length < fuel)
    (hd : m.Mapped d (s.length + 1)) (hdis : src + s.length < d ∨ d + s.length < src) :
    ∃ m', strcpyLoop fuel m d src = .ok m' ∧ Leaves m m' d d s ∧
      m'.writes = (List.range' d (s.length + 1)).reverse ++ m.writes := by
  induction s generalizing m d src fuel with
  | nil =>
    obtain ⟨fuel, rfl⟩ := Nat.exists_eq_add_one_of_ne_zero (Nat.ne_zero_of_lt hf)
    obtain ⟨hload, m₁, hst, hload₁, -, -, -, hglue⟩ := copy_step hs.holds hd hdis
    obtain ⟨hin, hholds⟩ := hglue m₁ [] (d + 1) le_rfl (.refl m₁ _ _) (Ram.holds_nil _ _)
    refine ⟨m₁, ?_, ⟨⟨hholds, List.not_mem_nil⟩, hin⟩, Ram.store_writes hst⟩
    rw [strcpyLoop, hload, ok_bind, hst, ok_bind, hload₁, ok_bind, if_pos rfl]
    rfl
  | cons c s ih =>
    obtain ⟨fuel, rfl⟩ := Nat.exists_eq_add_one_of_ne_zero (Nat.ne_zero_of_lt hf)
    have hne : c ≠ 0 := hs.cons.2.1
    have hnul : 0 ∉ s := hs.cons.2.2.no_nul
    rw [List.length_cons] at hf hd hdis
    have hcs : m.Holds src (c :: (s ++ [0])) := hs.holds
    obtain ⟨hload, m₁, hst, hload₁, hload₂, hs₁, hd₁, hglue⟩ := copy_step hcs hd (by
      rw [List.length_append, List.length_singleton]
      omega)
    obtain ⟨m', hrun, hl, hw⟩ := ih fuel ⟨hs₁, hnul⟩ (by omega) hd₁ (by omega)
    obtain ⟨hin, hholds⟩ := hglue m' (s ++ [0]) (d + 1 + s.length + 1) (by omega) hl.stored
      hl.string.holds
    refine ⟨m', ?_, ⟨⟨hholds, hs.no_nul⟩, ?_⟩, ?_⟩
    · rw [strcpyLoop, hload, ok_bind, hst, ok_bind, hload₁, ok_bind, if_neg hne, hload₂, ok_bind,
        if_neg hne, hrun]
    · rw [List.length_cons, Nat.add_right_comm d]
      exact hin
    · rw [hw, Ram.store_writes hst, range'_reverse_cons, List.length_cons]

theorem strncpyLoop_ok {n : ℕ} (hs : m.Holds src ((s ++ [0]).take n)) (h0 : 0 ∉ s)
    (hd : m.Mapped d n) (hdis : src + min n (s.length + 1) ≤ d ∨ d + n ≤ src) :
    ∃ m', strncpyLoop n m d src = .ok m' ∧ m'.Holds d ((s ++ List.replicate n 0).take n) ∧
      m.StoredIn m' d (d + n) ∧ m'.writes = (List.range' d n).reverse ++ m.writes := by
  induction n generalizing m d src s with
  | zero => exact ⟨m, rfl, Ram.holds_nil _ _, .refl m _ _, rfl⟩
  | succ n ih =>
    have hend : d + 1 + n = d + (n + 1) := by omega
    cases s with
    | nil =>
      rw [List.nil_append, List.take_succ_cons, List.take_nil] at hs
      rw [List.length_nil] at hdis
      obtain ⟨hload, m₁, hst, hload₁, -, -, hd₁, hglue⟩ := copy_step hs hd (by
        rw [List.length_nil]
        omega)
      have hs₁ : m₁.Holds src ([] ++ [0]) :=
        Ram.holds_cons.mpr ⟨Ram.load_eq_ok.mp hload₁, Ram.holds_nil _ _⟩
      obtain ⟨m', hrun, hholds, hin, hw⟩ := ih (hs₁.take n) List.not_mem_nil hd₁ (by
        rw [List.length_nil]
        omega)
      obtain ⟨hin', hholds'⟩ := hglue m' _ _ (Nat.le_add_right _ _) hin hholds
      refine ⟨m', ?_, hholds', hend ▸ hin', ?_⟩
      · rw [strncpyLoop, hload, ok_bind, if_neg (not_not.mpr rfl), hst, ok_bind, hrun]
      · rw [hw, Ram.store_writes hst, range'_reverse_cons]
    | cons c s =>
      rw [List.mem_cons, not_or] at h0
      rw [List.cons_append, List.take_succ_cons] at hs
      rw [List.length_cons] at hdis
      obtain ⟨hload, m₁, hst, -, -, hs₁, hd₁, hglue⟩ := copy_step hs hd (by
        rw [List.length_take, List.length_append, List.length_singleton]
        omega)
      obtain ⟨m', hrun, hholds, hin, hw⟩ := ih hs₁ h0.2 hd₁ (by omega)
      obtain ⟨hin', hholds'⟩ := hglue m' _ _ (Nat.le_add_right _ _) hin hholds
      have htake : (c :: s ++ List.replicate (n + 1) 0).take (n + 1) =
          c :: (s ++ List.replicate n 0).take n := by
        rw [List.cons_append, List.take_succ_cons, List.replicate_succ', ← List.append_assoc,
          List.take_append_of_le_length]
        rw [List.length_append, List.length_replicate]
        omega
      rw [htake]
      refine ⟨m', ?_, hholds', hend ▸ hin', ?_⟩
      · rw [strncpyLoop, hload, ok_bind, if_pos (Ne.symm h0.1), ok_bind, hst, ok_bind, hrun]
      · rw [hw, Ram.store_writes hst, range'_reverse_cons]

theorem catLoop_run (out : Except AccessFault Unit) (n : ℕ) (hs : m.Holds src s) (h0 : 0 ∉ s)
    (hd : m.Mapped d s.length) (hdis : src + s.length ≤ d ∨ d + s.length ≤ src) :
    ∃ m', catLoop out (s.length + n) m d src =
        catLoop out n m' (d + s.length) (src + s.length) ∧
      m'.Holds d s ∧ m.StoredIn m' d (d + s.length) := by
  induction s generalizing m d src with
  | nil =>
    refine ⟨m, ?_, Ram.holds_nil _ _, .refl m _ _⟩
    rw [List.length_nil, Nat.zero_add, Nat.add_zero, Nat.add_zero]
  | cons c s ih =>
    rw [List.mem_cons, not_or] at h0
    rw [List.length_cons] at hd hdis
    obtain ⟨hload, m₁, hst, -, -, hs₁, hd₁, hglue⟩ := copy_step hs hd (by omega)
    obtain ⟨m', hrun, hholds, hin⟩ := ih hs₁ h0.2 hd₁ (by omega)
    obtain ⟨hin', hholds'⟩ := hglue m' _ _ (Nat.le_add_right _ _) hin hholds
    have hend (x : ℕ) : x + 1 + s.length = x + (c :: s).length := by
      rw [List.length_cons]
      omega
    have hcount : (c :: s).length + n = s.length + n + 1 := by
      rw [List.length_cons]
      omega
    refine ⟨m', ?_, hholds', hend d ▸ hin'⟩
    rw [hcount, catLoop, hload, ok_bind, if_neg (Ne.symm h0.1), hst, ok_bind, hrun, hend, hend]

theorem catLoop_ok (out : Except AccessFault Unit) {n : ℕ} (hs : m.IsString src s)
    (hl : s.length ≤ n) (hd : m.Mapped d s.length)
    (hdis : src + s.length < d ∨ d + s.length ≤ src) :
    ∃ m', catLoop out n m d src = .ok (m', d + s.length) ∧ m'.Holds d s ∧
      m.StoredIn m' d (d + s.length) := by
  obtain ⟨n, rfl⟩ := Nat.exists_eq_add_of_le hl
  obtain ⟨m', hrun, hholds, hin⟩ :=
    catLoop_run out n (Ram.holds_append.mp hs.holds).1 hs.no_nul hd (by omega)
  have hnul : m'.load (src + s.length) = .ok 0 := by
    rw [Ram.load_eq_ok, hin.kept _ (by omega), hs.terminator]
  refine ⟨m', ?_, hholds, hin⟩
  rw [hrun]
  cases n <;>
    · rw [catLoop, hnul, ok_bind, if_pos rfl]
      rfl

theorem endLoop_ok (fuel : ℕ) (hs : m.IsString d s) (hf : s.length < fuel) :
    endLoop m fuel d = .ok (d + s.length) := by
  induction s generalizing d fuel with
  | nil =>
    obtain ⟨fuel, rfl⟩ := Nat.exists_eq_add_one_of_ne_zero (Nat.ne_zero_of_lt hf)
    rw [endLoop, Ram.load_eq_ok.mpr hs.nil]
    rfl
  | cons c s ih =>
    obtain ⟨hc, hne, hstl⟩ := hs.cons
    obtain ⟨fuel, rfl⟩ := Nat.exists_eq_add_one_of_ne_zero (Nat.ne_zero_of_lt hf)
    rw [List.length_cons] at hf
    rw [endLoop, Ram.load_eq_ok.mpr hc, ok_bind, if_pos hne, ih fuel hstl (by omega),
      List.length_cons, Nat.add_right_comm, Nat.add_assoc]

end Loops

section Calls

variable {m : Ram} {dst src : ℕ} {s t : List UInt8}

theorem strcpy_ok (hs : m.IsString src s) (hd : m.Mapped dst (s.length + 1))
    (hdis : src + s.length < dst ∨ dst + s.length < src) :
    ∃ m', strcpy m dst src = .ok (dst, m') ∧ Leaves m m' dst dst s ∧
      m'.writes = (List.range' dst (s.length + 1)).reverse ++ m.writes := by
  have := hs.lt_size
  obtain ⟨m', hrun, hl⟩ := strcpyLoop_ok (m.size + 1) hs (by omega) hd hdis
  refine ⟨m', ?_, hl⟩
  rw [strcpy, hrun]
  rfl

theorem stpcpy_ok (hs : m.IsString src s) (hd : m.Mapped dst (s.length + 1))
    (hdis : src + s.length < dst ∨ dst + s.length < src) :
    ∃ m', stpcpy m dst src = .ok (dst + s.length, m') ∧ Leaves m m' dst dst s := by
  have hmapped := hs.holds.mapped
  rw [List.length_append, List.length_singleton] at hmapped
  obtain ⟨m', hcopy, hc⟩ := memcpy_ok hmapped hd (by omega)
  refine ⟨m', ?_, copied_string hs hc, hc.stored⟩
  rw [stpcpy, strlen_ok hs, ok_bind, hcopy]
  rfl

theorem Leaves.append {m' : Ram} (ht : m.IsString dst t)
    (h : Leaves m m' (dst + t.length) (dst + t.length) s) :
    Leaves m m' (dst + t.length) dst (t ++ s) := by
  have hkeep : m'.Holds dst t := h.stored.holds (Ram.holds_append.mp ht.holds).1 (.inl le_rfl)
  refine ⟨⟨?_, ?_⟩, ?_⟩
  · rw [List.append_assoc]
    exact Ram.holds_append.mpr ⟨hkeep, h.string.holds⟩
  · rw [List.mem_append, not_or]
    exact ⟨ht.no_nul, h.string.no_nul⟩
  · rw [List.length_append, ← Nat.add_assoc]
    exact h.stored

theorem cat_ok (out : Except AccessFault Unit) {n : ℕ} (hs : m.IsString src s)
    (hl : s.length ≤ n) (ht : m.IsString dst t) (hd : m.Mapped dst (t.length + s.length + 1))
    (hdis : src + s.length < dst ∨ dst + (t.length + s.length) < src) :
    ∃ m₁ m', catLoop out n m (dst + t.length) src = .ok (m₁, dst + t.length + s.length) ∧
      m₁.store (dst + t.length + s.length) 0 = .ok m' ∧
      Leaves m m' (dst + t.length) dst (t ++ s) := by
  have hd' : m.Mapped (dst + t.length) (s.length + 1) := (hd.drop t.length).mono (by omega)
  obtain ⟨m₁, hrun, hholds, hin⟩ :=
    catLoop_ok out hs hl (hd'.mono (Nat.le_succ _)) (by omega)
  obtain ⟨m', hst, hstr, hin'⟩ := Ram.IsString.of_store hholds hs.no_nul
    (hin.mapped_range hd' _ (Nat.lt_succ_self _))
  refine ⟨m₁, m', hrun, hst, Leaves.append ht ⟨hstr, ?_⟩⟩
  exact (hin.mono le_rfl (Nat.le_succ _)).trans (hin'.mono (Nat.le_add_right _ _) le_rfl)

theorem strcat_ok (hs : m.IsString src s) (ht : m.IsString dst t)
    (hd : m.Mapped dst (t.length + s.length + 1))
    (hdis : src + s.length < dst ∨ dst + (t.length + s.length) < src) :
    ∃ m', strcat m dst src = .ok (dst, m') ∧ Leaves m m' (dst + t.length) dst (t ++ s) := by
  have hsrc := hs.lt_size
  have hdst := ht.lt_size
  obtain ⟨m₁, m', hrun, hst, hl⟩ := cat_ok (.error .runaway) (n := m.size) hs (by omega) ht hd hdis
  refine ⟨m', ?_, hl⟩
  rw [strcat, endLoop_ok _ ht (by omega), ok_bind, hrun, ok_bind]
  dsimp only
  rw [hst]
  rfl

theorem strncat_ok {length : ℕ} (hs : m.IsString src s) (hn : s.length ≤ length)
    (ht : m.IsString dst t) (hd : m.Mapped dst (t.length + s.length + 1))
    (hdis : src + s.length < dst ∨ dst + (t.length + s.length) < src) :
    ∃ m', strncat m dst src length = .ok (dst, m') ∧
      Leaves m m' (dst + t.length) dst (t ++ s) := by
  have hdst := ht.lt_size
  obtain ⟨m₁, m', hrun, hst, hl⟩ := cat_ok (.ok ()) hs hn ht hd hdis
  refine ⟨m', ?_, hl⟩
  rw [strncat, endLoop_ok _ ht (by omega), ok_bind, hrun, ok_bind]
  dsimp only
  rw [hst]
  rfl

theorem stpcpyChain_ok {k : ℕ} (texts : List (ℕ × List UInt8)) (ht : m.IsString dst t)
    (hd : m.Mapped dst k) (hk : (t ++ (texts.map Prod.snd).flatten).length < k)
    (hs : ∀ x ∈ texts, m.IsString x.1 x.2 ∧ Ram.Apart x.1 (x.2.length + 1) dst k) :
    ∃ m', stpcpyChain m (dst + t.length) (texts.map Prod.fst) =
        .ok (dst + (t ++ (texts.map Prod.snd).flatten).length, m') ∧
      Leaves m m' (dst + t.length) dst (t ++ (texts.map Prod.snd).flatten) := by
  induction texts generalizing m t with
  | nil =>
    rw [List.map_nil, List.map_nil, List.flatten_nil, List.append_nil]
    exact ⟨m, rfl, ht, .refl m _ _⟩
  | cons x texts ih =>
    obtain ⟨src, s⟩ := x
    obtain ⟨hsrc, hapart⟩ := hs _ (List.mem_cons_self ..)
    simp only [List.map_cons, List.flatten_cons, ← List.append_assoc] at hk hsrc hapart ⊢
    have hlen : (t ++ s).length = t.length + s.length := List.length_append
    rw [List.length_append, hlen] at hk
    have hcases := hapart.cases (Nat.succ_pos _) (by omega)
    obtain ⟨m₁, hcopy, hl⟩ := stpcpy_ok hsrc ((hd.drop t.length).mono (by omega)) (by omega)
    have hl₁ := Leaves.append ht hl
    have hrest (y : ℕ × List UInt8) (hy : y ∈ texts) :
        m₁.IsString y.1 y.2 ∧ Ram.Apart y.1 (y.2.length + 1) dst k := by
      obtain ⟨hstr, hap⟩ := hs y (List.mem_cons_of_mem _ hy)
      refine ⟨hstr.stored hl₁.stored ?_, hap⟩
      have := hap.cases (Nat.succ_pos _) (by omega)
      omega
    obtain ⟨m', hchain, hl'⟩ := ih hl₁.string (hl₁.stored.mapped_range hd) (by
      rw [List.length_append, hlen]
      exact hk) hrest
    refine ⟨m', ?_, hl'.string, ?_⟩
    · rw [stpcpyChain, hcopy, ok_bind]
      dsimp only
      rw [Nat.add_assoc, ← hlen, hchain]
    · have hle : (t ++ s).length ≤ (t ++ s ++ (texts.map Prod.snd).flatten).length :=
        (List.prefix_append _ _).length_le
      exact (hl₁.stored.mono le_rfl (by omega)).trans (hl'.stored.mono (by omega) le_rfl)

end Calls

section Agreement

structure Filled (m m' : Ram) (dst n : ℕ) (s : List UInt8) : Prop where
  bytes : m'.Holds dst ((s ++ List.replicate n 0).take n)
  writes : m'.writes = (List.range' dst n).reverse ++ m.writes
  stored : m.StoredIn m' dst (dst + n)
  string : s.length < n → m'.IsString dst s

def strncpyOnly (m : Ram) (dst src n : ℕ) (s : List UInt8) : Ram :=
  m.only fun x => Ram.inBlock src (min n (s.length + 1)) x || Ram.inBlock dst n x

structure CopiesAgree (m : Ram) (dst src : ℕ) (s : List UInt8) : Prop where
  copies : m.Mapped dst (s.length + 1) → Ram.Apart src (s.length + 1) dst (s.length + 1) →
    (∃ m', strcpy m dst src = .ok (dst, m') ∧ Leaves m m' dst dst s) ∧
    (∃ m', stpcpy m dst src = .ok (dst + s.length, m') ∧ Leaves m m' dst dst s) ∧
    ∀ size > s.length, ∃ m', strlcpy m dst src size = .ok (s.length, m') ∧
      Leaves m m' dst dst s
  fills : ∀ n, m.Mapped dst n → Ram.Apart src (s.length + 1) dst n →
    (∃ m', strncpy m dst src n = .ok (dst, m') ∧ Filled m m' dst n s) ∧
    ∃ m', strncpy (strncpyOnly m dst src n s) dst src n = .ok (dst, m') ∧
      Filled (strncpyOnly m dst src n s) m' dst n s
  appends : ∀ t, m.IsString dst t → m.Mapped dst (t.length + s.length + 1) →
    Ram.Apart src (s.length + 1) dst (t.length + s.length + 1) →
    (∃ m', strcat m dst src = .ok (dst, m') ∧ Leaves m m' (dst + t.length) dst (t ++ s)) ∧
    (∀ length ≥ s.length, ∃ m', strncat m dst src length = .ok (dst, m') ∧
      Leaves m m' (dst + t.length) dst (t ++ s)) ∧
    (∀ size > t.length + s.length, ∃ m',
      strlcat m dst src size = .ok (t.length + s.length, m') ∧
      Leaves m m' (dst + t.length) dst (t ++ s)) ∧
    ∃ m', stpcpy m (dst + t.length) src = .ok (dst + t.length + s.length, m') ∧
      Leaves m m' (dst + t.length) dst (t ++ s)
  chain : ∀ texts : List (ℕ × List UInt8), texts ≠ [] →
    m.Mapped dst ((texts.map Prod.snd).flatten.length + 1) →
    (∀ x ∈ texts, m.IsString x.1 x.2 ∧
      Ram.Apart x.1 (x.2.length + 1) dst ((texts.map Prod.snd).flatten.length + 1)) →
    ∃ m', stpcpyChain m dst (texts.map Prod.fst) =
        .ok (dst + (texts.map Prod.snd).flatten.length, m') ∧
      Leaves m m' dst dst (texts.map Prod.snd).flatten

variable {m : Ram} {dst src : ℕ} {s : List UInt8}

theorem strncpy_ok {n : ℕ} (hs : m.Holds src ((s ++ [0]).take n)) (h0 : 0 ∉ s)
    (hd : m.Mapped dst n) (hdis : Ram.Apart src (min n (s.length + 1)) dst n) :
    ∃ m', strncpy m dst src n = .ok (dst, m') ∧ Filled m m' dst n s := by
  rcases Nat.eq_zero_or_pos n with rfl | hn
  · exact ⟨m, rfl, Ram.holds_nil _ _, rfl, .refl m _ _, fun h => absurd h (Nat.not_lt_zero _)⟩
  · have hcases := hdis.cases (by omega) hn
    obtain ⟨m', hrun, hholds, hin, hw⟩ := strncpyLoop_ok hs h0 hd (by omega)
    refine ⟨m', ?_, hholds, hw, hin, ?_⟩
    · rw [strncpy, hrun]
      rfl
    · intro hlt
      obtain ⟨k, rfl⟩ : ∃ k, n = s.length + 1 + k := ⟨n - (s.length + 1), by omega⟩
      have hsplit : s ++ List.replicate (s.length + 1 + k) 0 =
          (s ++ [0]) ++ List.replicate (s.length + k) 0 := by
        rw [List.append_assoc, Nat.add_right_comm, List.replicate_succ]
        rfl
      refine ⟨?_, h0⟩
      have hfirst := hholds.take (s.length + 1)
      rw [List.take_take, Nat.min_eq_left (Nat.le_add_right _ _), hsplit,
        List.take_append_of_le_length (by simp), List.take_of_length_le (by simp)] at hfirst
      exact hfirst

theorem strncpy_fills {n : ℕ} (hs : m.IsString src s) (hd : m.Mapped dst n)
    (hapart : Ram.Apart src (s.length + 1) dst n) :
    (∃ m', strncpy m dst src n = .ok (dst, m') ∧ Filled m m' dst n s) ∧
    ∃ m', strncpy (strncpyOnly m dst src n s) dst src n = .ok (dst, m') ∧
      Filled (strncpyOnly m dst src n s) m' dst n s := by
  have hfew : Ram.Apart src (min n (s.length + 1)) dst n := by
    intro x hx
    apply hapart x
    omega
  refine ⟨strncpy_ok (hs.holds.take n) hs.no_nul hd hfew, ?_⟩
  apply strncpy_ok _ hs.no_nul _ hfew
  · apply (hs.holds.take n).only
    intro j hj
    rw [List.length_take, List.length_append, List.length_singleton] at hj
    simp only [Ram.inBlock, Bool.or_eq_true, decide_eq_true_eq]
    omega
  · apply hd.only
    intro j hj
    simp only [Ram.inBlock, Bool.or_eq_true, decide_eq_true_eq]
    omega

theorem stpcpyChain_start {texts : List (ℕ × List UInt8)} (hne : texts ≠ [])
    (hd : m.Mapped dst ((texts.map Prod.snd).flatten.length + 1))
    (hs : ∀ x ∈ texts, m.IsString x.1 x.2 ∧
      Ram.Apart x.1 (x.2.length + 1) dst ((texts.map Prod.snd).flatten.length + 1)) :
    ∃ m', stpcpyChain m dst (texts.map Prod.fst) =
        .ok (dst + (texts.map Prod.snd).flatten.length, m') ∧
      Leaves m m' dst dst (texts.map Prod.snd).flatten := by
  obtain ⟨⟨p, t⟩, texts, rfl⟩ := List.exists_cons_of_ne_nil hne
  obtain ⟨hsrc, hapart⟩ := hs _ List.mem_cons_self
  simp only [List.map_cons, List.flatten_cons] at hd hs hsrc hapart ⊢
  have hlen : (t ++ (texts.map Prod.snd).flatten).length =
      t.length + (texts.map Prod.snd).flatten.length := List.length_append
  have hdis := hapart.cases (Nat.succ_pos _) (Nat.succ_pos _)
  obtain ⟨m₁, hcopy, hl⟩ := stpcpy_ok hsrc (hd.mono (by omega)) (by omega)
  obtain ⟨m', hchain, hl'⟩ := stpcpyChain_ok texts hl.string (hl.stored.mapped_range hd)
    (Nat.lt_succ_self _) (by
      intro y hy
      obtain ⟨hstr, hap⟩ := hs y (List.mem_cons_of_mem _ hy)
      refine ⟨hstr.stored hl.stored ?_, hap⟩
      have := hap.cases (Nat.succ_pos _) (Nat.succ_pos _)
      omega)
  refine ⟨m', ?_, hl'.string, ?_⟩
  · rw [stpcpyChain, hcopy, ok_bind]
    exact hchain
  · exact (hl.stored.mono le_rfl (by omega)).trans (hl'.stored.mono (by omega) le_rfl)

theorem copies_agree (hs : m.IsString src s) : CopiesAgree m dst src s := by
  constructor
  · intro hd hapart
    have hdis := hapart.cases (Nat.succ_pos _) (Nat.succ_pos _)
    obtain ⟨m', hcpy, hl, -⟩ := strcpy_ok hs hd (by omega)
    refine ⟨⟨m', hcpy, hl⟩, stpcpy_ok hs hd (by omega), ?_⟩
    intro size hsize
    have htake : s.take (size - 1) = s := List.take_of_length_le (by omega)
    have hcpy := strlcpy_ok hs (hd.mono (Nat.min_le_right size _)) (by omega) (by omega)
    rwa [htake] at hcpy
  · intro n hd hapart
    exact strncpy_fills hs hd hapart
  · intro t ht hd hapart
    have hdis := hapart.cases (Nat.succ_pos _) (Nat.succ_pos _)
    refine ⟨strcat_ok hs ht hd (by omega), ?_, ?_, ?_⟩
    · intro length hlength
      exact strncat_ok hs hlength ht hd (by omega)
    · intro size hsize
      have htake : (t ++ s).take (size - 1) = t ++ s := by
        apply List.take_of_length_le
        rw [List.length_append]
        omega
      have hcat := strlcat_ok hs (hd.mono (Nat.min_le_right size _)) ht (by omega) (by omega)
      rwa [htake] at hcat
    · obtain ⟨m', hcopy, hl⟩ := stpcpy_ok hs ((hd.drop t.length).mono (by omega)) (by omega)
      exact ⟨m', hcopy, Leaves.append ht hl⟩
  · intro texts hne hd hs
    exact stpcpyChain_start hne hd hs

theorem copies_agree_two : CopiesAgree twoSources 7 4 (bytes "de") :=
  copies_agree (by decide)

end Agreement

end OsdevLibstdc.Cstring
