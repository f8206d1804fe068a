import OsdevLibstdc.MemoryCopies
import OsdevLibstdc.StringScans

/-!
`strlcpy` and `strlcat`, which cut what they store to the size of the destination.
-/

namespace OsdevLibstdc.Cstring

open ByteMemory Outcomes Target

def strlcpy (m : Ram) (dst src size : ℕ) : Except AccessFault (ℕ × Ram) := do
  let len ← strlen m src
  if len + 1 < size then
    let (_, m) ← memcpy m dst src (len + 1)
    return (len, m)
  else if size > 0 then
    let (_, m) ← memcpy m dst src (size - 1)
    let m ← m.store (dst + (size - 1)) 0
    return (len, m)
  else return (len, m)

/-- `for (; n > 0 && *d; n--, d++) {}` -/
def seekEnd (m : Ram) : ℕ → ℕ → Except AccessFault ℕ
  | 0, d => .ok d
  | n + 1, d => do
    if (← m.load d) ≠ 0 then seekEnd m n (d + 1) else return d

def appendLoop : ℕ → Ram → ℕ → ℕ → ℕ → Except AccessFault (Ram × ℕ × ℕ)
  | 0, _, _, _, _ => .error .runaway
  | fuel + 1, m, d, s, n => do
    let c ← m.load s
    if c ≠ 0 then
      if n > 1 then
        let m ← m.store d c
        appendLoop fuel m (d + 1) (s + 1) (n - 1)
      else appendLoop fuel m d (s + 1) n
    else return (m, d, s)

def strlcat (m : Ram) (dst src dstsize : ℕ) : Except AccessFault (ℕ × Ram) := do
  let d ← seekEnd m dstsize dst
  let dstLen := d - dst
  let n := dstsize - dstLen
  if n = 0 then return ((← strlen m src) + dstLen, m)
  let (m, d, s) ← appendLoop (m.size + 1) m d src n
  let m ← m.store d 0
  return (dstLen + (s - src), m)

structure Leaves (m m' : Ram) (lo dst : ℕ) (s : List UInt8) : Prop where
  string : m'.IsString dst s
  stored : m.StoredIn m' lo (dst + s.length + 1)

theorem Leaves.unique {m m' m'' : Ram} {lo lo' dst : ℕ} {s : List UInt8}
    (h : Leaves m m' lo dst s) (h' : Leaves m m'' lo' dst s) (hlo : dst ≤ lo) (hlo' : dst ≤ lo') :
    m'.cells = m''.cells := by
  apply Ram.cells_ext
  · rw [h.stored.size, h'.stored.size]
  · intro a
    by_cases ha : dst ≤ a ∧ a < dst + s.length + 1
    · obtain ⟨j, rfl⟩ := Nat.exists_eq_add_of_le ha.1
      have hj : j < (s ++ [0]).length := by
        rw [List.length_append, List.length_singleton]
        omega
      rw [h.string.holds j hj, h'.string.holds j hj]
    · rw [h.stored.kept a (by omega), h'.stored.kept a (by omega)]

section Lemmas

variable {m : Ram} {dst src size : ℕ} {s t : List UInt8}

theorem copied_string {m' : Ram} (hs : m.IsString src s)
    (hc : Copied m m' src dst (s.length + 1)) : m'.IsString dst s := by
  refine ⟨?_, hs.no_nul⟩
  have hl : (s ++ [0]).length = s.length + 1 := by simp
  rw [← hl] at hc
  exact hc.holds hs.holds

theorem strlcpy_zero (hs : m.IsString src s) : strlcpy m dst src 0 = .ok (s.length, m) := by
  rw [strlcpy, strlen_ok hs]
  rfl

theorem strlcpy_ok (hs : m.IsString src s) (hd : m.Mapped dst (min size (s.length + 1)))
    (hsize : 0 < size) (hdis : src + s.length < dst ∨ dst + min size (s.length + 1) ≤ src) :
    ∃ m', strlcpy m dst src size = .ok (s.length, m') ∧
      Leaves m m' dst dst (s.take (size - 1)) := by
  have hmapped := hs.holds.mapped
  rw [List.length_append, List.length_singleton] at hmapped
  rw [strlcpy, strlen_ok hs, ok_bind]
  by_cases hlt : s.length + 1 < size
  · obtain ⟨m', hcopy, hc⟩ := memcpy_ok hmapped (hd.mono (by omega)) (by omega)
    have htake : s.take (size - 1) = s := List.take_of_length_le (by omega)
    refine ⟨m', ?_, ?_, ?_⟩
    · rw [if_pos hlt, hcopy]
      rfl
    · rw [htake]
      exact copied_string hs hc
    · rw [htake]
      exact hc.stored
  · have hl : (s.take (size - 1)).length = size - 1 := by
      rw [List.length_take]
      omega
    rw [← List.take_append_drop (size - 1) s] at hs
    obtain ⟨hsrc, hnul, -⟩ := hs.append
    obtain ⟨m₁, hcopy, hc⟩ := memcpy_ok (n := (s.take (size - 1)).length)
      (hmapped.mono (by omega)) (hd.mono (by omega)) (by omega)
    obtain ⟨m', hst, hstr, hin⟩ := Ram.IsString.of_store (hc.holds hsrc) hnul
      (hc.stored.mapped_range hd _ (by omega))
    refine ⟨m', ?_, hstr, ?_⟩
    · rw [hl] at hcopy hst
      rw [if_neg hlt, if_pos hsize, hcopy, ok_bind]
      dsimp only
      rw [hst]
      rfl
    · exact (hc.stored.mono le_rfl (by omega)).trans (hin.mono (by omega) le_rfl)

theorem seekEnd_string {n : ℕ} (ht : m.IsString dst t) (h : t.length < n) :
    seekEnd m n dst = .ok (dst + t.length) := by
  induction t generalizing n dst with
  | nil =>
    obtain ⟨n, rfl⟩ : ∃ k, n = k + 1 := ⟨n - 1, by omega⟩
    rw [seekEnd, Ram.load_eq_ok.mpr ht.nil]
    rfl
  | cons c t ih =>
    obtain ⟨hc, hne, htl⟩ := ht.cons
    obtain ⟨n, rfl⟩ : ∃ k, n = k + 1 := ⟨n - 1, by omega⟩
    rw [List.length_cons] at h
    rw [seekEnd, Ram.load_eq_ok.mpr hc, ok_bind, if_pos hne, ih htl (by omega), List.length_cons]
    congr 1
    omega

theorem seekEnd_full {n : ℕ} (hd : m.Mapped dst n) (h : ∀ j < n, m.byteAt (dst + j) ≠ some 0) :
    seekEnd m n dst = .ok (dst + n) := by
  induction n generalizing dst with
  | zero => rfl
  | succ n ih =>
    obtain ⟨c, hc⟩ := Option.isSome_iff_exists.mp (hd 0 (by omega))
    have hload : m.load dst = .ok c := Ram.load_eq_ok.mpr hc
    have hne : c ≠ 0 := by
      intro h0
      exact h 0 (by omega) (h0 ▸ hc)
    have hnext (j : ℕ) : dst + 1 + j = dst + (j + 1) := by omega
    rw [seekEnd, hload, ok_bind, if_pos hne, ih (hd.drop 1), hnext]
    intro j hj
    rw [hnext]
    exact h (j + 1) (by omega)

theorem appendLoop_ok {n d : ℕ} (fuel : ℕ) (hs : m.IsString src s) (hf : s.length < fuel)
    (hn : 0 < n) (hd : m.Mapped d (s.take (n - 1)).length)
    (hdis : src + s.length < d ∨ d + (s.take (n - 1)).length ≤ src) :
    ∃ m', appendLoop fuel m d src n =
        .ok (m', d + (s.take (n - 1)).length, src + s.length) ∧
      m'.Holds d (s.take (n - 1)) ∧ m.StoredIn m' d (d + (s.take (n - 1)).length) := by
  induction s generalizing m src fuel n d with
  | nil =>
    obtain ⟨fuel, rfl⟩ := Nat.exists_eq_add_one_of_ne_zero (Nat.ne_zero_of_lt hf)
    refine ⟨m, ?_, ?_, ?_⟩
    · rw [appendLoop, Ram.load_eq_ok.mpr hs.nil]
      simp
      rfl
    · rw [List.take_nil]
      exact Ram.holds_nil _ _
    · exact .refl m _ _
  | cons c s ih =>
    obtain ⟨hc, hne, hstl⟩ := hs.cons
    obtain ⟨fuel, rfl⟩ := Nat.exists_eq_add_one_of_ne_zero (Nat.ne_zero_of_lt hf)
    rw [List.length_cons] at hf
    have hend : src + 1 + s.length = src + (c :: s).length := by
      rw [List.length_cons]
      omega
    by_cases hn1 : n > 1
    · obtain ⟨n, rfl⟩ : ∃ k, n = k + 2 := ⟨n - 2, by omega⟩
      have htake : (c :: s).take (n + 2 - 1) = c :: s.take (n + 1 - 1) := rfl
      rw [htake, List.length_cons] at hd hdis
      rw [List.length_cons] at hdis
      have hcs : m.Holds src (c :: (s ++ [0])) := hs.holds
      obtain ⟨hload, m₁, hst, -, -, hs₁, hd₁, hglue⟩ := copy_step hcs hd (by
        rw [List.length_append, List.length_singleton]
        omega)
      obtain ⟨m', hrun, hholds, hst'⟩ := ih (n := n + 1) fuel ⟨hs₁, hstl.no_nul⟩ (by omega)
        (Nat.succ_pos n) hd₁ (by omega)
      obtain ⟨hin, hholds'⟩ := hglue m' _ _ (Nat.le_add_right _ _) hst' hholds
      have hpos : d + 1 + (s.take (n + 1 - 1)).length =
          d + (c :: s.take (n + 1 - 1)).length := by
        rw [List.length_cons]
        omega
      rw [htake, ← hpos, ← hend]
      refine ⟨m', ?_, hholds', hin⟩
      rw [appendLoop, hload, ok_bind, if_pos hne, if_pos hn1, hst, ok_bind]
      exact hrun
    · obtain rfl : n = 1 := by omega
      rw [List.length_cons] at hdis
      obtain ⟨m', hrun, hholds, hst'⟩ := ih fuel hstl (by omega) hn hd (by
        simp only [Nat.sub_self, List.take_zero, List.length_nil] at hdis ⊢
        omega)
      rw [appendLoop, Ram.load_eq_ok.mpr hc, ok_bind, if_pos hne, if_neg hn1, hrun, hend]
      exact ⟨m', rfl, hholds, hst'⟩

theorem strlcat_full (hs : m.IsString src s) (hd : m.Mapped dst size)
    (h : ∀ j < size, m.byteAt (dst + j) ≠ some 0) :
    strlcat m dst src size = .ok (size + s.length, m) := by
  rw [strlcat, seekEnd_full hd h, ok_bind]
  simp only [Nat.add_sub_cancel_left, Nat.sub_self, ↓reduceIte]
  rw [strlen_ok hs, Nat.add_comm size]
  rfl

theorem strlcat_ok (hs : m.IsString src s)
    (hd : m.Mapped dst (min size (t.length + s.length + 1))) (ht : m.IsString dst t)
    (hlt : t.length < size)
    (hdis : src + s.length < dst ∨ dst + min size (t.length + s.length + 1) ≤ src) :
    ∃ m', strlcat m dst src size = .ok (t.length + s.length, m') ∧
      Leaves m m' (dst + t.length) dst ((t ++ s).take (size - 1)) := by
  have hsize := hs.lt_size
  have hlen : (s.take (size - t.length - 1)).length = min (size - t.length - 1) s.length :=
    List.length_take
  have hroom : m.Mapped (dst + t.length) ((s.take (size - t.length - 1)).length + 1) :=
    (hd.drop t.length).mono (by omega)
  obtain ⟨m₁, hrun, hholds, hst⟩ := appendLoop_ok (m.size + 1) hs (by omega) (by omega)
    (hroom.mono (Nat.le_succ _)) (by omega)
  have htake : (t ++ s).take (size - 1) = t ++ s.take (size - t.length - 1) := by
    rw [List.take_append, List.take_of_length_le (by omega)]
    congr 2
    omega
  have hend : dst + (t ++ s.take (size - t.length - 1)).length =
      dst + t.length + (s.take (size - t.length - 1)).length := by
    rw [List.length_append, Nat.add_assoc]
  have hkeep : m₁.Holds dst t := hst.holds (Ram.holds_append.mp ht.holds).1 (.inl le_rfl)
  have hnul : 0 ∉ t ++ s.take (size - t.length - 1) := by
    rw [List.mem_append, not_or]
    exact ⟨ht.no_nul, fun h0 => hs.no_nul (List.mem_of_mem_take h0)⟩
  obtain ⟨m', hst', hstr, hin⟩ := Ram.IsString.of_store (Ram.holds_append.mpr ⟨hkeep, hholds⟩) hnul
    (by
      rw [hend]
      exact hst.mapped_range hroom _ (by omega))
  rw [hend] at hst' hin
  refine ⟨m', ?_, ?_, ?_⟩
  · rw [strlcat, seekEnd_string ht hlt, ok_bind]
    simp only [Nat.add_sub_cancel_left]
    rw [if_neg (by omega), hrun, ok_bind]
    simp only [Nat.add_sub_cancel_left]
    rw [hst']
    rfl
  · rw [htake]
    exact hstr
  · rw [htake, hend]
    exact (hst.mono le_rfl (by omega)).trans (hin.mono (by omega) le_rfl)

end Lemmas

theorem take_ne_iff {s : List UInt8} {n : ℕ} (hn : 0 < n) : s.take (n - 1) ≠ s ↔ n ≤ s.length := by
  constructor
  · intro h
    by_contra hlt
    exact h (List.take_of_length_le (by omega))
  · intro h he
    have hl := congrArg List.length he
    rw [List.length_take] at hl
    omega

theorem strlcpy_strlcat_truncate {m : Ram} {dst size p q : ℕ} {a b : List UInt8}
    (ha : m.IsString p a) (hb : m.IsString q b) (hd : m.Mapped dst size)
    (hpa : p + a.length < dst ∨ dst + size ≤ p) (hqb : q + b.length < dst ∨ dst + size ≤ q) :
    strlcpy m dst p 0 = .ok (a.length, m) ∧
    (0 < size → ∃ m', strlcpy m dst p size = .ok (a.length, m') ∧
      Leaves m m' dst dst (a.take (size - 1)) ∧
      (size ≤ a.length ↔ a.take (size - 1) ≠ a)) ∧
    (∀ d, m.IsString dst d → d.length < size → ∃ m',
      strlcat m dst q size = .ok (d.length + b.length, m') ∧
      Leaves m m' (dst + d.length) dst ((d ++ b).take (size - 1)) ∧
      (size ≤ d.length + b.length ↔ (d ++ b).take (size - 1) ≠ d ++ b)) ∧
    ((∀ j < size, m.byteAt (dst + j) ≠ some 0) →
      strlcat m dst q size = .ok (size + b.length, m)) ∧
    (0 < size → ∃ m₁ m₂ k, strlcpy m dst p size = .ok (a.length, m₁) ∧
      strlcat m₁ dst q size = .ok (k, m₂) ∧ Leaves m m₂ dst dst ((a ++ b).take (size - 1))) := by
  refine ⟨strlcpy_zero ha, fun h => ?_, fun d hdst hlt => ?_, strlcat_full hb hd, fun h => ?_⟩
  · obtain ⟨m', hcpy, hl⟩ := strlcpy_ok ha (hd.mono (Nat.min_le_left _ _)) h (by omega)
    exact ⟨m', hcpy, hl, (take_ne_iff h).symm⟩
  · obtain ⟨m', hcat, hl⟩ := strlcat_ok hb (hd.mono (Nat.min_le_left _ _)) hdst hlt (by omega)
    rw [take_ne_iff (by omega), List.length_append]
    exact ⟨m', hcat, hl, Iff.rfl⟩
  · obtain ⟨m₁, hcpy, hl₁⟩ := strlcpy_ok ha (hd.mono (Nat.min_le_left _ _)) h (by omega)
    have hlen : (a.take (size - 1)).length ≤ size - 1 := by
      rw [List.length_take]
      exact Nat.min_le_left _ _
    obtain ⟨m₂, hcat, hl₂⟩ := strlcat_ok (hb.stored hl₁.stored (by omega))
      (hl₁.stored.mapped_range (hd.mono (Nat.min_le_left _ _))) hl₁.string (by omega) (by omega)
    have htake : (a.take (size - 1) ++ b).take (size - 1) = (a ++ b).take (size - 1) := by
      rw [List.take_append, List.take_append, List.take_take, Nat.min_self, List.length_take]
      congr 2
      omega
    rw [htake] at hl₂
    refine ⟨m₁, m₂, _, hcpy, hcat, hl₂.string, ?_⟩
    have hle : (a.take (size - 1)).length ≤ ((a ++ b).take (size - 1)).length := by
      rw [List.length_take, List.length_take, List.length_append]
      omega
    exact (hl₁.stored.mono le_rfl (by omega)).trans (hl₂.stored.mono (by omega) le_rfl)

def twoSources : Ram :=
  { cells := (bytes "abc" ++ 0 :: bytes "de" ++ 0 :: List.replicate 5 255).map some }

theorem strlcpy_strlcat_abcd : ∃ m₁ m₂ k, strlcpy twoSources 7 0 5 = .ok (3, m₁) ∧
    strlcat m₁ 7 4 5 = .ok (k, m₂) ∧ Leaves twoSources m₂ 7 7 (bytes "abcd") :=
  (strlcpy_strlcat_truncate (m := twoSources) (a := bytes "abc") (b := bytes "de") (by decide)
    (by decide) (by decide) (by decide) (by decide)).2.2.2.2 (by decide)

end OsdevLibstdc.Cstring
