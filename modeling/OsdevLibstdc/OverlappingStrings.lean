import OsdevLibstdc.OverlappingCopies

/-!
`strcpy`, `stpcpy`, `strcat` and `strncat` of a string that lies across its own destination.
-/

namespace OsdevLibstdc.Cstring

open ByteMemory Outcomes

def NoNul (m : Ram) (s d : ℕ) : Prop := ∀ a, s ≤ a → a < d → ∃ c, m.byteAt a = some c ∧ c ≠ 0

section Runaway

variable {m m' : Ram} {d s n : ℕ}

theorem NoNul.step (h : NoNul m s d) (hlt : s < d) : ∃ c, m.load s = .ok c ∧ c ≠ 0 ∧
    (m.store d c = .error .unmapped ∨ ∃ m₁, m.store d c = .ok m₁ ∧ d < m.size ∧
      m₁.size = m.size ∧ m₁.load s = .ok c ∧ m₁.load d = .ok c ∧ NoNul m₁ (s + 1) (d + 1)) := by
  obtain ⟨c, hc, hne⟩ := h s le_rfl hlt
  refine ⟨c, Ram.load_eq_ok.mpr hc, hne, ?_⟩
  cases hd : m.byteAt d with
  | none =>
    left
    simp only [Ram.store, hd]
  | some b =>
    right
    obtain ⟨m₁, hst, hbyte, hin⟩ := Ram.store_ok c (Option.isSome_iff_exists.mpr ⟨b, hd⟩)
    refine ⟨m₁, hst, Ram.lt_size hd, hin.size, ?_, Ram.load_eq_ok.mpr hbyte, ?_⟩
    · rw [Ram.load_eq_ok, hin.kept s (.inl hlt), hc]
    · intro a ha had
      rcases Nat.lt_succ_iff_lt_or_eq.mp had with had | rfl
      · rw [hin.kept a (.inl had)]
        exact h a (Nat.le_of_succ_le ha) had
      · exact ⟨c, hbyte, hne⟩

theorem strcpyLoop_unmapped {fuel : ℕ} (h : NoNul m s d) (hlt : s < d) (hd : d ≤ m.size)
    (hf : m.size < d + fuel) : strcpyLoop fuel m d s = .error .unmapped := by
  induction fuel generalizing m d s with
  | zero => omega
  | succ fuel ih =>
    obtain ⟨c, hload, hne, hst | ⟨m₁, hst, hdm, hsize, hload₁, hload₂, h₁⟩⟩ := h.step hlt
    · rw [strcpyLoop, hload, ok_bind, hst]
      rfl
    · rw [strcpyLoop, hload, ok_bind, hst, ok_bind, hload₁, ok_bind, if_neg hne, hload₂, ok_bind,
        if_neg hne]
      apply ih h₁ (Nat.succ_lt_succ hlt) <;> omega

theorem catLoop_unmapped {out : Except AccessFault Unit} (h : NoNul m s d) (hlt : s < d)
    (hd : d ≤ m.size) (hn : m.size < d + n) : catLoop out n m d s = .error .unmapped := by
  induction n generalizing m d s with
  | zero => omega
  | succ n ih =>
    obtain ⟨c, hload, hne, hst | ⟨m₁, hst, hdm, hsize, -, -, h₁⟩⟩ := h.step hlt
    · rw [catLoop, hload, ok_bind, if_neg hne, hst]
      rfl
    · rw [catLoop, hload, ok_bind, if_neg hne, hst, ok_bind]
      apply ih h₁ (Nat.succ_lt_succ hlt) <;> omega

theorem catLoop_repeats (h : NoNul m s d) (hlt : s < d) (hcopy : copyForward n m d s = .ok m') :
    catLoop (.ok ()) n m d s = .ok (m', d + n) := by
  induction n generalizing m d s with
  | zero =>
    obtain ⟨c, hload, hne, -⟩ := h.step hlt
    obtain rfl := Except.ok.inj hcopy
    rw [catLoop, hload, ok_bind, if_neg hne]
    rfl
  | succ n ih =>
    obtain ⟨b, hb, hcopy⟩ := bind_eq_ok.mp hcopy
    obtain ⟨m₂, hm₂, hcopy⟩ := bind_eq_ok.mp hcopy
    obtain ⟨c, hload, hne, hst | ⟨m₁, hst, -, -, -, -, h₁⟩⟩ := h.step hlt
    all_goals
      obtain rfl : c = b := Except.ok.inj (hload.symm.trans hb)
      rw [hst] at hm₂
    · cases hm₂
    · obtain rfl := Except.ok.inj hm₂
      rw [catLoop, hload, ok_bind, if_neg hne, hst, ok_bind, ih h₁ (Nat.succ_lt_succ hlt) hcopy,
        Nat.add_right_comm, Nat.add_assoc]

end Runaway

section Forward

variable {m m' : Ram} {d p : ℕ} {s : List UInt8}

theorem IsString.noNul (h : m.IsString p s) : NoNul m p (p + s.length) := by
  intro a ha hlt
  obtain ⟨j, rfl⟩ := Nat.exists_eq_add_of_le ha
  have hj : j < s.length := by omega
  refine ⟨s[j], (Ram.holds_append.mp h.holds).1.byteAt (List.getElem?_eq_getElem hj), ?_⟩
  intro h0
  exact h.no_nul (h0 ▸ List.getElem_mem hj)

theorem copyForward_step {c : UInt8} {n : ℕ} (hc : m.byteAt p = some c)
    (hcopy : copyForward (n + 1) m d p = .ok m') : ∃ m₁, m.store d c = .ok m₁ ∧
      m.StoredIn m₁ d (d + 1) ∧ m₁.load p = .ok c ∧ m₁.load d = .ok c ∧
      copyForward n m₁ (d + 1) (p + 1) = .ok m' := by
  obtain ⟨b, hb, hcopy⟩ := bind_eq_ok.mp hcopy
  obtain ⟨m₁, hst, hcopy⟩ := bind_eq_ok.mp hcopy
  obtain rfl : c = b := Option.some.inj (hc.symm.trans (Ram.load_eq_ok.mp hb))
  have hmapped : (m.byteAt d).isSome := by
    cases hd : m.byteAt d with
    | none =>
      simp only [Ram.store, hd] at hst
      cases hst
    | some => rfl
  obtain ⟨m₂, hst₂, hbyte, hin⟩ := Ram.store_ok c hmapped
  obtain rfl : m₂ = m₁ := Except.ok.inj (hst₂.symm.trans hst)
  refine ⟨m₂, hst, hin, ?_, Ram.load_eq_ok.mpr hbyte, hcopy⟩
  rcases eq_or_ne p d with rfl | hne
  · exact Ram.load_eq_ok.mpr hbyte
  · rw [Ram.load_eq_ok, hin.kept p (by omega), hc]

theorem strcpyLoop_forward (fuel : ℕ) (hs : m.IsString p s) (hf : s.length < fuel)
    (hdis : d ≤ p ∨ p + s.length < d) (hcopy : copyForward (s.length + 1) m d p = .ok m') :
    strcpyLoop fuel m d p = .ok m' := by
  induction s generalizing m d p fuel with
  | nil =>
    obtain ⟨fuel, rfl⟩ := Nat.exists_eq_add_one_of_ne_zero (Nat.ne_zero_of_lt hf)
    obtain ⟨m₁, hst, -, hload, -, hrest⟩ := copyForward_step hs.nil hcopy
    obtain rfl := Except.ok.inj hrest
    rw [strcpyLoop, Ram.load_eq_ok.mpr hs.nil, ok_bind, hst, ok_bind, hload, ok_bind, if_pos rfl]
    rfl
  | cons c s ih =>
    obtain ⟨fuel, rfl⟩ := Nat.exists_eq_add_one_of_ne_zero (Nat.ne_zero_of_lt hf)
    obtain ⟨hc, hne, htail⟩ := hs.cons
    rw [List.length_cons] at hf hdis hcopy
    obtain ⟨m₁, hst, hin, hload, hload', hrest⟩ := copyForward_step hc hcopy
    have htail₁ : m₁.IsString (p + 1) s := htail.stored hin (by omega)
    rw [strcpyLoop, Ram.load_eq_ok.mpr hc, ok_bind, hst, ok_bind, hload, ok_bind, if_neg hne,
      hload', ok_bind, if_neg hne]
    apply ih fuel htail₁ _ _ hrest <;> omega

theorem catLoop_forward (out : Except AccessFault Unit) (n : ℕ) (hs : m.Holds p s) (h0 : 0 ∉ s)
    (hdis : d ≤ p ∨ p + s.length ≤ d) (hcopy : copyForward s.length m d p = .ok m') :
    catLoop out (s.length + n) m d p = catLoop out n m' (d + s.length) (p + s.length) := by
  induction s generalizing m d p with
  | nil =>
    obtain rfl := Except.ok.inj hcopy
    rw [List.length_nil, Nat.zero_add, Nat.add_zero, Nat.add_zero]
  | cons c s ih =>
    obtain ⟨hc, htail⟩ := Ram.holds_cons.mp hs
    rw [List.mem_cons, not_or] at h0
    rw [List.length_cons] at hdis hcopy
    obtain ⟨m₁, hst, hin, -, -, hrest⟩ := copyForward_step hc hcopy
    have htail₁ : m₁.Holds (p + 1) s := hin.holds htail (by omega)
    have hend (x : ℕ) : x + 1 + s.length = x + (s.length + 1) := by omega
    rw [List.length_cons, Nat.add_right_comm, catLoop, Ram.load_eq_ok.mpr hc, ok_bind,
      if_neg (Ne.symm h0.1), hst, ok_bind, ih htail₁ h0.2 (by omega) hrest, hend, hend]

end Forward

section Placement

variable {m : Ram} {dst src : ℕ} {s t : List UInt8}

theorem IsString.placed (hs : m.IsString src s) (ht : m.IsString dst t) :
    dst + t.length = src + s.length ∨ dst + t.length < src ∨ src + s.length < dst := by
  by_contra! h
  obtain ⟨hne, hsrc, hdst⟩ := h
  rcases Nat.lt_or_gt_of_ne hne with hlt | hlt
  · obtain ⟨c, hc, hc0⟩ := IsString.noNul hs _ hsrc hlt
    rw [ht.terminator] at hc
    exact hc0 (Option.some.inj hc).symm
  · obtain ⟨c, hc, hc0⟩ := IsString.noNul ht _ hdst hlt
    rw [hs.terminator] at hc
    exact hc0 (Option.some.inj hc).symm

end Placement

theorem strcpy_overlapping {m : Ram} {dst src : ℕ} {s : List UInt8} (hs : m.IsString src s)
    (hd : m.Mapped dst (s.length + 1)) :
    (∃ m', stpcpy m dst src = .ok (dst + s.length, m') ∧
      Repeated m m' src dst (s.length + 1)) ∧
    (dst ≤ src ∨ src + s.length < dst → ∃ m₁ m₂ m₃, strcpy m dst src = .ok (dst, m₁) ∧
      stpcpy m dst src = .ok (dst + s.length, m₂) ∧
      memmove m dst src (s.length + 1) = .ok (dst, m₃) ∧ Leaves m m₁ dst dst s ∧
      m₁.cells = m₃.cells ∧ m₂.cells = m₃.cells) ∧
    (src < dst → dst ≤ src + s.length → strcpy m dst src = .error .unmapped) := by
  have hmapped := hs.holds.mapped
  rw [List.length_append, List.length_singleton] at hmapped
  have hsize := hs.lt_size
  obtain ⟨m₂, hcpy, hrep⟩ := memcpy_repeats hmapped hd
  have hstp : stpcpy m dst src = .ok (dst + s.length, m₂) := by
    rw [stpcpy, strlen_ok hs, ok_bind, hcpy]
    rfl
  refine ⟨⟨m₂, hstp, hrep⟩, ?_, ?_⟩
  · intro hdis
    obtain ⟨m₁, hrun, hcopied⟩ := copyForward_ok hmapped hd (by omega)
    obtain ⟨m₃, hmove, hmoved⟩ := memmove_ok hmapped hd
    refine ⟨m₁, m₂, m₃, ?_, hstp, hmove, ⟨copied_string hs hcopied, hcopied.stored⟩, ?_, ?_⟩
    · rw [strcpy, strcpyLoop_forward _ hs (by omega) hdis hrun]
      rfl
    · exact hcopied.unique hmoved
    · refine Copied.unique ⟨?_, hrep.stored⟩ hmoved
      intro j hj
      rw [hrep.bytes j hj]
      split_ifs with hlt
      · rw [Nat.mod_eq_of_lt (by omega)]
      · rfl
  · intro hlt hle
    have hnul : NoNul m src dst := fun a ha had => IsString.noNul hs a ha (by omega)
    rw [strcpy, strcpyLoop_unmapped hnul hlt (by omega) (by omega)]
    rfl

theorem strcpy_overlapping_abc :
    (∃ m', stpcpy ⟨[some 97, some 98, some 0, some 9], []⟩ 1 0 = .ok (1 + 2, m') ∧
      Repeated ⟨[some 97, some 98, some 0, some 9], []⟩ m' 0 1 (2 + 1)) ∧
    strcpy ⟨[some 97, some 98, some 0, some 9], []⟩ 1 0 = .error .unmapped := by
  obtain ⟨hstp, -, hrun⟩ := @strcpy_overlapping ⟨[some 97, some 98, some 0, some 9], []⟩ 1 0
    [97, 98] (by decide) (by decide)
  exact ⟨hstp, hrun (by decide) (by decide)⟩

section Appends

variable {m : Ram} {dst src n : ℕ} {s t : List UInt8}

theorem getElem?_flatten_replicate {α : Type} {l : List α} {n j : ℕ} (h : j < n * l.length) :
    (List.replicate n l).flatten[j]? = l[j % l.length]? := by
  induction n generalizing j with
  | zero => omega
  | succ n ih =>
    rw [List.replicate_succ, List.flatten_cons]
    rcases Nat.lt_or_ge j l.length with hlt | hge
    · rw [List.getElem?_append_left hlt, Nat.mod_eq_of_lt hlt]
    · rw [Nat.succ_mul] at h
      rw [List.getElem?_append_right hge, ih (by omega), Nat.mod_eq_sub_mod hge]

/-- What `strncat` appends to `t`: where the two strings end at one NUL it has written that NUL
over, and begins the string again and again. -/
def appended (dst src n : ℕ) (t s : List UInt8) : List UInt8 :=
  if dst + t.length = src + s.length then (List.replicate n s).flatten.take n else s.take n

theorem appended_nonzero (h0 : 0 ∉ s) : 0 ∉ appended dst src n t s := by
  unfold appended
  split_ifs
  · intro h
    obtain ⟨l, hl, hmem⟩ := List.mem_flatten.mp (List.mem_of_mem_take h)
    rw [List.eq_of_mem_replicate hl] at hmem
    exact h0 hmem
  · exact fun h => h0 (List.mem_of_mem_take h)

theorem appended_apart (h : dst + t.length ≠ src + s.length) :
    appended dst src n t s = s.take n := if_neg h

theorem cat_terminated {u : List UInt8} {m₁ : Ram} (ht : m.IsString dst t) (h0 : 0 ∉ u)
    (hd : m.Mapped dst (t.length + u.length + 1)) (hu : m₁.Holds (dst + t.length) u)
    (hin : m.StoredIn m₁ (dst + t.length) (dst + t.length + u.length)) :
    ∃ m', m₁.store (dst + t.length + u.length) 0 = .ok m' ∧
      Leaves m m' (dst + t.length) dst (t ++ u) := by
  have hnul := hin.mapped_range hd (t.length + u.length) (Nat.lt_succ_self _)
  rw [← Nat.add_assoc] at hnul
  obtain ⟨m', hst, hstr, hin'⟩ := Ram.IsString.of_store hu h0 hnul
  refine ⟨m', hst, Leaves.append ht ⟨hstr, ?_⟩⟩
  exact (hin.mono le_rfl (Nat.le_succ _)).trans (hin'.mono (Nat.le_add_right _ _) le_rfl)

theorem catLoop_nul (out : Except AccessFault Unit) {p : ℕ} (h : m.load p = .ok 0) (d : ℕ) :
    catLoop out n m d p = .ok (m, d) := by
  cases n <;>
    · rw [catLoop, h, ok_bind, if_pos rfl]
      rfl

theorem catLoop_counted {p : ℕ} (h : (m.byteAt p).isSome) (d : ℕ) :
    catLoop (.ok ()) 0 m d p = .ok (m, d) := by
  obtain ⟨c, hc⟩ := Option.isSome_iff_exists.mp h
  rw [catLoop, Ram.load_eq_ok.mpr hc, ok_bind]
  split_ifs <;> rfl

theorem catLoop_apart (out : Except AccessFault Unit) (hs : m.IsString src s)
    (hd : m.Mapped dst s.length) (hn : s.length ≤ n) (hdis : dst ≤ src ∨ src + s.length < dst) :
    ∃ m₁, catLoop out n m dst src = .ok (m₁, dst + s.length) ∧ m₁.Holds dst s ∧
      m.StoredIn m₁ dst (dst + s.length) := by
  have hholds := (Ram.holds_append.mp hs.holds).1
  obtain ⟨m₁, hrun, hcopied⟩ := copyForward_ok hholds.mapped hd (by omega)
  obtain ⟨k, rfl⟩ := Nat.exists_eq_add_of_le hn
  have hnul : m₁.load (src + s.length) = .ok 0 := by
    rw [Ram.load_eq_ok, hcopied.stored.kept _ (by omega), hs.terminator]
  refine ⟨m₁, ?_, hcopied.holds hholds, hcopied.stored⟩
  rw [catLoop_forward out k hholds hs.no_nul (by omega) hrun, catLoop_nul out hnul]

theorem catLoop_cut (hs : m.IsString src s) (hd : m.Mapped dst (s.take n).length)
    (hdis : dst ≤ src ∨ src + s.length < dst) :
    ∃ m₁, catLoop (.ok ()) n m dst src = .ok (m₁, dst + (s.take n).length) ∧
      m₁.Holds dst (s.take n) ∧ m.StoredIn m₁ dst (dst + (s.take n).length) := by
  rcases Nat.lt_or_ge n s.length with hlt | hge
  · have hlen : (s.take n).length = n := List.length_take_of_le (Nat.le_of_lt hlt)
    have hholds := (Ram.holds_append.mp hs.holds).1.take n
    have h0 : 0 ∉ s.take n := fun h => hs.no_nul (List.mem_of_mem_take h)
    obtain ⟨m₁, hrun, hcopied⟩ := copyForward_ok hholds.mapped hd (by omega)
    have hnext : (m₁.byteAt (src + (s.take n).length)).isSome := by
      obtain ⟨c, hc, -⟩ := IsString.noNul hs (src + n) (Nat.le_add_right _ _) (by omega)
      rw [hcopied.stored.mapped, hlen, hc]
      rfl
    refine ⟨m₁, ?_, hcopied.holds hholds, hcopied.stored⟩
    have hloop := catLoop_forward (.ok ()) 0 hholds h0 (by omega) hrun
    rw [Nat.add_zero, catLoop_counted hnext, hlen] at hloop
    rw [hloop, hlen]
  · rw [List.take_of_length_le hge] at hd ⊢
    exact catLoop_apart (.ok ()) hs hd hge hdis

theorem catLoop_again (hs : m.IsString src s) (hne : s ≠ []) (hd : m.Mapped (src + s.length) n) :
    ∃ m₁, catLoop (.ok ()) n m (src + s.length) src = .ok (m₁, src + s.length + n) ∧
      m₁.Holds (src + s.length) ((List.replicate n s).flatten.take n) ∧
      m.StoredIn m₁ (src + s.length) (src + s.length + n) := by
  have hlt : src < src + s.length := Nat.lt_add_of_pos_right (List.length_pos_iff.mpr hne)
  have hmapped : m.Mapped src n := by
    intro j hj
    rcases Nat.lt_or_ge j s.length with hj' | hge
    · obtain ⟨c, hc, -⟩ := IsString.noNul hs (src + j) (Nat.le_add_right _ _) (by omega)
      rw [hc]
      rfl
    · obtain ⟨k, rfl⟩ := Nat.exists_eq_add_of_le hge
      rw [← Nat.add_assoc]
      exact hd k (by omega)
  obtain ⟨m₁, hrun, hup, hbytes⟩ := copyForward_repeats hmapped hd hlt
  refine ⟨m₁, catLoop_repeats (IsString.noNul hs) hlt hrun, ?_, hup.stored⟩
  intro j hj
  rw [List.length_take] at hj
  have hjn : j < n := by omega
  have hmod : j % s.length < s.length := Nat.mod_lt j (List.length_pos_iff.mpr hne)
  have hlong : j < n * s.length :=
    Nat.lt_of_lt_of_le hjn (Nat.le_mul_of_pos_right n (List.length_pos_iff.mpr hne))
  rw [hbytes j hjn, Nat.add_sub_cancel_left, (Ram.holds_append.mp hs.holds).1 _ hmod,
    List.getElem?_take_of_lt hjn, getElem?_flatten_replicate hlong]

end Appends

theorem strcat_overlapping {m : Ram} {dst src : ℕ} {s t : List UInt8} (hs : m.IsString src s)
    (ht : m.IsString dst t) (hd : m.Mapped dst (t.length + s.length + 1)) :
    (s = [] ∨ dst + t.length ≠ src + s.length → ∃ m', strcat m dst src = .ok (dst, m') ∧
      Leaves m m' (dst + t.length) dst (t ++ s)) ∧
    (s ≠ [] → dst + t.length = src + s.length → strcat m dst src = .error .unmapped) := by
  have hsize := ht.lt_size
  have hend := endLoop_ok (m.size + 1) ht (by omega)
  constructor
  · intro hcase
    have hdis : dst + t.length ≤ src ∨ src + s.length < dst + t.length := by
      rcases IsString.placed hs ht with he | h | h
      · rcases hcase with rfl | hne
        · exact .inl (Nat.le_of_eq he)
        · exact absurd he hne
      · exact .inl (Nat.le_of_lt h)
      · exact .inr (Nat.lt_add_right t.length h)
    have hssize := hs.lt_size
    obtain ⟨m₁, hrun, hholds, hin⟩ := catLoop_apart (n := m.size) (.error .runaway) hs
      ((hd.drop t.length).mono (by omega)) (by omega) hdis
    obtain ⟨m', hst, hl⟩ := cat_terminated ht hs.no_nul hd hholds hin
    refine ⟨m', ?_, hl⟩
    rw [strcat, hend, ok_bind, hrun, ok_bind]
    dsimp only
    rw [hst]
    rfl
  · intro hne he
    have hlt : src < dst + t.length := by
      rw [he]
      exact Nat.lt_add_of_pos_right (List.length_pos_iff.mpr hne)
    have hnul : NoNul m src (dst + t.length) := he ▸ IsString.noNul hs
    rw [strcat, hend, ok_bind, catLoop_unmapped hnul hlt (by omega) (by omega)]
    rfl

theorem strcat_overlapping_self :
    strcat ⟨[some 97, some 98, some 0, some 1, some 2], []⟩ 0 0 = .error .unmapped :=
  (strcat_overlapping (s := [97, 98]) (t := [97, 98]) (by decide) (by decide) (by decide)).2
    (by decide) rfl

theorem strncat_overlapping {m : Ram} {dst src n : ℕ} {s t : List UInt8} (hs : m.IsString src s)
    (ht : m.IsString dst t)
    (hd : m.Mapped dst (t.length + (appended dst src n t s).length + 1)) :
    ∃ m', strncat m dst src n = .ok (dst, m') ∧
      Leaves m m' (dst + t.length) dst (t ++ appended dst src n t s) := by
  have hsize := ht.lt_size
  have hend := endLoop_ok (m.size + 1) ht (by omega)
  have h0 : 0 ∉ appended dst src n t s := appended_nonzero hs.no_nul
  suffices hloop : ∃ m₁, catLoop (.ok ()) n m (dst + t.length) src =
      .ok (m₁, dst + t.length + (appended dst src n t s).length) ∧
      m₁.Holds (dst + t.length) (appended dst src n t s) ∧
      m.StoredIn m₁ (dst + t.length) (dst + t.length + (appended dst src n t s).length) by
    obtain ⟨m₁, hrun, hholds, hin⟩ := hloop
    obtain ⟨m', hst, hl⟩ := cat_terminated ht h0 hd hholds hin
    refine ⟨m', ?_, hl⟩
    rw [strncat, hend, ok_bind, hrun, ok_bind]
    dsimp only
    rw [hst]
    rfl
  have hd' := (hd.drop t.length).mono (k := (appended dst src n t s).length) (by omega)
  rcases IsString.placed hs ht with he | hplaced
  · have htext : appended dst src n t s = (List.replicate n s).flatten.take n := if_pos he
    rcases eq_or_ne s [] with rfl | hne
    · have hnil : appended dst src n t [] = [] := by
        rw [htext, List.flatten_replicate_nil, List.take_nil]
      have hload : m.load src = .ok 0 := Ram.load_eq_ok.mpr hs.nil
      rw [hnil]
      exact ⟨m, catLoop_nul _ hload _, Ram.holds_nil _ _, .refl m _ _⟩
    · have hlong : n ≤ n * s.length := Nat.le_mul_of_pos_right n (List.length_pos_iff.mpr hne)
      have hlen : (appended dst src n t s).length = n := by
        rw [htext, List.length_take_of_le]
        rwa [List.length_flatten, List.map_replicate, List.sum_replicate]
      rw [hlen, htext, he]
      rw [hlen, he] at hd'
      exact catLoop_again hs hne hd'
  · have hcut : appended dst src n t s = s.take n := appended_apart (by omega)
    rw [hcut] at hd' ⊢
    exact catLoop_cut hs hd' (by omega)

theorem strncat_overlapping_abc : ∃ m', strncat ⟨[some 97, some 98, some 99, some 0, some 1,
      some 2, some 3, some 4, some 5, some 6, some 7], []⟩ 0 0 7 = .ok (0, m') ∧
    Leaves ⟨[some 97, some 98, some 99, some 0, some 1, some 2, some 3, some 4, some 5, some 6,
      some 7], []⟩ m' 3 0 [97, 98, 99, 97, 98, 99, 97, 98, 99, 97] :=
  strncat_overlapping (s := [97, 98, 99]) (t := [97, 98, 99]) (by decide) (by decide) (by decide)

end OsdevLibstdc.Cstring
