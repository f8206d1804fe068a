import OsdevLibstdc.StringCopies

/-!
`strncat` with a source that need not be a string, and what it reads of it.
-/

namespace OsdevLibstdc.Cstring

open ByteMemory Outcomes

section Whole

variable {m : Ram} {d dst src : ℕ} {t s : List UInt8}

theorem catLoop_zero : catLoop (.ok ()) 0 m d src = (m.load src).map fun _ => (m, d) := by
  rw [catLoop]
  cases m.load src with
  | error e => rfl
  | ok c => exact ite_self _

theorem strncat_run (hs : m.Holds src s) (h0 : 0 ∉ s) (ht : m.IsString dst t)
    (hd : m.Mapped (dst + t.length) s.length)
    (hdis : src + s.length ≤ dst + t.length ∨ dst + t.length + s.length ≤ src) :
    ∃ m₁ : Ram, m₁.Holds (dst + t.length) s ∧
      m.StoredIn m₁ (dst + t.length) (dst + t.length + s.length) ∧
      strncat m dst src s.length = (m₁.load (src + s.length) >>= fun _ =>
        m₁.store (dst + t.length + s.length) 0 >>= fun m' => .ok (dst, m')) := by
  have hdst := ht.lt_size
  obtain ⟨m₁, hrun, hholds, hin⟩ := catLoop_run (.ok ()) 0 hs h0 hd hdis
  refine ⟨m₁, hholds, hin, ?_⟩
  rw [Nat.add_zero, catLoop_zero] at hrun
  rw [strncat, endLoop_ok _ ht (by omega), ok_bind, hrun]
  cases m₁.load (src + s.length) <;> rfl

theorem strncat_whole_iff (hs : m.Holds src s) (h0 : 0 ∉ s) (ht : m.IsString dst t)
    (hd : m.Mapped dst (t.length + s.length + 1))
    (hdis : src + s.length ≤ dst + t.length ∨ dst + t.length + s.length ≤ src) :
    (∃ m', strncat m dst src s.length = .ok (dst, m') ∧
      Leaves m m' (dst + t.length) dst (t ++ s)) ↔ (m.byteAt (src + s.length)).isSome := by
  have hd' : m.Mapped (dst + t.length) (s.length + 1) := (hd.drop t.length).mono (by omega)
  obtain ⟨m₁, hholds, hin, hrun⟩ := strncat_run hs h0 ht (hd'.mono (Nat.le_succ _)) hdis
  rw [hrun, ← hin.mapped]
  constructor
  · rintro ⟨m', hok, -⟩
    obtain ⟨c, hc, -⟩ := bind_eq_ok.mp hok
    rw [Ram.load_eq_ok.mp hc]
    rfl
  · intro hmapped
    obtain ⟨c, hc⟩ := Option.isSome_iff_exists.mp hmapped
    obtain ⟨m', hst, hstr, hin'⟩ := Ram.IsString.of_store hholds h0
      (hin.mapped_range hd' _ (Nat.lt_succ_self _))
    refine ⟨m', ?_, Leaves.append ht ⟨hstr, ?_⟩⟩
    · rw [Ram.load_eq_ok.mpr hc, ok_bind, hst, ok_bind]
    · exact (hin.mono le_rfl (Nat.le_succ _)).trans (hin'.mono (Nat.le_add_right _ _) le_rfl)

end Whole

def ofAppend (dst src length : ℕ) (t bs : List UInt8) (x : ℕ) : Bool :=
  Ram.inBlock dst (t.length + (upToNul length bs).length + 1) x ||
    Ram.inBlock src (min length bs.length) x

structure BoundedAppend (m : Ram) (dst src length : ℕ) (t bs : List UInt8) : Prop where
  appends : ∃ m', strncat m dst src length = .ok (dst, m') ∧
    Leaves m m' (dst + t.length) dst (t ++ upToNul length bs)
  within : ∃ m', strncat (m.only (ofAppend dst src length t bs)) dst src length = .ok (dst, m') ∧
    Leaves (m.only (ofAppend dst src length t bs)) m' (dst + t.length) dst
      (t ++ upToNul length bs)

section Bounded

variable {m : Ram} {dst src length : ℕ} {t bs : List UInt8}

theorem ofAppend_dst {j : ℕ} (h : j < t.length + (upToNul length bs).length + 1) :
    ofAppend dst src length t bs (dst + j) = true := by
  rw [ofAppend, Ram.inBlock_add h, Bool.true_or]

theorem ofAppend_src {j : ℕ} (h : j < min length bs.length) :
    ofAppend dst src length t bs (src + j) = true := by
  rw [ofAppend, Ram.inBlock_add h, Bool.or_true]

theorem only_ofAppend_isSome (hd : m.Mapped dst (t.length + (upToNul length bs).length + 1)) :
    ((m.only (ofAppend dst src length t bs)).byteAt (src + length)).isSome ↔
      dst ≤ src + length ∧ src + length < dst + (t.length + (upToNul length bs).length + 1) := by
  have hbehind : Ram.inBlock src (min length bs.length) (src + length) = false := by
    apply decide_eq_false
    omega
  constructor
  · intro h
    by_contra hout
    rw [Ram.only_byteAt_eq_none] at h
    · cases h
    · rw [ofAppend, hbehind, Bool.or_false]
      exact decide_eq_false hout
  · rintro ⟨hlo, hhi⟩
    obtain ⟨j, hj⟩ := Nat.exists_eq_add_of_le hlo
    rw [hj, Ram.only_byteAt (ofAppend_dst (by omega))]
    exact hd j (by omega)

theorem only_ofAppend_string (ht : m.IsString dst t) :
    (m.only (ofAppend dst src length t bs)).IsString dst t := by
  apply ht.only
  intro j hj
  apply ofAppend_dst
  omega

theorem only_ofAppend_mapped (hd : m.Mapped dst (t.length + (upToNul length bs).length + 1)) :
    (m.only (ofAppend dst src length t bs)).Mapped dst
      (t.length + (upToNul length bs).length + 1) := by
  apply hd.only
  intro j hj
  exact ofAppend_dst hj

theorem boundedAppend_of_nul (ht : m.IsString dst t) (hs : m.Holds src bs)
    (h0 : 0 ∈ bs.take length)
    (hd : m.Mapped dst (t.length + (upToNul length bs).length + 1))
    (hapart : Ram.Apart src bs.length dst (t.length + (upToNul length bs).length + 1)) :
    BoundedAppend m dst src length t bs := by
  have hidx := idxOf_lt_of_mem_take h0
  have hidx' := List.idxOf_lt_length_of_mem (List.mem_of_mem_take h0)
  have hk := length_upToNul length bs
  have hstr := isString_upToNul hs h0
  have hstr' : (m.only (ofAppend dst src length t bs)).IsString src (upToNul length bs) := by
    apply hstr.only
    intro j hj
    apply ofAppend_src
    omega
  have hcases := hapart.cases (by omega) (Nat.succ_pos _)
  constructor
  · apply strncat_ok hstr _ ht hd <;> omega
  · apply strncat_ok hstr' _ (only_ofAppend_string ht) (only_ofAppend_mapped hd) <;> omega

theorem boundedAppend_whole_iff (ht : m.IsString dst t) (hs : m.Holds src bs)
    (hle : length ≤ bs.length) (h0 : 0 ∉ bs.take length)
    (hd : m.Mapped dst (t.length + (upToNul length bs).length + 1))
    (hapart : Ram.Apart src bs.length dst (t.length + (upToNul length bs).length + 1)) :
    BoundedAppend m dst src length t bs ↔
      ((m.only (ofAppend dst src length t bs)).byteAt (src + length)).isSome := by
  have ht' : (m.only (ofAppend dst src length t bs)).IsString dst t := only_ofAppend_string ht
  have hd' : (m.only (ofAppend dst src length t bs)).Mapped dst
      (t.length + (upToNul length bs).length + 1) := only_ofAppend_mapped hd
  have hwhole := upToNul_of_notMem hle h0
  have hk : (bs.take length).length = length := List.length_take_of_le hle
  have hs' : (m.only (ofAppend dst src length t bs)).Holds src (bs.take length) := by
    apply (hs.take length).only
    intro j hj
    apply ofAppend_src
    omega
  rw [hwhole] at hd hd' hapart
  have hdis : src + length ≤ dst + t.length ∨ dst + t.length + length ≤ src := by
    rw [hk] at hapart
    rcases Nat.eq_zero_or_pos length with rfl | hpos
    · exact Nat.le_total _ _
    · have hcases := hapart.cases (by omega) (Nat.succ_pos _)
      omega
  have hiff := strncat_whole_iff (hs.take length) h0 ht hd (by rwa [hk])
  have hiff' := strncat_whole_iff hs' h0 ht' hd' (by rwa [hk])
  rw [hk, ← hwhole] at hiff hiff'
  constructor
  · intro h
    exact hiff'.mp h.within
  · intro h
    exact ⟨hiff.mpr (Ram.only_isSome h), hiff'.mpr h⟩

theorem strncat_bounded_iff (ht : m.IsString dst t) (hs : m.Holds src bs)
    (hlen : length ≤ bs.length ∨ 0 ∈ bs.take length)
    (hd : m.Mapped dst (t.length + (upToNul length bs).length + 1))
    (hapart : Ram.Apart src bs.length dst (t.length + (upToNul length bs).length + 1)) :
    BoundedAppend m dst src length t bs ↔ 0 ∈ bs.take length ∨
      dst ≤ src + length ∧ src + length < dst + (t.length + (upToNul length bs).length + 1) := by
  by_cases h0 : 0 ∈ bs.take length
  · exact iff_of_true (boundedAppend_of_nul ht hs h0 hd hapart) (.inl h0)
  · have hle : length ≤ bs.length := hlen.resolve_right h0
    rw [boundedAppend_whole_iff ht hs hle h0 hd hapart, only_ofAppend_isSome hd, or_iff_right h0]

theorem strncat_bounded_ab : BoundedAppend
    ⟨[some 99, some 0, some 0, some 0, some 97, some 98, some 0], []⟩ 0 4 3 [99] [97, 98, 0] :=
  (strncat_bounded_iff (by decide) (by decide) (by decide) (by decide)
    (.of_le (by decide))).mpr (.inl (by decide))

theorem strncat_not_bounded : ¬ ∀ (m : Ram) (dst src length : ℕ) (t bs : List UInt8),
    m.IsString dst t → m.Holds src bs → (length ≤ bs.length ∨ 0 ∈ bs.take length) →
    m.Mapped dst (t.length + (upToNul length bs).length + 1) →
    Ram.Apart src bs.length dst (t.length + (upToNul length bs).length + 1) →
      BoundedAppend m dst src length t bs := by
  intro h
  obtain ⟨⟨m', hm', -⟩, -⟩ := h ⟨[some 99, some 0, some 0, some 0, some 97, some 98], []⟩ 0 4 2
    [99] [97, 98] (by decide) (by decide) (by decide) (by decide) (.of_le (by decide))
  have hfault : strncat ⟨[some 99, some 0, some 0, some 0, some 97, some 98], []⟩ 0 4 2 =
      .error .unmapped := by decide
  cases hfault.symm.trans hm'

end Bounded

end OsdevLibstdc.Cstring
