import OsdevLibstdc.StringComparison

/-!
What the comparisons say of strings: the order they follow, cut strings, and how far they read.
-/

namespace OsdevLibstdc.Cstring

open ByteMemory Cctype FirstDifferences Outcomes Target

section Values

variable {m : Ram} {fold : ℤ → ℤ} {p q : ℕ} {a b : List UInt8}

theorem strings_compare (hfold : ∀ x, fold x = 0 ↔ x = 0) (ha : m.IsString p a)
    (hb : m.IsString q b) :
    compareLoop m fold (m.size + 1) p q = .ok (difference (keys fold a) (keys fold b)) :=
  compareLoop_size hfold ha.no_nul hb.no_nul (ha.holds.take _) (hb.holds.take _)

theorem strings_compare_bounded (hfold : ∀ x, fold x = 0 ↔ x = 0) (ha : m.IsString p a)
    (hb : m.IsString q b) (n : ℕ) : compareBounded m fold p q n 0 =
      .ok (difference (keys fold (a.take n)) (keys fold (b.take n))) :=
  compareBounded_ok hfold ha.no_nul hb.no_nul (ha.holds.take _) (hb.holds.take _)

def comparedOnly (m : Ram) (p q k : ℕ) : Ram :=
  m.only fun x => Ram.inBlock p k x || Ram.inBlock q k x

theorem comparedOnly_holds {k : ℕ} {r : ℕ} {s : List UInt8} (hr : r = p ∨ r = q)
    (h : m.IsString r s) : (comparedOnly m p q k).Holds r ((s ++ [0]).take k) := by
  apply (h.holds.take k).only
  intro j hj
  rw [List.length_take] at hj
  rcases hr with rfl | rfl
  · simp only [Ram.inBlock, Bool.or_eq_true, decide_eq_true_eq]
    omega
  · simp only [Ram.inBlock, Bool.or_eq_true, decide_eq_true_eq]
    omega

theorem strings_compare_only (hfold : ∀ x, fold x = 0 ↔ x = 0) (ha : m.IsString p a)
    (hb : m.IsString q b) :
    compareLoop (comparedOnly m p q (compared fold a b)) fold
      ((comparedOnly m p q (compared fold a b)).size + 1) p q =
        compareLoop m fold (m.size + 1) p q := by
  rw [strings_compare hfold ha hb]
  exact compareLoop_size hfold ha.no_nul hb.no_nul (comparedOnly_holds (.inl rfl) ha)
    (comparedOnly_holds (.inr rfl) hb)

theorem strings_compare_bounded_only (hfold : ∀ x, fold x = 0 ↔ x = 0) (ha : m.IsString p a)
    (hb : m.IsString q b) (n : ℕ) :
    compareBounded (comparedOnly m p q (min n (compared fold a b))) fold p q n 0 =
      compareBounded m fold p q n 0 := by
  rw [strings_compare_bounded hfold ha hb]
  exact compareBounded_ok hfold ha.no_nul hb.no_nul (comparedOnly_holds (.inl rfl) ha)
    (comparedOnly_holds (.inr rfl) hb)

theorem keys_cut {n : ℕ} (h : min a.length b.length < n) :
    difference (keys fold (a.take n)) (keys fold (b.take n)) =
      difference (keys fold a) (keys fold b) := by
  have hn : min (keys fold a).length (keys fold b).length < n := by
    rwa [keys, keys, List.length_map, List.length_map]
  rw [← difference_take hn]
  simp only [keys, List.map_take]

end Values

section Cuts

structure CutComparisons (m m' : Ram) (p q p' q' n : ℕ) (a b : List UInt8) : Prop where
  strncmp_cut : ∃ v, strncmp m p q n = .ok v ∧ strcmp m' p' q' = .ok v
  strncasecmp_cut : ∃ v, strncasecmp m p q n = .ok v ∧ strcasecmp m' p' q' = .ok v
  unbounded : min a.length b.length < n →
    strncmp m p q n = strcmp m p q ∧ strncasecmp m p q n = strcasecmp m p q
  strcmp_reads : strcmp (comparedOnly m p q (compared id a b)) p q = strcmp m p q
  strcasecmp_reads :
    strcasecmp (comparedOnly m p q (compared tolower a b)) p q = strcasecmp m p q
  strncmp_reads :
    strncmp (comparedOnly m p q (min n (compared id a b))) p q n = strncmp m p q n
  strncasecmp_reads :
    strncasecmp (comparedOnly m p q (min n (compared tolower a b))) p q n = strncasecmp m p q n
  in_strings : ∀ fold, compared fold a b ≤ min a.length b.length + 1

variable {m m' : Ram} {p q p' q' n : ℕ} {a b : List UInt8}

theorem bounded_comparisons_cut (ha : m.IsString p a) (hb : m.IsString q b)
    (ha' : m'.IsString p' (a.take n)) (hb' : m'.IsString q' (b.take n)) :
    CutComparisons m m' p q p' q' n a b := by
  have hid (x : ℤ) : id x = 0 ↔ x = 0 := Iff.rfl
  have hlow (x : ℤ) := tolower_eq_zero (x := x)
  constructor
  · exact ⟨_, strings_compare_bounded hid ha hb n, strings_compare hid ha' hb'⟩
  · exact ⟨_, strings_compare_bounded hlow ha hb n, strings_compare hlow ha' hb'⟩
  · intro h
    constructor
    · rw [strncmp, strcmp, strings_compare_bounded hid ha hb, strings_compare hid ha hb,
        keys_cut h]
    · rw [strncasecmp, strcasecmp, strings_compare_bounded hlow ha hb,
        strings_compare hlow ha hb, keys_cut h]
  · exact strings_compare_only hid ha hb
  · exact strings_compare_only hlow ha hb
  · exact strings_compare_bounded_only hid ha hb n
  · exact strings_compare_bounded_only hlow ha hb n
  · intro fold
    have hl := compared_le_left fold a b
    have hr := compared_le_right fold a b
    omega

def mixedCase : Ram := { cells := (bytes "aB" ++ 0 :: bytes "ab" ++ [0]).map some }

theorem bounded_comparisons_cut_one :
    CutComparisons mixedCase ⟨[some 97, some 0], []⟩ 0 3 0 0 1 (bytes "aB") (bytes "ab") :=
  bounded_comparisons_cut (by decide) (by decide) (by decide) (by decide)

end Cuts

section SignedCharacters

variable {m : Ram} {p q : ℕ} {a b : List UInt8}

def codes (s : List UInt8) : List ℤ := s.map fun c => (c.toNat : ℤ)

def OrderBoth (x y : Except AccessFault ℤ) (a b : List UInt8) : Prop :=
  ∃ u v, x = .ok u ∧ y = .ok v ∧ u.sign = v.sign ∧
    v.sign = (difference (codes a) (codes b)).sign

def SameHalf (a b : List UInt8) : Prop :=
  (firstDifference 0 a b).1 < 128 ↔ (firstDifference 0 a b).2 < 128

theorem sign_eq_iff (x y : UInt8) :
    (charValue x - charValue y).sign = ((x.toNat : ℤ) - y.toNat).sign ↔ (x < 128 ↔ y < 128) := by
  have hx : x < 128 ↔ x.toNat < 128 := Iff.rfl
  have hy : y < 128 ↔ y.toNat < 128 := Iff.rfl
  have := x.toNat_lt
  have := y.toNat_lt
  rcases Int.lt_trichotomy x.toNat y.toNat with h | h | h
  · rw [charValue_eq, charValue_eq, hx, hy, Int.sign_eq_neg_one_of_neg (Int.sub_neg_of_lt h),
      Int.sign_eq_neg_one_iff_neg]
    split_ifs <;> omega
  · obtain rfl : x = y := UInt8.toNat_inj.mp (by omega)
    simp
  · rw [charValue_eq, charValue_eq, hx, hy, Int.sign_eq_one_of_pos (Int.sub_pos_of_lt h),
      Int.sign_eq_one_iff_pos]
    split_ifs <;> omega

theorem difference_codes (a b : List UInt8) : difference (codes a) (codes b) =
    (firstDifference 0 a b).1.toNat - (firstDifference 0 a b).2.toNat := by
  apply difference_map (v := fun c : UInt8 => (c.toNat : ℤ)) (z := 0)
  · intro c d h
    exact UInt8.toNat_inj.mp (Int.ofNat.inj h)
  · rfl

theorem codes_cut {n : ℕ} (h : min a.length b.length < n) :
    difference (codes (a.take n)) (codes (b.take n)) = difference (codes a) (codes b) := by
  have hn : min (codes a).length (codes b).length < n := by
    rwa [codes, codes, List.length_map, List.length_map]
  rw [← difference_take hn]
  simp only [codes, List.map_take]

theorem memcmp_strings (ha : m.IsString p a) (hb : m.IsString q b) {k : ℕ}
    (hk : k ≤ min a.length b.length + 1) :
    memcmp m p q k = .ok (difference (codes (a.take k)) (codes (b.take k))) := by
  rw [memcmp, memcmpLoop_ok (ha.holds.take k) (hb.holds.take k),
    firstDifference_take_append ha.no_nul hb.no_nul, difference_codes]
  · rw [List.length_take, List.length_append, List.length_singleton]
    omega
  · rw [List.length_take, List.length_append, List.length_singleton]
    omega

theorem orderBoth_iff {x y : Except AccessFault ℤ}
    (hx : x = .ok (difference (keys id a) (keys id b)))
    (hy : y = .ok (difference (codes a) (codes b))) : OrderBoth x y a b ↔ SameHalf a b := by
  have hkeys : difference (keys id a) (keys id b) =
      charValue (firstDifference 0 a b).1 - charValue (firstDifference 0 a b).2 :=
    difference_map charValue_injective rfl a b
  rw [SameHalf, ← sign_eq_iff, ← hkeys, ← difference_codes]
  constructor
  · rintro ⟨u, v, hu, hv, hs, -⟩
    obtain rfl := Except.ok.inj (hx.symm.trans hu)
    obtain rfl := Except.ok.inj (hy.symm.trans hv)
    exact hs
  · intro hs
    exact ⟨_, _, hx, hy, hs, rfl⟩

theorem comparisons_order_iff (ha : m.IsString p a) (hb : m.IsString q b) :
    (OrderBoth (strcmp m p q) (memcmp m p q (min a.length b.length + 1)) a b ↔ SameHalf a b) ∧
    ∀ n, OrderBoth (strncmp m p q n) (memcmp m p q (min n (min a.length b.length + 1)))
      (a.take n) (b.take n) ↔ SameHalf (a.take n) (b.take n) := by
  have hid (x : ℤ) : id x = 0 ↔ x = 0 := Iff.rfl
  constructor
  · apply orderBoth_iff
    · exact strings_compare hid ha hb
    · rw [memcmp_strings ha hb le_rfl, codes_cut (Nat.lt_succ_self _)]
  · intro n
    apply orderBoth_iff
    · exact strings_compare_bounded hid ha hb n
    · rw [memcmp_strings ha hb (Nat.min_le_right _ _), Nat.min_comm, ← List.take_take,
        ← List.take_take, codes_cut]
      rw [List.length_take, List.length_take]
      omega

theorem comparisons_order_mixedCase :
    (OrderBoth (strcmp mixedCase 0 3) (memcmp mixedCase 0 3 3) (bytes "aB") (bytes "ab") ↔
      SameHalf (bytes "aB") (bytes "ab")) ∧
    ∀ n, OrderBoth (strncmp mixedCase 0 3 n) (memcmp mixedCase 0 3 (min n 3))
      ((bytes "aB").take n) ((bytes "ab").take n) ↔
        SameHalf ((bytes "aB").take n) ((bytes "ab").take n) :=
  comparisons_order_iff (m := mixedCase) (p := 0) (q := 3) (a := bytes "aB") (b := bytes "ab")
    (by decide) (by decide)

def highByte : Ram := { cells := [some 233, some 0, some 97, some 0] }

theorem strcmp_not_memcmp : highByte.IsString 0 [233] ∧ highByte.IsString 2 [97] ∧
    ¬ OrderBoth (strcmp highByte 0 2) (memcmp highByte 0 2 2) [233] [97] := by
  refine ⟨by decide, by decide, ?_⟩
  rintro ⟨u, v, hu, hv, hs, -⟩
  cases hu
  cases hv
  revert hs
  decide

end SignedCharacters

section Preorders

structure StringIn (m : Ram) where
  addr : ℕ
  text : List UInt8
  isString : m.IsString addr text

structure BlockIn (m : Ram) (n : ℕ) where
  addr : ℕ
  bytes : List UInt8
  holds : m.Holds addr bytes
  length : bytes.length = n

structure TotalPreorder {σ β : Type} (compare : σ → σ → Except AccessFault ℤ) (view : σ → β) :
    Prop where
  swap : ∀ s t, ∃ v, compare s t = .ok v ∧ compare t s = .ok (-v)
  zero : ∀ s t, compare s t = .ok 0 ↔ view s = view t
  trans : ∀ s t r u v, compare s t = .ok u → compare t r = .ok v → u ≤ 0 → v ≤ 0 →
    ∃ w, compare s r = .ok w ∧ w ≤ 0 ∧ (u < 0 ∨ v < 0 → w < 0)

theorem TotalPreorder.of_difference {σ : Type} {compare : σ → σ → Except AccessFault ℤ}
    (view : σ → List ℤ) (h0 : ∀ s, 0 ∉ view s)
    (h : ∀ s t, compare s t = .ok (difference (view s) (view t))) :
    TotalPreorder compare view := by
  constructor
  · intro s t
    refine ⟨_, h s t, ?_⟩
    rw [h t s, difference_swap]
  · intro s t
    rw [h s t, Except.ok.injEq, difference_eq_zero (h0 s) (h0 t)]
  · intro s t r u v hu hv hu0 hv0
    obtain rfl := Except.ok.inj ((h s t).symm.trans hu)
    obtain rfl := Except.ok.inj ((h t r).symm.trans hv)
    obtain ⟨hle, hlt⟩ := difference_trans (h0 s) (h0 t) (h0 r) hu0 hv0
    exact ⟨_, h s r, hle, hlt⟩

theorem TotalPreorder.congr {σ β γ : Type} {compare : σ → σ → Except AccessFault ℤ}
    {view : σ → β} {view' : σ → γ} (h : TotalPreorder compare view)
    (he : ∀ s t, view s = view t ↔ view' s = view' t) : TotalPreorder compare view' :=
  ⟨h.swap, fun s t => (h.zero s t).trans (he s t), h.trans⟩

theorem keys_id_inj {a b : List UInt8} : keys id a = keys id b ↔ a = b :=
  (List.map_injective_iff.mpr charValue_injective).eq_iff

theorem zero_notMem_take {a : List UInt8} (h : 0 ∉ a) (n : ℕ) : 0 ∉ a.take n :=
  fun h0 => h (List.mem_of_mem_take h0)

def blockKeys (bs : List UInt8) : List ℤ := bs.map fun c => (c.toNat : ℤ) + 1

theorem succ_toNat_injective : Function.Injective fun c : UInt8 => (c.toNat : ℤ) + 1 := by
  intro c d h
  apply UInt8.toNat_inj.mp
  simp only at h
  omega

theorem zero_notMem_blockKeys (bs : List UInt8) : 0 ∉ blockKeys bs := by
  intro h
  obtain ⟨c, -, hc⟩ := List.mem_map.mp h
  omega

theorem memcmp_block {m : Ram} {n : ℕ} (s t : BlockIn m n) :
    memcmp m s.addr t.addr n = .ok (difference (blockKeys s.bytes) (blockKeys t.bytes)) := by
  rw [memcmp, memcmpLoop_ok s.holds t.holds s.length t.length, blockKeys, blockKeys,
    difference_map_of_length succ_toNat_injective 0 (s.length.trans t.length.symm)]
  congr 1
  omega

theorem comparisons_preorder (m : Ram) (n : ℕ) :
    TotalPreorder (fun s t : StringIn m => strcmp m s.addr t.addr) StringIn.text ∧
    TotalPreorder (fun s t : StringIn m => strcasecmp m s.addr t.addr)
      (fun s => s.text.map fun c => tolower (charValue c)) ∧
    TotalPreorder (fun s t : StringIn m => strncmp m s.addr t.addr n)
      (fun s => s.text.take n) ∧
    TotalPreorder (fun s t : StringIn m => strncasecmp m s.addr t.addr n)
      (fun s => (s.text.take n).map fun c => tolower (charValue c)) ∧
    TotalPreorder (fun s t : BlockIn m n => memcmp m s.addr t.addr n) BlockIn.bytes := by
  have hid (x : ℤ) : id x = 0 ↔ x = 0 := Iff.rfl
  have hlow (x : ℤ) := tolower_eq_zero (x := x)
  refine ⟨?_, ?_, ?_, ?_, ?_⟩
  · apply (TotalPreorder.of_difference (fun s : StringIn m => keys id s.text) ?_ ?_).congr
    · intro s t
      exact keys_id_inj
    · intro s
      exact keys_zero_notMem hid s.isString.no_nul
    · intro s t
      exact strings_compare hid s.isString t.isString
  · apply TotalPreorder.of_difference _
    · intro s
      exact keys_zero_notMem hlow s.isString.no_nul
    · intro s t
      exact strings_compare hlow s.isString t.isString
  · apply (TotalPreorder.of_difference
      (fun s : StringIn m => keys id (s.text.take n)) ?_ ?_).congr
    · intro s t
      exact keys_id_inj
    · intro s
      exact keys_zero_notMem hid (zero_notMem_take s.isString.no_nul n)
    · intro s t
      exact strings_compare_bounded hid s.isString t.isString n
  · apply TotalPreorder.of_difference _
    · intro s
      exact keys_zero_notMem hlow (zero_notMem_take s.isString.no_nul n)
    · intro s t
      exact strings_compare_bounded hlow s.isString t.isString n
  · apply (TotalPreorder.of_difference (fun s : BlockIn m n => blockKeys s.bytes)
      ?_ ?_).congr
    · intro s t
      exact (List.map_injective_iff.mpr succ_toNat_injective).eq_iff
    · intro s
      exact zero_notMem_blockKeys s.bytes
    · intro s t
      exact memcmp_block s t

end Preorders

end OsdevLibstdc.Cstring
