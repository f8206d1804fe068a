import OsdevLibstdc.BoundedStrings
import OsdevLibstdc.StringOrder

/-!
`strupr` and `strlwr`, which fold the case of a string in place, and `strcasecmp`, which folds it
character by character.
-/

namespace OsdevLibstdc.Cstring

open ByteMemory Cctype FirstDifferences Outcomes Target

/-- The loop of `strupr` and of `strlwr`: it stores every character narrowed back to `char`. -/
def foldLoop (fold : ℤ → ℤ) : ℕ → Ram → ℕ → Except AccessFault Ram
  | 0, _, _ => .error .runaway
  | fuel + 1, m, p => do
    let m ← m.store p (UInt8.ofInt (fold (charValue (← m.load p))))
    if (← m.load p) ≠ 0 then foldLoop fold fuel m (p + 1) else return m

def strupr (m : Ram) (str : ℕ) : Except AccessFault (ℕ × Ram) := do
  let m ← foldLoop (fun c => if islower c then toupper c else c) (m.size + 1) m str
  return (str, m)

def strlwr (m : Ram) (str : ℕ) : Except AccessFault (ℕ × Ram) := do
  let m ← foldLoop (fun c => if isupper c then tolower c else c) (m.size + 1) m str
  return (str, m)

theorem islower_toupper (x : ℤ) : (if islower x then toupper x else x) = toupper x := by
  simp only [islower, toupper, decide_eq_true_eq]
  split_ifs <;> rfl

theorem isupper_tolower (x : ℤ) : (if isupper x then tolower x else x) = tolower x := by
  simp only [isupper, tolower, decide_eq_true_eq]
  split_ifs <;> rfl

def upper (c : UInt8) : UInt8 := UInt8.ofInt (toupper (charValue c))

def lower (c : UInt8) : UInt8 := UInt8.ofInt (tolower (charValue c))

section Characters

theorem charValue_upper (c : UInt8) : charValue (upper c) = toupper (charValue c) := by
  have hb := charValue_bounds c
  apply charValue_ofInt <;>
    · unfold toupper
      split_ifs <;> omega

theorem charValue_lower (c : UInt8) : charValue (lower c) = tolower (charValue c) := by
  have hb := charValue_bounds c
  apply charValue_ofInt <;>
    · unfold tolower
      split_ifs <;> omega

theorem lower_upper (c : UInt8) : lower (upper c) = lower c := by
  apply charValue_injective
  rw [charValue_lower, charValue_upper, charValue_lower]
  unfold tolower toupper
  split_ifs <;> omega

theorem upper_lower (c : UInt8) : upper (lower c) = upper c := by
  apply charValue_injective
  rw [charValue_upper, charValue_lower, charValue_upper]
  unfold tolower toupper
  split_ifs <;> omega

theorem upper_eq_zero {c : UInt8} : upper c = 0 ↔ c = 0 := by
  rw [← charValue_eq_zero, charValue_upper, ← charValue_eq_zero]
  unfold toupper
  split_ifs <;> omega

theorem lower_eq_zero {c : UInt8} : lower c = 0 ↔ c = 0 := by
  rw [← charValue_eq_zero, charValue_lower, tolower_eq_zero, charValue_eq_zero]

def isLetter (c : UInt8) : Bool := islower (charValue c) || isupper (charValue c)

theorem upper_eq_self {c : UInt8} (h : isLetter c = false) : upper c = c := by
  simp only [isLetter, islower, Bool.or_eq_false_iff, decide_eq_false_iff_not] at h
  rw [upper, toupper, if_neg h.1, ofInt_charValue]

theorem lower_eq_self {c : UInt8} (h : isLetter c = false) : lower c = c := by
  simp only [isLetter, isupper, Bool.or_eq_false_iff, decide_eq_false_iff_not] at h
  rw [lower, tolower, if_neg h.2, ofInt_charValue]

end Characters

section Folds

variable {m : Ram} {p : ℕ} {s : List UInt8}

theorem foldLoop_ok (fold : ℤ → ℤ) (g : UInt8 → UInt8)
    (hg : ∀ c, UInt8.ofInt (fold (charValue c)) = g c) (h0 : ∀ c, g c = 0 ↔ c = 0) (fuel : ℕ)
    (hs : m.IsString p s) (hf : s.length < fuel) :
    ∃ m', foldLoop fold fuel m p = .ok m' ∧ Leaves m m' p p (s.map g) := by
  induction s generalizing m p fuel with
  | nil =>
    obtain ⟨fuel, rfl⟩ := Nat.exists_eq_add_one_of_ne_zero (Nat.ne_zero_of_lt hf)
    have hnul : g 0 = 0 := (h0 0).mpr rfl
    obtain ⟨m', hst, hstr, hin⟩ := Ram.IsString.of_store (Ram.holds_nil m p) List.not_mem_nil
      (by rw [List.length_nil, Nat.add_zero, hs.nil]; rfl)
    refine ⟨m', ?_, hstr, hin⟩
    rw [List.length_nil, Nat.add_zero] at hst
    rw [foldLoop, Ram.load_eq_ok.mpr hs.nil, ok_bind, hg, hnul, hst, ok_bind,
      Ram.load_eq_ok.mpr hstr.nil]
    rfl
  | cons c s ih =>
    obtain ⟨hc, hne, hstl⟩ := hs.cons
    obtain ⟨fuel, rfl⟩ := Nat.exists_eq_add_one_of_ne_zero (Nat.ne_zero_of_lt hf)
    rw [List.length_cons] at hf
    obtain ⟨m₁, hst, hbyte, hin⟩ := Ram.store_ok (g c) (Option.isSome_iff_exists.mpr ⟨c, hc⟩)
    obtain ⟨m', hrun, hl⟩ := ih fuel (hstl.stored hin (.inr le_rfl)) (by omega)
    refine ⟨m', ?_, ?_, ?_⟩
    · rw [foldLoop, Ram.load_eq_ok.mpr hc, ok_bind, hg, hst, ok_bind, Ram.load_eq_ok.mpr hbyte,
        ok_bind, if_pos (mt (h0 c).mp hne), hrun]
    · have hhead : m'.byteAt p = some (g c) := by
        rw [hl.stored.kept p (by omega), hbyte]
      refine ⟨Ram.holds_cons.mpr ⟨hhead, hl.string.holds⟩, ?_⟩
      rw [List.map_cons, List.mem_cons, not_or]
      exact ⟨Ne.symm (mt (h0 c).mp hne), hl.string.no_nul⟩
    · have hlen : p + ((c :: s).map g).length + 1 = p + 1 + (s.map g).length + 1 := by
        rw [List.map_cons, List.length_cons]
        omega
      rw [hlen]
      exact (hin.mono le_rfl (by omega)).trans (hl.stored.mono (by omega) le_rfl)

theorem strupr_ok (hs : m.IsString p s) :
    ∃ m', strupr m p = .ok (p, m') ∧ Leaves m m' p p (s.map upper) := by
  have := hs.lt_size
  obtain ⟨m', hrun, hl⟩ := foldLoop_ok (fun c => if islower c then toupper c else c) upper
    (fun c => by rw [islower_toupper, upper]) (fun _ => upper_eq_zero) (m.size + 1) hs (by omega)
  refine ⟨m', ?_, hl⟩
  rw [strupr, hrun]
  rfl

theorem strlwr_ok (hs : m.IsString p s) :
    ∃ m', strlwr m p = .ok (p, m') ∧ Leaves m m' p p (s.map lower) := by
  have := hs.lt_size
  obtain ⟨m', hrun, hl⟩ := foldLoop_ok (fun c => if isupper c then tolower c else c) lower
    (fun c => by rw [isupper_tolower, lower]) (fun _ => lower_eq_zero) (m.size + 1) hs (by omega)
  refine ⟨m', ?_, hl⟩
  rw [strlwr, hrun]
  rfl

end Folds

structure CaseChanged (m m' : Ram) (p : ℕ) (s : List UInt8) : Prop where
  string : ∃ t, m'.IsString p t ∧ t.length = s.length
  letters : ∀ x, m'.byteAt x ≠ m.byteAt x →
    (p ≤ x ∧ x < p + s.length) ∧ ∃ c, m.byteAt x = some c ∧ isLetter c = true

structure FoldsUndone (m : Ram) (p : ℕ) (s : List UInt8) : Prop where
  lower_upper : ∃ m₁ m₂ m₃, strlwr m p = .ok (p, m₁) ∧ strupr m p = .ok (p, m₂) ∧
    strlwr m₂ p = .ok (p, m₃) ∧ m₃.cells = m₁.cells ∧ CaseChanged m m₁ p s
  upper_lower : ∃ m₁ m₂ m₃, strupr m p = .ok (p, m₁) ∧ strlwr m p = .ok (p, m₂) ∧
    strupr m₂ p = .ok (p, m₃) ∧ m₃.cells = m₁.cells ∧ CaseChanged m m₁ p s

structure FoldedComparison (m m' : Ram) (p q p' q' : ℕ) : Prop where
  lower : ∃ m₁ m₂ v, strlwr m' p' = .ok (p', m₁) ∧ strlwr m₁ q' = .ok (q', m₂) ∧
    strcasecmp m p q = .ok v ∧ strcmp m₂ p' q' = .ok v
  upper : ∃ m₁ m₂ a b, strupr m' p' = .ok (p', m₁) ∧ strupr m₁ q' = .ok (q', m₂) ∧
    m₂.IsString p' a ∧ m₂.IsString q' b ∧ (strcasecmp m p q = .ok 0 ↔ a = b)

section Consistency

variable {m m' : Ram} {p q p' q' : ℕ} {a b s : List UInt8}

theorem map_map_eq {g h k : UInt8 → UInt8} (hk : ∀ c, h (g c) = k c) (s : List UInt8) :
    (s.map g).map h = s.map k := by
  rw [List.map_map]
  apply List.map_congr_left
  intro c _
  exact hk c

theorem Leaves.map_again {g h k : UInt8 → UInt8} {m₁ m₂ m₃ : Ram} (hk : ∀ c, h (g c) = k c)
    (h₁ : Leaves m m₁ p p (s.map k)) (h₂ : Leaves m m₂ p p (s.map g))
    (h₃ : Leaves m₂ m₃ p p ((s.map g).map h)) : m₃.cells = m₁.cells := by
  rw [map_map_eq hk] at h₃
  refine Leaves.unique (m := m) ⟨h₃.string, ?_⟩ h₁ le_rfl le_rfl
  have hl : p + (s.map g).length + 1 = p + (s.map k).length + 1 := by
    rw [List.length_map, List.length_map]
  exact (hl ▸ h₂.stored).trans h₃.stored

theorem Leaves.caseChanged {g : UInt8 → UInt8} (hg : ∀ c, isLetter c = false → g c = c)
    (hs : m.IsString p s) (h : Leaves m m' p p (s.map g)) : CaseChanged m m' p s := by
  constructor
  · exact ⟨_, h.string, List.length_map g⟩
  · intro x hx
    by_contra hn
    apply hx
    by_cases hin : p ≤ x ∧ x < p + (s.map g).length + 1
    · obtain ⟨j, rfl⟩ := Nat.exists_eq_add_of_le hin.1
      have hj : j < (s ++ [0]).length := by
        rw [List.length_map] at hin
        rw [List.length_append, List.length_singleton]
        omega
      have hj' : j < (s.map g ++ [0]).length := by
        rwa [List.length_append, List.length_map, ← List.length_append]
      rw [h.string.holds j hj', hs.holds j hj]
      rcases Nat.lt_or_ge j s.length with hlt | hge
      · rw [List.getElem?_append_left (by rwa [List.length_map]), List.getElem?_append_left hlt,
          List.getElem?_map, List.getElem?_eq_getElem hlt, Option.map_some, hg]
        by_contra hletter
        have hbyte := hs.holds j hj
        rw [List.getElem?_append_left hlt, List.getElem?_eq_getElem hlt] at hbyte
        apply hn
        refine ⟨by omega, _, hbyte, ?_⟩
        rwa [Bool.not_eq_false] at hletter
      · rw [List.getElem?_append_right (by rwa [List.length_map]),
          List.getElem?_append_right hge, List.length_map]
    · apply h.stored.kept x
      omega

theorem folds_undone (hs : m.IsString p s) : FoldsUndone m p s := by
  obtain ⟨ml, hlwr, hl⟩ := strlwr_ok hs
  obtain ⟨mu, hupr, hu⟩ := strupr_ok hs
  obtain ⟨mul, hlwr', hul⟩ := strlwr_ok hu.string
  obtain ⟨mlu, hupr', hlu⟩ := strupr_ok hl.string
  constructor
  · exact ⟨ml, mu, mul, hlwr, hupr, hlwr', hl.map_again lower_upper hu hul,
      hl.caseChanged (fun _ => lower_eq_self) hs⟩
  · exact ⟨mu, ml, mlu, hupr, hlwr, hupr', hu.map_again upper_lower hl hlu,
      hu.caseChanged (fun _ => upper_eq_self) hs⟩

theorem keys_lower (s : List UInt8) : keys id (s.map lower) = keys tolower s := by
  rw [keys, keys, List.map_map]
  apply List.map_congr_left
  intro c _
  exact charValue_lower c

theorem keys_tolower_inj : keys tolower a = keys tolower b ↔ a.map upper = b.map upper := by
  rw [← keys_lower, ← keys_lower, keys_id_inj]
  constructor
  · intro h
    rw [← map_map_eq upper_lower a, ← map_map_eq upper_lower b, h]
  · intro h
    rw [← map_map_eq lower_upper a, ← map_map_eq lower_upper b, h]

theorem fold_both {op : Ram → ℕ → Except AccessFault (ℕ × Ram)} {g : UInt8 → UInt8}
    (hop : ∀ {m p s}, m.IsString p s → ∃ m', op m p = .ok (p, m') ∧ Leaves m m' p p (s.map g))
    (ha : m.IsString p a) (hb : m.IsString q b) (hd : p + a.length < q ∨ q + b.length < p) :
    ∃ m₁ m₂, op m p = .ok (p, m₁) ∧ op m₁ q = .ok (q, m₂) ∧
      m₂.IsString p (a.map g) ∧ m₂.IsString q (b.map g) := by
  obtain ⟨m₁, hop₁, h₁⟩ := hop ha
  have hin₁ := h₁.stored
  rw [List.length_map] at hin₁
  obtain ⟨m₂, hop₂, h₂⟩ := hop (hb.stored hin₁ (by omega))
  have hin₂ := h₂.stored
  rw [List.length_map] at hin₂
  refine ⟨m₁, m₂, hop₁, hop₂, h₁.string.stored hin₂ ?_, h₂.string⟩
  rw [List.length_map]
  omega

theorem folded_comparison (ha : m.IsString p a) (hb : m.IsString q b) (ha' : m'.IsString p' a)
    (hb' : m'.IsString q' b) (hd : p' + a.length < q' ∨ q' + b.length < p') :
    FoldedComparison m m' p q p' q' ∧ FoldsUndone m p a := by
  have hlow (x : ℤ) := tolower_eq_zero (x := x)
  have hid (x : ℤ) : id x = 0 ↔ x = 0 := Iff.rfl
  have hcase : strcasecmp m p q = .ok (difference (keys tolower a) (keys tolower b)) :=
    strings_compare hlow ha hb
  refine ⟨⟨?_, ?_⟩, folds_undone ha⟩
  · obtain ⟨m₁, m₂, hlwr₁, hlwr₂, ha₂, hb₂⟩ := fold_both strlwr_ok ha' hb' hd
    refine ⟨m₁, m₂, _, hlwr₁, hlwr₂, hcase, ?_⟩
    rw [← keys_lower, ← keys_lower]
    exact strings_compare hid ha₂ hb₂
  · obtain ⟨m₁, m₂, hupr₁, hupr₂, ha₂, hb₂⟩ := fold_both strupr_ok ha' hb' hd
    refine ⟨m₁, m₂, _, _, hupr₁, hupr₂, ha₂, hb₂, ?_⟩
    rw [hcase, Except.ok.injEq, difference_eq_zero (keys_zero_notMem hlow ha.no_nul)
      (keys_zero_notMem hlow hb.no_nul), keys_tolower_inj]

theorem folded_comparison_mixedCase :
    FoldedComparison mixedCase mixedCase 0 3 0 3 ∧ FoldsUndone mixedCase 0 (bytes "aB") :=
  folded_comparison (b := bytes "ab") (by decide) (by decide) (by decide) (by decide) (by decide)

end Consistency

end OsdevLibstdc.Cstring
