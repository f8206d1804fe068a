import OsdevLibstdc.StringOrder
import OsdevLibstdc.StringSpans

/-!
`strstr`, which compares the needle with the haystack from each of its positions on.
-/

namespace OsdevLibstdc.Cstring

open ByteMemory Cctype FirstDifferences FueledLoops Outcomes Target TextPositions

structure StrstrState where
  i : ℕ
  haystack : ℕ
deriving Repr, DecidableEq

def strstrBody (D : DataModel) (m : Ram) (needle needleLen : ℕ) (s : StrstrState) :
    Except AccessFault (Next StrstrState (Option ℕ)) := do
  if s.i ≥ needleLen then
    if (← strncmp m s.haystack needle needleLen) = 0 then return .stop (some s.haystack)
    return .again ⟨sizePred D s.i, s.haystack + 1⟩
  else return .stop none

def strstr (D : DataModel) (m : Ram) (haystack needle : ℕ) : Except AccessFault (Option ℕ) := do
  let needleLen ← strlen m needle
  let haystackLen ← strlen m haystack
  if needleLen = 0 ∧ haystackLen = 0 then return some haystack
  run .runaway (strstrBody D m needle needleLen) (m.size + 1) ⟨haystackLen, haystack⟩

section Search

variable {D : DataModel} {m : Ram} {p q k : ℕ} {h n : List UInt8} {s : StrstrState}

theorem IsString.drop (hh : m.IsString p h) (hk : k ≤ h.length) :
    m.IsString (p + k) (h.drop k) := by
  rw [← List.take_append_drop k h] at hh
  have hdrop := hh.append.2.2
  rwa [List.length_take_of_le hk] at hdrop

theorem strncmp_eq_zero_iff (hh : m.IsString p h) (hn : m.IsString q n) :
    ∃ v, strncmp m p q n.length = .ok v ∧ (v = 0 ↔ n <+: h) := by
  have hfold (x : ℤ) : id x = 0 ↔ x = 0 := Iff.rfl
  refine ⟨_, strings_compare_bounded hfold hh hn n.length, ?_⟩
  rw [difference_eq_zero (keys_zero_notMem hfold (zero_notMem_take hh.no_nul _))
    (keys_zero_notMem hfold (zero_notMem_take hn.no_nul _)), keys_id_inj, List.take_length,
    List.prefix_iff_eq_take, eq_comm]

structure Searching (p : ℕ) (h n : List UInt8) (k : ℕ) (s : StrstrState) : Prop where
  index : s.i + k = h.length
  haystack : s.haystack = p + k
  bound : k ≤ h.length + 1 - n.length
  missed : ∀ j < k, ¬ n <+: h.drop j

theorem strstr_round (D : DataModel) (hh : m.IsString p h) (hn : m.IsString q n)
    (hs : Searching p h n k s) :
    (∃ t, strstrBody D m q n.length s = .ok (.again t) ∧ Searching p h n (k + 1) t) ∨
      ∃ r, strstrBody D m q n.length s = .ok (.stop (r.map (p + ·))) ∧
        First {i | n <+: h.drop i} r := by
  obtain ⟨hindex, hhaystack, -, hmissed⟩ := hs
  by_cases hlen : s.i ≥ n.length
  · obtain ⟨v, hv, hzero⟩ := strncmp_eq_zero_iff (IsString.drop hh (k := k) (by omega)) hn
    rw [← hhaystack] at hv
    by_cases hpre : n <+: h.drop k
    · right
      refine ⟨some k, ?_, .found ⟨hpre, ?_⟩⟩
      · rw [strstrBody, if_pos hlen, hv, ok_bind, if_pos (hzero.mpr hpre), hhaystack]
        rfl
      · intro j hj
        by_contra hlt
        exact hmissed j (Nat.not_le.mp hlt) hj
    · left
      -- the empty needle lies everywhere, so that `i` is not 0 here
      have hpos : n.length ≠ 0 := by
        intro h0
        rw [List.length_eq_zero_iff.mp h0] at hpre
        exact hpre List.nil_prefix
      obtain ⟨i, hi⟩ : ∃ i, s.i = i + 1 := ⟨s.i - 1, by omega⟩
      refine ⟨⟨i, p + (k + 1)⟩, ?_, by simp only; omega, rfl, by omega, ?_⟩
      · rw [strstrBody, if_pos hlen, hv, ok_bind, if_neg (mt hzero.mp hpre), hi, sizePred_succ,
          hhaystack]
        rfl
      · intro j hj
        rcases Nat.lt_succ_iff_lt_or_eq.mp hj with hlt | rfl
        · exact hmissed j hlt
        · exact hpre
  · right
    refine ⟨none, ?_, .missing ?_⟩
    · rw [strstrBody, if_neg hlen]
      rfl
    · apply Set.eq_empty_iff_forall_notMem.mpr
      intro j hj
      have hle := List.IsPrefix.length_le hj
      rw [List.length_drop] at hle
      exact hmissed j (by omega) hj

theorem searching_start (p : ℕ) (h n : List UInt8) : Searching p h n 0 ⟨h.length, p⟩ :=
  ⟨rfl, rfl, Nat.zero_le _, fun j hj => absurd hj (Nat.not_lt_zero j)⟩

theorem strstr_ok (D : DataModel) (hh : m.IsString p h) (hn : m.IsString q n) :
    ∃ r, strstr D m p q = .ok (r.map (p + ·)) ∧ First {i | n <+: h.drop i} r := by
  have hsize := hh.lt_size
  rw [strstr, strlen_ok hn, ok_bind, strlen_ok hh, ok_bind]
  split_ifs with hempty
  · rw [List.length_eq_zero_iff.mp hempty.1]
    exact ⟨some 0, rfl, .zero List.nil_prefix⟩
  · have hround (s : StrstrState) (hs : ∃ k, Searching p h n k s) :
        (∃ t, strstrBody D m q n.length s = .ok (.again t) ∧ (∃ k, Searching p h n k t) ∧
          t.i < s.i) ∨
        ∃ b, strstrBody D m q n.length s = .ok (.stop b) ∧
          ∃ r, b = r.map (p + ·) ∧ First {i | n <+: h.drop i} r := by
      obtain ⟨k, hs⟩ := hs
      rcases strstr_round D hh hn hs with ⟨t, hbody, ht⟩ | ⟨r, hbody, hfirst⟩
      · have hsi := hs.index
        have hti := ht.index
        exact .inl ⟨t, hbody, ⟨k + 1, ht⟩, by omega⟩
      · exact .inr ⟨_, hbody, r, rfl, hfirst⟩
    have hfuel : h.length < m.size + 1 := by omega
    obtain ⟨b, hrun, r, rfl, hfirst⟩ :=
      run_ok StrstrState.i hround ⟨0, searching_start p h n⟩ hfuel
    exact ⟨r, hrun, hfirst⟩

theorem searching_after (D : DataModel) (hh : m.IsString p h) (hn : m.IsString q n)
    (hs : After (strstrBody D m q n.length) k ⟨h.length, p⟩ s) : Searching p h n k s := by
  apply hs.invariant (I := Searching p h n) (searching_start p h n)
  intro k t u ht hbody
  rcases strstr_round D hh hn ht with ⟨u', hbody', hu⟩ | ⟨r, hbody', -⟩
  · rw [hbody] at hbody'
    cases hbody'
    exact hu
  · rw [hbody] at hbody'
    cases hbody'

structure FindsFirst (D : DataModel) (m : Ram) (p q : ℕ) (h n : List UInt8) (r : Option ℕ) :
    Prop where
  result : m.ReturnsWithin (ofStrings p h q n) (fun m => strstr D m p q) (r.map (p + ·))
  first : First {i | n <+: h.drop i} r
  empty : n = [] → r = some 0
  rounds : ∀ k s, After (strstrBody D m q n.length) k ⟨h.length, p⟩ s →
    s.i + k = h.length ∧ s.haystack = p + k ∧ k ≤ h.length + 1 - n.length ∧
      (s.i ≥ n.length → k < h.length + 1 - n.length)

theorem strstr_finds_first (D : DataModel) (hh : m.IsString p h) (hn : m.IsString q n) :
    ∃ r, FindsFirst D m p q h n r := by
  obtain ⟨r, hr, hfirst⟩ := strstr_ok D hh hn
  obtain ⟨r', hr', hfirst'⟩ := strstr_ok D (only_left hh q n) (only_right hn p h)
  cases hfirst.unique hfirst'
  refine ⟨r, ⟨hr, hr'⟩, hfirst, ?_, ?_⟩
  · rintro rfl
    exact hfirst.unique (.zero List.nil_prefix)
  · intro k s hs
    obtain ⟨hindex, hhaystack, hbound, -⟩ := searching_after D hh hn hs
    exact ⟨hindex, hhaystack, hbound, by omega⟩

theorem strstr_finds_first_ab : ∃ r,
    FindsFirst .lp64 ⟨[some 97, some 98, some 0, some 98, some 0], []⟩ 0 3 [97, 98] [98] r :=
  strstr_finds_first .lp64 (by decide) (by decide)

end Search

end OsdevLibstdc.Cstring
