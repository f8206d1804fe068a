import OsdevLibstdc.FueledLoops
import OsdevLibstdc.StringScans
import OsdevLibstdc.TextPositions

/-!
`strpbrk`, beside `strspn` and `strcspn`: how far a string stays inside a set or outside it.
-/

namespace OsdevLibstdc.Cstring

open ByteMemory FueledLoops Outcomes Target TextPositions

def strpbrkBody (m : Ram) (accept s : ℕ) : Except AccessFault (Next ℕ (Option ℕ)) := do
  let c ← m.load s
  if c = 0 then return .stop none
  let s := s + 1
  if (← strchr m accept (charValue c)).isSome then return .stop (some (s - 1))
  return .again s

def strpbrk (m : Ram) (str accept : ℕ) : Except AccessFault (Option ℕ) :=
  run .runaway (strpbrkBody m accept) (m.size + 1) str

def ofStrings (p : ℕ) (s : List UInt8) (q : ℕ) (t : List UInt8) (x : ℕ) : Bool :=
  Ram.inBlock p (s.length + 1) x || Ram.inBlock q (t.length + 1) x

section Spans

variable {m : Ram} {p q : ℕ} {s t : List UInt8}

theorem only_left (h : m.IsString p s) (q : ℕ) (t : List UInt8) :
    (m.only (ofStrings p s q t)).IsString p s := by
  apply h.only
  intro j hj
  rw [ofStrings, Ram.inBlock_add hj, Bool.true_or]

theorem only_right (h : m.IsString q t) (p : ℕ) (s : List UInt8) :
    (m.only (ofStrings p s q t)).IsString q t := by
  apply h.only
  intro j hj
  rw [ofStrings, Ram.inBlock_add hj, Bool.or_true]

theorem strpbrk_loop (fuel : ℕ) (hs : m.IsString p s) (ht : m.IsString q t)
    (hf : s.length < fuel) : run .runaway (strpbrkBody m q) fuel p =
      .ok (if (s.takeWhile fun c => decide (c ∉ t)).length = s.length then none
        else some (p + (s.takeWhile fun c => decide (c ∉ t)).length)) := by
  induction s generalizing p fuel with
  | nil =>
    obtain ⟨fuel, rfl⟩ := Nat.exists_eq_add_one_of_ne_zero (Nat.ne_zero_of_lt hf)
    apply run_stop
    rw [strpbrkBody, Ram.load_eq_ok.mpr hs.nil]
    rfl
  | cons c s ih =>
    obtain ⟨hc, hne, hstl⟩ := hs.cons
    obtain ⟨fuel, rfl⟩ := Nat.exists_eq_add_one_of_ne_zero (Nat.ne_zero_of_lt hf)
    obtain ⟨r, hr, hsome⟩ := strchr_isSome ht hne
    rw [List.length_cons] at hf
    by_cases hmem : c ∈ t
    · have hbody : strpbrkBody m q p = .ok (.stop (some p)) := by
        rw [strpbrkBody, Ram.load_eq_ok.mpr hc, ok_bind, if_neg hne, hr, ok_bind, hsome,
          if_pos (decide_eq_true hmem)]
        rfl
      rw [run_stop hbody, List.takeWhile_cons_of_neg (by simpa using hmem)]
      rfl
    · have hbody : strpbrkBody m q p = .ok (.again (p + 1)) := by
        rw [strpbrkBody, Ram.load_eq_ok.mpr hc, ok_bind, if_neg hne, hr, ok_bind, hsome,
          if_neg (by simpa using hmem)]
        rfl
      rw [run_again hbody, ih fuel hstl (by omega),
        List.takeWhile_cons_of_pos (by simpa using hmem)]
      have haddr (k : ℕ) : p + 1 + k = p + (k + 1) := by omega
      simp only [List.length_cons, Nat.add_right_cancel_iff, haddr]

theorem strpbrk_ok (hs : m.IsString p s) (ht : m.IsString q t) : strpbrk m p q =
      .ok (if (s.takeWhile fun c => decide (c ∉ t)).length = s.length then none
        else some (p + (s.takeWhile fun c => decide (c ∉ t)).length)) := by
  have hsize := hs.lt_size
  apply strpbrk_loop _ hs ht
  omega

theorem takeWhile_length_pos (f : UInt8 → Bool) (c : UInt8) (s : List UInt8) :
    0 < ((c :: s).takeWhile f).length ↔ f c = true := by
  rw [List.takeWhile_cons]
  split_ifs with hc
  · exact iff_of_true (Nat.succ_pos _) hc
  · exact iff_of_false (Nat.lt_irrefl 0) hc

structure SpansAgree (m : Ram) (p q : ℕ) (s t : List UInt8) (k k' : ℕ) (r : Option ℕ) : Prop where
  strspn : m.ReturnsWithin (ofStrings p s q t) (fun m => strspn m p q) k
  strcspn : m.ReturnsWithin (ofStrings p s q t) (fun m => strcspn m p q) k'
  strpbrk : m.ReturnsWithin (ofStrings p s q t) (fun m => strpbrk m p q) r
  inside : IsGreatest {n | n ≤ s.length ∧ ∀ c ∈ s.take n, c ∈ t} k
  outside : IsGreatest {n | n ≤ s.length ∧ ∀ c ∈ s.take n, c ∉ t} k'
  null_iff : r = none ↔ k' = s.length
  found : r ≠ none → r = some (p + k')
  one_positive : s ≠ [] → (0 < k ↔ ¬ 0 < k')

theorem spans_agree (hs : m.IsString p s) (ht : m.IsString q t) :
    ∃ k k' r, SpansAgree m p q s t k k' r := by
  have hs' := only_left hs q t
  have ht' := only_right ht p s
  refine ⟨_, _, _, ⟨strspn_ok hs ht, strspn_ok hs' ht'⟩, ⟨strcspn_ok hs ht, strcspn_ok hs' ht'⟩,
    ⟨strpbrk_ok hs ht, strpbrk_ok hs' ht'⟩, ?_, ?_, ?_, ?_, ?_⟩
  · simpa using isGreatest_takeWhile (fun c => decide (c ∈ t)) s
  · simpa using isGreatest_takeWhile (fun c => decide (c ∉ t)) s
  · simp
  · intro hne
    split_ifs at hne ⊢
    · exact absurd rfl hne
    · rfl
  · intro hne
    obtain ⟨c, s, rfl⟩ := List.exists_cons_of_ne_nil hne
    rw [takeWhile_length_pos, takeWhile_length_pos, decide_eq_true_eq, decide_eq_true_eq, not_not]

theorem spans_agree_ab : ∃ k k' r,
    SpansAgree ⟨[some 97, some 98, some 0, some 97, some 0], []⟩ 0 3 [97, 98] [97] k k' r :=
  spans_agree (by decide) (by decide)

end Spans

end OsdevLibstdc.Cstring
