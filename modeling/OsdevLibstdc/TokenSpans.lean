import Mathlib.Data.List.TakeWhile

/-!
Lists cut into tokens, one search after another. The separators may change from one search to
the next.
-/

namespace OsdevLibstdc.TokenSpans

variable {α : Type}

def token (p : α → Bool) (part : List α) : List α := (part.dropWhile p).takeWhile (fun b => !p b)

def left (p : α → Bool) (part : List α) : List α :=
  ((part.dropWhile p).dropWhile (fun b => !p b)).tail

def tokens : List α → List (α → Bool) → List (Option (List α))
  | _, [] => []
  | part, p :: ps =>
    if ∀ b ∈ part, p b then [none] else some (token p part) :: tokens (left p part) ps

noncomputable def pieces (p : α → Bool) (s : List α) : List (List α) :=
  (s.splitOnP p).filter (fun piece => !piece.isEmpty)

structure Splits (p : α → Bool) (part pre tok rest : List α) : Prop where
  eq : part = pre ++ (tok ++ rest)
  skipped : ∀ b ∈ pre, p b
  inside : ∀ b ∈ tok, p b = false
  ne : tok ≠ []
  ended : ∀ c ∈ rest.head?, p c

theorem head_dropWhile (p : α → Bool) (s : List α) : ∀ c ∈ (s.dropWhile p).head?, p c = false := by
  intro c hc
  induction s with
  | nil => simp at hc
  | cons b s ih =>
    rw [List.dropWhile_cons] at hc
    split_ifs at hc with hb
    · exact ih hc
    · rw [List.head?_cons, Option.mem_some_iff] at hc
      rw [← hc]
      simpa using hb

theorem exists_splits {p : α → Bool} {part : List α} (h : ¬ ∀ b ∈ part, p b) :
    ∃ pre tok rest, Splits p part pre tok rest := by
  refine ⟨part.takeWhile p, token p part, (part.dropWhile p).dropWhile (fun b => !p b), ?_⟩
  constructor
  · rw [token, List.takeWhile_append_dropWhile, List.takeWhile_append_dropWhile]
  · intro b hb
    exact List.mem_takeWhile_imp hb
  · intro b hb
    simpa using List.mem_takeWhile_imp hb
  · intro ht
    apply h
    rw [← List.dropWhile_eq_nil_iff]
    rw [token] at ht
    cases hd : part.dropWhile p with
    | nil => rfl
    | cons c s =>
      have hc : p c = false := head_dropWhile p part c (by rw [hd]; rfl)
      rw [hd, List.takeWhile_cons, if_pos (by simp [hc])] at ht
      cases ht
  · intro c hc
    simpa using head_dropWhile (fun b => !p b) (part.dropWhile p) c hc

namespace Splits

variable {p : α → Bool} {part pre tok rest : List α}

theorem not_all (h : Splits p part pre tok rest) : ¬ ∀ b ∈ part, p b := by
  intro hall
  obtain ⟨t, ht⟩ := List.exists_mem_of_ne_nil tok h.ne
  have := hall t (by rw [h.eq]; simp [ht])
  rw [h.inside t ht] at this
  cases this

theorem takeWhile_tok (h : Splits p part pre tok rest) (ts : List α) (hts : ∀ b ∈ ts, b ∈ tok) :
    (ts ++ rest).takeWhile (fun b => !p b) = ts := by
  rw [List.takeWhile_append_of_pos (fun b hb => by simp [h.inside b (hts b hb)])]
  cases hr : rest with
  | nil => simp
  | cons c s =>
    have hc : p c = true := h.ended c (by rw [hr]; rfl)
    simp [hc]

theorem dropWhile_pre (h : Splits p part pre tok rest) : part.dropWhile p = tok ++ rest := by
  rw [h.eq, List.dropWhile_append_of_pos h.skipped]
  cases ht : tok with
  | nil => exact absurd ht h.ne
  | cons t ts => rw [List.cons_append, List.dropWhile_cons, if_neg (by simp [h.inside t (by simp [ht])])]

theorem takeWhile_pre (h : Splits p part pre tok rest) : part.takeWhile p = pre := by
  rw [h.eq, List.takeWhile_append_of_pos h.skipped]
  cases ht : tok with
  | nil => exact absurd ht h.ne
  | cons t ts =>
    rw [List.cons_append, List.takeWhile_cons, if_neg (by simp [h.inside t (by simp [ht])]),
      List.append_nil]

theorem token_eq (h : Splits p part pre tok rest) : token p part = tok := by
  rw [token, h.dropWhile_pre]
  exact h.takeWhile_tok tok fun _ hb => hb

theorem left_eq (h : Splits p part pre tok rest) : left p part = rest.tail := by
  have happ := List.takeWhile_append_dropWhile (p := fun b => !p b) (l := tok ++ rest)
  rw [h.takeWhile_tok tok fun _ hb => hb] at happ
  rw [left, h.dropWhile_pre, List.append_cancel_left happ]

theorem tokens_eq (h : Splits p part pre tok rest) (ps : List (α → Bool)) :
    tokens part (p :: ps) = some tok :: tokens rest.tail ps := by
  rw [tokens, if_neg h.not_all, h.token_eq, h.left_eq]

end Splits

theorem pieces_append {p : α → Bool} {pre : List α} (hp : ∀ b ∈ pre, p b) (s : List α) :
    pieces p (pre ++ s) = pieces p s := by
  induction pre with
  | nil => rfl
  | cons b pre ih =>
    have hb : p b = true := hp b (by simp)
    have hs : pieces p (b :: (pre ++ s)) = pieces p (pre ++ s) := by
      rw [pieces, List.splitOnP_cons_eq_if_modifyHead, if_pos hb]
      rfl
    rw [List.cons_append, hs, ih fun c hc => hp c (List.mem_cons_of_mem b hc)]

theorem pieces_nil {p : α → Bool} {part : List α} (h : ∀ b ∈ part, p b) : pieces p part = [] := by
  have := pieces_append h []
  rw [List.append_nil] at this
  rw [this]
  rfl

theorem Splits.pieces_eq {p : α → Bool} {part pre tok rest : List α}
    (h : Splits p part pre tok rest) : pieces p part = tok :: pieces p rest.tail := by
  rw [h.eq, pieces_append h.skipped]
  have htok : (!tok.isEmpty) = true := by simpa using h.ne
  cases hr : rest with
  | nil =>
    rw [List.append_nil, pieces, List.splitOnP_eq_singleton h.inside, List.filter_cons, if_pos htok]
    rfl
  | cons c s =>
    have hc : p c = true := h.ended c (by rw [hr]; rfl)
    rw [pieces, List.splitOnP_append_cons_of_forall_mem h.inside c hc, List.filter_cons, if_pos htok]
    rfl

theorem tokens_replicate (p : α → Bool) (part : List α) (n : ℕ) :
    tokens part (List.replicate n p) = ((pieces p part).map some ++ [none]).take n := by
  induction n generalizing part with
  | zero => rfl
  | succ n ih =>
    rw [List.replicate_succ]
    by_cases h : ∀ b ∈ part, p b
    · rw [tokens, if_pos h, pieces_nil h]
      simp
    · obtain ⟨pre, tok, rest, hs⟩ := exists_splits h
      rw [hs.tokens_eq, hs.pieces_eq, ih]
      rfl

def joined (c : α) : List α → List (List α) → List α
  | tok, [] => tok
  | tok, next :: toks => tok ++ c :: joined c next toks

theorem splits_alone {p : α → Bool} {tok : List α} (hne : tok ≠ [])
    (hin : ∀ b ∈ tok, p b = false) (c : α) : Splits p (joined c tok []) [] tok [] :=
  ⟨(List.append_nil tok).symm, fun b hb => absurd hb List.not_mem_nil, hin, hne, fun b hb => by cases hb⟩

theorem splits_joined {p : α → Bool} {c : α} (hc : p c) {tok : List α} (hne : tok ≠ [])
    (hin : ∀ b ∈ tok, p b = false) (next : List α) (toks : List (List α)) :
    Splits p (joined c tok (next :: toks)) [] tok (c :: joined c next toks) := by
  refine ⟨rfl, fun b hb => absurd hb List.not_mem_nil, hin, hne, ?_⟩
  intro b hb
  rwa [← Option.some.inj hb]

end OsdevLibstdc.TokenSpans
