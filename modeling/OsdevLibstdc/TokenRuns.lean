import OsdevLibstdc.StringTokens

/-!
Scans of several strings by `strtok_r`, each with a save pointer of its own and interleaved in
any order.
-/

namespace OsdevLibstdc.Cstring

open ByteMemory Outcomes Target TokenSpans

structure Scanner where
  str : Option ℕ
  save : Option ℕ
  results : List (Option ℕ) := []

/-- The next call, unless one has returned NULL. -/
def Scanner.next (s : Scanner) (m : Ram) (delim : ℕ) : Except AccessFault (Ram × Scanner) := do
  if none ∈ s.results then return (m, s)
  let (res, m, saveptr) ← strtokR m s.str delim (some s.save)
  return (m, { str := none, save := saveptr.join, results := s.results ++ [res] })

section Interleaving

variable {ι : Type} [DecidableEq ι]

def scan : List (ι × ℕ) → Ram → (ι → Scanner) → Except AccessFault (Ram × (ι → Scanner))
  | [], m, scanners => .ok (m, scanners)
  | (i, delim) :: turns, m, scanners => do
    let (m, s) ← (scanners i).next m delim
    scan turns m (Function.update scanners i s)

def setsOf (sets : ℕ → List UInt8) (turns : List (ι × ℕ)) (i : ι) : List (UInt8 → Bool) :=
  (turns.filter (fun t => t.1 = i)).map (fun t => isIn (sets t.2))

theorem setsOf_cons (sets : ℕ → List UInt8) (t : ι × ℕ) (turns : List (ι × ℕ)) (i : ι) :
    setsOf sets (t :: turns) i =
      if t.1 = i then isIn (sets t.2) :: setsOf sets turns i else setsOf sets turns i := by
  unfold setsOf
  rw [List.filter_cons]
  by_cases h : t.1 = i <;> simp [h]

end Interleaving

structure Stage where
  seen : List (Option (List UInt8))
  place : ℕ
  part : List UInt8

def Stage.found (g : Stage) (ps : List (UInt8 → Bool)) : List (Option (List UInt8)) :=
  if none ∈ g.seen then g.seen else g.seen ++ tokens g.part ps

structure Tracks (m : Ram) (lo hi : ℕ) (s : Scanner) (g : Stage) : Prop where
  found : List.Forall₂
    (Option.Rel fun p t => m.IsString p t ∧ lo ≤ p ∧ p + t.length ≤ g.place) s.results g.seen
  ahead : none ∉ s.results → s.str.or s.save = some g.place ∧ m.IsString g.place g.part
  lower : lo ≤ g.place
  upper : g.place + g.part.length = hi

theorem none_mem_iff {R : ℕ → List UInt8 → Prop} {rs : List (Option ℕ)}
    {ts : List (Option (List UInt8))} (h : List.Forall₂ (Option.Rel R) rs ts) :
    none ∈ rs ↔ none ∈ ts := by
  induction h with
  | nil => simp
  | cons hr _ ih => cases hr <;> simp [ih]

theorem found_imp {R S : ℕ → List UInt8 → Prop} {rs : List (Option ℕ)}
    {ts : List (Option (List UInt8))} (h : List.Forall₂ (Option.Rel R) rs ts)
    (himp : ∀ p t, R p t → S p t) : List.Forall₂ (Option.Rel S) rs ts := by
  apply h.imp
  intro r t hr
  cases hr with
  | none => exact .none
  | some hr => exact .some (himp _ _ hr)

theorem Stage.found_nil (g : Stage) : g.found [] = g.seen := by
  unfold Stage.found
  split_ifs
  · rfl
  · exact List.append_nil g.seen

section Steps

variable {m m' : Ram} {lo hi delim : ℕ} {s : Scanner} {g : Stage} {d : List UInt8}

theorem Tracks.frame {lo' hi' : ℕ} (h : Tracks m lo hi s g) (hd : 0 ∉ d)
    (hc : Cuts m m' d lo' hi') (hdis : hi < lo' ∨ hi' < lo) : Tracks m' lo hi s g := by
  have hl := h.lower
  have hu := h.upper
  refine ⟨found_imp h.found ?_, ?_, hl, hu⟩
  · rintro p t ⟨ht, hlo, hhi⟩
    exact ⟨hc.string hd ht (by omega), hlo, hhi⟩
  · intro hn
    obtain ⟨hstart, hs⟩ := h.ahead hn
    exact ⟨hstart, hc.string hd hs (by omega)⟩

theorem Tracks.next (h : Tracks m lo hi s g) (hd : m.IsString delim d) :
    ∃ m' s' g', s.next m delim = .ok (m', s') ∧ Cuts m m' d lo hi ∧ Tracks m' lo hi s' g' ∧
      ∀ ps, g.found (isIn d :: ps) = g'.found ps := by
  by_cases hn : none ∈ s.results
  · have hseen : none ∈ g.seen := (none_mem_iff h.found).mp hn
    refine ⟨m, s, g, ?_, .inl rfl, h, ?_⟩
    · rw [Scanner.next, if_pos hn]
      rfl
    · intro ps
      rw [Stage.found, Stage.found, if_pos hseen, if_pos hseen]
  have hseen : none ∉ g.seen := fun hm => hn ((none_mem_iff h.found).mpr hm)
  obtain ⟨hstart, hs⟩ := h.ahead hn
  have hq : s.str.or (some s.save).join = some g.place := hstart
  by_cases hall : ∀ b ∈ g.part, isIn d b
  · have hcall : strtokR m s.str delim (some s.save) = .ok (none, m, some s.save) :=
      strtokR_exhausted hq hs hd (by simpa [isIn] using hall)
    refine ⟨m, ⟨none, s.save, s.results ++ [none]⟩, ⟨g.seen ++ [none], g.place, g.part⟩, ?_,
      .inl rfl, ⟨List.rel_append h.found (.cons .none .nil), ?_, h.lower, h.upper⟩, ?_⟩
    · rw [Scanner.next, if_neg hn, hcall]
      rfl
    · intro hm
      exact absurd (List.mem_append_right _ (List.mem_singleton.mpr rfl)) hm
    · intro ps
      rw [Stage.found, Stage.found, if_neg hseen, if_pos (by simp), tokens, if_pos hall]
  · obtain ⟨pre, tok, rest, hsp⟩ := exists_splits hall
    obtain ⟨m', q', hcall, hcut, htok, hrest, hq', hend⟩ := strtokR_token hq hs hd hsp
    have hl := h.lower
    have hu := h.upper
    refine ⟨m', ⟨none, some q', s.results ++ [some (g.place + pre.length)]⟩,
      ⟨g.seen ++ [some tok], q', rest.tail⟩, ?_, hcut.mono (by omega) (by omega),
      ⟨List.rel_append ?_ (.cons (.some ⟨htok, by omega, hq'⟩) .nil), ?_, ?_, ?_⟩, ?_⟩
    · rw [Scanner.next, if_neg hn, hcall]
      rfl
    · apply found_imp h.found
      rintro p t ⟨ht, hlo, hhi⟩
      exact ⟨hcut.string hd.no_nul ht (by omega), hlo, by simp only; omega⟩
    · intro _
      exact ⟨rfl, hrest⟩
    · simp only
      omega
    · simp only
      omega
    · intro ps
      have hseen' : none ∉ g.seen ++ [some tok] := by simpa using hseen
      rw [Stage.found, Stage.found, if_neg hseen, if_neg hseen', hsp.tokens_eq, List.append_assoc]
      rfl

end Steps

section Runs

variable {ι : Type} {m : Ram} {base : ι → ℕ} {text : ι → List UInt8} {sets : ℕ → List UInt8}

structure DelimiterAt (m : Ram) (base : ι → ℕ) (text : ι → List UInt8) (sets : ℕ → List UInt8)
    (delim : ℕ) : Prop where
  string : m.IsString delim (sets delim)
  apart : ∀ i, delim + (sets delim).length < base i ∨ base i + (text i).length < delim

theorem delimiterAt_iff {delim : ℕ} : DelimiterAt m base text sets delim ↔
    m.IsString delim (sets delim) ∧
      ∀ i, delim + (sets delim).length < base i ∨ base i + (text i).length < delim :=
  ⟨fun h => ⟨h.string, h.apart⟩, fun h => ⟨h.1, h.2⟩⟩

theorem DelimiterAt.cut {m' : Ram} {delim : ℕ} {d : List UInt8} {i : ι}
    (h : DelimiterAt m base text sets delim) (hd : 0 ∉ d)
    (hc : Cuts m m' d (base i) (base i + (text i).length)) :
    DelimiterAt m' base text sets delim := by
  have := h.apart i
  exact ⟨hc.string hd h.string (by omega), h.apart⟩

def Apart (base : ι → ℕ) (text : ι → List UInt8) : Prop :=
  ∀ i j, i ≠ j → base i + (text i).length < base j ∨ base j + (text j).length < base i

def scanners (base : ι → ℕ) (save : ι → Option ℕ) (i : ι) : Scanner :=
  { str := some (base i), save := save i }

theorem scanners_tracks (hs : ∀ i, m.IsString (base i) (text i)) (save : ι → Option ℕ) (i : ι) :
    Tracks m (base i) (base i + (text i).length) (scanners base save i) ⟨[], base i, text i⟩ :=
  ⟨.nil, fun _ => ⟨rfl, hs i⟩, le_rfl, rfl⟩

variable [DecidableEq ι]

theorem scan_turn {scanners : ι → Scanner} {stages : ι → Stage} (hdis : Apart base text)
    (h : ∀ i, Tracks m (base i) (base i + (text i).length) (scanners i) (stages i))
    {t : ι × ℕ} (ht : DelimiterAt m base text sets t.2) :
    ∃ (m' : Ram) (s : Scanner) (stages' : ι → Stage), (scanners t.1).next m t.2 = .ok (m', s) ∧
      Cuts m m' (sets t.2) (base t.1) (base t.1 + (text t.1).length) ∧
      (∀ i, Tracks m' (base i) (base i + (text i).length)
        (Function.update scanners t.1 s i) (stages' i)) ∧
      ∀ turns i, (stages i).found (setsOf sets (t :: turns) i) =
        (stages' i).found (setsOf sets turns i) := by
  obtain ⟨m', s, g, hnext, hcut, htr, hfound⟩ := (h t.1).next ht.string
  refine ⟨m', s, Function.update stages t.1 g, hnext, hcut, ?_, ?_⟩
  · intro i
    by_cases hi : i = t.1
    · subst hi
      simpa using htr
    · have := hdis i t.1 hi
      simp only [Function.update_of_ne hi]
      exact (h i).frame ht.string.no_nul hcut (by omega)
  · intro turns i
    rw [setsOf_cons]
    by_cases hi : i = t.1
    · subst hi
      simpa using hfound (setsOf sets turns t.1)
    · rw [if_neg (Ne.symm hi), Function.update_of_ne hi]

theorem scan_tracks {turns : List (ι × ℕ)} {scanners : ι → Scanner} {stages : ι → Stage}
    (hdis : Apart base text)
    (h : ∀ i, Tracks m (base i) (base i + (text i).length) (scanners i) (stages i))
    (ht : ∀ t ∈ turns, DelimiterAt m base text sets t.2) :
    ∃ (m' : Ram) (scanners' : ι → Scanner) (stages' : ι → Stage), scan turns m scanners = .ok (m', scanners') ∧
      (∀ i, Tracks m' (base i) (base i + (text i).length) (scanners' i) (stages' i)) ∧
      (∀ i, (stages i).found (setsOf sets turns i) = (stages' i).seen) ∧
      ∀ delim, DelimiterAt m base text sets delim → DelimiterAt m' base text sets delim := by
  induction turns generalizing m scanners stages with
  | nil => exact ⟨m, scanners, stages, rfl, h, fun i => (stages i).found_nil, fun _ hd => hd⟩
  | cons t turns ih =>
    have ht₀ := ht t (by simp)
    obtain ⟨m₁, s, stages₁, hnext, hcut, htr, hfound⟩ := scan_turn hdis h ht₀
    have hkeep (delim : ℕ) (hd : DelimiterAt m base text sets delim) :
        DelimiterAt m₁ base text sets delim := hd.cut ht₀.string.no_nul hcut
    obtain ⟨m', scanners', stages', hscan, htr', hseen, hd⟩ :=
      ih htr fun t' ht' => hkeep t'.2 (ht t' (List.mem_cons_of_mem t ht'))
    refine ⟨m', scanners', stages', ?_, htr', ?_, fun delim hdel => hd delim (hkeep delim hdel)⟩
    · rw [scan, hnext]
      exact hscan
    · intro i
      rw [hfound, hseen]

theorem scan_tokens (hs : ∀ i, m.IsString (base i) (text i)) (hdis : Apart base text)
    (save : ι → Option ℕ) {turns : List (ι × ℕ)}
    (ht : ∀ t ∈ turns, DelimiterAt m base text sets t.2) :
    ∃ m' scanners', scan turns m (scanners base save) = .ok (m', scanners') ∧
      ∀ i, List.Forall₂ (Option.Rel m'.IsString) (scanners' i).results
        (tokens (text i) (setsOf sets turns i)) := by
  obtain ⟨m', scanners', stages', hscan, htr, hseen, -⟩ :=
    scan_tracks hdis (scanners_tracks hs save) ht
  refine ⟨m', scanners', hscan, fun i => ?_⟩
  have hfound : tokens (text i) (setsOf sets turns i) = (stages' i).seen := hseen i
  rw [hfound]
  exact found_imp (htr i).found fun p t h => h.1

theorem setsOf_filter (sets : ℕ → List UInt8) (turns : List (ι × ℕ)) (i : ι) :
    setsOf sets (turns.filter (fun t => t.1 = i)) i = setsOf sets turns i := by
  simp [setsOf]

theorem setsOf_fixed {d : List UInt8} {turns : List (ι × ℕ)} {i : ι}
    (h : ∀ t ∈ turns, t.1 = i → sets t.2 = d) :
    setsOf sets turns i = List.replicate (turns.countP (fun t => t.1 = i)) (isIn d) := by
  induction turns with
  | nil => rfl
  | cons t turns ih =>
    have ih := ih fun t' ht' => h t' (List.mem_cons_of_mem t ht')
    rw [setsOf_cons, List.countP_cons]
    by_cases hi : t.1 = i
    · rw [if_pos hi, ih, h t (by simp) hi, if_pos (by simpa using hi), List.replicate_succ]
    · rw [if_neg hi, ih, if_neg (by simpa using hi), Nat.add_zero]

theorem strtok_r_tokens (base : ι → ℕ) (text : ι → List UInt8) (sets : ℕ → List UInt8)
    (hs : ∀ i, m.IsString (base i) (text i)) (hdis : Apart base text) (save : ι → Option ℕ)
    (turns : List (ι × ℕ))
    (ht : ∀ t ∈ turns, DelimiterAt m base text sets t.2) :
    ∃ m' scanners', scan turns m (scanners base save) = .ok (m', scanners') ∧
      (∀ i, List.Forall₂ (Option.Rel m'.IsString) (scanners' i).results
          (tokens (text i) (setsOf sets turns i)) ∧
        (∀ d, (∀ t ∈ turns, t.1 = i → sets t.2 = d) → tokens (text i) (setsOf sets turns i) =
          ((pieces (isIn d) (text i)).map some ++ [none]).take
            (turns.countP (fun t : ι × ℕ => t.1 = i))) ∧
        ∃ m₁ alone, scan (turns.filter (fun t => t.1 = i)) m (scanners base save) =
            .ok (m₁, alone) ∧
          List.Forall₂ (Option.Rel m₁.IsString) (alone i).results
            (tokens (text i) (setsOf sets turns i))) ∧
      ∀ before t after, turns = before ++ t :: after →
        ∃ m₁ scanners₁ m₂ s, scan before m (scanners base save) = .ok (m₁, scanners₁) ∧
          (scanners₁ t.1).next m₁ t.2 = .ok (m₂, s) ∧
          Cuts m₁ m₂ (sets t.2) (base t.1) (base t.1 + (text t.1).length) := by
  obtain ⟨m', scanners', hscan, htokens⟩ := scan_tokens hs hdis save ht
  refine ⟨m', scanners', hscan, fun i => ⟨htokens i, ?_, ?_⟩, ?_⟩
  · intro d hd
    rw [setsOf_fixed hd, tokens_replicate]
  · have ht' : ∀ t ∈ turns.filter (fun t => t.1 = i), DelimiterAt m base text sets t.2 :=
      fun t htm => ht t (List.mem_of_mem_filter htm)
    obtain ⟨m₁, alone, hscan₁, htokens₁⟩ := scan_tokens hs hdis save ht'
    have := htokens₁ i
    rw [setsOf_filter] at this
    exact ⟨m₁, alone, hscan₁, this⟩
  · rintro before t after rfl
    have hbefore : ∀ t' ∈ before, DelimiterAt m base text sets t'.2 :=
      fun t' ht' => ht t' (List.mem_append_left _ ht')
    obtain ⟨m₁, scanners₁, stages₁, hscan₁, htr₁, -, hkeep⟩ :=
      scan_tracks hdis (scanners_tracks hs save) hbefore
    obtain ⟨m₂, s, -, hnext, hcut, -⟩ := scan_turn hdis htr₁ (hkeep t.2 (ht t (by simp)))
    exact ⟨m₁, scanners₁, m₂, s, hscan₁, hnext, hcut⟩

end Runs

def twoStrings : Ram :=
  { cells := (bytes "a,b" ++ 0 :: bytes "x;y" ++ 0 :: bytes "," ++ 0 :: bytes ";" ++ [0]).map some }

theorem strtok_r_tokens_interleaved :
    ∃ m' scanners', scan [(false, 8), (true, 10), (false, 8), (true, 10), (false, 8)] twoStrings
        (scanners (fun i => if i then 4 else 0) fun _ => none) = .ok (m', scanners') ∧
      List.Forall₂ (Option.Rel m'.IsString) (scanners' false).results
        [some (bytes "a"), some (bytes "b"), none] := by
  obtain ⟨m', scanners', hscan, h, -⟩ := strtok_r_tokens (m := twoStrings)
    (fun i => if i then 4 else 0) (fun i => if i then bytes "x;y" else bytes "a,b")
    (fun p => if p = 8 then bytes "," else bytes ";") (by decide) (by unfold Apart; decide)
    (fun _ => none) [(false, 8), (true, 10), (false, 8), (true, 10), (false, 8)]
    (by simp only [delimiterAt_iff]; decide)
  exact ⟨m', scanners', hscan, (h false).1⟩

end OsdevLibstdc.Cstring
