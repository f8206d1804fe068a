import OsdevLibstdc.StringTokens

/-!
What a call of `strtok_r` or `strtok` that finds no token leaves behind. The save pointer is not
written on that path, so later calls go on from where the search before it has stopped.
-/

namespace OsdevLibstdc.Cstring

open ByteMemory Outcomes Target TokenSpans

structure Call where
  str : Option ℕ
  delim : ℕ

abbrev Search := Ram → Option ℕ → ℕ → Option ℕ → Except AccessFault (Option ℕ × Ram × Option ℕ)

def strtokSaved : Search := fun m str delim save => do
  let (res, m, saveptr) ← strtokR m str delim (some save)
  return (res, m, saveptr.join)

def run (f : Search) : Ram → Option ℕ → List Call →
    Except AccessFault (List (Option ℕ) × Ram × Option ℕ)
  | m, save, [] => .ok ([], m, save)
  | m, save, c :: calls => do
    let (res, m, save) ← f m c.str c.delim save
    let (results, m, save) ← run f m save calls
    return (res :: results, m, save)

def nullCalls (delims : List ℕ) : List Call := delims.map (fun e => ⟨none, e⟩)

def Exhausted (f : Search) (m : Ram) (save : Option ℕ) : Prop :=
  ∀ delims : List ℕ, (∀ e ∈ delims, ∃ d, m.IsString e d) →
    ∃ m' save', run f m save (nullCalls delims) =
      .ok (List.replicate delims.length none, m', save')

def ExhaustionFinal (f : Search) (m : Ram) (save : Option ℕ) (calls : List Call) : Prop :=
  ∀ before c after results m' save', calls = before ++ c :: after →
    run f m save (before ++ [c]) = .ok (results ++ [none], m', save') → Exhausted f m' save'

def AtCalls (P : Ram → Option ℕ → Call → Prop) (f : Search) (m : Ram) (save : Option ℕ)
    (calls : List Call) : Prop :=
  ∀ before c after results m' save', calls = before ++ c :: after →
    run f m save before = .ok (results, m', save') → P m' save' c

def ValidCall (m : Ram) (save : Option ℕ) (c : Call) : Prop :=
  ∀ q, c.str.or save = some q → ∃ part d, m.IsString q part ∧ m.IsString c.delim d

def EndsScan (m : Ram) (save : Option ℕ) (c : Call) : Prop :=
  (∀ q part d, c.str.or save = some q → m.IsString q part → m.IsString c.delim d →
    ∀ b ∈ part, b ∈ d) → ∀ p, save = some p → m.byteAt p = some 0

section Calls

variable {m : Ram} {save : Option ℕ} {c : Call}

theorem run_append (f : Search) (m : Ram) (save : Option ℕ) (calls calls' : List Call) :
    run f m save (calls ++ calls') = (do
      let (results, m, save) ← run f m save calls
      let (results', m, save) ← run f m save calls'
      return (results ++ results', m, save)) := by
  induction calls generalizing m save with
  | nil =>
    rw [List.nil_append, run, ok_bind]
    simp only [List.nil_append]
    cases run f m save calls' <;> rfl
  | cons c calls ih =>
    rw [List.cons_append, run, run]
    cases hf : f m c.str c.delim save with
    | error e => rfl
    | ok r =>
      obtain ⟨res, m₁, save₁⟩ := r
      simp only [ok_bind]
      rw [ih]
      cases run f m₁ save₁ calls with
      | error e => rfl
      | ok r' =>
        obtain ⟨results, m₂, save₂⟩ := r'
        simp only [ok_bind, pure_eq]
        cases run f m₂ save₂ calls' <;> rfl

theorem run_snoc {f : Search} {m m' : Ram} {save save' : Option ℕ} {before : List Call} {c : Call}
    {results : List (Option ℕ)} {r : Option ℕ}
    (h : run f m save (before ++ [c]) = .ok (results ++ [r], m', save')) :
    ∃ m₁ save₁, run f m save before = .ok (results, m₁, save₁) ∧
      f m₁ c.str c.delim save₁ = .ok (r, m', save') := by
  rw [run_append] at h
  obtain ⟨⟨results₁, m₁, save₁⟩, hbefore, h⟩ := bind_eq_ok.mp h
  obtain ⟨⟨results₂, m₂, save₂⟩, hlast, h⟩ := bind_eq_ok.mp h
  obtain ⟨⟨r', m₃, save₃⟩, hcall, hlast⟩ := bind_eq_ok.mp hlast
  obtain ⟨rfl, hend⟩ := Prod.mk.inj (Except.ok.inj hlast)
  obtain ⟨rfl, rfl⟩ := Prod.mk.inj hend
  obtain ⟨hres, hend⟩ := Prod.mk.inj (Except.ok.inj h)
  obtain ⟨rfl, rfl⟩ := Prod.mk.inj hend
  obtain ⟨rfl, hr⟩ := List.append_inj' hres rfl
  cases hr
  exact ⟨m₁, save₁, hbefore, hcall⟩

theorem strtokSaved_none {q : ℕ} {part d : List UInt8} (hq : c.str.or save = some q)
    (hs : m.IsString q part) (hd : m.IsString c.delim d) (h : ∀ b ∈ part, b ∈ d) :
    strtokSaved m c.str c.delim save = .ok (none, m, save) := by
  have hstart : c.str.or (some save).join = some q := hq
  rw [strtokSaved, strtokR_exhausted hstart hs hd h]
  rfl

theorem strtokSaved_null (h : c.str.or save = none) :
    strtokSaved m c.str c.delim save = .ok (none, m, save) := by
  have hstart : c.str.or (some save).join = none := h
  rw [strtokSaved, strtokR_null hstart]
  rfl

theorem strtokSaved_eq_none {m' : Ram} {save' : Option ℕ} (hv : ValidCall m save c)
    (h : strtokSaved m c.str c.delim save = .ok (none, m', save')) :
    m' = m ∧ save' = save ∧ ∀ q part d, c.str.or save = some q → m.IsString q part →
      m.IsString c.delim d → ∀ b ∈ part, b ∈ d := by
  cases hq : c.str.or save with
  | none =>
    rw [strtokSaved_null hq] at h
    cases h
    exact ⟨rfl, rfl, by simp⟩
  | some q =>
    obtain ⟨part, d, hs, hd⟩ := hv q hq
    by_cases hall : ∀ b ∈ part, isIn d b
    · have hmem : ∀ b ∈ part, b ∈ d := by simpa [isIn] using hall
      rw [strtokSaved_none hq hs hd hmem] at h
      cases h
      refine ⟨rfl, rfl, ?_⟩
      rintro _ part' d' he hs' hd'
      cases he
      rwa [hs'.unique hs, hd'.unique hd]
    · obtain ⟨pre, tok, rest, hsp⟩ := exists_splits hall
      have hstart : c.str.or (some save).join = some q := hq
      obtain ⟨m₁, q', hcall, -⟩ := strtokR_token hstart hs hd hsp
      rw [strtokSaved, hcall] at h
      cases h

theorem strtokR_empty_delimiter {p e : ℕ} {r : Option ℕ × Ram × Option (Option ℕ)}
    (he : m.IsString e []) (h : strtokR m none e (some (some p)) = .ok r) (hr : r.1 = none) :
    m.byteAt p = some 0 := by
  obtain ⟨k, hk, h⟩ := bind_eq_ok.mp h
  rw [strspn, spanLoop] at hk
  obtain ⟨c, hc, hk⟩ := bind_eq_ok.mp hk
  by_cases hc0 : c = 0
  · rw [← hc0]
    exact Ram.load_eq_ok.mp hc
  · obtain ⟨o, ho, hnone⟩ := strchr_isSome he hc0
    have hfalse : ¬ o.isSome = true := by simp [hnone]
    rw [if_neg hc0, ho, ok_bind, if_neg hfalse] at hk
    obtain rfl : 0 = k := Except.ok.inj hk
    dsimp only at h
    rw [Nat.add_zero, hc, ok_bind, if_neg hc0] at h
    -- a call past this point returns the token that it has found
    obtain ⟨n, -, h⟩ := bind_eq_ok.mp h
    obtain ⟨b, -, h⟩ := bind_eq_ok.mp h
    split_ifs at h
    · obtain ⟨m', -, h⟩ := bind_eq_ok.mp h
      rw [← Except.ok.inj h] at hr
      cases hr
    · rw [← Except.ok.inj h] at hr
      cases hr

theorem exhausted_of_end (h : ∀ p, save = some p → m.byteAt p = some 0) :
    Exhausted strtokSaved m save := by
  intro delims hd
  refine ⟨m, save, ?_⟩
  induction delims with
  | nil => rfl
  | cons e delims ih =>
    have hcall : strtokSaved m none e save = .ok (none, m, save) := by
      cases hs : save with
      | none => exact strtokSaved_null (c := ⟨none, e⟩) rfl
      | some p =>
        obtain ⟨d, hde⟩ := hd e (by simp)
        have hend : m.IsString p [] := ⟨Ram.holds_cons.mpr ⟨h p hs, Ram.holds_nil _ _⟩, by simp⟩
        exact strtokSaved_none (c := ⟨none, e⟩) rfl hend hde (by simp)
    have hrest := ih fun e' he' => hd e' (List.mem_cons_of_mem e he')
    rw [nullCalls, List.map_cons, run]
    simp only
    rw [hcall, ok_bind]
    simp only
    rw [nullCalls] at hrest
    rw [hrest]
    rfl

theorem end_of_exhausted {e : ℕ} (he : m.IsString e []) (h : Exhausted strtokSaved m save) :
    ∀ p, save = some p → m.byteAt p = some 0 := by
  rintro p rfl
  obtain ⟨m', save', hrun⟩ := h [e] (by simpa using ⟨[], he⟩)
  have hsnoc : run strtokSaved m (some p) ([] ++ [⟨none, e⟩]) = .ok ([] ++ [none], m', save') := hrun
  obtain ⟨m₁, save₁, hnil, hcall⟩ := run_snoc hsnoc
  cases hnil
  obtain ⟨r, hr, hcall⟩ := bind_eq_ok.mp hcall
  have hnone : r.1 = none := congrArg Prod.fst (Except.ok.inj hcall)
  exact strtokR_empty_delimiter he hr hnone

end Calls

theorem strtokSaved_final_iff {m : Ram} {save : Option ℕ} {calls : List Call}
    (hv : AtCalls ValidCall strtokSaved m save calls) :
    ExhaustionFinal strtokSaved m save calls ↔ AtCalls EndsScan strtokSaved m save calls := by
  constructor
  · intro hfinal before c after results m₁ save₁ hcalls hrun hempty
    cases hq : c.str.or save₁ with
    | none =>
      have hnone : save₁ = none := (Option.or_eq_none_iff.mp hq).2
      simp [hnone]
    | some q =>
      obtain ⟨part, d, hs, hd⟩ := hv before c after results m₁ save₁ hcalls hrun q hq
      have hcall := strtokSaved_none hq hs hd (hempty q part d hq hs hd)
      have hrun' : run strtokSaved m save (before ++ [c]) =
          .ok (results ++ [none], m₁, save₁) := by
        rw [run_append, hrun, ok_bind]
        simp only
        rw [run, hcall]
        rfl
      rw [← List.append_nil d] at hd
      exact end_of_exhausted hd.append.2.2 (hfinal before c after results m₁ save₁ hcalls hrun')
  · intro hends before c after results m' save' hcalls hrun
    obtain ⟨m₁, save₁, hbefore, hcall⟩ := run_snoc hrun
    obtain ⟨rfl, rfl, hempty⟩ :=
      strtokSaved_eq_none (hv before c after results m₁ save₁ hcalls hbefore) hcall
    exact exhausted_of_end (hends before c after results m' save' hcalls hbefore hempty)

theorem strtok_eq_strtokSaved : strtok = strtokSaved := rfl

theorem strtok_final_iff {m : Ram} {save : Option ℕ} {calls : List Call} :
    (AtCalls ValidCall strtokSaved m save calls →
      (ExhaustionFinal strtokSaved m save calls ↔ AtCalls EndsScan strtokSaved m save calls)) ∧
    (AtCalls ValidCall strtok m save calls →
      (ExhaustionFinal strtok m save calls ↔ AtCalls EndsScan strtok m save calls)) := by
  rw [strtok_eq_strtokSaved]
  exact ⟨strtokSaved_final_iff, strtokSaved_final_iff⟩

theorem atCalls_nil (P : Ram → Option ℕ → Call → Prop) (f : Search) (m : Ram) (save : Option ℕ) :
    AtCalls P f m save [] := by
  intro before c after results m' save' hcalls
  cases before <;> cases hcalls

theorem AtCalls.cons {P : Ram → Option ℕ → Call → Prop} {f : Search} {m m₁ : Ram}
    {save save₁ res : Option ℕ} {c : Call} {calls : List Call} (h : P m save c)
    (hcall : f m c.str c.delim save = .ok (res, m₁, save₁))
    (hrest : AtCalls P f m₁ save₁ calls) : AtCalls P f m save (c :: calls) := by
  intro before c' after results m' save' hcalls hrun
  cases before with
  | nil =>
    cases hcalls
    cases hrun
    exact h
  | cons b before =>
    obtain ⟨rfl, htail⟩ := List.cons.inj hcalls
    rw [run, hcall, ok_bind] at hrun
    obtain ⟨⟨results', m₂, save₂⟩, hbefore, hrun⟩ := bind_eq_ok.mp hrun
    obtain ⟨-, hend⟩ := Prod.mk.inj (Except.ok.inj hrun)
    obtain ⟨rfl, rfl⟩ := Prod.mk.inj hend
    exact hrest before c' after results' _ _ htail hbefore

def oneComma : Ram := { cells := (bytes "a,b" ++ 0 :: bytes "," ++ [0]).map some }

def oneCommaCut : Ram :=
  { cells := (bytes "a" ++ 0 :: bytes "b" ++ 0 :: bytes "," ++ [0]).map some, writes := [1] }

def oneCommaCalls : List Call := [⟨some 0, 4⟩, ⟨none, 4⟩, ⟨none, 4⟩, ⟨none, 4⟩]

theorem atCalls_oneComma {P : Ram → Option ℕ → Call → Prop} (h₁ : P oneComma none ⟨some 0, 4⟩)
    (h₂ : P oneCommaCut (some 2) ⟨none, 4⟩) (h₃ : P oneCommaCut (some 3) ⟨none, 4⟩) :
    AtCalls P strtok oneComma none oneCommaCalls := by
  have hfirst : strtok oneComma (some 0) 4 none = .ok (some 0, oneCommaCut, some 2) := by
    decide +kernel
  have hsecond : strtok oneCommaCut none 4 (some 2) = .ok (some 2, oneCommaCut, some 3) := by
    decide +kernel
  have hnull : strtok oneCommaCut none 4 (some 3) = .ok (none, oneCommaCut, some 3) := by
    decide +kernel
  exact .cons h₁ hfirst (.cons h₂ hsecond (.cons h₃ hnull (.cons h₃ hnull (atCalls_nil _ _ _ _))))

theorem strtok_final_oneComma :
    run strtok oneComma none oneCommaCalls =
      .ok ([some 0, some 2, none, none], oneCommaCut, some 3) ∧
    ExhaustionFinal strtok oneComma none oneCommaCalls := by
  have hwhole : oneComma.IsString 0 (bytes "a,b") := by decide
  have hdelim : oneComma.IsString 4 (bytes ",") := by decide
  have hlast : oneCommaCut.IsString 2 (bytes "b") := by decide
  have hend : oneCommaCut.IsString 3 [] := by decide
  have hdelim' : oneCommaCut.IsString 4 (bytes ",") := by decide
  refine ⟨by decide +kernel, (strtok_final_iff.2 (atCalls_oneComma ?_ ?_ ?_)).mpr
    (atCalls_oneComma ?_ ?_ ?_)⟩
  · rintro q hq
    cases hq
    exact ⟨_, _, hwhole, hdelim⟩
  · rintro q hq
    cases hq
    exact ⟨_, _, hlast, hdelim'⟩
  · rintro q hq
    cases hq
    exact ⟨_, _, hend, hdelim'⟩
  · rintro - p hp
    cases hp
  · intro hall
    have hmem := hall 2 _ _ rfl hlast hdelim' (byte 'b') (by decide)
    exact absurd hmem (by decide)
  · rintro - p hp
    cases hp
    exact hend.terminator

def commas : Ram :=
  { cells := (bytes "a,," ++ 0 :: bytes "a,b" ++ 0 :: bytes "," ++ 0 :: bytes ";" ++ [0]).map some }

/-- Behind the last token another delimiter set finds one more, and behind a string without
tokens the previous string goes on. -/
theorem strtok_not_final :
    ¬ ExhaustionFinal strtokSaved commas none [⟨some 0, 8⟩, ⟨none, 8⟩] ∧
    ¬ ExhaustionFinal strtok commas none [⟨some 4, 8⟩, ⟨some 8, 8⟩] := by
  constructor
  · intro h
    obtain ⟨m', save', hrun⟩ := h [⟨some 0, 8⟩] ⟨none, 8⟩ [] [some 0] _ _ rfl rfl [10]
      (by simpa using ⟨bytes ";", by decide⟩)
    cases hrun
  · intro h
    obtain ⟨m', save', hrun⟩ := h [⟨some 4, 8⟩] ⟨some 8, 8⟩ [] [some 4] _ _ rfl rfl [8]
      (by simpa using ⟨bytes ",", by decide⟩)
    cases hrun

end OsdevLibstdc.Cstring
