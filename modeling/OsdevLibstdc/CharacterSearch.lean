import OsdevLibstdc.CharacterCase
import OsdevLibstdc.FueledLoops
import OsdevLibstdc.TextPositions

/-!
`strrchr`, which compares characters with an `int`, beside `strchr`, which converts it first.
-/

namespace OsdevLibstdc.Cstring

open ByteMemory Cctype FueledLoops Outcomes Target TextPositions

structure LastSearch where
  s : ℕ
  pos : ℤ
deriving Repr, DecidableEq

def strrchrBody (m : Ram) (str : ℕ) (needle : ℤ) (t : LastSearch) :
    Except AccessFault (Next LastSearch ℤ) := do
  let c ← m.load t.s
  let pos := if charValue c = needle then (t.s : ℤ) - str else t.pos
  if c ≠ 0 then return .again ⟨t.s + 1, pos⟩ else return .stop pos

def strrchr (m : Ram) (str : ℕ) (needle : ℤ) : Except AccessFault (Option ℕ) := do
  let pos ← run .runaway (strrchrBody m str needle) (m.size + 1) ⟨str, -1⟩
  if pos = -1 then return none else return some (str + pos).toNat

def index (m : Ram) (a : ℕ) (b : ℤ) : Except AccessFault (Option ℕ) := strchr m a b

def rindex (m : Ram) (a : ℕ) (b : ℤ) : Except AccessFault (Option ℕ) := strrchr m a b

section Search

variable {m : Ram} {p : ℕ} {needle : ℤ} {s : List UInt8}

/-- The value of `pos` for a last position, which is -1 as long as there is none. -/
def posOf (r : Option ℕ) : ℤ := r.elim (-1) fun i => i

theorem last_step {pre : List UInt8} {r : Option ℕ} (c : UInt8)
    (h : Last (positions needle (pre.map charValue)) r) :
    Last (positions needle ((pre ++ [c]).map charValue))
      (if charValue c = needle then some pre.length else r) := by
  rw [List.map_append, List.map_singleton]
  split_ifs with hc
  · have hlast := last_concat_self needle (pre.map charValue)
    rw [List.length_map] at hlast
    rwa [hc]
  · exact last_concat hc h

theorem strrchrBody_ok {q : ℕ} {pre : List UInt8} {c : UInt8} (needle : ℤ) (r : Option ℕ)
    (hc : m.byteAt q = some c) (hq : q = p + pre.length) :
    strrchrBody m p needle ⟨q, posOf r⟩ =
      .ok (if c ≠ 0 then .again ⟨q + 1, posOf (if charValue c = needle then some pre.length else r)⟩
        else .stop (posOf (if charValue c = needle then some pre.length else r))) := by
  have hpos : (if charValue c = needle then (q : ℤ) - p else posOf r) =
      posOf (if charValue c = needle then some pre.length else r) := by
    split_ifs
    · simp only [posOf, Option.elim_some]
      omega
    · rfl
  rw [strrchrBody, Ram.load_eq_ok.mpr hc, ok_bind]
  dsimp only
  rw [hpos]
  split_ifs <;> rfl

theorem strrchr_loop {q : ℕ} (fuel : ℕ) (pre : List UInt8) (r : Option ℕ) (hs : m.IsString q s)
    (hq : q = p + pre.length) (hlast : Last (positions needle (pre.map charValue)) r)
    (hf : s.length < fuel) :
    ∃ r', run .runaway (strrchrBody m p needle) fuel ⟨q, posOf r⟩ = .ok (posOf r') ∧
      Last (positions needle ((pre ++ s ++ [0]).map charValue)) r' := by
  induction s generalizing q fuel pre r with
  | nil =>
    obtain ⟨fuel, rfl⟩ := Nat.exists_eq_add_one_of_ne_zero (Nat.ne_zero_of_lt hf)
    refine ⟨_, run_stop (strrchrBody_ok needle r hs.nil hq), ?_⟩
    rw [List.append_nil]
    exact last_step 0 hlast
  | cons c s ih =>
    obtain ⟨hc, hne, hstl⟩ := hs.cons
    obtain ⟨fuel, rfl⟩ := Nat.exists_eq_add_one_of_ne_zero (Nat.ne_zero_of_lt hf)
    rw [List.length_cons] at hf
    have hbody := strrchrBody_ok needle r hc hq
    rw [if_pos hne] at hbody
    obtain ⟨r', hrun, hr'⟩ := ih fuel (pre ++ [c]) _ hstl (by
      rw [List.length_append, List.length_singleton]
      omega) (last_step c hlast) (by omega)
    refine ⟨r', (run_again hbody).trans hrun, ?_⟩
    rwa [List.append_assoc pre, List.singleton_append] at hr'

theorem strrchr_ok (needle : ℤ) (hs : m.IsString p s) :
    ∃ r, strrchr m p needle = .ok (r.map (p + ·)) ∧
      Last (positions needle ((s ++ [0]).map charValue)) r := by
  have hsize := hs.lt_size
  obtain ⟨r, hrun, hlast⟩ := strrchr_loop (m.size + 1) [] none hs rfl
    (.missing (positions_nil needle)) (by omega)
  refine ⟨r, ?_, hlast⟩
  have hstart : posOf none = -1 := rfl
  rw [hstart] at hrun
  rw [strrchr, hrun, ok_bind]
  cases r with
  | none => rfl
  | some i =>
    have hne : posOf (some i) ≠ -1 := by
      simp only [posOf, Option.elim_some]
      omega
    rw [if_neg hne]
    rfl

theorem charValue_ofInt_eq_iff : charValue (UInt8.ofInt needle) = needle ↔
    -128 ≤ needle ∧ needle ≤ 127 := by
  constructor
  · intro h
    rw [← h]
    exact charValue_bounds _
  · rintro ⟨hl, hu⟩
    exact charValue_ofInt hl hu

def SearchesAgree (m : Ram) (p : ℕ) (s : List UInt8) (needle : ℤ) : Prop :=
  ∃ r r', First (positions (UInt8.ofInt needle) (s ++ [0])) r ∧
    Last (positions (UInt8.ofInt needle) (s ++ [0])) r' ∧ (r = none ↔ r' = none) ∧
    strchr m p needle = .ok (r.map (p + ·)) ∧ strrchr m p needle = .ok (r'.map (p + ·)) ∧
    index m p needle = .ok (r.map (p + ·)) ∧ rindex m p needle = .ok (r'.map (p + ·))

theorem searches_agree_iff (hs : m.IsString p s) :
    SearchesAgree m p s needle ↔
      (-128 ≤ needle ∧ needle ≤ 127) ∨ UInt8.ofInt needle ∉ s ++ [0] := by
  obtain ⟨r', hr', hlast⟩ := strrchr_ok needle hs
  have hfirst := first_idxOf? (UInt8.ofInt needle) (s ++ [0])
  constructor
  · rintro ⟨q, q', hq, hq', hnone, -, hrun, -, -⟩
    by_cases hc : -128 ≤ needle ∧ needle ≤ 127
    · exact .inl hc
    · right
      have hmiss : r' = none := hlast.eq_none_iff.mpr
        (positions_map_eq_empty ofInt_charValue (mt charValue_ofInt_eq_iff.mp hc) _)
      rw [hr', hmiss] at hrun
      have hnone' : q' = none := Option.map_eq_none_iff.mp (Except.ok.inj hrun).symm
      exact positions_eq_empty.mp (hq'.eq_none_iff.mp hnone')
  · intro h
    have hsame : positions needle ((s ++ [0]).map charValue) =
        positions (UInt8.ofInt needle) (s ++ [0]) :=
      positions_map_eq ofInt_charValue (h.imp_left charValue_ofInt_eq_iff.mpr)
    rw [hsame] at hlast
    refine ⟨_, r', hfirst, hlast, ?_, strchr_ok hs, hr', strchr_ok hs, hr'⟩
    rw [hfirst.eq_none_iff, hlast.eq_none_iff]

theorem searches_agree_letter : SearchesAgree ⟨[some 97, some 98, some 97, some 0], []⟩ 0
    [97, 98, 97] 97 :=
  (searches_agree_iff (by decide)).mpr (.inl ⟨by decide, by decide⟩)

/-- `strchr` finds the byte 0xE9 when it looks for 233, and `strrchr` compares 233 with -23. -/
theorem searches_not_agree : ¬ ∀ (m : Ram) (p : ℕ) (s : List UInt8) (needle : ℤ),
    m.IsString p s → SearchesAgree m p s needle := by
  intro h
  obtain ⟨r, r', -, -, hnone, hchr, hrchr, -, -⟩ :=
    h ⟨[some 233, some 0], []⟩ 0 [233] 233 (by decide)
  have hr' : r' = none := by
    cases r' with
    | none => rfl
    | some i => cases hrchr
  rw [hnone.mpr hr'] at hchr
  cases hchr

end Search

end OsdevLibstdc.Cstring
