import OsdevLibstdc.CharacterCase
import OsdevLibstdc.FirstDifferences

/-!
`strcmp`, `strncmp`, `strcasecmp`, `strncasecmp` and `memcmp`. None of them needs more of its
arguments than the bytes up to the first difference.
-/

namespace OsdevLibstdc.Cstring

open ByteMemory Cctype FirstDifferences Outcomes Target

/-- The body of the string comparisons: what is returned at `f` and `s`, if the loop ends there.
The functions compare what `fold` makes of a character. -/
def compareAt (m : Ram) (fold : ℤ → ℤ) (f s : ℕ) : Except AccessFault (Option ℤ) := do
  let x := fold (charValue (← m.load f))
  let y := fold (charValue (← m.load s))
  if x ≠ y then return some (x - y)
  if (← m.load f) = 0 then return some 0
  if (← m.load s) = 0 then return some 0
  return none

def compareLoop (m : Ram) (fold : ℤ → ℤ) : ℕ → ℕ → ℕ → Except AccessFault ℤ
  | 0, _, _ => .error .runaway
  | fuel + 1, f, s => do
    match ← compareAt m fold f s with
    | some r => return r
    | none => compareLoop m fold fuel (f + 1) (s + 1)

def strcmp (m : Ram) (first second : ℕ) : Except AccessFault ℤ :=
  compareLoop m id (m.size + 1) first second

def strcasecmp (m : Ram) (first second : ℕ) : Except AccessFault ℤ :=
  compareLoop m tolower (m.size + 1) first second

/-- `i` counts up to the length, and `n` is what is left of it. -/
def compareBounded (m : Ram) (fold : ℤ → ℤ) (first second : ℕ) : ℕ → ℕ → Except AccessFault ℤ
  | 0, _ => return 0
  | n + 1, i => do
    match ← compareAt m fold (first + i) (second + i) with
    | some r => return r
    | none => compareBounded m fold first second n (i + 1)

def strncmp (m : Ram) (first second length : ℕ) : Except AccessFault ℤ :=
  compareBounded m id first second length 0

def strncasecmp (m : Ram) (first second n : ℕ) : Except AccessFault ℤ :=
  compareBounded m tolower first second n 0

def memcmpLoop (m : Ram) (m1 m2 : ℕ) : ℕ → ℕ → Except AccessFault ℤ
  | 0, _ => return 0
  | n + 1, i => do
    let x ← m.load (m1 + i)
    let y ← m.load (m2 + i)
    if x ≠ y then return x.toNat - y.toNat
    memcmpLoop m m1 m2 n (i + 1)

def memcmp (m : Ram) (first second length : ℕ) : Except AccessFault ℤ :=
  memcmpLoop m first second length 0

def keys (fold : ℤ → ℤ) (s : List UInt8) : List ℤ := s.map (fun c => fold (charValue c))

def compared (fold : ℤ → ℤ) (s t : List UInt8) : ℕ := agreeing (keys fold s) (keys fold t) + 1

section Lemmas

variable {m : Ram} {fold : ℤ → ℤ} {p q : ℕ} {a b : List UInt8}

theorem compareAt_differ {c d : UInt8} (hc : m.load p = .ok c) (hd : m.load q = .ok d)
    (h : fold (charValue c) ≠ fold (charValue d)) :
    compareAt m fold p q = .ok (some (fold (charValue c) - fold (charValue d))) := by
  rw [compareAt, hc, ok_bind, hd, ok_bind, if_pos h, pure_eq]

theorem compareAt_same {c d : UInt8} (hc : m.load p = .ok c) (hd : m.load q = .ok d)
    (h : fold (charValue c) = fold (charValue d)) :
    compareAt m fold p q = .ok (if c = 0 ∨ d = 0 then some 0 else none) := by
  rw [compareAt, hc, ok_bind, hd, ok_bind, if_neg (not_not.mpr h), ok_bind]
  by_cases h0 : c = 0 <;> by_cases h0' : d = 0 <;> simp [h0, h0', pure_eq]

theorem keys_zero_notMem (hfold : ∀ x, fold x = 0 ↔ x = 0) (ha : 0 ∉ a) : 0 ∉ keys fold a := by
  intro h
  obtain ⟨c, hc, h0⟩ := List.mem_map.mp h
  rw [hfold, charValue_eq_zero] at h0
  exact ha (h0 ▸ hc)

theorem compared_cons {c d : UInt8} (h : fold (charValue c) = fold (charValue d)) :
    compared fold (c :: a) (d :: b) = compared fold a b + 1 := by
  simp [compared, keys, agreeing, h]

theorem compareAt_ok (hfold : ∀ x, fold x = 0 ↔ x = 0) (ha : 0 ∉ a) (hb : 0 ∉ b) {k : ℕ}
    (hp : m.Holds p ((a ++ [0]).take (k + 1))) (hq : m.Holds q ((b ++ [0]).take (k + 1))) :
    (∃ r, compareAt m fold p q = .ok (some r) ∧
      ∀ n, difference (keys fold (a.take (n + 1))) (keys fold (b.take (n + 1))) = r) ∨
    ∃ c a' d b', a = c :: a' ∧ b = d :: b' ∧ fold (charValue c) = fold (charValue d) ∧
      compareAt m fold p q = .ok none := by
  have h0 : fold (charValue 0) = 0 := (hfold 0).mpr rfl
  have hne {c : UInt8} (hc : 0 ≠ c) : fold (charValue c) ≠ 0 := by
    rw [Ne, hfold, charValue_eq_zero]
    exact Ne.symm hc
  have first {r : ℕ} {c : UInt8} {bs : List UInt8} (h : m.Holds r (c :: bs)) : m.load r = .ok c :=
    Ram.load_eq_ok.mpr (Ram.holds_cons.mp h).1
  cases a with
  | nil =>
    left
    cases b with
    | nil =>
      refine ⟨0, compareAt_same (first hp) (first hq) rfl, ?_⟩
      intro n
      rfl
    | cons d b =>
      rw [List.mem_cons, not_or] at hb
      refine ⟨_, compareAt_differ (first hp) (first hq) ?_, ?_⟩
      · rw [h0]
        exact Ne.symm (hne hb.1)
      · intro n
        rw [h0, zero_sub]
        exact difference_nil_cons _ _
  | cons c a =>
    rw [List.mem_cons, not_or] at ha
    cases b with
    | nil =>
      left
      refine ⟨_, compareAt_differ (first hp) (first hq) ?_, ?_⟩
      · rw [h0]
        exact hne ha.1
      · intro n
        rw [h0, sub_zero]
        exact difference_cons_nil _ _
    | cons d b =>
      rw [List.mem_cons, not_or] at hb
      by_cases h : fold (charValue c) = fold (charValue d)
      · right
        refine ⟨c, a, d, b, rfl, rfl, h, ?_⟩
        rw [compareAt_same (first hp) (first hq) h, if_neg]
        rintro (hc | hd)
        · exact ha.1 hc.symm
        · exact hb.1 hd.symm
      · left
        refine ⟨_, compareAt_differ (first hp) (first hq) h, ?_⟩
        intro n
        simp only [List.take_succ_cons, keys, List.map_cons, difference_cons_cons]
        rw [if_neg h]

theorem compareLoop_ok (hfold : ∀ x, fold x = 0 ↔ x = 0) {fuel : ℕ} (ha : 0 ∉ a) (hb : 0 ∉ b)
    (hp : m.Holds p ((a ++ [0]).take (compared fold a b)))
    (hq : m.Holds q ((b ++ [0]).take (compared fold a b))) (hf : compared fold a b ≤ fuel) :
    compareLoop m fold fuel p q = .ok (difference (keys fold a) (keys fold b)) := by
  induction fuel generalizing a b p q with
  | zero => exact absurd hf (Nat.not_succ_le_zero _)
  | succ fuel ih =>
    rw [compareLoop]
    rcases compareAt_ok hfold ha hb hp hq with ⟨r, hr, hd⟩ | ⟨c, a, d, b, rfl, rfl, h, hr⟩
    · rw [hr, ok_bind, ← hd (a.length + b.length), List.take_of_length_le (by omega),
        List.take_of_length_le (by omega)]
      rfl
    · rw [List.mem_cons, not_or] at ha hb
      rw [compared_cons h] at hp hq hf
      rw [hr, ok_bind]
      dsimp only
      rw [ih ha.2 hb.2 (Ram.holds_cons.mp hp).2 (Ram.holds_cons.mp hq).2 (by omega)]
      simp only [keys, List.map_cons, difference_cons_cons]
      rw [if_pos h]

theorem compareBounded_ok (hfold : ∀ x, fold x = 0 ↔ x = 0) {n i : ℕ} (ha : 0 ∉ a) (hb : 0 ∉ b)
    (hp : m.Holds (p + i) ((a ++ [0]).take (min n (compared fold a b))))
    (hq : m.Holds (q + i) ((b ++ [0]).take (min n (compared fold a b)))) :
    compareBounded m fold p q n i =
      .ok (difference (keys fold (a.take n)) (keys fold (b.take n))) := by
  induction n generalizing a b i with
  | zero => rfl
  | succ n ih =>
    rw [compareBounded]
    have hmin : min (n + 1) (compared fold a b) =
        min n (agreeing (keys fold a) (keys fold b)) + 1 := by
      unfold compared
      omega
    rw [hmin] at hp hq
    rcases compareAt_ok hfold ha hb hp hq with ⟨r, hr, hd⟩ | ⟨c, a, d, b, rfl, rfl, h, hr⟩
    · rw [hr, ok_bind, ← hd n]
      rfl
    · rw [List.mem_cons, not_or] at ha hb
      have hlen : agreeing (keys fold (c :: a)) (keys fold (d :: b)) = compared fold a b :=
        Nat.succ.inj (compared_cons h)
      rw [hlen] at hp hq
      rw [hr, ok_bind]
      dsimp only
      rw [ih ha.2 hb.2 (Ram.holds_cons.mp hp).2 (Ram.holds_cons.mp hq).2]
      simp only [keys, List.take_succ_cons, List.map_cons, difference_cons_cons]
      rw [if_pos h]

theorem memcmpLoop_ok {n i : ℕ} (hp : m.Holds (p + i) a) (hq : m.Holds (q + i) b)
    (ha : a.length = n) (hb : b.length = n) : memcmpLoop m p q n i =
      .ok ((firstDifference 0 a b).1.toNat - (firstDifference 0 a b).2.toNat) := by
  induction n generalizing a b i with
  | zero =>
    obtain rfl := List.length_eq_zero_iff.mp ha
    obtain rfl := List.length_eq_zero_iff.mp hb
    rfl
  | succ n ih =>
    obtain ⟨c, a, rfl⟩ := List.exists_cons_of_length_eq_add_one ha
    obtain ⟨d, b, rfl⟩ := List.exists_cons_of_length_eq_add_one hb
    obtain ⟨hc, hp⟩ := Ram.holds_cons.mp hp
    obtain ⟨hd, hq⟩ := Ram.holds_cons.mp hq
    rw [memcmpLoop, Ram.load_eq_ok.mpr hc, ok_bind, Ram.load_eq_ok.mpr hd, ok_bind,
      firstDifference]
    by_cases h : c = d
    · rw [if_neg (not_not.mpr h), if_pos h, ih hp hq (Nat.succ.inj ha) (Nat.succ.inj hb)]
    · rw [if_pos h, if_neg h]
      rfl

theorem compared_le_left (fold : ℤ → ℤ) (a b : List UInt8) : compared fold a b ≤ a.length + 1 := by
  have := agreeing_le_left (keys fold a) (keys fold b)
  rw [keys, List.length_map] at this
  exact Nat.succ_le_succ this

theorem compared_le_right (fold : ℤ → ℤ) (a b : List UInt8) :
    compared fold a b ≤ b.length + 1 := by
  have := agreeing_le_right (keys fold a) (keys fold b)
  rw [keys, keys, List.length_map] at this
  exact Nat.succ_le_succ this

theorem compareLoop_size (hfold : ∀ x, fold x = 0 ↔ x = 0) (ha : 0 ∉ a) (hb : 0 ∉ b)
    (hp : m.Holds p ((a ++ [0]).take (compared fold a b)))
    (hq : m.Holds q ((b ++ [0]).take (compared fold a b))) :
    compareLoop m fold (m.size + 1) p q = .ok (difference (keys fold a) (keys fold b)) := by
  apply compareLoop_ok hfold ha hb hp hq
  have hl : ((a ++ [0]).take (compared fold a b)).length = compared fold a b := by
    have := compared_le_left fold a b
    rw [List.length_take, List.length_append, List.length_singleton]
    omega
  obtain ⟨c, hc⟩ := Option.isSome_iff_exists.mp (hp.mapped (compared fold a b - 1) (by
    rw [hl]
    exact Nat.sub_lt (Nat.succ_pos _) Nat.one_pos))
  have := Ram.lt_size hc
  omega

end Lemmas

end OsdevLibstdc.Cstring
