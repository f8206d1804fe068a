import OsdevLibstdc.FormatGrammar
import OsdevLibstdc.FormatTotals

/-! Parsing the text of a directive gives back what the directive says. -/

namespace OsdevLibstdc.Vsnprintf

open Target LittleEndian Outcomes

section Flags

def FormatFlags.add (flags : FormatFlags) : Flag → FormatFlags
  | .minus => { flags with minus := true }
  | .plus => { flags with plus := true }
  | .space => { flags with space := true }
  | .alt => { flags with alt := true }
  | .zero => { flags with zero := true }

theorem addFlag_byte (flags : FormatFlags) (f : Flag) :
    addFlag flags f.byte = some (flags.add f) := by
  cases f <;> rfl

theorem scanFlags_flags (fs : List Flag) (flags : FormatFlags) {c : UInt8} (rest : Cursor)
    (hc : ∀ flags, addFlag flags c = none) :
    scanFlags (fs.map Flag.byte ++ c :: rest) flags = .ok (fs.foldl FormatFlags.add flags, c :: rest) := by
  induction fs generalizing flags with
  | nil =>
    rw [List.map_nil, List.nil_append, scanFlags, hc]
    rfl
  | cons f fs ih =>
    rw [List.map_cons, List.cons_append, scanFlags, addFlag_byte]
    exact ih _

theorem foldl_add (fs : List Flag) (flags : FormatFlags) :
    fs.foldl FormatFlags.add flags =
      { minus := flags.minus || (flagSet fs).minus
        plus := flags.plus || (flagSet fs).plus
        space := flags.space || (flagSet fs).space
        alt := flags.alt || (flagSet fs).alt
        zero := flags.zero || (flagSet fs).zero
        huge := flags.huge } := by
  induction fs generalizing flags with
  | nil => simp [flagSet]
  | cons f fs ih =>
    rw [List.foldl_cons, ih]
    cases f <;> simp [FormatFlags.add, flagSet]

theorem scanFlags_text (fs : List Flag) {c : UInt8} (rest : Cursor)
    (hc : ∀ flags, addFlag flags c = none) :
    scanFlags (fs.map Flag.byte ++ c :: rest) {} = .ok (flagSet fs, c :: rest) := by
  rw [scanFlags_flags fs {} rest hc, foldl_add]
  simp [flagSet]

theorem flagSet_congr {fs fs' : List Flag} (h : ∀ f, f ∈ fs ↔ f ∈ fs') : flagSet fs = flagSet fs' := by
  simp [flagSet, h]

end Flags

section Digits

theorem charValue_digit (d : Fin 10) : charValue (digit d) = 48 + d.val := by
  revert d
  decide

theorem isdigit_digit (d : Fin 10) : isdigit (charValue (digit d)) = true := by
  revert d
  decide

theorem digit_ne (d : Fin 10) : digit d ≠ byte '*' ∧ digit d ≠ byte '-' := by
  revert d
  decide

theorem decimalFrom_le (ds : List (Fin 10)) (v : ℕ) : v ≤ decimalFrom v ds := by
  induction ds generalizing v with
  | nil => exact le_rfl
  | cons d ds ih => exact le_trans (by omega) (ih (v * 10 + d.val))

theorem parseNumber_digits (T : Machine) (ds : List (Fin 10)) (v : ℕ) {c : UInt8} (rest : Cursor)
    (hc : isdigit (charValue c) = false) (hv : (decimalFrom v ds : ℤ) ≤ INT_MAX) :
    parseNumber T (ds.map digit ++ c :: rest) v = .ok (decimalFrom v ds, c :: rest) := by
  induction ds generalizing v with
  | nil =>
    rw [List.map_nil, List.nil_append, parseNumber, hc]
    rfl
  | cons d ds ih =>
    have hle := decimalFrom_le ds (v * 10 + d.val)
    have hstep : (v : ℤ) * 10 + (charValue (digit d) - 48) = ((v * 10 + d.val : ℕ) : ℤ) := by
      rw [charValue_digit]
      push_cast
      omega
    rw [decimalFrom] at hv ⊢
    rw [List.map_cons, List.cons_append, parseNumber, if_pos (isdigit_digit d), hstep,
      arith_int_eq T (by simp only [INT_MIN]; omega) (by omega), ok_bind]
    exact ih _ hv

theorem parseNumber_literal (T : Machine) (n : Literal) {c : UInt8} (rest : Cursor)
    (hc : isdigit (charValue c) = false) :
    parseNumber T (n.digits.map digit ++ c :: rest) 0 = .ok (decimal n.digits, c :: rest) := by
  have h := parseNumber_digits T n.digits 0 rest hc n.bound
  rw [Nat.cast_zero] at h
  exact h

theorem skipDigits_digits (ds : List (Fin 10)) {c : UInt8} (rest : Cursor)
    (hc : isdigit (charValue c) = false) :
    skipDigits (ds.map digit ++ c :: rest) = .ok (c :: rest) := by
  induction ds with
  | nil =>
    rw [List.map_nil, List.nil_append, skipDigits, hc]
    rfl
  | cons d ds ih =>
    rw [List.map_cons, List.cons_append, skipDigits, if_pos (isdigit_digit d)]
    exact ih

end Digits

section Parts

structure EndsWidth (c : UInt8) : Prop where
  flag : ∀ flags, addFlag flags c = none
  digit : isdigit (charValue c) = false
  star : c ≠ byte '*'
  minus : c ≠ byte '-'

theorem endsWidth_specifier (k : Specifier) : EndsWidth k.byte ∧ k.byte ≠ byte '.' := by
  cases k <;> exact ⟨⟨fun _ => rfl, by decide, by decide, by decide⟩, by decide⟩

theorem length_head (len : LengthSpec) (k : Specifier) (rest : Cursor) :
    ∃ c r, len.text ++ [k.byte] ++ rest = c :: r ∧ EndsWidth c ∧ c ≠ byte '.' := by
  cases len with
  | null => exact ⟨_, _, rfl, endsWidth_specifier k⟩
  | _ => exact ⟨_, _, rfl, ⟨fun _ => rfl, by decide, by decide, by decide⟩, by decide⟩

theorem precision_head (p : Precision) {c : UInt8} (r : Cursor) (hc : EndsWidth c) :
    ∃ c' r', p.text ++ c :: r = c' :: r' ∧ EndsWidth c' := by
  cases p with
  | none => exact ⟨c, r, rfl, hc⟩
  | _ => exact ⟨_, _, rfl, ⟨fun _ => rfl, by decide, by decide, by decide⟩⟩

theorem width_head (w : Width) {c : UInt8} (r : Cursor) (hc : EndsWidth c) :
    ∃ c' r', w.text ++ c :: r = c' :: r' ∧ ∀ flags, addFlag flags c' = none := by
  cases w with
  | none => exact ⟨c, r, rfl, hc.flag⟩
  | star v => exact ⟨_, _, rfl, fun _ => rfl⟩
  | literal n hn =>
    obtain ⟨d, ds, hds, hd⟩ := hn
    refine ⟨digit d, ds.map digit ++ c :: r, by simp [Width.text, hds], ?_⟩
    have h : ∀ d : Fin 10, d ≠ 0 → ∀ f : Flag, digit d ≠ f.byte := by
      intro d hd f
      revert hd
      revert d
      cases f <;> decide
    intro flags
    have hm := h d hd .minus
    have hp := h d hd .plus
    have hs := h d hd .space
    have ha := h d hd .alt
    have hz := h d hd .zero
    simp only [Flag.byte] at hm hp hs ha hz
    rw [addFlag, if_neg ha, if_neg hs, if_neg hz, if_neg hm, if_neg hp]

variable {T : Machine}

theorem parseFieldWidth_text (w : Width) {c : UInt8} (r : Cursor) (hc : EndsWidth c)
    (spec : FormatSpec) {ap ap' : VaList} (hw : spec.fieldWidth = -1)
    (hap : Passed T.model w.args ap ap') :
    parseFieldWidth T ⟨w.text ++ c :: r, spec, ap⟩ =
      .ok ⟨c :: r, { spec with fieldWidth := w.value }, ap'⟩ := by
  cases w with
  | none =>
    cases hap
    simp only [parseFieldWidth, Width.text, List.nil_append, deref, ok_bind, if_neg hc.star,
      hc.digit, Bool.false_eq_true, ↓reduceIte, if_neg hc.minus, Width.value, ← hw]
    rfl
  | star v =>
    obtain ⟨ap'', harg, hnil⟩ := hap.vaArg
    cases hnil
    simp only [parseFieldWidth, Width.text, List.cons_append, List.nil_append, deref, ok_bind,
      ↓reduceIte, harg]
    rfl
  | literal n hn =>
    obtain ⟨d, ds, hds, hd⟩ := hn
    cases hap
    have hparse := parseNumber_literal T n r hc.digit
    have htext : n.digits.map digit ++ c :: r = digit d :: (ds.map digit ++ c :: r) := by
      rw [hds, List.map_cons, List.cons_append]
    rw [htext] at hparse
    simp only [parseFieldWidth, Width.text, htext, deref, ok_bind, if_neg (digit_ne d).1,
      isdigit_digit, ↓reduceIte, hparse]
    rfl

theorem parsePrecision_text (p : Precision) {c : UInt8} (r : Cursor) (hc : EndsWidth c)
    (hdot : c ≠ byte '.') (spec : FormatSpec) {ap ap' : VaList} (hp : spec.precision = -1)
    (hap : Passed T.model p.args ap ap') :
    parsePrecision T ⟨p.text ++ c :: r, spec, ap⟩ = .ok ⟨c :: r, { spec with
      precision := p.value
      flags.zero := spec.flags.zero && p.isNone }, ap'⟩ := by
  cases p with
  | none =>
    cases hap
    simp only [parsePrecision, Precision.text, List.nil_append, deref, ok_bind, if_neg hdot,
      Precision.value, Precision.isNone, Bool.and_true, ← hp]
    rfl
  | star v =>
    obtain ⟨ap'', harg, hnil⟩ := hap.vaArg
    cases hnil
    simp only [parsePrecision, Precision.text, List.cons_append, List.nil_append, deref, ok_bind,
      ↓reduceIte, List.tail_cons, harg, Precision.value, Precision.isNone, Bool.and_false]
    rfl
  | negative ds =>
    cases hap
    have hne : byte '-' ≠ byte '*' := by decide
    simp only [parsePrecision, Precision.text, List.cons_append, deref, ok_bind, ↓reduceIte,
      List.tail_cons, if_neg hne, skipDigits_digits ds r hc.digit, Precision.value,
      Precision.isNone, Bool.and_false]
    rfl
  | literal n =>
    cases hap
    have hparse := parseNumber_literal T n r hc.digit
    simp only [parsePrecision, Precision.text, List.cons_append, deref, ok_bind, ↓reduceIte,
      List.tail_cons, Precision.value, Precision.isNone, Bool.and_false]
    cases hds : n.digits with
    | nil =>
      simp only [List.map_nil, List.nil_append, ok_bind, if_neg hc.star, if_neg hc.minus,
        hc.digit, Bool.false_eq_true, ↓reduceIte]
      rfl
    | cons d ds =>
      rw [hds] at hparse
      simp only [List.map_cons, List.cons_append, ok_bind, if_neg (digit_ne d).1,
        if_neg (digit_ne d).2, isdigit_digit, ↓reduceIte] at hparse ⊢
      rw [hparse]
      rfl

theorem parseSizeSpecifier_text (len : LengthSpec) (k : Specifier) (rest : Cursor)
    (spec : FormatSpec) (hl : spec.lengthSpec = .null) :
    parseSizeSpecifier (len.text ++ [k.byte] ++ rest) spec =
      .ok ({ spec with lengthSpec := len }, k.byte :: rest) := by
  have hh : k.byte ≠ byte 'h' ∧ k.byte ≠ byte 'l' ∧ k.byte ≠ byte 'z' ∧ k.byte ≠ byte 't' := by
    cases k <;> decide
  obtain ⟨h1, h2, h3, h4⟩ := hh
  have hlh : byte 'l' ≠ byte 'h' := by decide
  have hzh : byte 'z' ≠ byte 'h' ∧ byte 'z' ≠ byte 'l' := by decide
  have hth : byte 't' ≠ byte 'h' ∧ byte 't' ≠ byte 'l' ∧ byte 't' ≠ byte 'z' := by decide
  cases len <;>
    simp only [parseSizeSpecifier, LengthSpec.text, List.cons_append, List.nil_append, deref,
      ok_bind, ↓reduceIte, List.tail_cons, if_neg h1, if_neg h2, if_neg h3, if_neg h4, if_neg hlh,
      if_neg hzh.1, if_neg hzh.2, if_neg hth.1, if_neg hth.2.1, if_neg hth.2.2, ← hl] <;>
    rfl

end Parts

def Parses (T : Machine) (spec : FormatSpec) (fmt : Cursor) (ap : VaList) (spec' : FormatSpec)
    (fmt' : Cursor) (ap' : VaList) : Prop :=
  ∃ p, parseFlagsFwPrecision T fmt spec ap = .ok p ∧ p.ap = ap' ∧
    parseSizeSpecifier p.fmt p.spec = .ok (spec', fmt')

theorem parses_directive (T : Machine) (d : Directive) (rest : Cursor) {ap ap' : VaList}
    (hap : Passed T.model d.starArgs ap ap') :
    Parses T {} (d.text ++ rest) ap d.spec (d.specifier.byte :: rest) ap' := by
  obtain ⟨ap'', hwidth, hprec⟩ := passed_append.mp hap
  obtain ⟨c, r, htail, hc, hdot⟩ := length_head d.length d.specifier rest
  obtain ⟨c', r', hp, hc'⟩ := precision_head d.precision r hc
  obtain ⟨c'', r'', hw, hc''⟩ := width_head d.width r' hc'
  have htext : d.text ++ rest = d.flags.map Flag.byte ++ c'' :: r'' := by
    rw [← hw, ← hp, ← htail]
    simp only [Directive.text, List.append_assoc]
  let spec : FormatSpec := { flags := flagSet d.flags }
  have hwidth := parseFieldWidth_text d.width r' hc' spec rfl hwidth
  have hprec := parsePrecision_text d.precision r hc hdot
    { spec with fieldWidth := d.width.value } rfl hprec
  rw [hw] at hwidth
  rw [hp] at hprec
  have hparse : parseFlagsFwPrecision T (d.text ++ rest) {} ap =
      .ok ⟨c :: r, { d.spec with lengthSpec := .null }, ap'⟩ := by
    rw [htext, parseFlagsFwPrecision, scanFlags_text d.flags r'' hc'', ok_bind]
    simp only
    rw [hwidth, ok_bind, hprec]
    rfl
  refine ⟨_, hparse, rfl, ?_⟩
  rw [← htail]
  exact parseSizeSpecifier_text d.length d.specifier rest _ rfl

theorem Parses.withTotal {T : Machine} {spec spec' : FormatSpec} {fmt fmt' : Cursor}
    {ap ap' : VaList} (h : Parses T spec fmt ap spec' fmt' ap') (t : ℤ) :
    Parses T (spec.withTotal t) fmt ap (spec'.withTotal t) fmt' ap' := by
  obtain ⟨p, hp, hap, hs⟩ := h
  refine ⟨p.withTotal t, ?_, hap, ?_⟩
  · rw [parseFlagsFwPrecision_withTotal, hp]
    rfl
  · rw [Parsed.withTotal, parseSizeSpecifier_withTotal, hs]
    rfl

theorem parses_text (T : Machine) (spec : FormatSpec) (d : Directive) (rest : Cursor)
    {ap ap' : VaList} (hap : Passed T.model d.starArgs ap ap') :
    Parses T spec.reset (d.text ++ rest) ap (d.spec.withTotal spec.total)
      (d.specifier.byte :: rest) ap' ∧
    ∀ fs, (∀ f, f ∈ fs ↔ f ∈ d.flags) →
      Parses T spec.reset ({ d with flags := fs }.text ++ rest) ap (d.spec.withTotal spec.total)
        (d.specifier.byte :: rest) ap' := by
  constructor
  · exact (parses_directive T d rest hap).withTotal spec.total
  · intro fs hfs
    have hspec : { d with flags := fs }.spec = d.spec := by
      simp only [Directive.spec, flagSet_congr hfs]
    have h := (parses_directive T { d with flags := fs } rest hap).withTotal spec.total
    rw [hspec] at h
    exact h

def starred : Directive := ⟨[.zero, .minus], .star 5, .none, .l, .d⟩

theorem parses_text_starred :
    Parses (wrapping .lp64) ({} : FormatSpec).reset (starred.text ++ []) (encode 8 5 ++ [])
      (starred.spec.withTotal 0) [starred.specifier.byte] [] ∧
    ∀ fs, (∀ f, f ∈ fs ↔ f ∈ starred.flags) →
      Parses (wrapping .lp64) ({} : FormatSpec).reset ({ starred with flags := fs }.text ++ [])
        (encode 8 5 ++ []) (starred.spec.withTotal 0) [starred.specifier.byte] [] :=
  parses_text (wrapping .lp64) {} starred [] (.cons (by decide) (.nil []))

end OsdevLibstdc.Vsnprintf
