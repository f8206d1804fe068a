import OsdevLibstdc.ParsingOverflow

/-!
What the two parsers accept in front of a conversion: exactly the flags, width, precision and length
of a directive, each as long as it can be, where no number overflows.
-/

namespace OsdevLibstdc.Vsnprintf

open Target Outcomes

def Directive.modifiers (d : Directive) : List UInt8 :=
  d.flags.map Flag.byte ++ (d.width.text ++ (d.precision.text ++ d.length.text))

/-- `c` behind the text of a width is not read as a part of it. -/
def Width.Ends (c : UInt8) : Width → Prop
  | none => (∀ f : Flag, c ≠ f.byte) ∧ c ≠ byte '*' ∧ ¬ isdigit (charValue c)
  | literal _ _ => ¬ isdigit (charValue c)
  | star _ => True

def Precision.Ends (c : UInt8) : Precision → Prop
  | none => c ≠ byte '.'
  | literal n => ¬ isdigit (charValue c) ∧ (n.digits = [] → c ≠ byte '*' ∧ c ≠ byte '-')
  | negative _ => ¬ isdigit (charValue c)
  | star _ => True

def LengthSpec.Ends (c : UInt8) : LengthSpec → Prop
  | null => c ≠ byte 'h' ∧ c ≠ byte 'l' ∧ c ≠ byte 'z' ∧ c ≠ byte 't'
  | h => c ≠ byte 'h'
  | l => c ≠ byte 'l'
  | _ => True

structure Directive.Ends (d : Directive) (c : UInt8) : Prop where
  length : d.length.Ends c
  precision : d.length = .null → d.precision.Ends c
  width : d.length = .null → d.precision = .none → d.width.Ends c

section Parts

variable {D : DataModel} {fmt fmt' : Cursor} {spec spec' : FormatSpec} {ap ap' : VaList}

theorem exists_digit {c : UInt8} (h : isdigit (charValue c)) :
    ∃ d : Fin 10, digit d = c ∧ charValue c - 48 = d.val := by
  have hall : ∀ n : Fin 256, isdigit (charValue (UInt8.ofNat n)) →
      ∃ d : Fin 10, digit d = UInt8.ofNat n ∧ charValue (UInt8.ofNat n) - 48 = d.val := by
    decide +kernel
  have hc := hall ⟨c.toNat, c.toNat_lt⟩
  rw [UInt8.ofNat_toNat] at hc
  exact hc h

theorem parseNumber_accepts {v : ℕ} {x : ℤ} (hv : (v : ℤ) ≤ INT_MAX)
    (h : parseNumber (trapping D) fmt v = .ok (x, fmt')) :
    ∃ ds : List (Fin 10), fmt = ds.map digit ++ fmt' ∧ x = decimalFrom v ds ∧
      (decimalFrom v ds : ℤ) ≤ INT_MAX ∧ ∀ c r, fmt' = c :: r → ¬ isdigit (charValue c) := by
  induction fmt generalizing v with
  | nil => cases h
  | cons c fmt ih =>
    rw [parseNumber] at h
    split_ifs at h with hd
    · obtain ⟨d, rfl, hval⟩ := exists_digit hd
      obtain ⟨y, hy, h⟩ := bind_eq_ok.mp h
      obtain ⟨hin, hy⟩ := (arith_int_checks _).of_ok hy
      rw [arith_int_wrapping, wrapInt_eq hin.1 hin.2] at hy
      have hnext : y = ((v * 10 + d.val : ℕ) : ℤ) := by
        rw [← Except.ok.inj hy, hval]
        push_cast
        rfl
      rw [hnext] at h
      have hmax : ((v * 10 + d.val : ℕ) : ℤ) ≤ INT_MAX := by
        rw [← hnext, ← Except.ok.inj hy]
        exact hin.2
      obtain ⟨ds, rfl, hx, hle, hend⟩ := ih hmax h
      exact ⟨d :: ds, rfl, hx, hle, hend⟩
    · obtain ⟨rfl, rfl⟩ := Prod.mk.inj (Except.ok.inj h)
      refine ⟨[], rfl, rfl, hv, ?_⟩
      intro c' r hc'
      rwa [← (List.cons.inj hc').1]

theorem parseNumber_literal_accepts {x : ℤ} (h : parseNumber (trapping D) fmt 0 = .ok (x, fmt')) :
    ∃ n : Literal, fmt = n.digits.map digit ++ fmt' ∧ x = decimal n.digits ∧
      ∀ c r, fmt' = c :: r → ¬ isdigit (charValue c) := by
  obtain ⟨ds, hfmt, hx, hle, hend⟩ := parseNumber_accepts (v := 0) (by decide) h
  exact ⟨⟨ds, hle⟩, hfmt, hx, hend⟩

theorem skipDigits_accepts (h : skipDigits fmt = .ok fmt') :
    ∃ ds : List (Fin 10), fmt = ds.map digit ++ fmt' ∧
      ∀ c r, fmt' = c :: r → ¬ isdigit (charValue c) := by
  induction fmt with
  | nil => cases h
  | cons c fmt ih =>
    rw [skipDigits] at h
    split_ifs at h with hd
    · obtain ⟨d, rfl, -⟩ := exists_digit hd
      obtain ⟨ds, rfl, hend⟩ := ih h
      exact ⟨d :: ds, rfl, hend⟩
    · obtain rfl := Except.ok.inj h
      refine ⟨[], rfl, ?_⟩
      intro c' r hc'
      rwa [← (List.cons.inj hc').1]

theorem exists_flag {flags flags' : FormatFlags} {c : UInt8} (h : addFlag flags c = some flags') :
    ∃ f : Flag, f.byte = c ∧ flags' = flags.add f := by
  unfold addFlag at h
  split_ifs at h with h1 h2 h3 h4 h5
  · exact ⟨.alt, h1.symm, (Option.some.inj h).symm⟩
  · exact ⟨.space, h2.symm, (Option.some.inj h).symm⟩
  · exact ⟨.zero, h3.symm, (Option.some.inj h).symm⟩
  · exact ⟨.minus, h4.symm, (Option.some.inj h).symm⟩
  · exact ⟨.plus, h5.symm, (Option.some.inj h).symm⟩

theorem scanFlags_accepts {flags flags' : FormatFlags}
    (h : scanFlags fmt flags = .ok (flags', fmt')) : ∃ fs : List Flag, fmt = fs.map Flag.byte ++ fmt' ∧
      flags' = fs.foldl FormatFlags.add flags ∧
      ∃ c r, fmt' = c :: r ∧ ∀ f : Flag, c ≠ f.byte := by
  induction fmt generalizing flags with
  | nil => cases h
  | cons c fmt ih =>
    rw [scanFlags] at h
    cases hadd : addFlag flags c with
    | some flags₁ =>
      rw [hadd] at h
      obtain ⟨f, rfl, rfl⟩ := exists_flag hadd
      obtain ⟨fs, rfl, hflags, hhead⟩ := ih h
      exact ⟨f :: fs, rfl, hflags, hhead⟩
    | none =>
      rw [hadd] at h
      obtain ⟨rfl, rfl⟩ := Prod.mk.inj (Except.ok.inj h)
      refine ⟨[], rfl, rfl, c, fmt, rfl, ?_⟩
      rintro f rfl
      rw [addFlag_byte] at hadd
      cases hadd

theorem parseFieldWidth_accepts {p q : Parsed} {c : UInt8} {r : Cursor} (hp : p.fmt = c :: r)
    (hc : ∀ f : Flag, c ≠ f.byte) (hw : p.spec.fieldWidth = -1)
    (h : parseFieldWidth (trapping D) p = .ok q) : ∃ w : Width, p.fmt = w.text ++ q.fmt ∧
      q.spec = { p.spec with fieldWidth := w.value } ∧ Passed D w.args p.ap q.ap ∧
      ∀ c r, q.fmt = c :: r → w.Ends c := by
  simp only [parseFieldWidth, hp, deref, ok_bind] at h
  split_ifs at h with hstar hdigit hminus
  · obtain ⟨v, hv, h⟩ := bind_eq_ok.mp h
    obtain rfl := Except.ok.inj h
    refine ⟨.star v.1, ?_, rfl, passed_of_vaArg hv, fun _ _ _ => trivial⟩
    rw [hp, hstar]
    rfl
  · obtain ⟨v, hv, h⟩ := bind_eq_ok.mp h
    obtain rfl := Except.ok.inj h
    obtain ⟨n, hn, hval, hend⟩ := parseNumber_literal_accepts hv
    have hlead : ∃ d ds, n.digits = d :: ds ∧ d ≠ 0 := by
      cases hds : n.digits with
      | nil =>
        rw [hds] at hn
        exact absurd hdigit (hend _ _ hn.symm)
      | cons d ds =>
        refine ⟨d, ds, rfl, ?_⟩
        rintro rfl
        rw [hds] at hn
        exact hc .zero (List.cons.inj hn).1
    refine ⟨.literal n hlead, ?_, ?_, .nil _, hend⟩
    · rw [hp, hn]
      rfl
    · rw [hval]
      rfl
  · exact absurd hminus (hc .minus)
  · obtain rfl := Except.ok.inj h
    refine ⟨.none, rfl, ?_, .nil _, ?_⟩
    · rw [Width.value, ← hw]
    · intro c' r' hc'
      rw [hp] at hc'
      obtain ⟨rfl, -⟩ := List.cons.inj hc'
      exact ⟨hc, hstar, hdigit⟩

theorem parsePrecision_accepts {p q : Parsed} (hp : p.spec.precision = -1)
    (h : parsePrecision (trapping D) p = .ok q) : ∃ pr : Precision, p.fmt = pr.text ++ q.fmt ∧
      q.spec = { p.spec with
        precision := pr.value
        flags.zero := p.spec.flags.zero && pr.isNone } ∧ Passed D pr.args p.ap q.ap ∧
      ∀ c r, q.fmt = c :: r → pr.Ends c := by
  obtain ⟨c, hc, h⟩ := bind_eq_ok.mp h
  have hfmt := deref_eq_ok hc
  split_ifs at h with hdot
  · obtain ⟨c', hc', h⟩ := bind_eq_ok.mp h
    have htail := deref_eq_ok hc'
    have hzero : (p.spec.flags.zero && false) = false := Bool.and_false _
    rw [hdot] at hfmt
    split_ifs at h with hstar hminus hdigit
    · obtain ⟨v, hv, h⟩ := bind_eq_ok.mp h
      obtain rfl := Except.ok.inj h
      refine ⟨.star v.1, ?_, ?_, passed_of_vaArg hv, fun _ _ _ => trivial⟩
      · rw [hfmt, htail, hstar]
        rfl
      · simp only [Precision.isNone, hzero]
        rfl
    · obtain ⟨fmt', hskip, h⟩ := bind_eq_ok.mp h
      obtain rfl := Except.ok.inj h
      obtain ⟨ds, hds, hend⟩ := skipDigits_accepts hskip
      refine ⟨.negative ds, ?_, ?_, .nil _, hend⟩
      · rw [hfmt, htail, hminus, hds]
        rfl
      · simp only [Precision.isNone, hzero]
        rfl
    · obtain ⟨v, hv, h⟩ := bind_eq_ok.mp h
      obtain rfl := Except.ok.inj h
      obtain ⟨n, hn, hval, hend⟩ := parseNumber_literal_accepts hv
      refine ⟨.literal n, ?_, ?_, .nil _, ?_⟩
      · rw [hfmt, hn]
        rfl
      · simp only [Precision.isNone, hzero, hval]
        rfl
      · intro c'' r hc''
        refine ⟨hend c'' r hc'', fun hnil => ?_⟩
        rw [hnil, htail] at hn
        exact absurd hdigit (hend _ _ hn.symm)
    · obtain rfl := Except.ok.inj h
      refine ⟨.literal ⟨[], by decide⟩, hfmt, ?_, .nil _, ?_⟩
      · simp only [Precision.isNone, hzero]
        rfl
      · intro c'' r hc''
        rw [htail] at hc''
        obtain ⟨rfl, -⟩ := List.cons.inj hc''
        exact ⟨hdigit, fun _ => ⟨hstar, hminus⟩⟩
  · obtain rfl := Except.ok.inj h
    refine ⟨.none, rfl, ?_, .nil _, ?_⟩
    · simp only [Precision.isNone, Bool.and_true, Precision.value, ← hp]
    · intro c' r hc'
      rw [hfmt] at hc'
      obtain ⟨rfl, -⟩ := List.cons.inj hc'
      exact hdot

theorem parseSizeSpecifier_accepts (hl : spec.lengthSpec = .null)
    (h : parseSizeSpecifier fmt spec = .ok (spec', fmt')) :
    ∃ len : LengthSpec, fmt = len.text ++ fmt' ∧ spec' = { spec with lengthSpec := len } ∧
      ∀ c r, fmt' = c :: r → len.Ends c := by
  obtain ⟨c, hc, h⟩ := bind_eq_ok.mp h
  have hfmt := deref_eq_ok hc
  split_ifs at h with h1 h2 h3 h4
  · obtain ⟨c', hc', h⟩ := bind_eq_ok.mp h
    have htail := deref_eq_ok hc'
    rw [h1] at hfmt
    split_ifs at h with h1' <;> obtain ⟨rfl, rfl⟩ := Prod.mk.inj (Except.ok.inj h)
    · rw [h1'] at htail
      refine ⟨.hh, ?_, rfl, fun _ _ _ => trivial⟩
      rw [hfmt, htail]
      rfl
    · refine ⟨.h, hfmt, rfl, ?_⟩
      intro c'' r hc''
      rw [htail] at hc''
      obtain ⟨rfl, -⟩ := List.cons.inj hc''
      exact h1'
  · obtain ⟨c', hc', h⟩ := bind_eq_ok.mp h
    have htail := deref_eq_ok hc'
    rw [h2] at hfmt
    split_ifs at h with h2' <;> obtain ⟨rfl, rfl⟩ := Prod.mk.inj (Except.ok.inj h)
    · rw [h2'] at htail
      refine ⟨.ll, ?_, rfl, fun _ _ _ => trivial⟩
      rw [hfmt, htail]
      rfl
    · refine ⟨.l, hfmt, rfl, ?_⟩
      intro c'' r hc''
      rw [htail] at hc''
      obtain ⟨rfl, -⟩ := List.cons.inj hc''
      exact h2'
  · obtain ⟨rfl, rfl⟩ := Prod.mk.inj (Except.ok.inj h)
    rw [h3] at hfmt
    exact ⟨.z, hfmt, rfl, fun _ _ _ => trivial⟩
  · obtain ⟨rfl, rfl⟩ := Prod.mk.inj (Except.ok.inj h)
    rw [h4] at hfmt
    exact ⟨.t, hfmt, rfl, fun _ _ _ => trivial⟩
  · obtain ⟨rfl, rfl⟩ := Prod.mk.inj (Except.ok.inj h)
    refine ⟨.null, rfl, ?_, ?_⟩
    · rw [← hl]
    · intro c' r hc'
      rw [hfmt] at hc'
      obtain ⟨rfl, -⟩ := List.cons.inj hc'
      exact ⟨h1, h2, h3, h4⟩

theorem parses_accepts (k : Specifier) {c : UInt8} {r : Cursor}
    (h : Parses (trapping D) {} fmt ap spec' (c :: r) ap') :
    ∃ d : Directive, d.specifier = k ∧ fmt = d.modifiers ++ c :: r ∧ d.Ends c ∧ spec' = d.spec ∧
      Passed D d.starArgs ap ap' := by
  obtain ⟨p, hp, rfl, hsize⟩ := h
  obtain ⟨scanned, hscan, hp⟩ := bind_eq_ok.mp hp
  obtain ⟨q, hwidth, hprec⟩ := bind_eq_ok.mp hp
  obtain ⟨fs, hfs, hflags, c', more, hc', hnot⟩ := scanFlags_accepts hscan
  obtain ⟨w, hw, hwspec, hwargs, hwends⟩ := parseFieldWidth_accepts hc' hnot rfl hwidth
  have hnone : q.spec.precision = -1 := by rw [hwspec]
  obtain ⟨pr, hpr, hprspec, hprargs, hprends⟩ := parsePrecision_accepts hnone hprec
  have hnull : p.spec.lengthSpec = .null := by rw [hprspec, hwspec]
  obtain ⟨len, hlen, hlenspec, hlenends⟩ := parseSizeSpecifier_accepts hnull hsize
  have hplain (h : len = .null) : p.fmt = c :: r := by rw [hlen, h]; rfl
  refine ⟨⟨fs, w, pr, len, k⟩, rfl, ?_, ⟨hlenends c r rfl, fun h => hprends c r (hplain h), ?_⟩,
    ?_, passed_append.mpr ⟨_, hwargs, hprargs⟩⟩
  · have hw' : scanned.2 = w.text ++ q.fmt := hw
    rw [hfs, hw', hpr, hlen]
    simp only [Directive.modifiers, List.append_assoc]
  · intro h hpn
    apply hwends c r
    rw [hpr, show pr = .none from hpn]
    exact hplain h
  · have hset : scanned.1 = flagSet fs := by
      rw [hflags, foldl_add]
      simp [flagSet]
    rw [hlenspec, hprspec, hwspec, hset]
    rfl

end Parts

section Ends

variable {T : Machine} {c : UInt8} {spec : FormatSpec} {ap ap' : VaList}

theorem EndsWidth.ends (h : EndsWidth c) (w : Width) : w.Ends c := by
  have hdigit : ¬ isdigit (charValue c) := by simp [h.digit]
  cases w with
  | none =>
    refine ⟨?_, h.star, hdigit⟩
    rintro f rfl
    have hnone := h.flag {}
    rw [addFlag_byte] at hnone
    cases hnone
  | literal => exact hdigit
  | star => trivial

theorem EndsWidth.ends_precision (h : EndsWidth c) (hdot : c ≠ byte '.') (p : Precision) :
    p.Ends c := by
  have hdigit : ¬ isdigit (charValue c) := by simp [h.digit]
  cases p with
  | none => exact hdot
  | literal => exact ⟨hdigit, fun _ => ⟨h.star, h.minus⟩⟩
  | negative => exact hdigit
  | star => trivial

theorem parseSizeSpecifier_ends {len : LengthSpec} (hc : len.Ends c) (hl : spec.lengthSpec = .null)
    (r : Cursor) : parseSizeSpecifier (len.text ++ c :: r) spec =
      .ok ({ spec with lengthSpec := len }, c :: r) := by
  have hlh : byte 'l' ≠ byte 'h' := by decide
  have hzh : byte 'z' ≠ byte 'h' ∧ byte 'z' ≠ byte 'l' := by decide
  have hth : byte 't' ≠ byte 'h' ∧ byte 't' ≠ byte 'l' ∧ byte 't' ≠ byte 'z' := by decide
  cases len with
  | null =>
    obtain ⟨h1, h2, h3, h4⟩ := hc
    simp only [parseSizeSpecifier, LengthSpec.text, List.nil_append, deref, ok_bind, if_neg h1,
      if_neg h2, if_neg h3, if_neg h4, ← hl]
    rfl
  | h =>
    have hne : c ≠ byte 'h' := hc
    simp only [parseSizeSpecifier, LengthSpec.text, List.cons_append, List.nil_append, deref,
      ok_bind, ↓reduceIte, List.tail_cons, if_neg hne]
    rfl
  | l =>
    have hne : c ≠ byte 'l' := hc
    simp only [parseSizeSpecifier, LengthSpec.text, List.cons_append, List.nil_append, deref,
      ok_bind, ↓reduceIte, List.tail_cons, if_neg hlh, if_neg hne]
    rfl
  | _ =>
    simp only [parseSizeSpecifier, LengthSpec.text, List.cons_append, List.nil_append, deref,
      ok_bind, ↓reduceIte, List.tail_cons, if_neg hlh, if_neg hzh.1, if_neg hzh.2, if_neg hth.1,
      if_neg hth.2.1, if_neg hth.2.2]
    rfl

theorem parsePrecision_ends {p : Precision} (hc : p.Ends c) (hp : spec.precision = -1)
    (hap : Passed T.model p.args ap ap') (r : Cursor) :
    parsePrecision T ⟨p.text ++ c :: r, spec, ap⟩ = .ok ⟨c :: r, { spec with
      precision := p.value
      flags.zero := spec.flags.zero && p.isNone }, ap'⟩ := by
  cases p with
  | none =>
    have hdot : c ≠ byte '.' := hc
    cases hap
    simp only [parsePrecision, Precision.text, List.nil_append, deref, ok_bind, if_neg hdot,
      Precision.value, Precision.isNone, Bool.and_true, ← hp]
    rfl
  | star v =>
    obtain ⟨ap'', harg, hnil⟩ := hap.vaArg
    cases hnil
    simp only [parsePrecision, Precision.text, List.cons_append, List.nil_append, deref, ok_bind,
      ↓reduceIte, List.tail_cons, harg, Precision.value, Precision.isNone, Bool.and_false]
    rfl
  | negative ds =>
    have hdigit : isdigit (charValue c) = false := Bool.eq_false_iff.mpr hc
    have hne : byte '-' ≠ byte '*' := by decide
    cases hap
    simp only [parsePrecision, Precision.text, List.cons_append, deref, ok_bind, ↓reduceIte,
      List.tail_cons, if_neg hne, skipDigits_digits ds r hdigit, Precision.value,
      Precision.isNone, Bool.and_false]
    rfl
  | literal n =>
    have hdigit : isdigit (charValue c) = false := Bool.eq_false_iff.mpr hc.1
    have hparse := parseNumber_literal T n r hdigit
    cases hap
    simp only [parsePrecision, Precision.text, List.cons_append, deref, ok_bind, ↓reduceIte,
      List.tail_cons, Precision.value, Precision.isNone, Bool.and_false]
    cases hds : n.digits with
    | nil =>
      obtain ⟨hstar, hminus⟩ := hc.2 hds
      simp only [List.map_nil, List.nil_append, ok_bind, if_neg hstar, if_neg hminus, hdigit,
        Bool.false_eq_true, ↓reduceIte]
      rfl
    | cons d ds =>
      rw [hds] at hparse
      simp only [List.map_cons, List.cons_append, ok_bind, if_neg (digit_ne d).1,
        if_neg (digit_ne d).2, isdigit_digit, ↓reduceIte] at hparse ⊢
      rw [hparse]
      rfl

theorem parseFieldWidth_ends {w : Width} (hc : w.Ends c) (hw : spec.fieldWidth = -1)
    (hap : Passed T.model w.args ap ap') (r : Cursor) :
    parseFieldWidth T ⟨w.text ++ c :: r, spec, ap⟩ =
      .ok ⟨c :: r, { spec with fieldWidth := w.value }, ap'⟩ := by
  cases w with
  | none =>
    obtain ⟨hflag, hstar, hdigit⟩ := hc
    have hminus : c ≠ byte '-' := hflag .minus
    cases hap
    simp only [parseFieldWidth, Width.text, List.nil_append, deref, ok_bind, if_neg hstar,
      if_neg hdigit, if_neg hminus, Width.value, ← hw]
    rfl
  | star v =>
    obtain ⟨ap'', harg, hnil⟩ := hap.vaArg
    cases hnil
    simp only [parseFieldWidth, Width.text, List.cons_append, List.nil_append, deref, ok_bind,
      ↓reduceIte, harg]
    rfl
  | literal n hn =>
    have hparse := parseNumber_literal T n r (Bool.eq_false_iff.mpr hc)
    cases hap
    obtain ⟨d, ds, hds, -⟩ := hn
    have htext : n.digits.map digit ++ c :: r = digit d :: (ds.map digit ++ c :: r) := by
      rw [hds, List.map_cons, List.cons_append]
    rw [htext] at hparse
    simp only [parseFieldWidth, Width.text, htext, deref, ok_bind, if_neg (digit_ne d).1,
      isdigit_digit, ↓reduceIte, hparse]
    rfl

theorem width_ends_flags {w : Width} (hc : w.Ends c) (r : Cursor) :
    ∃ c' r', w.text ++ c :: r = c' :: r' ∧ ∀ flags, addFlag flags c' = none := by
  cases w with
  | none =>
    refine ⟨c, r, rfl, ?_⟩
    intro flags
    cases hadd : addFlag flags c with
    | none => rfl
    | some flags' =>
      obtain ⟨f, hf, -⟩ := exists_flag hadd
      exact absurd hf.symm (hc.1 f)
  | star v => exact ⟨_, _, rfl, fun _ => rfl⟩
  | literal n hn =>
    have hends : EndsWidth (byte '.') := ⟨fun _ => rfl, by decide, by decide, by decide⟩
    obtain ⟨d, ds, hds, hd⟩ := hn
    obtain ⟨c', r', htext, hflags⟩ := width_head (.literal n ⟨d, ds, hds, hd⟩) [] hends
    simp only [Width.text, hds, List.map_cons, List.cons_append] at htext ⊢
    refine ⟨_, _, rfl, ?_⟩
    rw [(List.cons.inj htext).1]
    exact hflags

theorem Directive.Ends.heads {d : Directive} (hc : d.Ends c) (r : Cursor) :
    ∃ c₁ r₁ c₂ r₂, d.length.text ++ c :: r = c₁ :: r₁ ∧ d.precision.Ends c₁ ∧
      d.precision.text ++ c₁ :: r₁ = c₂ :: r₂ ∧ d.width.Ends c₂ := by
  have hlength : ∃ c₁ r₁, d.length.text ++ c :: r = c₁ :: r₁ ∧ d.precision.Ends c₁ ∧
      (d.precision = .none → d.width.Ends c₁) := by
    cases hlen : d.length with
    | null => exact ⟨c, r, rfl, hc.precision hlen, hc.width hlen⟩
    | _ =>
      refine ⟨_, _, rfl, EndsWidth.ends_precision ?_ (by decide) _, fun _ => EndsWidth.ends ?_ _⟩ <;>
        exact ⟨fun _ => rfl, by decide, by decide, by decide⟩
  obtain ⟨c₁, r₁, htext, hprec, hwidth⟩ := hlength
  refine ⟨c₁, r₁, ?_⟩
  cases hp : d.precision with
  | none => exact ⟨c₁, r₁, htext, hp ▸ hprec, rfl, hwidth hp⟩
  | _ =>
    refine ⟨_, _, htext, hp ▸ hprec, rfl, EndsWidth.ends ?_ _⟩
    exact ⟨fun _ => rfl, by decide, by decide, by decide⟩

theorem parses_ends {d : Directive} (hc : d.Ends c) (r : Cursor)
    (hap : Passed T.model d.starArgs ap ap') :
    Parses T {} (d.modifiers ++ c :: r) ap d.spec (c :: r) ap' := by
  obtain ⟨ap'', hwargs, hpargs⟩ := passed_append.mp hap
  obtain ⟨c₁, r₁, c₂, r₂, hlen, hprec, hptext, hwidth⟩ := hc.heads r
  obtain ⟨c₃, r₃, hwtext, hflags⟩ := width_ends_flags hwidth r₂
  have htext : d.modifiers ++ c :: r = d.flags.map Flag.byte ++ c₃ :: r₃ := by
    rw [← hwtext, ← hptext, ← hlen]
    simp only [Directive.modifiers, List.append_assoc]
  let flagged : FormatSpec := { flags := flagSet d.flags }
  let sized : FormatSpec := { flagged with fieldWidth := d.width.value }
  have hw : parseFieldWidth T ⟨d.width.text ++ c₂ :: r₂, flagged, ap⟩ = _ :=
    parseFieldWidth_ends hwidth rfl hwargs r₂
  have hp : parsePrecision T ⟨d.precision.text ++ c₁ :: r₁, sized, ap''⟩ = _ :=
    parsePrecision_ends hprec rfl hpargs r₁
  rw [hwtext] at hw
  rw [hptext] at hp
  have hparse : parseFlagsFwPrecision T (d.modifiers ++ c :: r) {} ap =
      .ok ⟨c₁ :: r₁, { d.spec with lengthSpec := .null }, ap'⟩ := by
    rw [htext, parseFlagsFwPrecision, scanFlags_text d.flags r₃ hflags, ok_bind]
    simp only
    rw [hw, ok_bind, hp]
    rfl
  refine ⟨_, hparse, rfl, ?_⟩
  rw [← hlen]
  exact parseSizeSpecifier_ends hc.length rfl r

end Ends

theorem parses_iff {D : DataModel} {fmt : Cursor} {spec : FormatSpec} {ap ap' : VaList} {c : UInt8}
    {r : Cursor} : Parses (trapping D) {} fmt ap spec (c :: r) ap' ↔ ∃ d : Directive,
      fmt = d.modifiers ++ c :: r ∧ d.Ends c ∧ spec = d.spec ∧ Passed D d.starArgs ap ap' := by
  constructor
  · intro h
    obtain ⟨d, -, hd⟩ := parses_accepts .percent h
    exact ⟨d, hd⟩
  · rintro ⟨d, rfl, hends, rfl, hargs⟩
    exact parses_ends hends r hargs

end OsdevLibstdc.Vsnprintf
