import Mathlib.Data.List.Infix
import OsdevLibstdc.FormatFields

/-!
Every parser leaves the cursor at a suffix of the format it was given, and what follows the text
and the arguments that it has looked at makes no difference to it.
-/

namespace OsdevLibstdc.Vsnprintf

open Target Outcomes

theorem deref_eq_ok {fmt : Cursor} {c : UInt8} (h : deref fmt = .ok c) : fmt = c :: fmt.tail := by
  cases fmt with
  | nil => cases h
  | cons d fmt => rw [← Except.ok.inj h]; rfl

theorem parseNumber_suffix {T : Machine} {str str' : Cursor} {v v' : ℤ}
    (h : parseNumber T str v = .ok (v', str')) : str' <:+ str := by
  induction str generalizing v with
  | nil => cases h
  | cons c str ih =>
    rw [parseNumber] at h
    split_ifs at h
    · obtain ⟨_, -, h⟩ := bind_eq_ok.mp h
      exact (ih h).trans (List.suffix_cons c str)
    · rw [← (Prod.mk.inj (Except.ok.inj h)).2]

theorem scanFlags_suffix {fmt fmt' : Cursor} {flags flags' : FormatFlags}
    (h : scanFlags fmt flags = .ok (flags', fmt')) : fmt' <:+ fmt := by
  induction fmt generalizing flags with
  | nil => cases h
  | cons c fmt ih =>
    rw [scanFlags] at h
    cases hf : addFlag flags c with
    | some flags => rw [hf] at h; exact (ih h).trans (List.suffix_cons c fmt)
    | none => rw [hf] at h; rw [← (Prod.mk.inj (Except.ok.inj h)).2]

theorem skipDigits_suffix {fmt fmt' : Cursor} (h : skipDigits fmt = .ok fmt') : fmt' <:+ fmt := by
  induction fmt with
  | nil => cases h
  | cons c fmt ih =>
    rw [skipDigits] at h
    split_ifs at h
    · exact (ih h).trans (List.suffix_cons c fmt)
    · rw [← Except.ok.inj h]

inductive WidthParsed (T : Machine) (p : Parsed) : Parsed → Prop
  | star {width : ℤ} {ap : VaList} : vaArg T.model .int p.ap = .ok (width, ap) →
      WidthParsed T p { fmt := p.fmt.tail, spec := { p.spec with fieldWidth := width }, ap }
  | digits {width : ℤ} {fmt : Cursor} : parseNumber T p.fmt 0 = .ok (width, fmt) →
      WidthParsed T p { p with fmt, spec := { p.spec with fieldWidth := width } }
  | minusDigits {width : ℤ} {fmt : Cursor} : parseNumber T p.fmt.tail.tail 0 = .ok (width, fmt) →
      WidthParsed T p
        { p with fmt, spec := { p.spec with flags.minus := true, fieldWidth := width } }
  | minus : WidthParsed T p
      { p with fmt := p.fmt.tail.tail, spec := { p.spec with flags.minus := true } }
  | none : WidthParsed T p p

theorem parseFieldWidth_cases {T : Machine} {p q : Parsed} (h : parseFieldWidth T p = .ok q) :
    WidthParsed T p q := by
  obtain ⟨c, -, h⟩ := bind_eq_ok.mp h
  split_ifs at h
  · obtain ⟨r, hr, h⟩ := bind_eq_ok.mp h
    rw [← Except.ok.inj h]
    exact .star hr
  · obtain ⟨r, hr, h⟩ := bind_eq_ok.mp h
    rw [← Except.ok.inj h]
    exact .digits hr
  · obtain ⟨c, -, h⟩ := bind_eq_ok.mp h
    split_ifs at h
    · obtain ⟨r, hr, h⟩ := bind_eq_ok.mp h
      rw [← Except.ok.inj h]
      exact .minusDigits hr
    · rw [← Except.ok.inj h]
      exact .minus
  · rw [← Except.ok.inj h]
    exact .none

inductive PrecisionParsed (T : Machine) (p : Parsed) : Parsed → Prop
  | star {precision : ℤ} {ap : VaList} : vaArg T.model .int p.ap = .ok (precision, ap) →
      PrecisionParsed T p
        { fmt := p.fmt.tail.tail, spec := { p.spec with flags.zero := false, precision }, ap }
  | minus {fmt : Cursor} : skipDigits p.fmt.tail.tail = .ok fmt →
      PrecisionParsed T p
        { p with fmt, spec := { p.spec with flags.zero := false, precision := -1 } }
  | digits {precision : ℤ} {fmt : Cursor} : parseNumber T p.fmt.tail 0 = .ok (precision, fmt) →
      PrecisionParsed T p { p with fmt, spec := { p.spec with flags.zero := false, precision } }
  | empty : PrecisionParsed T p
      { p with fmt := p.fmt.tail, spec := { p.spec with flags.zero := false, precision := 0 } }
  | none : PrecisionParsed T p p

theorem parsePrecision_cases {T : Machine} {p q : Parsed} (h : parsePrecision T p = .ok q) :
    PrecisionParsed T p q := by
  obtain ⟨c, -, h⟩ := bind_eq_ok.mp h
  split_ifs at h
  · obtain ⟨c, -, h⟩ := bind_eq_ok.mp h
    split_ifs at h
    · obtain ⟨r, hr, h⟩ := bind_eq_ok.mp h
      rw [← Except.ok.inj h]
      exact .star hr
    · obtain ⟨r, hr, h⟩ := bind_eq_ok.mp h
      rw [← Except.ok.inj h]
      exact .minus hr
    · obtain ⟨r, hr, h⟩ := bind_eq_ok.mp h
      rw [← Except.ok.inj h]
      exact .digits hr
    · rw [← Except.ok.inj h]
      exact .empty
  · rw [← Except.ok.inj h]
    exact .none

theorem parseFieldWidth_suffix {T : Machine} {p q : Parsed} (h : parseFieldWidth T p = .ok q) :
    q.fmt <:+ p.fmt := by
  have htail : p.fmt.tail.tail <:+ p.fmt := (List.tail_suffix _).trans (List.tail_suffix _)
  cases parseFieldWidth_cases h with
  | star => exact List.tail_suffix _
  | digits hr => exact parseNumber_suffix hr
  | minusDigits hr => exact (parseNumber_suffix hr).trans htail
  | minus => exact htail
  | none => exact List.suffix_rfl

theorem parsePrecision_suffix {T : Machine} {p q : Parsed} (h : parsePrecision T p = .ok q) :
    q.fmt <:+ p.fmt := by
  have htail : p.fmt.tail <:+ p.fmt := List.tail_suffix _
  have htail2 : p.fmt.tail.tail <:+ p.fmt := (List.tail_suffix _).trans htail
  cases parsePrecision_cases h with
  | star => exact htail2
  | minus hr => exact (skipDigits_suffix hr).trans htail2
  | digits hr => exact (parseNumber_suffix hr).trans htail
  | empty => exact htail
  | none => exact List.suffix_rfl

theorem parseFlagsFwPrecision_suffix {T : Machine} {fmt : Cursor} {spec : FormatSpec} {ap : VaList}
    {p : Parsed} (h : parseFlagsFwPrecision T fmt spec ap = .ok p) : p.fmt <:+ fmt := by
  obtain ⟨r, hr, h⟩ := bind_eq_ok.mp h
  obtain ⟨q, hq, h⟩ := bind_eq_ok.mp h
  exact (parsePrecision_suffix h).trans ((parseFieldWidth_suffix hq).trans (scanFlags_suffix hr))

theorem parseSizeSpecifier_suffix {fmt fmt' : Cursor} {spec spec' : FormatSpec}
    (h : parseSizeSpecifier fmt spec = .ok (spec', fmt')) : fmt' <:+ fmt := by
  have htail : fmt.tail <:+ fmt := List.tail_suffix _
  have htail2 : fmt.tail.tail <:+ fmt := (List.tail_suffix _).trans htail
  obtain ⟨c, -, h⟩ := bind_eq_ok.mp h
  split_ifs at h
  · obtain ⟨c, -, h⟩ := bind_eq_ok.mp h
    split_ifs at h <;> rw [← (Prod.mk.inj (Except.ok.inj h)).2] <;> assumption
  · obtain ⟨c, -, h⟩ := bind_eq_ok.mp h
    split_ifs at h <;> rw [← (Prod.mk.inj (Except.ok.inj h)).2] <;> assumption
  · rw [← (Prod.mk.inj (Except.ok.inj h)).2]; exact htail
  · rw [← (Prod.mk.inj (Except.ok.inj h)).2]; exact htail
  · rw [← (Prod.mk.inj (Except.ok.inj h)).2]

theorem directive_suffix {T : Machine} {spec : FormatSpec} {fmt fmt' : Cursor} {ap ap' : VaList}
    {conv : Conversion} (h : directive T spec fmt ap = .ok (conv, ap', fmt')) :
    ∃ c, c :: fmt' <:+ fmt := by
  obtain ⟨p, hp, h⟩ := bind_eq_ok.mp h
  obtain ⟨r, hr, h⟩ := bind_eq_ok.mp h
  obtain ⟨c, hc, h⟩ := bind_eq_ok.mp h
  obtain ⟨q, -, h⟩ := bind_eq_ok.mp h
  have he : fmt' = r.2.tail := (Prod.mk.inj (Prod.mk.inj (Except.ok.inj h)).2).2.symm
  refine ⟨c, ?_⟩
  rw [he, ← deref_eq_ok hc]
  exact (parseSizeSpecifier_suffix hr).trans (parseFlagsFwPrecision_suffix hp)

theorem nextConversion_length {T : Machine} {spec : FormatSpec} {fmt fmt' : Cursor}
    {ap ap' : VaList} {conv : Conversion}
    (h : nextConversion T spec fmt ap = .ok (conv, ap', fmt')) : fmt'.length < fmt.length := by
  obtain ⟨c, hc, h⟩ := bind_eq_ok.mp h
  have hl : fmt.length = fmt.tail.length + 1 := congrArg List.length (deref_eq_ok hc)
  split_ifs at h
  · obtain ⟨c, hs⟩ := directive_suffix h
    have := hs.length_le
    simp only [List.length_cons] at this
    omega
  · rw [← (Prod.mk.inj (Prod.mk.inj (Except.ok.inj h)).2).2]
    omega

theorem nextField_length {T : Machine} {strings : Strings} {fmt fmt' : Cursor} {ap ap' : VaList}
    {f : Field} (h : nextField T strings fmt ap = .ok (f, ap', fmt')) :
    fmt'.length < fmt.length := by
  obtain ⟨r, hr, h⟩ := bind_eq_ok.mp h
  obtain ⟨_, -, h⟩ := bind_eq_ok.mp h
  rw [← (Prod.mk.inj (Prod.mk.inj (Except.ok.inj h)).2).2]
  exact nextConversion_length hr

theorem nextField_suffix {T : Machine} {strings : Strings} {fmt fmt' : Cursor} {ap ap' : VaList}
    {f : Field} (h : nextField T strings fmt ap = .ok (f, ap', fmt')) : fmt' <:+ fmt := by
  obtain ⟨⟨conv, ap'', fmt''⟩, hconv, h⟩ := bind_eq_ok.mp h
  obtain ⟨g, -, h⟩ := bind_eq_ok.mp h
  obtain rfl : fmt'' = fmt' := (Prod.mk.inj (Prod.mk.inj (Except.ok.inj h)).2).2
  obtain ⟨d, hd, hconv⟩ := bind_eq_ok.mp hconv
  have hfmt : fmt.tail <:+ fmt := List.tail_suffix fmt
  split_ifs at hconv
  · obtain ⟨c, hs⟩ := directive_suffix hconv
    exact ((List.suffix_cons c fmt'').trans hs).trans hfmt
  · rw [← (Prod.mk.inj (Prod.mk.inj (Except.ok.inj hconv)).2).2]
    exact hfmt

section Append

variable {T : Machine} (t : Cursor) (more : VaList)

theorem deref_append {fmt : Cursor} {c : UInt8} (h : deref fmt = .ok c) :
    deref (fmt ++ t) = .ok c ∧ (fmt ++ t).tail = fmt.tail ++ t := by
  rw [deref_eq_ok h]
  exact ⟨rfl, rfl⟩

theorem parseNumber_append {str str' : Cursor} {v v' : ℤ}
    (h : parseNumber T str v = .ok (v', str')) :
    parseNumber T (str ++ t) v = .ok (v', str' ++ t) := by
  induction str generalizing v with
  | nil => cases h
  | cons c str ih =>
    rw [parseNumber] at h
    rw [List.cons_append, parseNumber]
    split_ifs at h ⊢
    · obtain ⟨w, hw, h⟩ := bind_eq_ok.mp h
      rw [hw, ok_bind]
      exact ih h
    · obtain ⟨rfl, rfl⟩ := Prod.mk.inj (Except.ok.inj h)
      rfl

theorem scanFlags_append {fmt fmt' : Cursor} {flags flags' : FormatFlags}
    (h : scanFlags fmt flags = .ok (flags', fmt')) :
    scanFlags (fmt ++ t) flags = .ok (flags', fmt' ++ t) := by
  induction fmt generalizing flags with
  | nil => cases h
  | cons c fmt ih =>
    rw [scanFlags] at h
    rw [List.cons_append, scanFlags]
    cases hf : addFlag flags c with
    | some flags =>
      rw [hf] at h
      exact ih h
    | none =>
      rw [hf] at h
      obtain ⟨rfl, rfl⟩ := Prod.mk.inj (Except.ok.inj h)
      rfl

theorem skipDigits_append {fmt fmt' : Cursor} (h : skipDigits fmt = .ok fmt') :
    skipDigits (fmt ++ t) = .ok (fmt' ++ t) := by
  induction fmt with
  | nil => cases h
  | cons c fmt ih =>
    rw [skipDigits] at h
    rw [List.cons_append, skipDigits]
    split_ifs at h ⊢
    · exact ih h
    · rw [← Except.ok.inj h]
      rfl

def Parsed.append (p : Parsed) : Parsed := { p with fmt := p.fmt ++ t, ap := p.ap ++ more }

theorem parseFieldWidth_append {p q : Parsed} (h : parseFieldWidth T p = .ok q) :
    parseFieldWidth T (p.append t more) = .ok (q.append t more) := by
  obtain ⟨c, hc, h⟩ := bind_eq_ok.mp h
  obtain ⟨hd, htail⟩ := deref_append t hc
  simp only [parseFieldWidth, Parsed.append, hd, htail, ok_bind]
  split_ifs at h ⊢
  · obtain ⟨⟨w, ap⟩, hr, h⟩ := bind_eq_ok.mp h
    rw [vaArg_append more hr, ← Except.ok.inj h]
    rfl
  · obtain ⟨⟨w, fmt⟩, hr, h⟩ := bind_eq_ok.mp h
    rw [parseNumber_append t hr, ← Except.ok.inj h]
    rfl
  · obtain ⟨c', hc', h⟩ := bind_eq_ok.mp h
    have htail2 : (p.fmt.tail ++ t).tail = p.fmt.tail.tail ++ t := by
      cases hp : p.fmt.tail with
      | nil =>
        rw [hp] at hc'
        cases hc'
      | cons d fmt => rfl
    rw [htail2, (deref_append t hc').1, ok_bind]
    split_ifs at h ⊢
    · obtain ⟨⟨w, fmt⟩, hr, h⟩ := bind_eq_ok.mp h
      rw [parseNumber_append t hr, ← Except.ok.inj h]
      rfl
    · rw [← Except.ok.inj h]
      rfl
  · rw [← Except.ok.inj h]
    rfl

theorem parsePrecision_append {p q : Parsed} (h : parsePrecision T p = .ok q) :
    parsePrecision T (p.append t more) = .ok (q.append t more) := by
  obtain ⟨c, hc, h⟩ := bind_eq_ok.mp h
  obtain ⟨hd, htail⟩ := deref_append t hc
  simp only [parsePrecision, Parsed.append, hd, htail, ok_bind]
  split_ifs at h ⊢
  · obtain ⟨c', hc', h⟩ := bind_eq_ok.mp h
    obtain ⟨hd', htail'⟩ := deref_append t hc'
    simp only [hd', htail', ok_bind]
    split_ifs at h ⊢
    · obtain ⟨⟨w, ap⟩, hr, h⟩ := bind_eq_ok.mp h
      rw [vaArg_append more hr, ← Except.ok.inj h]
      rfl
    · obtain ⟨fmt, hr, h⟩ := bind_eq_ok.mp h
      rw [skipDigits_append t hr, ← Except.ok.inj h]
      rfl
    · obtain ⟨⟨w, fmt⟩, hr, h⟩ := bind_eq_ok.mp h
      rw [parseNumber_append t hr, ← Except.ok.inj h]
      rfl
    · rw [← Except.ok.inj h]
      rfl
  · rw [← Except.ok.inj h]
    rfl

theorem parseFlagsFwPrecision_append {fmt : Cursor} {spec : FormatSpec} {ap : VaList} {p : Parsed}
    (h : parseFlagsFwPrecision T fmt spec ap = .ok p) :
    parseFlagsFwPrecision T (fmt ++ t) spec (ap ++ more) = .ok (p.append t more) := by
  obtain ⟨⟨flags, fmt'⟩, hr, h⟩ := bind_eq_ok.mp h
  obtain ⟨q, hq, h⟩ := bind_eq_ok.mp h
  have hw := parseFieldWidth_append t more hq
  simp only [parseFlagsFwPrecision, scanFlags_append t hr, ok_bind]
  simp only [Parsed.append] at hw
  rw [hw, ok_bind]
  exact parsePrecision_append t more h

theorem parseSizeSpecifier_append {fmt fmt' : Cursor} {spec spec' : FormatSpec}
    (h : parseSizeSpecifier fmt spec = .ok (spec', fmt')) :
    parseSizeSpecifier (fmt ++ t) spec = .ok (spec', fmt' ++ t) := by
  obtain ⟨c, hc, h⟩ := bind_eq_ok.mp h
  obtain ⟨hd, htail⟩ := deref_append t hc
  simp only [parseSizeSpecifier, hd, htail, ok_bind]
  split_ifs at h ⊢
  · obtain ⟨c', hc', h⟩ := bind_eq_ok.mp h
    obtain ⟨hd', htail'⟩ := deref_append t hc'
    simp only [hd', htail', ok_bind]
    split_ifs at h ⊢ <;> obtain ⟨rfl, rfl⟩ := Prod.mk.inj (Except.ok.inj h) <;> rfl
  · obtain ⟨c', hc', h⟩ := bind_eq_ok.mp h
    obtain ⟨hd', htail'⟩ := deref_append t hc'
    simp only [hd', htail', ok_bind]
    split_ifs at h ⊢ <;> obtain ⟨rfl, rfl⟩ := Prod.mk.inj (Except.ok.inj h) <;> rfl
  all_goals
    obtain ⟨rfl, rfl⟩ := Prod.mk.inj (Except.ok.inj h)
    rfl

theorem narrowed_append {D : DataModel} {ty : CType} {signed : Bool} {ap ap' : VaList} {v : ℤ}
    (h : (vaArg D ty ap >>= fun r => (pure (narrow signed r.1, r.2) : Except Fault (ℤ × VaList))) =
      .ok (v, ap')) :
    (vaArg D ty (ap ++ more) >>= fun r =>
      (pure (narrow signed r.1, r.2) : Except Fault (ℤ × VaList))) = .ok (v, ap' ++ more) := by
  obtain ⟨⟨w, ap''⟩, hr, h⟩ := bind_eq_ok.mp h
  obtain ⟨rfl, rfl⟩ := Prod.mk.inj (Except.ok.inj h)
  rw [vaArg_append more hr]
  rfl

theorem readSignedNumber_append {D : DataModel} {len : LengthSpec} {ap ap' : VaList} {v : ℤ}
    (h : readSignedNumber D len ap = .ok (v, ap')) :
    readSignedNumber D len (ap ++ more) = .ok (v, ap' ++ more) := by
  cases len
  case hh => exact narrowed_append more h
  all_goals exact vaArg_append more h

theorem readUnsignedNumber_append {D : DataModel} {len : LengthSpec} {ap ap' : VaList} {v : ℤ}
    (h : readUnsignedNumber D len ap = .ok (v, ap')) :
    readUnsignedNumber D len (ap ++ more) = .ok (v, ap' ++ more) := by
  cases len
  case hh => exact narrowed_append more h
  all_goals exact vaArg_append more h

theorem signedArgument_append {spec spec' : FormatSpec} {n : ℕ} {ap ap' : VaList}
    (h : signedArgument T spec ap = .ok (spec', n, ap')) :
    signedArgument T spec (ap ++ more) = .ok (spec', n, ap' ++ more) := by
  obtain ⟨⟨v, ap''⟩, hr, h⟩ := bind_eq_ok.mp h
  have hr' : signedValue T.model spec.lengthSpec (ap ++ more) = .ok (v, ap'' ++ more) := by
    simp only [signedValue] at hr ⊢
    split_ifs at hr ⊢
    · exact vaArg_append more hr
    · exact readSignedNumber_append more hr
  simp only [signedArgument, hr', ok_bind]
  simp only at h
  split_ifs at h ⊢
  · obtain ⟨w, hw, h⟩ := bind_eq_ok.mp h
    rw [hw, ok_bind]
    simp only [pure_eq, Except.ok.injEq, Prod.mk.injEq] at h ⊢
    obtain ⟨rfl, rfl, rfl⟩ := h
    exact ⟨rfl, rfl, rfl⟩
  · simp only [pure_eq, Except.ok.injEq, Prod.mk.injEq] at h ⊢
    obtain ⟨rfl, rfl, rfl⟩ := h
    exact ⟨rfl, rfl, rfl⟩

theorem unsignedArgument_append {D : DataModel} {spec spec' : FormatSpec} {n : ℕ}
    {ap ap' : VaList} (h : unsignedArgument D spec ap = .ok (spec', n, ap')) :
    unsignedArgument D spec (ap ++ more) = .ok (spec', n, ap' ++ more) := by
  obtain ⟨⟨v, ap''⟩, hr, h⟩ := bind_eq_ok.mp h
  have hr' : unsignedValue D spec.lengthSpec (ap ++ more) = .ok (v, ap'' ++ more) := by
    simp only [unsignedValue] at hr ⊢
    split_ifs at hr ⊢
    · exact vaArg_append more hr
    · exact readUnsignedNumber_append more hr
  simp only [unsignedArgument, hr', ok_bind]
  simp only [pure_eq, Except.ok.injEq, Prod.mk.injEq] at h ⊢
  obtain ⟨rfl, rfl, rfl⟩ := h
  exact ⟨rfl, rfl, rfl⟩

theorem number_append {read : VaList → Except Fault (FormatSpec × ℕ × VaList)} {ap ap' : VaList}
    {conv : Conversion} (hread : ∀ {spec n ap''}, read ap = .ok (spec, n, ap'') →
      read (ap ++ more) = .ok (spec, n, ap'' ++ more))
    (h : (read ap >>= fun r =>
      (pure (Conversion.number r.1 r.2.1, r.2.2) : Except Fault (Conversion × VaList))) =
      .ok (conv, ap')) :
    (read (ap ++ more) >>= fun r =>
      (pure (Conversion.number r.1 r.2.1, r.2.2) : Except Fault (Conversion × VaList))) =
      .ok (conv, ap' ++ more) := by
  obtain ⟨⟨spec, n, ap''⟩, hr, h⟩ := bind_eq_ok.mp h
  obtain ⟨rfl, rfl⟩ := Prod.mk.inj (Except.ok.inj h)
  rw [hread hr]
  rfl

theorem fetched_append {ty : CType} {k : ℤ → Conversion} {ap ap' : VaList} {conv : Conversion}
    (h : (vaArg T.model ty ap >>= fun r =>
      (pure (k r.1, r.2) : Except Fault (Conversion × VaList))) = .ok (conv, ap')) :
    (vaArg T.model ty (ap ++ more) >>= fun r =>
      (pure (k r.1, r.2) : Except Fault (Conversion × VaList))) = .ok (conv, ap' ++ more) := by
  obtain ⟨⟨v, ap''⟩, hr, h⟩ := bind_eq_ok.mp h
  obtain ⟨rfl, rfl⟩ := Prod.mk.inj (Except.ok.inj h)
  rw [vaArg_append more hr]
  rfl

theorem conversion_append {c : UInt8} {spec : FormatSpec} {ap ap' : VaList} {conv : Conversion}
    (h : conversion T c spec ap = .ok (conv, ap')) :
    conversion T c spec (ap ++ more) = .ok (conv, ap' ++ more) := by
  unfold conversion at h ⊢
  split at h
  · exact number_append more (signedArgument_append more) h
  · exact number_append more (signedArgument_append more) h
  · exact number_append more (unsignedArgument_append more) h
  · exact number_append more (unsignedArgument_append more) h
  · exact number_append more (unsignedArgument_append more) h
  · exact number_append more (unsignedArgument_append more) h
  · obtain ⟨⟨v, ap''⟩, hr, h⟩ := bind_eq_ok.mp h
    rw [readUnsignedNumber_append more hr, ok_bind]
    simp only at h ⊢
    split_ifs at h ⊢ <;>
    · obtain ⟨rfl, rfl⟩ := Prod.mk.inj (Except.ok.inj h)
      rfl
  · exact fetched_append more (k := fun v => .count v) h
  · exact fetched_append more (k := fun v => .char spec (UInt8.ofInt v)) h
  · exact fetched_append more (k := fun v => .string spec v) h
  · obtain ⟨rfl, rfl⟩ := Prod.mk.inj (Except.ok.inj h)
    rfl
  · obtain ⟨rfl, rfl⟩ := Prod.mk.inj (Except.ok.inj h)
    rfl

theorem directive_append {spec : FormatSpec} {fmt fmt' : Cursor} {ap ap' : VaList}
    {conv : Conversion} (h : directive T spec fmt ap = .ok (conv, ap', fmt')) :
    directive T spec (fmt ++ t) (ap ++ more) = .ok (conv, ap' ++ more, fmt' ++ t) := by
  obtain ⟨p, hp, h⟩ := bind_eq_ok.mp h
  obtain ⟨⟨spec', fmt''⟩, hr, h⟩ := bind_eq_ok.mp h
  obtain ⟨c, hc, h⟩ := bind_eq_ok.mp h
  obtain ⟨⟨conv', ap''⟩, hq, h⟩ := bind_eq_ok.mp h
  obtain ⟨hd, htail⟩ := deref_append t hc
  have hs : parseSizeSpecifier (p.append t more).fmt (p.append t more).spec =
      .ok (spec', fmt'' ++ t) := parseSizeSpecifier_append t hr
  have hcv : conversion T c (clearZero spec') (p.append t more).ap = .ok (conv', ap'' ++ more) :=
    conversion_append more hq
  simp only [directive, parseFlagsFwPrecision_append t more hp, ok_bind, hs, hd, hcv, htail]
  simp only [pure_eq, Except.ok.injEq, Prod.mk.injEq] at h ⊢
  obtain ⟨rfl, rfl, rfl⟩ := h
  exact ⟨rfl, rfl, rfl⟩

theorem nextConversion_append {spec : FormatSpec} {fmt fmt' : Cursor} {ap ap' : VaList}
    {conv : Conversion} (h : nextConversion T spec fmt ap = .ok (conv, ap', fmt')) :
    nextConversion T spec (fmt ++ t) (ap ++ more) = .ok (conv, ap' ++ more, fmt' ++ t) := by
  obtain ⟨c, hc, h⟩ := bind_eq_ok.mp h
  obtain ⟨hd, htail⟩ := deref_append t hc
  simp only [nextConversion, hd, htail, ok_bind]
  split_ifs at h ⊢
  · exact directive_append t more h
  · simp only [pure_eq, Except.ok.injEq, Prod.mk.injEq] at h ⊢
    obtain ⟨rfl, rfl, rfl⟩ := h
    exact ⟨rfl, rfl, rfl⟩

theorem nextField_append {strings : Strings} {fmt fmt' : Cursor} {ap ap' : VaList} {f : Field}
    (h : nextField T strings fmt ap = .ok (f, ap', fmt')) :
    nextField T strings (fmt ++ t) (ap ++ more) = .ok (f, ap' ++ more, fmt' ++ t) := by
  obtain ⟨⟨conv, ap'', fmt''⟩, hr, h⟩ := bind_eq_ok.mp h
  obtain ⟨f', hf, h⟩ := bind_eq_ok.mp h
  simp only [nextField, nextConversion_append t more hr, ok_bind, hf]
  simp only [pure_eq, Except.ok.injEq, Prod.mk.injEq] at h ⊢
  obtain ⟨rfl, rfl, rfl⟩ := h
  exact ⟨rfl, rfl, rfl⟩

theorem Reads.append {strings : Strings} {fmt fmt' : Cursor} {ap rest : VaList}
    {fields : List Field} (h : Reads T strings fmt ap fields fmt' rest) :
    Reads T strings (fmt ++ t) (ap ++ more) fields (fmt' ++ t) (rest ++ more) := by
  induction h with
  | done fmt ap => exact .done _ _
  | field hc hf _ ih => exact .field hc (nextField_append t more hf) ih

end Append

section Reads

variable {T : Machine} {strings : Strings}

theorem Reads.trans {fmt fmt' fmt'' : Cursor} {ap ap' rest : VaList} {fs gs : List Field}
    (hf : Reads T strings fmt ap fs fmt' ap') (hg : Reads T strings fmt' ap' gs fmt'' rest) :
    Reads T strings fmt ap (fs ++ gs) fmt'' rest := by
  induction hf with
  | done fmt ap => exact hg
  | field hc hf _ ih => exact .field hc hf (ih hg)

theorem Reads.compare {fmt fmt' fmt'' : Cursor} {ap rest rest' : VaList} {fs gs : List Field}
    (hf : Reads T strings fmt ap fs fmt' rest) (hg : Reads T strings fmt ap gs fmt'' rest') :
    (∃ hs, gs = fs ++ hs ∧ Reads T strings fmt' rest hs fmt'' rest') ∨
      ∃ h hs, fs = gs ++ h :: hs ∧ Reads T strings fmt'' rest' (h :: hs) fmt' rest := by
  induction hf generalizing gs with
  | done fmt ap => exact .inl ⟨gs, rfl, hg⟩
  | field hc hnext hrest ih =>
    cases hg with
    | done => exact .inr ⟨_, _, rfl, .field hc hnext hrest⟩
    | field _ hnext' hg =>
      rw [hnext] at hnext'
      cases hnext'
      rcases ih hg with ⟨hs, rfl, hr⟩ | ⟨h, hs, rfl, hr⟩
      · exact .inl ⟨hs, rfl, hr⟩
      · exact .inr ⟨h, hs, rfl, hr⟩

theorem FieldsOf.reads {fmt : CString} {ap rest : VaList} {fields : List Field}
    (h : FieldsOf T strings fmt ap fields rest) :
    Reads T strings (cursor fmt) ap fields [0] rest := by
  simpa [cursor] using Reads.append [0] [] h

def concat (f g : CString) : CString := ⟨f.val ++ g.val, by simp [f.property, g.property]⟩

theorem FieldsOf.concat {f g : CString} {apf apg rest : VaList} {fs gs : List Field}
    (hf : FieldsOf T strings f apf fs []) (hg : FieldsOf T strings g apg gs rest) :
    FieldsOf T strings (concat f g) (apf ++ apg) (fs ++ gs) rest :=
  (Reads.append g.val apg hf).trans hg

end Reads

end OsdevLibstdc.Vsnprintf
