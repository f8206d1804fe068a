import OsdevLibstdc.FormatFields

/-!
What a directive leaves in `FormatSpec` is reset before the next one, except `total`, and no
reader looks at `total`.
-/

namespace OsdevLibstdc.Vsnprintf

open Target ByteStores Outcomes

def FormatSpec.withTotal (t : ℤ) (spec : FormatSpec) : FormatSpec := { spec with total := t }

def Parsed.withTotal (t : ℤ) (p : Parsed) : Parsed := { p with spec := p.spec.withTotal t }

def Conversion.withTotal (t : ℤ) : Conversion → Conversion
  | .literal c => .literal c
  | .number spec n => .number (spec.withTotal t) n
  | .char spec c => .char (spec.withTotal t) c
  | .string spec ptr => .string (spec.withTotal t) ptr
  | .nil spec => .nil (spec.withTotal t)
  | .count ptr => .count ptr

section Total

variable (T : Machine) (t : ℤ)

theorem parseFieldWidth_withTotal (p : Parsed) :
    parseFieldWidth T (p.withTotal t) = Parsed.withTotal t <$> parseFieldWidth T p := by
  simp only [parseFieldWidth, Parsed.withTotal, FormatSpec.withTotal]
  cases hd : deref p.fmt with
  | error e => rfl
  | ok c =>
    simp only [ok_bind]
    split_ifs
    · simp only [map_bind]
      rfl
    · simp only [map_bind]
      rfl
    · cases deref p.fmt.tail.tail with
      | error e => rfl
      | ok c =>
        simp only [ok_bind]
        split_ifs
        · simp only [map_bind]
          rfl
        · rfl
    · rfl

theorem parsePrecision_withTotal (p : Parsed) :
    parsePrecision T (p.withTotal t) = Parsed.withTotal t <$> parsePrecision T p := by
  simp only [parsePrecision, Parsed.withTotal, FormatSpec.withTotal]
  cases hd : deref p.fmt with
  | error e => rfl
  | ok c =>
    simp only [ok_bind]
    split_ifs
    · cases deref p.fmt.tail with
      | error e => rfl
      | ok c =>
        simp only [ok_bind]
        split_ifs
        · simp only [map_bind]
          rfl
        · simp only [map_bind]
          rfl
        · simp only [map_bind]
          rfl
        · rfl
    · rfl

theorem parseFlagsFwPrecision_withTotal (fmt : Cursor) (spec : FormatSpec) (ap : VaList) :
    parseFlagsFwPrecision T fmt (spec.withTotal t) ap =
      Parsed.withTotal t <$> parseFlagsFwPrecision T fmt spec ap := by
  simp only [parseFlagsFwPrecision, FormatSpec.withTotal, map_bind]
  cases scanFlags fmt spec.flags with
  | error e => rfl
  | ok r =>
    have hw := parseFieldWidth_withTotal T t ⟨r.2, { spec with flags := r.1 }, ap⟩
    simp only [Parsed.withTotal, FormatSpec.withTotal] at hw
    simp only [ok_bind, hw, bind_map_left]
    congr 1
    funext p
    exact parsePrecision_withTotal T t p

theorem parseSizeSpecifier_withTotal (fmt : Cursor) (spec : FormatSpec) :
    parseSizeSpecifier fmt (spec.withTotal t) =
      (fun r => (r.1.withTotal t, r.2)) <$> parseSizeSpecifier fmt spec := by
  simp only [parseSizeSpecifier, FormatSpec.withTotal]
  cases deref fmt with
  | error e => rfl
  | ok c =>
    simp only [ok_bind]
    split_ifs
    · cases deref fmt.tail with
      | error e => rfl
      | ok c =>
        simp only [ok_bind]
        split_ifs <;> rfl
    · cases deref fmt.tail with
      | error e => rfl
      | ok c =>
        simp only [ok_bind]
        split_ifs <;> rfl
    all_goals rfl

theorem signedArgument_withTotal (spec : FormatSpec) (ap : VaList) :
    signedArgument T (spec.withTotal t) ap =
      (fun r => (r.1.withTotal t, r.2)) <$> signedArgument T spec ap := by
  simp only [signedArgument, FormatSpec.withTotal, map_bind]
  congr 1
  funext r
  split_ifs
  · simp only [map_bind]
    congr 1
  · rfl

theorem unsignedArgument_withTotal (D : DataModel) (spec : FormatSpec) (ap : VaList) :
    unsignedArgument D (spec.withTotal t) ap =
      (fun r => (r.1.withTotal t, r.2)) <$> unsignedArgument D spec ap := by
  simp only [unsignedArgument, FormatSpec.withTotal, map_bind]
  congr 1

theorem widthToPrecision_withTotal (spec : FormatSpec) :
    widthToPrecision (spec.withTotal t) = (widthToPrecision spec).withTotal t := by
  by_cases h : spec.precision < spec.fieldWidth <;>
    simp [widthToPrecision, FormatSpec.withTotal, h]

theorem emulateZero_withTotal (spec : FormatSpec) :
    emulateZero T (spec.withTotal t) = FormatSpec.withTotal t <$> emulateZero T spec := by
  have hs : signChar (spec.withTotal t) = signChar spec := rfl
  simp only [emulateZero, widthToPrecision_withTotal, hs]
  split_ifs <;> simp_all [FormatSpec.withTotal]

theorem numberToString_withTotal (n : ℕ) (spec : FormatSpec) (size : ℤ) :
    numberToString T n (spec.withTotal t) size = numberToString T n spec size := rfl

theorem numberStr_withTotal (spec : FormatSpec) (n : ℕ) :
    numberStr T (spec.withTotal t) n =
      (fun r => (r.1.withTotal t, r.2)) <$> numberStr T spec n := by
  simp only [numberStr, emulateZero_withTotal, map_bind, bind_map_left,
    numberToString_withTotal]
  rfl

theorem conversion_withTotal (c : UInt8) (spec : FormatSpec) (ap : VaList) :
    conversion T c (spec.withTotal t) ap =
      (fun r => (r.1.withTotal t, r.2)) <$> conversion T c spec ap := by
  have unsigned (D : DataModel) (spec : FormatSpec) :
      (unsignedArgument D (spec.withTotal t) ap >>= fun r =>
        pure (Conversion.number r.1 r.2.1, r.2.2)) =
      (fun r => (r.1.withTotal t, r.2)) <$> (unsignedArgument D spec ap >>= fun r =>
        (pure (Conversion.number r.1 r.2.1, r.2.2) : Except Fault (Conversion × VaList))) := by
    rw [unsignedArgument_withTotal, map_bind, bind_map_left]
    rfl
  unfold conversion
  split
  · rw [signedArgument_withTotal, map_bind, bind_map_left]
    rfl
  · rw [signedArgument_withTotal, map_bind, bind_map_left]
    rfl
  · exact unsigned T.model { spec with flags.alt := false }
  · exact unsigned T.model { spec with radix := 8 }
  · exact unsigned T.model { spec with flags.huge := true, radix := 16 }
  · exact unsigned T.model { spec with radix := 16 }
  · simp only [map_bind, FormatSpec.withTotal]
    congr 1
    funext r
    split_ifs <;> rfl
  · simp only [map_bind]
    rfl
  · simp only [map_bind]
    rfl
  · simp only [map_bind]
    rfl
  · rfl
  · rfl

theorem clearZero_withTotal (spec : FormatSpec) :
    clearZero (spec.withTotal t) = (clearZero spec).withTotal t := by
  by_cases h : spec.flags.minus <;> simp [clearZero, FormatSpec.withTotal, h]

end Total

end OsdevLibstdc.Vsnprintf
