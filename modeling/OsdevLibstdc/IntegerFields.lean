import OsdevLibstdc.NumberTexts
import OsdevLibstdc.PrintedFields

/-!
The fields of the integer conversions: which value a directive fetches, the sign, prefix and
digits of its text, and the box in which it is padded.
-/

namespace OsdevLibstdc.Vsnprintf

open Target ByteStores Outcomes LittleEndian

namespace Specifier

def isSigned : Specifier → Bool
  | d | i => true
  | _ => false

def isInteger : Specifier → Bool
  | d | i | u | o | X | x => true
  | _ => false

def radix : Specifier → ℕ
  | o => 8
  | X | x | p => 16
  | _ => 10

theorem isRadix (k : Specifier) : IsRadix k.radix := by
  unfold IsRadix radix
  cases k <;> simp

def digits (k : Specifier) (n : ℕ) : List UInt8 := digitsText (k = .X) k.radix n

end Specifier

def integerValue (D : DataModel) (k : Specifier) (len : LengthSpec) (ap : VaList) :
    Except Fault (ℤ × VaList) :=
  if k.isSigned then signedValue D len ap else unsignedValue D len ap

def integerSpec (k : Specifier) (spec : FormatSpec) (v : ℤ) : FormatSpec :=
  { spec with
    flags := { spec.flags with
      alt := spec.flags.alt && (k.radix ≠ 10)
      plus := spec.flags.plus && k.isSigned
      space := spec.flags.space && k.isSigned && decide (0 ≤ v)
      huge := k = .X }
    radix := k.radix
    negative := k.isSigned && decide (v < 0) }

def padded (minus : Bool) (width : ℤ) (text : List UInt8) : List UInt8 :=
  let gap := Box.spaces (width - text.length).toNat
  if minus then text ++ gap else gap ++ text

namespace Directive

def sign (d : Directive) (v : ℤ) : List UInt8 :=
  if d.specifier.isSigned then
    if v < 0 then [byte '-']
    else if .plus ∈ d.flags then [byte '+']
    else if .space ∈ d.flags then [byte ' ']
    else []
  else []

def alternative (d : Directive) (n : ℕ) : List UInt8 :=
  if .alt ∈ d.flags ∧ n ≠ 0 then
    match d.specifier with
    | .o => [byte '0']
    | .x => [byte '0', byte 'x']
    | .X => [byte '0', byte 'X']
    | _ => []
  else []

def zeroFlag (d : Directive) : Bool :=
  .zero ∈ d.flags ∧ .minus ∉ d.flags ∧ d.precision.isNone

def leftFlag (d : Directive) : Bool := .minus ∈ d.flags

def head (d : Directive) (v : ℤ) : List UInt8 := d.sign v ++ d.alternative v.natAbs

def digits (d : Directive) (v : ℤ) : List UInt8 := d.specifier.digits v.natAbs

def askedDigits (d : Directive) (v : ℤ) : ℤ :=
  if d.zeroFlag then max d.width.value (-1) - (d.head v).length else d.precision.value

def integerText (d : Directive) (v : ℤ) : List UInt8 :=
  if v = 0 ∧ d.askedDigits v = 0 then d.sign v
  else d.head v ++ (zeros (d.askedDigits v - (d.digits v).length).toNat ++ d.digits v)

def integerBox (d : Directive) (v : ℤ) : Box where
  minus := d.leftFlag
  width := if d.zeroFlag ∧ -1 < d.width.value then 0 else d.width.value
  text := d.integerText v

def pad (d : Directive) (text : List UInt8) : List UInt8 :=
  padded d.leftFlag d.width.value text

def IntegerFits (d : Directive) (v : ℤ) : Prop :=
  if d.zeroFlag then d.width.value ≤ 66
  else INT_MIN + (d.digits v).length ≤ d.precision.value ∧
    (d.head v).length + d.precision.value ≤ 66

def readSpec (d : Directive) (v : ℤ) : FormatSpec := integerSpec d.specifier (clearZero d.spec) v

end Directive

section Ranges

variable {D : DataModel} {ty : CType} {ap ap' : VaList} {v : ℤ}

theorem convert_range (D : DataModel) (ty : CType) (x : ℤ) :
    if ty.signed then -2 ^ 63 ≤ ty.convert D x ∧ ty.convert D x < 2 ^ 63
    else 0 ≤ ty.convert D x ∧ ty.convert D x < 2 ^ 64 := by
  have hsize : 256 ^ ty.sizeof D = 2 ^ 64 ∨ 256 ^ ty.sizeof D = 2 ^ 32 := by
    cases D <;> cases ty <;> simp [CType.sizeof, DataModel.word]
  unfold CType.convert
  split_ifs
  · have hl := Int.le_bmod (x := x) (m := 256 ^ ty.sizeof D) (by positivity)
    have hu := Int.bmod_lt (x := x) (m := 256 ^ ty.sizeof D) (by positivity)
    rcases hsize with h | h <;> rw [h] at hl hu ⊢ <;> norm_num at hl hu ⊢ <;> omega
  · have hl := Int.emod_nonneg x (b := (256 ^ ty.sizeof D : ℕ)) (by positivity)
    have hu := Int.emod_lt_of_pos x (b := (256 ^ ty.sizeof D : ℕ)) (by positivity)
    rcases hsize with h | h <;> rw [h] at hl hu ⊢ <;> norm_num at hl hu ⊢ <;> omega

theorem vaArg_range (h : vaArg D ty ap = .ok (v, ap')) :
    if ty.signed then -2 ^ 63 ≤ v ∧ v < 2 ^ 63 else 0 ≤ v ∧ v < 2 ^ 64 := by
  unfold vaArg at h
  split_ifs at h
  cases h
  exact convert_range D ty _

theorem narrow_range (signed : Bool) (x : ℤ) :
    if signed then -128 ≤ narrow signed x ∧ narrow signed x < 128
    else 0 ≤ narrow signed x ∧ narrow signed x < 256 := by
  unfold narrow
  split_ifs
  · have hl := Int.le_bmod (x := x) (m := 256) (by decide)
    have hu := Int.bmod_lt (x := x) (m := 256) (by decide)
    omega
  · omega

theorem signedValue_range {len : LengthSpec} (h : signedValue D len ap = .ok (v, ap')) :
    -2 ^ 63 ≤ v ∧ v < 2 ^ 63 := by
  cases len
  case hh =>
    obtain ⟨r, -, h⟩ := bind_eq_ok.mp h
    cases h
    have := narrow_range true r.1
    simp only [↓reduceIte] at this
    omega
  all_goals exact vaArg_range h

theorem readUnsignedNumber_range {len : LengthSpec}
    (h : readUnsignedNumber D len ap = .ok (v, ap')) : 0 ≤ v ∧ v < 2 ^ 64 := by
  cases len
  case hh =>
    obtain ⟨r, -, h⟩ := bind_eq_ok.mp h
    cases h
    have := narrow_range false r.1
    simp only [Bool.false_eq_true, ↓reduceIte] at this
    omega
  all_goals exact vaArg_range h

theorem integerValue_range {k : Specifier} {len : LengthSpec}
    (h : integerValue D k len ap = .ok (v, ap')) :
    (k.isSigned = false → 0 ≤ v) ∧ -2 ^ 63 ≤ v ∧ v < 2 ^ 64 := by
  unfold integerValue at h
  split_ifs at h with hs
  · have := signedValue_range h
    refine ⟨fun hf => absurd (hs.symm.trans hf) (by decide), this.1, ?_⟩
    omega
  · have hv : 0 ≤ v ∧ v < 2 ^ 64 := by
      unfold unsignedValue at h
      split_ifs at h
      · exact vaArg_range h
      · exact readUnsignedNumber_range h
    exact ⟨fun _ => hv.1, by omega, hv.2⟩

theorem natAbs_lt {k : Specifier} {len : LengthSpec} (h : integerValue D k len ap = .ok (v, ap')) :
    v.natAbs < 2 ^ 64 := by
  have := (integerValue_range h).2
  omega

theorem negated_toNat (D : DataModel) (hl : -2 ^ 63 ≤ v) (hn : v < 0) :
    (CType.unsignedLongLong.convert D (CType.longLong.convert D (-v))).toNat = v.natAbs := by
  have h : CType.unsignedLongLong.convert D (CType.longLong.convert D (-v)) = -v := by
    simp only [CType.convert, CType.signed, CType.sizeof, ↓reduceIte, Bool.false_eq_true]
    rw [Int.bmod_emod, Int.emod_eq_of_lt (by omega) (by norm_num; omega)]
  rw [h]
  omega

theorem unsigned_toNat (D : DataModel) (hl : 0 ≤ v) (hu : v < 2 ^ 63) :
    (CType.unsignedLongLong.convert D v).toNat = v.natAbs := by
  have h : CType.unsignedLongLong.convert D v = v := by
    simp only [CType.convert, CType.signed, CType.sizeof, Bool.false_eq_true, ↓reduceIte]
    exact Int.emod_eq_of_lt hl (by norm_num; omega)
  rw [h]
  omega

structure FormatSpec.Parsed (spec : FormatSpec) : Prop where
  radix : spec.radix = 10
  huge : spec.flags.huge = false
  negative : spec.negative = false

theorem signedArgument_eq {spec : FormatSpec} (hs : spec.Parsed)
    (hv : signedValue D spec.lengthSpec ap = .ok (v, ap')) :
    signedArgument (wrapping D) spec ap = .ok (integerSpec .d spec v, v.natAbs, ap') := by
  obtain ⟨hradix, hhuge, hneg⟩ := hs
  have hrange := signedValue_range hv
  unfold signedArgument
  simp only [hv, ok_bind]
  split_ifs with hn
  · rw [Machine.arith, ok_bind, negated_toNat D hrange.1 hn]
    simp [integerSpec, Specifier.isSigned, Specifier.radix, hhuge, hn, pure_eq]
  · rw [unsigned_toNat D (not_lt.mp hn) hrange.2]
    simp [integerSpec, Specifier.isSigned, Specifier.radix, hhuge, not_lt.mp hn, pure_eq]

theorem conversion_integer {k : Specifier} {spec : FormatSpec} (hk : k.isInteger)
    (hs : spec.Parsed) (hv : integerValue D k spec.lengthSpec ap = .ok (v, ap')) :
    conversion (wrapping D) k.byte spec ap = .ok (.number (integerSpec k spec v) v.natAbs, ap') := by
  have hrange := integerValue_range hv
  unfold conversion
  rw [specifierOf_byte]
  by_cases hsigned : k.isSigned
  · rw [integerValue, if_pos hsigned] at hv
    have hd := signedArgument_eq hs hv
    cases k <;> first | contradiction | (simp only [hd, ok_bind]; rfl)
  · rw [integerValue, if_neg hsigned] at hv
    obtain ⟨hradix, hhuge, hneg⟩ := hs
    have hnat : v.toNat = v.natAbs := by
      have := hrange.1 (by simpa using hsigned)
      omega
    cases k <;> first
      | contradiction
      | (simp [unsignedArgument, hv, integerSpec, Specifier.isSigned, Specifier.radix, hhuge,
          hneg, hradix, hnat, pure_eq])

end Ranges

section Directives

variable {D : DataModel} {strings : Strings} {d : Directive} {ap ap₁ ap' : VaList} {v : ℤ}
  {text : List UInt8}

theorem convert_int_range (D : DataModel) (x : ℤ) :
    INT_MIN ≤ CType.int.convert D x ∧ CType.int.convert D x ≤ INT_MAX := by
  have hl := Int.le_bmod (x := x) (m := 4294967296) (by decide)
  have hu := Int.bmod_lt (x := x) (m := 4294967296) (by decide)
  rw [convert_int, wrapInt]
  simp only [INT_MIN, INT_MAX]
  omega

theorem star_range {x : ℤ} (h : Passed D [⟨.int, x⟩] ap ap') : INT_MIN ≤ x ∧ x ≤ INT_MAX := by
  cases h with
  | @cons _ _ bs ap rest ha h =>
    have hx := convert_int_range D (decode (bs.take (CType.int.sizeof D)))
    have hval : CType.int.convert D (decode (bs.take (CType.int.sizeof D))) = x := ha.2
    rwa [hval] at hx

theorem Width.range (w : Width) (h : Passed D w.args ap ap') :
    INT_MIN ≤ w.value ∧ w.value ≤ INT_MAX := by
  cases w with
  | none => exact ⟨by decide, by decide⟩
  | literal n _ => exact ⟨by simp only [Width.value, INT_MIN]; omega, n.bound⟩
  | star x => exact star_range h

theorem Precision.range (p : Precision) (h : Passed D p.args ap ap') :
    INT_MIN ≤ p.value ∧ p.value ≤ INT_MAX := by
  have hnone : INT_MIN ≤ -1 ∧ -1 ≤ INT_MAX := by decide
  cases p with
  | none => exact hnone
  | negative ds => exact hnone
  | literal n => exact ⟨by simp only [Precision.value, INT_MIN]; omega, n.bound⟩
  | star x => exact star_range h

theorem Directive.ranges (h : Passed D d.starArgs ap ap₁) :
    (INT_MIN ≤ d.width.value ∧ d.width.value ≤ INT_MAX) ∧
    (INT_MIN ≤ d.precision.value ∧ d.precision.value ≤ INT_MAX) := by
  obtain ⟨ap₂, hw, hp⟩ := passed_append.mp h
  exact ⟨d.width.range hw, d.precision.range hp⟩

theorem clearZero_spec (d : Directive) : clearZero d.spec = { d.spec with
    flags := { flagSet d.flags with zero := d.zeroFlag } } := by
  have hz : d.zeroFlag =
      ((flagSet d.flags).zero && !(flagSet d.flags).minus && d.precision.isNone) := by
    simp [Directive.zeroFlag, flagSet, Bool.and_assoc]
  unfold clearZero
  by_cases hm : (flagSet d.flags).minus
  · simp [Directive.spec, hz, hm]
  · simp [Directive.spec, hz, hm]

theorem parsed_spec (d : Directive) : (clearZero d.spec).Parsed := by
  rw [clearZero_spec]
  exact ⟨rfl, rfl, rfl⟩

theorem zeroFlag_precision (h : d.zeroFlag) : d.precision.value = -1 := by
  have hp : d.precision.isNone := by
    simp only [Directive.zeroFlag, decide_eq_true_eq] at h
    exact h.2.2
  cases hd : d.precision <;> rw [hd] at hp <;> first | rfl | contradiction

theorem renderable_readSpec (h : Passed D d.starArgs ap ap₁) :
    Renderable (d.readSpec v) := by
  have hr := d.ranges h
  rw [Directive.readSpec, integerSpec, clearZero_spec]
  exact ⟨d.specifier.isRadix, zeroFlag_precision, hr.1, hr.2⟩

theorem signText_readSpec (d : Directive) (v : ℤ) : signText (d.readSpec v) = d.sign v := by
  rw [Directive.readSpec, integerSpec, clearZero_spec, signText, signChar, Directive.sign]
  by_cases hs : d.specifier.isSigned
  · by_cases hv : v < 0
    · simp [hs, hv]
    · by_cases hplus : .plus ∈ d.flags <;> by_cases hspace : .space ∈ d.flags <;>
        simp [hs, hv, not_lt.mp hv, flagSet, hplus, hspace]
  · simp [hs]

theorem prefixText_readSpec (hk : d.specifier.isInteger) (v : ℤ) :
    prefixText (d.readSpec v) v.natAbs = d.alternative v.natAbs := by
  rw [Directive.readSpec, integerSpec, clearZero_spec, prefixText, altPrefix, Directive.alternative]
  by_cases ha : .alt ∈ d.flags <;> by_cases hv : v = 0 <;>
    cases hd : d.specifier <;> simp_all [Specifier.isInteger, Specifier.radix, flagSet]

theorem askedDigits_readSpec (hk : d.specifier.isInteger) (v : ℤ) :
    Vsnprintf.askedDigits (d.readSpec v) v.natAbs = d.askedDigits v := by
  unfold Vsnprintf.askedDigits Directive.askedDigits
  rw [signText_readSpec, prefixText_readSpec hk, Directive.readSpec, integerSpec, clearZero_spec]
  rfl

theorem numberDigits_readSpec (d : Directive) (v : ℤ) :
    numberDigits (d.readSpec v) v.natAbs = d.digits v := by
  rw [Directive.readSpec, integerSpec, clearZero_spec]
  rfl

theorem numberText_readSpec (hk : d.specifier.isInteger) (v : ℤ) :
    numberText (d.readSpec v) v.natAbs = d.integerText v := by
  unfold numberText bodyText Directive.integerText
  rw [signText_readSpec, prefixText_readSpec hk, askedDigits_readSpec hk, numberDigits_readSpec]
  simp only [Int.natAbs_eq_zero]
  split_ifs
  · rw [List.append_nil]
  · rw [Directive.head, List.append_assoc]

theorem fitsScratch_readSpec (hk : d.specifier.isInteger) (v : ℤ) :
    FitsScratch (d.readSpec v) v.natAbs ↔ d.IntegerFits v := by
  unfold FitsScratch Directive.IntegerFits
  rw [signText_readSpec, prefixText_readSpec hk, numberDigits_readSpec, Directive.readSpec,
    integerSpec, clearZero_spec]
  rfl

instance (d : Directive) (v : ℤ) : Decidable (d.IntegerFits v) := by
  unfold Directive.IntegerFits
  infer_instance

theorem nextField_integer (hk : d.specifier.isInteger) (hstars : Passed D d.starArgs ap ap₁)
    (hv : integerValue D d.specifier d.length ap₁ = .ok (v, ap')) (more : Cursor) :
    nextField (wrapping D) strings (byte '%' :: (d.text ++ more)) ap =
      if d.IntegerFits v then .ok (.padded (d.integerBox v), ap', more)
      else .error .scratchOverflow := by
  have hlen : (clearZero d.spec).lengthSpec = d.length := clearZero_lengthSpec d.spec
  have hv' := hv
  rw [← hlen] at hv'
  have hconv := conversion_integer hk (parsed_spec d) hv'
  have hspec : integerSpec d.specifier (clearZero d.spec) v = d.readSpec v := rfl
  have hbox : (⟨(emulated (d.readSpec v)).flags.minus, (emulated (d.readSpec v)).fieldWidth,
      d.integerText v⟩ : Box) = d.integerBox v := by
    obtain ⟨-, -, hflags, hwidth⟩ := emulated_texts (d.readSpec v) 0
    rw [hflags, hwidth, outerWidth, Directive.readSpec, integerSpec, clearZero_spec]
    rfl
  rw [nextField_text d more hstars, hconv, ok_bind, Conversion.field, hspec,
    numberStr_eq D (renderable_readSpec hstars) (natAbs_lt hv), numberText_readSpec hk]
  simp only [fitsScratch_readSpec hk v]
  split_ifs
  · simp only [ok_bind, pure_eq, hbox]
  · rfl

theorem prints_integer_iff (hk : d.specifier.isInteger) (hstars : Passed D d.starArgs ap ap₁)
    (hv : integerValue D d.specifier d.length ap₁ = .ok (v, ap')) :
    Prints D strings d ap ap' text ↔
      d.IntegerFits v ∧ text = (d.integerBox v).full ∧ (text.length : ℤ) < INT_MAX := by
  by_cases hf : d.IntegerFits v
  · have hread : ReadsAs D strings d ap ap' (.padded (d.integerBox v)) := by
      intro more
      rw [nextField_integer hk hstars hv, if_pos hf]
    have hfull : (Field.padded (d.integerBox v)).full = (d.integerBox v).full := rfl
    rw [prints_iff hread rfl, hfull, and_iff_right hf]
    exact and_congr_right fun h => by rw [h]
  · refine iff_of_false (not_prints (e := .scratchOverflow) fun more => ?_) (fun h => hf h.1)
    rw [nextField_integer hk hstars hv, if_neg hf]

theorem Directive.digits_bounds (d : Directive) {k : Specifier} {len : LengthSpec}
    (hv : integerValue D k len ap = .ok (v, ap')) :
    0 < (d.digits v).length ∧ (d.digits v).length ≤ 22 :=
  ⟨digitsText_pos _ _ _, digitsText_le _ d.specifier.isRadix (natAbs_lt hv)⟩

theorem Directive.sign_le (d : Directive) (v : ℤ) : (d.sign v).length ≤ 1 := by
  rw [← signText_readSpec]
  exact signText_le

theorem full_eq_padded {b : Box} (hl : INT_MIN ≤ b.width - b.text.length)
    (hw : b.width ≤ INT_MAX) : b.full = padded b.minus b.width b.text := by
  have hpad : b.padding = (b.width - b.text.length).toNat := by
    rw [Box.padding, wrapInt_eq hl (by omega)]
  rw [Box.full, hpad]
  rfl

theorem not_wrapped {b : Box} (hw : INT_MIN ≤ b.width) (hfit : (b.full.length : ℤ) < INT_MAX) :
    INT_MIN ≤ b.width - b.text.length := by
  by_contra hlt
  have hlen := b.full_length
  have hpad : b.padding = (b.width - b.text.length + 4294967296).toNat := by
    rw [Box.padding, ← wrapInt_add, wrapInt_eq] <;> simp only [INT_MIN, INT_MAX] at * <;> omega
  simp only [INT_MIN, INT_MAX] at *
  omega

theorem padded_count (minus : Bool) (width : ℤ) (text : List UInt8) :
    (padded minus width text).count (byte '0') = text.count (byte '0') := by
  have hne : byte ' ' ≠ byte '0' := by decide
  cases minus <;> simp [padded, Box.spaces, List.count_replicate, hne]

theorem full_count (b : Box) : b.full.count (byte '0') = b.text.count (byte '0') := by
  have hne : byte ' ' ≠ byte '0' := by decide
  unfold Box.full
  split_ifs <;> simp [Box.spaces, List.count_replicate, hne]

end Directives

end OsdevLibstdc.Vsnprintf
