import OsdevLibstdc.IntegerFields

/-! What the integer conversions print where neither `0` nor `#` is in effect. -/

namespace OsdevLibstdc.Vsnprintf

open Target LittleEndian

def Directive.digitsAt (d : Directive) (precision v : ℤ) : List UInt8 :=
  if v = 0 ∧ precision = 0 then []
  else zeros (precision - (d.digits v).length).toNat ++ d.digits v

def Directive.plainText (d : Directive) (v : ℤ) : List UInt8 :=
  d.sign v ++ d.digitsAt d.precision.value v

section Rendering

variable {D : DataModel} {strings : Strings} {d : Directive} {ap ap₁ ap' : VaList} {v q : ℤ}
  {text : List UInt8}

theorem readNumber_digitsAt (d : Directive) (q v : ℤ) :
    readNumber d.specifier.radix (d.digitsAt q v) = v.natAbs := by
  unfold Directive.digitsAt
  split_ifs with h0
  · rw [h0.1]
    rfl
  · rw [readNumber_zeros]
    exact readNumber_digitsText _ d.specifier.isRadix _

theorem unflagged_text (hz : d.zeroFlag = false) (v : ℤ) :
    d.integerText v = d.head v ++ d.digitsAt d.precision.value v := by
  have hasked : d.askedDigits v = d.precision.value := by
    rw [Directive.askedDigits, hz]
    rfl
  rw [Directive.integerText, Directive.digitsAt, hasked]
  split_ifs with h0
  · rw [Directive.head, Directive.alternative, if_neg (fun h => h.2 (Int.natAbs_eq_zero.mpr h0.1)),
      List.append_nil, List.append_nil]
  · rfl

theorem unflagged_box (hz : d.zeroFlag = false) (v : ℤ) :
    d.integerBox v = ⟨d.leftFlag, d.width.value, d.integerText v⟩ := by
  rw [Directive.integerBox, hz]
  rfl

theorem plain_integerText (halt : .alt ∉ d.flags) (hz : d.zeroFlag = false) (v : ℤ) :
    d.integerText v = d.plainText v := by
  rw [unflagged_text hz, Directive.plainText, Directive.head, Directive.alternative,
    if_neg (fun h => halt h.1), List.append_nil]

theorem digitsAt_length (h : ¬ (v = 0 ∧ q = 0)) :
    (d.digitsAt q v).length = (q - (d.digits v).length).toNat + (d.digits v).length := by
  rw [Directive.digitsAt, if_neg h, List.length_append, zeros_length]

theorem digitsAt_neg (hq : q < 0) (v : ℤ) : d.digitsAt q v = d.digits v := by
  have hzero : (q - ((d.digits v).length : ℤ)).toNat = 0 := by omega
  rw [Directive.digitsAt, if_neg (by omega), hzero]
  rfl

theorem pad_of_none (hw : d.width.value = -1) (text : List UInt8) : d.pad text = text := by
  have hgap : (-1 - (text.length : ℤ)).toNat = 0 := by omega
  simp [Directive.pad, padded, hw, hgap, Box.spaces]

theorem plain_fits_iff (hv : integerValue D d.specifier d.length ap₁ = .ok (v, ap'))
    (halt : .alt ∉ d.flags) (hz : d.zeroFlag = false) (hp : -1 ≤ d.precision.value) :
    d.IntegerFits v ↔ (d.plainText v).length ≤ MAX_NUMBER_LEN := by
  have hdigits := (d.digits_bounds hv).2
  have hsign := d.sign_le v
  rw [Directive.IntegerFits, hz, if_neg Bool.false_ne_true, Directive.head, Directive.alternative,
    if_neg (fun h => halt h.1), List.append_nil, Directive.plainText, List.length_append]
  simp only [INT_MIN, MAX_NUMBER_LEN]
  by_cases h0 : v = 0 ∧ d.precision.value = 0
  · rw [Directive.digitsAt, if_pos h0, List.length_nil]
    omega
  · rw [digitsAt_length h0]
    omega

theorem prints_plain_iff (hk : d.specifier.isInteger) (hstars : Passed D d.starArgs ap ap₁)
    (hv : integerValue D d.specifier d.length ap₁ = .ok (v, ap')) (halt : .alt ∉ d.flags)
    (hz : d.zeroFlag = false) (hw : -1 ≤ d.width.value) (hp : -1 ≤ d.precision.value) :
    Prints D strings d ap ap' text ↔ (d.plainText v).length ≤ MAX_NUMBER_LEN ∧
      text = d.pad (d.plainText v) ∧ (text.length : ℤ) < INT_MAX := by
  rw [prints_integer_iff hk hstars hv, plain_fits_iff hv halt hz hp]
  apply and_congr_right
  intro hlen
  have hfull : (d.integerBox v).full = d.pad (d.plainText v) := by
    rw [unflagged_box hz, plain_integerText halt hz]
    apply full_eq_padded
    · simp only [INT_MIN, MAX_NUMBER_LEN] at *
      omega
    · exact (d.ranges hstars).1.2
  rw [hfull]

theorem prints_integer (hk : d.specifier.isInteger) (hstars : Passed D d.starArgs ap ap₁)
    (hv : integerValue D d.specifier d.length ap₁ = .ok (v, ap')) (halt : .alt ∉ d.flags)
    (hz : d.zeroFlag = false) (hw : -1 ≤ d.width.value) (hp : -1 ≤ d.precision.value)
    (hscratch : (d.plainText v).length ≤ MAX_NUMBER_LEN)
    (hroom : ((d.pad (d.plainText v)).length : ℤ) < INT_MAX) :
    Prints D strings d ap ap' (d.pad (d.plainText v)) ∧
      readNumber d.specifier.radix (d.digitsAt d.precision.value v) = v.natAbs := by
  refine ⟨?_, readNumber_digitsAt d _ v⟩
  rw [prints_plain_iff hk hstars hv halt hz hw hp]
  exact ⟨hscratch, rfl, hroom⟩

end Rendering

def signedField : Directive :=
  ⟨[.plus], .literal ⟨[8], by decide⟩ ⟨8, [], rfl, by decide⟩, .literal ⟨[3], by decide⟩, .l, .d⟩

theorem signedField_value :
    integerValue .lp64 signedField.specifier signedField.length (encode 8 5) = .ok (5, []) := by
  decide +kernel

theorem prints_integer_signedField :
    Prints .lp64 (fun _ => none) signedField (encode 8 5) []
      (signedField.pad (signedField.plainText 5)) ∧
    readNumber signedField.specifier.radix
      (signedField.digitsAt signedField.precision.value 5) = Int.natAbs 5 :=
  prints_integer rfl (.nil _) signedField_value (by decide) rfl (by decide) (by decide)
    (by decide) (by decide)

example : signedField.pad (signedField.plainText 5) = bytes "    +005" := by decide

end OsdevLibstdc.Vsnprintf
