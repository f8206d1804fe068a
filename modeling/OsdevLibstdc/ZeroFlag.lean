import OsdevLibstdc.IntegerFields

/-! The flag `0`: zeros behind sign and prefix where there would be spaces in front of them. -/

namespace OsdevLibstdc.Vsnprintf

open Target LittleEndian

def Directive.withoutZero (d : Directive) : Directive :=
  { d with flags := d.flags.filter (· ≠ .zero) }

def ZeroLaw (D : DataModel) (strings : Strings) (d : Directive) (ap ap' : VaList) (v : ℤ) : Prop :=
  ∃ k, Prints D strings d.withoutZero ap ap' (Box.spaces k ++ (d.head v ++ d.digits v)) ∧
    Prints D strings d ap ap' (d.head v ++ (zeros k ++ d.digits v)) ∧
    ((d.head v ++ (zeros k ++ d.digits v)).length : ℤ) =
      max d.width.value (d.head v ++ d.digits v).length ∧
    d.digits v ≠ []

section ZeroFlag

variable {D : DataModel} {strings : Strings} {d : Directive} {ap ap₁ ap' : VaList} {v : ℤ}

theorem withoutZero_mem (d : Directive) {f : Flag} (hf : f ≠ .zero) :
    f ∈ d.withoutZero.flags ↔ f ∈ d.flags := by
  simp [Directive.withoutZero, hf]

theorem withoutZero_texts (d : Directive) (v : ℤ) :
    d.withoutZero.head v = d.head v ∧ d.withoutZero.zeroFlag = false ∧
    d.withoutZero.leftFlag = d.leftFlag := by
  refine ⟨?_, ?_, ?_⟩
  · have hplus := withoutZero_mem d (f := .plus) (by decide)
    have hspace := withoutZero_mem d (f := .space) (by decide)
    have halt := withoutZero_mem d (f := .alt) (by decide)
    simp only [Directive.head, Directive.sign, Directive.alternative, hplus, hspace, halt]
    rfl
  · simp [Directive.zeroFlag, Directive.withoutZero]
  · simp [Directive.leftFlag, withoutZero_mem]

theorem zeroFlag_leftFlag (h : d.zeroFlag) : d.leftFlag = false := by
  simp only [Directive.zeroFlag, decide_eq_true_eq] at h
  simp [Directive.leftFlag, h.2.1]

theorem Directive.head_le (hk : d.specifier.isInteger) (v : ℤ) : (d.head v).length ≤ 3 := by
  have hs := d.sign_le v
  have hp : (prefixText (d.readSpec v) v.natAbs).length ≤ 2 := prefixText_le
  rw [prefixText_readSpec hk] at hp
  rw [Directive.head, List.length_append]
  omega

theorem prints_withoutZero (hk : d.specifier.isInteger) (hstars : Passed D d.starArgs ap ap₁)
    (hv : integerValue D d.specifier d.length ap₁ = .ok (v, ap')) (hz : d.zeroFlag)
    (hw : 0 ≤ d.width.value) (hfit : d.width.value ≤ 66) :
    Prints D strings d.withoutZero ap ap'
      (Box.spaces (d.width.value - (d.head v ++ d.digits v).length).toNat ++
        (d.head v ++ d.digits v)) := by
  obtain ⟨hhead, hzero, hleft⟩ := withoutZero_texts d v
  have hdigits := d.digits_bounds hv
  have hheadle := d.head_le hk v
  have hprec : d.withoutZero.precision.value = -1 := zeroFlag_precision (d := d) hz
  have hasked : d.withoutZero.askedDigits v = -1 := by
    rw [Directive.askedDigits, hzero, hprec]
    rfl
  have htext : d.withoutZero.integerText v = d.head v ++ d.digits v := by
    rw [Directive.integerText, hasked, if_neg (by omega), hhead]
    have h0 : (-1 - ((d.withoutZero.digits v).length : ℤ)).toNat = 0 := by omega
    rw [h0]
    rfl
  have hbox : d.withoutZero.integerBox v = ⟨false, d.width.value, d.head v ++ d.digits v⟩ := by
    rw [Directive.integerBox, hzero, htext, hleft, zeroFlag_leftFlag hz]
    rfl
  rw [prints_integer_iff (d := d.withoutZero) hk hstars hv, hbox]
  refine ⟨?_, ?_, ?_⟩
  · rw [Directive.IntegerFits, hzero, if_neg Bool.false_ne_true, hprec, hhead]
    have hd : (d.withoutZero.digits v).length ≤ 22 := hdigits.2
    simp only [INT_MIN]
    omega
  · rw [full_eq_padded]
    · rfl
    · simp only [INT_MIN, List.length_append]
      omega
    · simp only [INT_MAX]
      omega
  · simp only [List.length_append, Box.spaces, List.length_replicate, INT_MAX]
    omega

theorem zeroFlag_text (hz : d.zeroFlag) (hw : 0 ≤ d.width.value) (v : ℤ) :
    d.integerText v = if v = 0 ∧ d.width.value = (d.sign v).length then d.sign v
      else d.head v ++ (zeros (d.width.value - (d.head v ++ d.digits v).length).toNat ++
        d.digits v) := by
  have hasked : d.askedDigits v = d.width.value - (d.head v).length := by
    rw [Directive.askedDigits, hz, if_pos rfl, max_eq_left (by omega)]
  have hcount : d.width.value - (d.head v).length - (d.digits v).length =
      d.width.value - (d.head v ++ d.digits v).length := by
    rw [List.length_append]
    omega
  have hempty : (v = 0 ∧ d.width.value - (d.head v).length = 0) ↔
      v = 0 ∧ d.width.value = (d.sign v).length := by
    apply and_congr_right
    intro h0
    have hhead : d.head v = d.sign v := by
      rw [Directive.head, Directive.alternative, if_neg (fun h => h.2 (Int.natAbs_eq_zero.mpr h0)),
        List.append_nil]
    rw [hhead]
    omega
  rw [Directive.integerText, hasked, hcount]
  simp only [hempty]

theorem prints_zeroFlag_iff (hk : d.specifier.isInteger) (hstars : Passed D d.starArgs ap ap₁)
    (hv : integerValue D d.specifier d.length ap₁ = .ok (v, ap')) (hz : d.zeroFlag)
    (hw : 0 ≤ d.width.value) (hfit : d.width.value ≤ 66) {text : List UInt8} :
    Prints D strings d ap ap' text ↔ text = d.integerText v := by
  have hbox : d.integerBox v = ⟨false, 0, d.integerText v⟩ := by
    rw [Directive.integerBox, zeroFlag_leftFlag hz, if_pos ⟨hz, by omega⟩]
  have hlen : (d.integerText v).length ≤ 66 := by
    have hhead := d.head_le hk v
    have hsign := d.sign_le v
    have hdigits := d.digits_bounds hv
    rw [zeroFlag_text hz hw]
    split_ifs
    · omega
    · simp only [List.length_append, zeros_length]
      omega
  have hfull : (d.integerBox v).full = d.integerText v := by
    have hgap : (0 - ((d.integerText v).length : ℤ)).toNat = 0 := by omega
    rw [hbox, full_eq_padded]
    · rw [padded, hgap]
      rfl
    · simp only [INT_MIN]
      omega
    · simp only [INT_MAX]
      omega
  have hfits : d.IntegerFits v := by
    rw [Directive.IntegerFits, if_pos hz]
    exact hfit
  rw [prints_integer_iff hk hstars hv, hfull, and_iff_right hfits]
  apply and_iff_left_of_imp
  rintro rfl
  simp only [INT_MAX]
  omega

theorem zeroLaw_iff (hk : d.specifier.isInteger) (hstars : Passed D d.starArgs ap ap₁)
    (hv : integerValue D d.specifier d.length ap₁ = .ok (v, ap')) (hz : d.zeroFlag)
    (hw : 0 ≤ d.width.value) (hfit : d.width.value ≤ MAX_NUMBER_LEN) :
    ZeroLaw D strings d ap ap' v ↔ ¬ (v = 0 ∧ d.width.value = (d.sign v).length) := by
  have hdigits := d.digits_bounds hv
  have hprints (text : List UInt8) : Prints D strings d ap ap' text ↔ text = d.integerText v :=
    prints_zeroFlag_iff hk hstars hv hz hw hfit
  have htext := zeroFlag_text hz hw v
  constructor
  · rintro ⟨k, -, hzeros, -, -⟩ hbad
    rw [hprints, htext, if_pos hbad] at hzeros
    have hl := congrArg List.length hzeros
    simp only [Directive.head, List.length_append] at hl
    omega
  · intro hgood
    rw [if_neg hgood] at htext
    refine ⟨_, prints_withoutZero hk hstars hv hz hw hfit, (hprints _).mpr htext.symm, ?_, ?_⟩
    · simp only [List.length_append, zeros_length]
      omega
    · exact List.length_pos_iff.mp hdigits.1

end ZeroFlag

def signAlone : Directive :=
  ⟨[.plus, .zero], .literal ⟨[1], by decide⟩ ⟨1, [], rfl, by decide⟩, .none, .null, .d⟩

theorem signAlone_value :
    integerValue .lp64 signAlone.specifier signAlone.length (encode 8 0) = .ok (0, []) := by
  decide +kernel

theorem zeroLaw_signAlone : ZeroLaw .lp64 (fun _ => none) signAlone (encode 8 0) [] 0 ↔
    ¬ ((0 : ℤ) = 0 ∧ signAlone.width.value = (signAlone.sign 0).length) :=
  zeroLaw_iff rfl (.nil _) signAlone_value rfl (by decide) (by decide)

theorem not_zeroLaw : ¬ ∀ (D : DataModel) (strings : Strings) (d : Directive)
    (ap ap₁ ap' : VaList) (v : ℤ), d.specifier.isInteger → Passed D d.starArgs ap ap₁ →
    integerValue D d.specifier d.length ap₁ = .ok (v, ap') → d.zeroFlag → 0 ≤ d.width.value →
    d.width.value ≤ MAX_NUMBER_LEN → ZeroLaw D strings d ap ap' v := by
  intro h
  obtain ⟨k, -, hzeros, -, -⟩ := h .lp64 (fun _ => none) signAlone (encode 8 0) _ _ _ rfl (.nil _)
    signAlone_value rfl (by decide) (by decide)
  rw [prints_zeroFlag_iff rfl (.nil _) signAlone_value rfl (by decide) (by decide)] at hzeros
  have hl := congrArg List.length hzeros
  have htext : signAlone.integerText 0 = [byte '+'] := by decide
  have hdigits : signAlone.digits 0 = [byte '0'] := by decide
  have hhead : signAlone.head 0 = [byte '+'] := by decide
  rw [htext, hdigits, hhead] at hl
  simp at hl

end OsdevLibstdc.Vsnprintf
