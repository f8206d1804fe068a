import OsdevLibstdc.ParsingOverflow
import OsdevLibstdc.ScratchBuffers

/-!
What parsing leaves for the conversions, and where reading an argument can overflow: negating
`LLONG_MIN`.
-/

namespace OsdevLibstdc.Vsnprintf

open Target ByteStores Outcomes

structure FormatSpec.Scanned (spec : FormatSpec) : Prop where
  radix : spec.radix = 10
  negative : spec.negative = false
  zero : spec.flags.zero → spec.precision = -1
  width : InInt spec.fieldWidth
  precision : InInt spec.precision

section Scanned

variable {D : DataModel}

theorem parseNumber_inInt {str str' : Cursor} {v v' : ℤ} (hv : InInt v)
    (h : parseNumber (wrapping D) str v = .ok (v', str')) : InInt v' := by
  induction str generalizing v with
  | nil => cases h
  | cons c str ih =>
    rw [parseNumber] at h
    split_ifs at h
    · rw [arith_int_wrapping, ok_bind] at h
      exact ih ⟨wrapInt_ge _, wrapInt_le _⟩ h
    · rwa [← (Prod.mk.inj (Except.ok.inj h)).1]

theorem vaArg_inInt {ap ap' : VaList} {v : ℤ} (h : vaArg D .int ap = .ok (v, ap')) : InInt v := by
  unfold vaArg at h
  split_ifs at h
  rw [← (Prod.mk.inj (Except.ok.inj h)).1, convert_int]
  exact ⟨wrapInt_ge _, wrapInt_le _⟩

theorem parseFieldWidth_scanned {p q : Parsed} (hp : p.spec.Scanned)
    (h : parseFieldWidth (wrapping D) p = .ok q) : q.spec.Scanned := by
  have hwidth {flags : FormatFlags} {width : ℤ} (hz : flags.zero = p.spec.flags.zero)
      (hw : InInt width) : { p.spec with flags, fieldWidth := width }.Scanned :=
    ⟨hp.radix, hp.negative, fun h => hp.zero (by rw [← hz]; exact h), hw, hp.precision⟩
  have hzero : InInt 0 := ⟨by decide, by decide⟩
  cases parseFieldWidth_cases h with
  | star hr => exact hwidth rfl (vaArg_inInt hr)
  | digits hr => exact hwidth rfl (parseNumber_inInt hzero hr)
  | minusDigits hr => exact hwidth rfl (parseNumber_inInt hzero hr)
  | minus => exact hwidth rfl hp.width
  | none => exact hp

theorem parsePrecision_scanned {p q : Parsed} (hp : p.spec.Scanned)
    (h : parsePrecision (wrapping D) p = .ok q) : q.spec.Scanned := by
  have hprecision {precision : ℤ} (hin : InInt precision) :
      { p.spec with precision, flags.zero := false }.Scanned :=
    ⟨hp.radix, hp.negative, fun hz => absurd hz Bool.false_ne_true, hp.width, hin⟩
  have hzero : InInt 0 := ⟨by decide, by decide⟩
  have hnone : InInt (-1) := ⟨by decide, by decide⟩
  cases parsePrecision_cases h with
  | star hr => exact hprecision (vaArg_inInt hr)
  | minus => exact hprecision hnone
  | digits hr => exact hprecision (parseNumber_inInt hzero hr)
  | empty => exact hprecision hzero
  | none => exact hp

theorem parseFlagsFwPrecision_scanned {fmt : Cursor} {ap : VaList} {p : Parsed}
    (h : parseFlagsFwPrecision (wrapping D) fmt {} ap = .ok p) : p.spec.Scanned := by
  obtain ⟨r, -, h⟩ := bind_eq_ok.mp h
  obtain ⟨q, hq, h⟩ := bind_eq_ok.mp h
  have hnone : InInt (-1) := ⟨by decide, by decide⟩
  exact parsePrecision_scanned
    (parseFieldWidth_scanned ⟨rfl, rfl, fun _ => rfl, hnone, hnone⟩ hq) h

theorem parseSizeSpecifier_scanned {fmt fmt' : Cursor} {spec spec' : FormatSpec}
    (hs : spec.Scanned) (h : parseSizeSpecifier fmt spec = .ok (spec', fmt')) :
    spec'.Scanned := by
  have hlength (len : LengthSpec) : { spec with lengthSpec := len }.Scanned :=
    ⟨hs.radix, hs.negative, hs.zero, hs.width, hs.precision⟩
  obtain ⟨c, -, h⟩ := bind_eq_ok.mp h
  split_ifs at h
  · obtain ⟨c, -, h⟩ := bind_eq_ok.mp h
    split_ifs at h <;> rw [← (Prod.mk.inj (Except.ok.inj h)).1] <;> exact hlength _
  · obtain ⟨c, -, h⟩ := bind_eq_ok.mp h
    split_ifs at h <;> rw [← (Prod.mk.inj (Except.ok.inj h)).1] <;> exact hlength _
  · rw [← (Prod.mk.inj (Except.ok.inj h)).1]
    exact hlength _
  · rw [← (Prod.mk.inj (Except.ok.inj h)).1]
    exact hlength _
  · rw [← (Prod.mk.inj (Except.ok.inj h)).1]
    exact hs

theorem FormatSpec.Scanned.clearZero {spec : FormatSpec} (h : spec.Scanned) :
    (clearZero spec).Scanned := by
  unfold Vsnprintf.clearZero
  split_ifs
  · exact ⟨h.radix, h.negative, fun hz => absurd hz Bool.false_ne_true, h.width, h.precision⟩
  · exact h

end Scanned

def Conversion.Ranged : Conversion → Prop
  | .number spec n => Renderable spec ∧ n < 2 ^ 64
  | .char spec _ | .string spec _ | .nil spec => spec.Scanned
  | .literal _ | .count _ => True

section Conversions

variable {D : DataModel} {spec spec' : FormatSpec} {n : ℕ} {ap ap' : VaList}

theorem FormatSpec.Scanned.renderable (hs : spec.Scanned) (hr : IsRadix spec'.radix)
    (hz : spec'.flags.zero = spec.flags.zero) (hw : spec'.fieldWidth = spec.fieldWidth)
    (hp : spec'.precision = spec.precision) : Renderable spec' := by
  refine ⟨hr, ?_, ?_, ?_⟩
  · intro h
    rw [hp]
    exact hs.zero (by rw [← hz]; exact h)
  · rw [hw]
    exact hs.width
  · rw [hp]
    exact hs.precision

theorem signedArgument_ranged (hs : spec.Scanned)
    (h : signedArgument (wrapping D) spec ap = .ok (spec', n, ap')) :
    Renderable spec' ∧ n < 2 ^ 64 := by
  obtain ⟨⟨v, ap''⟩, -, h⟩ := bind_eq_ok.mp h
  have hlt (x : ℤ) : (CType.unsignedLongLong.convert D x).toNat < 2 ^ 64 := by
    have := convert_range D .unsignedLongLong x
    simp only [CType.signed, Bool.false_eq_true, ↓reduceIte] at this
    omega
  dsimp only at h
  split_ifs at h
  · obtain ⟨v', -, h⟩ := bind_eq_ok.mp h
    cases h
    exact ⟨hs.renderable (.inr (.inl rfl)) rfl rfl rfl, hlt _⟩
  · cases h
    exact ⟨hs.renderable (.inr (.inl rfl)) rfl rfl rfl, hlt _⟩

theorem unsignedArgument_ranged {spec₀ : FormatSpec} (hs : spec₀.Scanned)
    (h : unsignedArgument D spec ap = .ok (spec', n, ap')) (hr : IsRadix spec.radix)
    (hz : spec.flags.zero = spec₀.flags.zero) (hw : spec.fieldWidth = spec₀.fieldWidth)
    (hp : spec.precision = spec₀.precision) : Renderable spec' ∧ n < 2 ^ 64 := by
  obtain ⟨⟨v, ap''⟩, hv, h⟩ := bind_eq_ok.mp h
  have hrange : 0 ≤ v ∧ v < 2 ^ 64 := by
    unfold unsignedValue at hv
    split_ifs at hv
    · exact vaArg_range hv
    · exact readUnsignedNumber_range hv
  cases h
  exact ⟨hs.renderable hr hz hw hp, by omega⟩

theorem pointerSpec_ranged (hs : spec.Scanned) : Renderable (pointerSpec D spec) := by
  have hword := pointer_digits_le D
  refine ⟨.inr (.inr rfl), fun h => absurd h Bool.false_ne_true, hs.width, ?_⟩
  have hp := hs.precision
  simp only [InInt, INT_MIN, INT_MAX, pointerSpec] at *
  split_ifs <;> omega

theorem conversion_ranged {c : UInt8} {conv : Conversion} (hs : spec.Scanned)
    (h : conversion (wrapping D) c spec ap = .ok (conv, ap')) : conv.Ranged := by
  unfold conversion at h
  have hten : IsRadix spec.radix := .inr (.inl hs.radix)
  split at h
  case h_1 | h_2 =>
    obtain ⟨⟨_, _, _⟩, hr, h⟩ := bind_eq_ok.mp h
    cases h
    exact signedArgument_ranged hs hr
  case h_3 =>
    obtain ⟨⟨_, _, _⟩, hr, h⟩ := bind_eq_ok.mp h
    cases h
    exact unsignedArgument_ranged hs hr hten rfl rfl rfl
  case h_4 =>
    obtain ⟨⟨_, _, _⟩, hr, h⟩ := bind_eq_ok.mp h
    cases h
    exact unsignedArgument_ranged hs hr (.inl rfl) rfl rfl rfl
  case h_5 | h_6 =>
    obtain ⟨⟨_, _, _⟩, hr, h⟩ := bind_eq_ok.mp h
    cases h
    exact unsignedArgument_ranged hs hr (.inr (.inr rfl)) rfl rfl rfl
  case h_7 =>
    obtain ⟨⟨v, _⟩, hr, h⟩ := bind_eq_ok.mp h
    have hrange := readUnsignedNumber_range hr
    dsimp only at h
    split_ifs at h
    · cases h
      exact ⟨pointerSpec_ranged hs, by omega⟩
    · cases h
      exact hs
  case h_8 | h_9 | h_10 =>
    obtain ⟨⟨_, _⟩, -, h⟩ := bind_eq_ok.mp h
    cases h
    first | exact hs | trivial
  case h_11 | h_12 =>
    cases h
    trivial

end Conversions

section Arguments

variable {D : DataModel}

theorem readSignedNumber_clean (len : LengthSpec) (ap : VaList) :
    readSignedNumber D len ap ≠ .error .signedOverflow := by
  cases len
  case hh => exact bind_ne_error (vaArg_clean _ _) fun _ _ => ok_ne_error _
  all_goals exact vaArg_clean _ _

theorem readUnsignedNumber_clean (len : LengthSpec) (ap : VaList) :
    readUnsignedNumber D len ap ≠ .error .signedOverflow := by
  cases len
  case hh => exact bind_ne_error (vaArg_clean _ _) fun _ _ => ok_ne_error _
  all_goals exact vaArg_clean _ _

theorem signedValue_clean (len : LengthSpec) (ap : VaList) :
    signedValue D len ap ≠ .error .signedOverflow := by
  unfold signedValue
  split_ifs
  · exact vaArg_clean _ _
  · exact readSignedNumber_clean _ _

theorem unsignedArgument_clean (spec : FormatSpec) (ap : VaList) :
    unsignedArgument D spec ap ≠ .error .signedOverflow := by
  refine bind_ne_error ?_ fun _ _ => ok_ne_error _
  unfold unsignedValue
  split_ifs
  · exact vaArg_clean _ _
  · exact readUnsignedNumber_clean _ _

theorem convert_neg_eq_iff {v : ℤ} (hl : -2 ^ 63 ≤ v) (hn : v < 0) :
    CType.longLong.convert D (-v) = -v ↔ v ≠ -2 ^ 63 := by
  have hpow : 256 ^ CType.longLong.sizeof D = 2 ^ 64 := rfl
  simp only [CType.convert, CType.signed, ↓reduceIte, hpow]
  constructor
  · intro h
    have := Int.bmod_lt (x := -v) (m := 2 ^ 64) (by norm_num)
    rw [h] at this
    norm_num at this ⊢
    omega
  · intro h
    apply Int.bmod_eq_of_le
    · norm_num
      omega
    · norm_num
      omega

theorem signedArgument_negatable_iff {spec : FormatSpec} {ap ap' : VaList} {v : ℤ}
    (hv : signedValue D spec.lengthSpec ap = .ok (v, ap')) :
    (∀ spec' n ap', signedArgument (wrapping D) spec ap = .ok (spec', n, ap') →
      ¬ (spec'.negative = true ∧ n = 2 ^ 63)) ↔
    (v < 0 → CType.longLong.convert D (-v) = -v) := by
  have hrange := signedValue_range hv
  simp only [signedArgument, hv, ok_bind]
  by_cases hn : v < 0
  · have habs := negated_toNat D hrange.1 hn
    have hneg := convert_neg_eq_iff (D := D) hrange.1 hn
    simp only [hn, ↓reduceIte, arith_wrapping, ok_bind, habs, forall_const, hneg]
    constructor
    · intro h hmin
      refine h _ _ _ rfl ⟨by simp, ?_⟩
      rw [hmin]
      rfl
    · rintro h spec' n ap'' hok ⟨-, hmin⟩
      cases hok
      omega
  · simp only [hn, ↓reduceIte, false_implies, iff_true]
    rintro spec' n ap'' hok ⟨hnegative, -⟩
    cases hok
    simp at hnegative

theorem signedArgument_checks (spec : FormatSpec) (ap : VaList) :
    Checks .signedOverflow (∀ spec' n ap', signedArgument (wrapping D) spec ap =
        .ok (spec', n, ap') → ¬ (spec'.negative = true ∧ n = 2 ^ 63))
      (signedArgument (wrapping D) spec ap) (signedArgument (trapping D) spec ap) := by
  have hchecks : Checks .signedOverflow
      (∀ r, signedValue D spec.lengthSpec ap = .ok r → r.1 < 0 →
        CType.longLong.convert D (-r.1) = -r.1)
      (signedArgument (wrapping D) spec ap) (signedArgument (trapping D) spec ap) := by
    unfold signedArgument
    refine Checks.after (signedValue_clean _ _) fun r _ => ?_
    dsimp only
    by_cases hn : r.1 < 0
    · rw [if_pos hn, if_pos hn]
      exact ((arith_checks .longLong _).then_same fun _ _ => ok_ne_error _).congr
        ⟨fun h _ => h, fun h => h hn⟩
    · rw [if_neg hn, if_neg hn]
      exact Checks.same (ok_ne_error _) fun h => absurd h hn
  refine hchecks.congr ?_
  constructor
  · intro h spec' n ap' hok
    obtain ⟨r, hr, -⟩ := bind_eq_ok.mp hok
    exact (signedArgument_negatable_iff hr).mpr (h r hr) spec' n ap' hok
  · intro h r hr
    exact (signedArgument_negatable_iff hr).mp h

def Conversion.Negatable : Conversion → Prop
  | .number spec n => ¬ (spec.negative = true ∧ n = 2 ^ 63)
  | _ => True

theorem Conversion.negatable_of_not {spec : FormatSpec} (h : spec.negative = false) (n : ℕ) :
    (Conversion.number spec n).Negatable := by
  rintro ⟨hneg, -⟩
  rw [h] at hneg
  cases hneg

theorem unsignedArgument_negative {spec spec' : FormatSpec} {n : ℕ} {ap ap' : VaList}
    (h : unsignedArgument D spec ap = .ok (spec', n, ap')) : spec'.negative = spec.negative := by
  obtain ⟨r, -, h⟩ := bind_eq_ok.mp h
  cases h
  rfl

theorem number_checks {x y : Except Fault (FormatSpec × ℕ × VaList)}
    (h : Checks .signedOverflow (∀ spec' n ap', x = .ok (spec', n, ap') →
      (Conversion.number spec' n).Negatable) x y) :
    Checks .signedOverflow
      (∀ q, (x >>= fun r => (pure (Conversion.number r.1 r.2.1, r.2.2) : Except Fault _)) = .ok q →
        q.1.Negatable)
      (x >>= fun r => (pure (Conversion.number r.1 r.2.1, r.2.2) : Except Fault _))
      (y >>= fun r => (pure (Conversion.number r.1 r.2.1, r.2.2) : Except Fault _)) := by
  refine (h.then_same fun _ _ => ok_ne_error _).congr ?_
  constructor
  · intro h q hok
    obtain ⟨r, hr, hok⟩ := bind_eq_ok.mp hok
    cases hok
    exact h _ _ _ hr
  · intro h spec' n ap' hok
    exact h (.number spec' n, ap') (by rw [hok]; rfl)

theorem unsignedArgument_checks {spec : FormatSpec} (hneg : spec.negative = false) (ap : VaList) :
    Checks .signedOverflow (∀ spec' n ap', unsignedArgument D spec ap = .ok (spec', n, ap') →
        (Conversion.number spec' n).Negatable)
      (unsignedArgument D spec ap) (unsignedArgument D spec ap) :=
  Checks.same (unsignedArgument_clean spec ap) fun _ n _ h =>
    Conversion.negatable_of_not ((unsignedArgument_negative h).trans hneg) n

theorem conversion_checks {spec : FormatSpec} (hneg : spec.negative = false) (c : UInt8)
    (ap : VaList) : Checks .signedOverflow
      (∀ r, conversion (wrapping D) c spec ap = .ok r → r.1.Negatable)
      (conversion (wrapping D) c spec ap) (conversion (trapping D) c spec ap) := by
  unfold conversion
  cases specifierOf c with
  | none =>
    apply Checks.same (ok_ne_error _)
    intro q hok
    cases hok
    trivial
  | some k =>
    cases k
    case d | i => exact number_checks (signedArgument_checks spec ap)
    case u | o | X | x =>
      apply number_checks
      apply unsignedArgument_checks
      exact hneg
    case p =>
      apply Checks.same
      · refine bind_ne_error (readUnsignedNumber_clean _ _) fun r _ => ?_
        dsimp only
        split_ifs <;> exact ok_ne_error _
      · intro q hok
        obtain ⟨r, -, hok⟩ := bind_eq_ok.mp hok
        dsimp only at hok
        split_ifs at hok
        · cases hok
          exact Conversion.negatable_of_not hneg _
        · cases hok
          trivial
    case n | c | s =>
      apply Checks.same (bind_ne_error (vaArg_clean _ _) fun _ _ => ok_ne_error _)
      intro q hok
      obtain ⟨r, -, hok⟩ := bind_eq_ok.mp hok
      cases hok
      trivial
    case percent =>
      apply Checks.same (ok_ne_error _)
      intro q hok
      cases hok
      trivial

end Arguments

end OsdevLibstdc.Vsnprintf
