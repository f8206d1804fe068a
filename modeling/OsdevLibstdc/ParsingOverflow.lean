import OsdevLibstdc.CheckedOutcomes
import OsdevLibstdc.IntegerFields

/-!
Where signed arithmetic can leave the range of its type. A machine that traps on overflow does
what the machine that wraps does, as long as a condition on the input of a step holds; here the
steps are those of the parsers.
-/

namespace OsdevLibstdc.Vsnprintf

open Target ByteStores Outcomes

abbrev trapping (D : DataModel) : Machine := ⟨D, .trap⟩

def InInt (x : ℤ) : Prop := INT_MIN ≤ x ∧ x ≤ INT_MAX

def numeralFrom : ℤ → Cursor → ℤ
  | v, [] => v
  | v, c :: str =>
    if isdigit (charValue c) then numeralFrom (v * 10 + (charValue c - 48)) str else v

def numeralAt (fmt : Cursor) : ℤ := numeralFrom 0 fmt

section Arith

variable {D : DataModel}

theorem convert_int_eq_iff {x : ℤ} : CType.int.convert D x = x ↔ InInt x := by
  rw [convert_int]
  constructor
  · intro h
    rw [← h]
    exact ⟨wrapInt_ge x, wrapInt_le x⟩
  · intro h
    exact wrapInt_eq h.1 h.2

theorem arith_checks (ty : CType) (x : ℤ) : Checks .signedOverflow (ty.convert D x = x)
    ((wrapping D).arith ty x) ((trapping D).arith ty x) := by
  refine ⟨ok_ne_error _, ?_, ?_⟩
  · intro h
    simp only [Machine.arith, h, ↓reduceIte]
  · intro h
    simp only [Machine.arith, h, ↓reduceIte]

theorem arith_wrapping (ty : CType) (x : ℤ) :
    (wrapping D).arith ty x = .ok (ty.convert D x) := rfl

theorem arith_int_checks (x : ℤ) : Checks .signedOverflow (InInt x)
    ((wrapping D).arith .int x) ((trapping D).arith .int x) :=
  (arith_checks .int x).congr convert_int_eq_iff

theorem vaArg_clean (ty : CType) (ap : VaList) : vaArg D ty ap ≠ .error .signedOverflow := by
  unfold vaArg
  split_ifs <;> simp

theorem deref_clean (fmt : Cursor) : deref fmt ≠ .error .signedOverflow := by
  cases fmt <;> simp [deref]

end Arith

section Parsers

variable {D : DataModel}

def DigitsFit : ℤ → Cursor → Prop
  | _, [] => True
  | v, c :: str => isdigit (charValue c) →
    InInt (v * 10 + (charValue c - 48)) ∧ DigitsFit (v * 10 + (charValue c - 48)) str

theorem numeralFrom_le {v : ℤ} (hv : 0 ≤ v) (str : Cursor) : v ≤ numeralFrom v str := by
  induction str generalizing v with
  | nil => exact le_rfl
  | cons c str ih =>
    rw [numeralFrom]
    split_ifs with hd
    · have hc : 48 ≤ charValue c ∧ charValue c ≤ 57 := by simpa [isdigit] using hd
      have := ih (v := v * 10 + (charValue c - 48)) (by omega)
      omega
    · exact le_rfl

theorem digitsFit_iff {v : ℤ} (hv : 0 ≤ v) (hm : v ≤ INT_MAX) (str : Cursor) :
    DigitsFit v str ↔ numeralFrom v str ≤ INT_MAX := by
  induction str generalizing v with
  | nil => exact ⟨fun _ => hm, fun _ => trivial⟩
  | cons c str ih =>
    rw [DigitsFit, numeralFrom]
    split_ifs with hd
    · have hc : 48 ≤ charValue c ∧ charValue c ≤ 57 := by simpa [isdigit] using hd
      have h0 : 0 ≤ v * 10 + (charValue c - 48) := by omega
      have hle := numeralFrom_le h0 str
      constructor
      · intro h
        obtain ⟨hin, hrest⟩ := h hd
        exact (ih h0 hin.2).mp hrest
      · intro h _
        have hmax : v * 10 + (charValue c - 48) ≤ INT_MAX := by omega
        exact ⟨⟨by simp only [INT_MIN]; omega, hmax⟩, (ih h0 hmax).mpr h⟩
    · exact ⟨fun _ => hm, fun _ h => absurd h hd⟩

theorem parseNumber_digitsFit (str : Cursor) (v : ℤ) : Checks .signedOverflow (DigitsFit v str)
    (parseNumber (wrapping D) str v) (parseNumber (trapping D) str v) := by
  induction str generalizing v with
  | nil => exact Checks.same (error_ne_error (by decide)) trivial
  | cons c str ih =>
    rw [parseNumber, parseNumber]
    by_cases hd : isdigit (charValue c)
    · rw [if_pos hd, if_pos hd]
      refine ((arith_int_checks _).bind fun a _ => ih a).congr ?_
      rw [arith_int_wrapping, DigitsFit]
      constructor
      · rintro ⟨hin, h⟩ _
        have hrest := h _ rfl
        rw [wrapInt_eq hin.1 hin.2] at hrest
        exact ⟨hin, hrest⟩
      · intro h
        obtain ⟨hin, hrest⟩ := h hd
        refine ⟨hin, ?_⟩
        intro a ha
        rw [← Except.ok.inj ha, wrapInt_eq hin.1 hin.2]
        exact hrest
    · rw [if_neg hd, if_neg hd]
      exact Checks.same (ok_ne_error _) fun h => absurd h hd

theorem parseNumber_checks (str : Cursor) : Checks .signedOverflow (numeralAt str ≤ INT_MAX)
    (parseNumber (wrapping D) str 0) (parseNumber (trapping D) str 0) :=
  (parseNumber_digitsFit str 0).congr (digitsFit_iff le_rfl (by decide) str)

theorem numeralAt_of_not_digit {c : UInt8} {str : Cursor} (h : ¬ isdigit (charValue c)) :
    numeralAt (c :: str) = 0 := by
  rw [numeralAt, numeralFrom, if_neg h]

theorem scanFlags_clean (fmt : Cursor) (flags : FormatFlags) :
    scanFlags fmt flags ≠ .error .signedOverflow := by
  induction fmt generalizing flags with
  | nil => exact error_ne_error (by decide)
  | cons c fmt ih =>
    rw [scanFlags]
    cases addFlag flags c with
    | none => exact ok_ne_error _
    | some flags => exact ih flags

theorem scanFlags_head {fmt fmt' : Cursor} {flags flags' : FormatFlags}
    (h : scanFlags fmt flags = .ok (flags', fmt')) : fmt'.head? ≠ some (byte '-') := by
  induction fmt generalizing flags with
  | nil => cases h
  | cons c fmt ih =>
    rw [scanFlags] at h
    cases hf : addFlag flags c with
    | some flags =>
      rw [hf] at h
      exact ih h
    | none =>
      rw [hf] at h
      rw [← (Prod.mk.inj (Except.ok.inj h)).2]
      intro hc
      rw [Option.some.inj hc] at hf
      cases hf

theorem formatOverread_clean {α : Type} :
    (.error .formatOverread : Except Fault α) ≠ .error .signedOverflow := error_ne_error (by decide)

theorem checks_of_not_digit {α : Type} {x : Except Fault α} (h : x ≠ .error .signedOverflow)
    {c : UInt8} {str : Cursor} (hc : ¬ isdigit (charValue c)) :
    Checks .signedOverflow (numeralAt (c :: str) ≤ INT_MAX) x x := by
  apply Checks.same h
  rw [numeralAt_of_not_digit hc]
  decide

theorem parseFieldWidth_checks {p : Parsed} (hp : p.fmt.head? ≠ some (byte '-')) :
    Checks .signedOverflow (numeralAt p.fmt ≤ INT_MAX)
      (parseFieldWidth (wrapping D) p) (parseFieldWidth (trapping D) p) := by
  unfold parseFieldWidth
  cases hfmt : p.fmt with
  | nil => exact Checks.same formatOverread_clean (by decide)
  | cons c fmt =>
    have hminus : ¬ c = byte '-' := by
      rintro rfl
      exact hp (by rw [hfmt]; rfl)
    simp only [deref, ok_bind, hminus, ↓reduceIte]
    by_cases hstar : c = byte '*'
    · rw [if_pos hstar, if_pos hstar]
      apply checks_of_not_digit (bind_ne_error (vaArg_clean _ _) fun r _ => ok_ne_error _)
      rw [hstar]
      decide
    · rw [if_neg hstar, if_neg hstar]
      by_cases hd : isdigit (charValue c)
      · rw [if_pos hd, if_pos hd]
        exact (parseNumber_checks (c :: fmt)).then_same fun r _ => ok_ne_error _
      · rw [if_neg hd, if_neg hd]
        exact checks_of_not_digit (ok_ne_error _) hd

theorem skipDigits_clean (fmt : Cursor) : skipDigits fmt ≠ .error .signedOverflow := by
  induction fmt with
  | nil => exact error_ne_error (by decide)
  | cons c fmt ih =>
    rw [skipDigits]
    split_ifs
    · exact ih
    · exact ok_ne_error _

def PrecisionFits (fmt : Cursor) : Prop :=
  ∀ str, fmt = byte '.' :: str → numeralAt str ≤ INT_MAX

theorem parsePrecision_checks (p : Parsed) : Checks .signedOverflow (PrecisionFits p.fmt)
    (parsePrecision (wrapping D) p) (parsePrecision (trapping D) p) := by
  unfold parsePrecision
  cases hfmt : p.fmt with
  | nil => exact Checks.same formatOverread_clean fun str hstr => by cases hstr
  | cons c fmt =>
    simp only [deref, ok_bind, List.tail_cons]
    by_cases hc : c = byte '.'
    · rw [if_pos hc, if_pos hc]
      have hfits : PrecisionFits (c :: fmt) ↔ numeralAt fmt ≤ INT_MAX := by
        constructor
        · intro h
          exact h fmt (by rw [hc])
        · rintro h str hstr
          rw [← (List.cons.inj hstr).2]
          exact h
      rw [hfits]
      cases fmt with
      | nil => exact Checks.same formatOverread_clean (by decide)
      | cons d str =>
        simp only [ok_bind, List.tail_cons]
        split_ifs with hstar hminus hd
        · apply checks_of_not_digit (bind_ne_error (vaArg_clean _ _) fun r _ => ok_ne_error _)
          rw [hstar]
          decide
        · apply checks_of_not_digit
            (bind_ne_error (skipDigits_clean str) fun r _ => ok_ne_error _)
          rw [hminus]
          decide
        · exact (parseNumber_checks (d :: str)).then_same fun r _ => ok_ne_error _
        · exact checks_of_not_digit (ok_ne_error _) hd
    · rw [if_neg hc, if_neg hc]
      exact Checks.same (ok_ne_error _) fun str hstr => absurd (List.cons.inj hstr).1 hc

def ParsedFits (D : DataModel) (fmt : Cursor) (ap : VaList) : Prop :=
  ∀ flags fmt', scanFlags fmt {} = .ok (flags, fmt') → numeralAt fmt' ≤ INT_MAX ∧
    ∀ p, parseFieldWidth (wrapping D) ⟨fmt', { flags }, ap⟩ = .ok p → PrecisionFits p.fmt

theorem parseFlagsFwPrecision_checks (fmt : Cursor) (ap : VaList) :
    Checks .signedOverflow (ParsedFits D fmt ap)
      (parseFlagsFwPrecision (wrapping D) fmt {} ap)
      (parseFlagsFwPrecision (trapping D) fmt {} ap) := by
  refine (Checks.after (scanFlags_clean _ _) fun r hr =>
    (parseFieldWidth_checks (p := ⟨r.2, { flags := r.1 }, ap⟩) (scanFlags_head hr)).bind
      fun p _ => parsePrecision_checks p).congr ?_
  constructor
  · intro h flags fmt' hscan
    exact h (flags, fmt') hscan
  · intro h r hscan
    exact h r.1 r.2 hscan

theorem parseSizeSpecifier_clean (fmt : Cursor) (spec : FormatSpec) :
    parseSizeSpecifier fmt spec ≠ .error .signedOverflow := by
  unfold parseSizeSpecifier
  apply bind_ne_error (deref_clean _)
  intro c _
  split_ifs
  · apply bind_ne_error (deref_clean _)
    intro c _
    split_ifs <;> exact ok_ne_error _
  · apply bind_ne_error (deref_clean _)
    intro c _
    split_ifs <;> exact ok_ne_error _
  all_goals exact ok_ne_error _

end Parsers

end OsdevLibstdc.Vsnprintf
