import OsdevLibstdc.IntegerFields

/-! When the scratch buffers of `format_number` and `number_to_string` hold a number. -/

namespace OsdevLibstdc.Vsnprintf

open Target ByteStores Outcomes LittleEndian

def numberValue (D : DataModel) (k : Specifier) (len : LengthSpec) (ap : VaList) :
    Except Fault (ℤ × VaList) :=
  if k = .p then readUnsignedNumber D len ap else integerValue D k len ap

def ScratchSafe (D : DataModel) (strings : Strings) (d : Directive) (ap : VaList) : Prop :=
  ∀ st size more, st.At size d more ap →
    loopStep (wrapping D) strings size st ≠ .error .scratchOverflow

def Directive.ScratchFits (d : Directive) (v : ℤ) : Prop :=
  if d.specifier = .p then v = 0 ∨ (INT_MIN + (d.digits v).length ≤ d.precision.value ∧
    d.precision.value ≤ 66)
  else d.IntegerFits v

section Scratch

variable {D : DataModel} {strings : Strings} {d : Directive} {ap ap₁ ap' : VaList} {v : ℤ}

theorem put_ne_scratchOverflow (f : Field) (size i : ℤ) (p : Progress) :
    f.put size i p ≠ .error .scratchOverflow := by
  intro h
  cases f
  case nil =>
    rw [Field.put] at h
    split_ifs at h
    cases h
  all_goals cases h

theorem loopStep_scratch {st : LoopState} {size : ℤ} {more : Cursor} (hat : st.At size d more ap) :
    loopStep (wrapping D) strings size st = .error .scratchOverflow ↔
      nextField (wrapping D) strings (byte '%' :: (d.text ++ more)) ap = .error .scratchOverflow := by
  have hview := loopStep_view D strings st hat.bound hat.written hat.room
  rw [hat.cursor, hat.args] at hview
  cases hf : nextField (wrapping D) strings (byte '%' :: (d.text ++ more)) ap with
  | error e =>
    rw [hf] at hview
    cases hs : loopStep (wrapping D) strings size st with
    | error e' =>
      rw [hs] at hview
      cases hview
      constructor <;> intro he <;> cases he <;> rfl
    | ok st' =>
      rw [hs] at hview
      cases hview
  | ok r =>
    refine iff_of_false ?_ (by simp)
    intro hs
    rw [hf, hs, ok_bind] at hview
    have hput : r.1.put size st.i (st.out.progress st.counts) = .error .scratchOverflow := by
      cases hp : r.1.put size st.i (st.out.progress st.counts) with
      | error e =>
        simp only [hp] at hview
        cases hview
        rfl
      | ok p =>
        simp only [hp] at hview
        cases hview
    exact put_ne_scratchOverflow r.1 size st.i _ hput

theorem scratchSafe_iff {P : Prop} (h : ∀ more, nextField (wrapping D) strings
    (byte '%' :: (d.text ++ more)) ap ≠ .error .scratchOverflow ↔ P) :
    ScratchSafe D strings d ap ↔ P := by
  constructor
  · intro hs
    apply (h [0]).mp
    intro hf
    exact hs _ _ _ (atStart_at d ap) ((loopStep_scratch (atStart_at d ap)).mpr hf)
  · intro hp st size more hat hs
    exact (h more).mpr hp ((loopStep_scratch hat).mp hs)

theorem integer_scratch (hk : d.specifier.isInteger) (hstars : Passed D d.starArgs ap ap₁)
    (hv : integerValue D d.specifier d.length ap₁ = .ok (v, ap')) (more : Cursor) :
    nextField (wrapping D) strings (byte '%' :: (d.text ++ more)) ap ≠ .error .scratchOverflow ↔
      d.IntegerFits v := by
  rw [nextField_integer hk hstars hv]
  split_ifs with hf
  · exact iff_of_true (by simp) hf
  · exact iff_of_false (by simp) hf

section Pointer

variable (D) (d)

theorem pointerSpec_texts (n : ℕ) :
    signText (pointerSpec D (clearZero d.spec)) = [] ∧
    prefixText (pointerSpec D (clearZero d.spec)) n = [] ∧
    numberDigits (pointerSpec D (clearZero d.spec)) n = digitsText false 16 n := by
  rw [clearZero_spec]
  exact ⟨rfl, rfl, rfl⟩

theorem pointerSpec_precision : (pointerSpec D (clearZero d.spec)).precision =
    if d.precision.value = -1 ∧ d.width.value = -1 then ((CType.pointer.sizeof D * 2 : ℕ) : ℤ)
    else d.precision.value := by
  rw [clearZero_spec]
  rfl

theorem pointer_digits_le : (CType.pointer.sizeof D * 2 : ℕ) ≤ 16 := by cases D <;> decide

theorem pointerSpec_fits {n : ℕ} (hn : n < 2 ^ 64) :
    FitsScratch (pointerSpec D (clearZero d.spec)) n ↔
      INT_MIN + (digitsText false 16 n).length ≤ d.precision.value ∧ d.precision.value ≤ 66 := by
  obtain ⟨hsign, hpre, hdigits⟩ := pointerSpec_texts D d n
  have hle := digitsText_le false (.inr (.inr rfl)) hn
  have hword := pointer_digits_le D
  have hz : ¬ (pointerSpec D (clearZero d.spec)).flags.zero := Bool.false_ne_true
  rw [FitsScratch, if_neg hz, hsign, hpre, hdigits, pointerSpec_precision, List.append_nil,
    List.length_nil]
  simp only [INT_MIN]
  split_ifs <;> omega

theorem pointerSpec_renderable (hstars : Passed D d.starArgs ap ap₁) :
    Renderable (pointerSpec D (clearZero d.spec)) := by
  have hr := d.ranges hstars
  have hword := pointer_digits_le D
  have hz : (pointerSpec D (clearZero d.spec)).flags.zero = false := rfl
  have hwidth : (pointerSpec D (clearZero d.spec)).fieldWidth = d.width.value := by
    rw [clearZero_spec]
    rfl
  refine ⟨.inr (.inr rfl), ?_, ?_, ?_⟩
  · rw [hz]
    exact fun h => absurd h Bool.false_ne_true
  · rw [hwidth]
    exact hr.1
  · rw [pointerSpec_precision]
    simp only [INT_MIN, INT_MAX] at *
    split_ifs <;> omega

end Pointer

theorem pointer_scratch (hk : d.specifier = .p) (hstars : Passed D d.starArgs ap ap₁)
    (hv : readUnsignedNumber D d.length ap₁ = .ok (v, ap')) (more : Cursor) :
    nextField (wrapping D) strings (byte '%' :: (d.text ++ more)) ap ≠ .error .scratchOverflow ↔
      v = 0 ∨ (INT_MIN + (d.digits v).length ≤ d.precision.value ∧ d.precision.value ≤ 66) := by
  have hrange := readUnsignedNumber_range hv
  have hlen : (clearZero d.spec).lengthSpec = d.length := clearZero_lengthSpec d.spec
  have hdigits : d.digits v = digitsText false 16 v.toNat := by
    rw [Directive.digits, hk, show v.natAbs = v.toNat by omega]
    rfl
  rw [nextField_text d more hstars, hk, conversion, specifierOf_byte]
  simp only [hlen, hv, ok_bind, hdigits]
  by_cases h0 : 0 < v
  · rw [if_pos h0, pure_eq, ok_bind]
    simp only [Conversion.field]
    rw [numberStr_eq D (pointerSpec_renderable D d hstars) (by omega),
      ← pointerSpec_fits D d (by omega), or_iff_right (by omega)]
    split_ifs with hf
    · exact iff_of_true (by simp [pure_eq]) hf
    · exact iff_of_false (by simp) hf
  · have hz : v = 0 := by omega
    rw [if_neg h0]
    refine iff_of_true ?_ (.inl hz)
    intro h
    cases h

theorem number_scratchSafe_iff (hk : d.specifier.isInteger ∨ d.specifier = .p)
    (hstars : Passed D d.starArgs ap ap₁)
    (hv : numberValue D d.specifier d.length ap₁ = .ok (v, ap')) :
    ScratchSafe D strings d ap ↔ d.ScratchFits v := by
  apply scratchSafe_iff
  intro more
  unfold Directive.ScratchFits
  by_cases hp : d.specifier = .p
  · rw [numberValue, if_pos hp] at hv
    rw [if_pos hp]
    exact pointer_scratch hp hstars hv more
  · rw [numberValue, if_neg hp] at hv
    rw [if_neg hp]
    exact integer_scratch (hk.resolve_right hp) hstars hv more

end Scratch

def overlong : Directive := ⟨[], .none, .literal ⟨[6, 7], by decide⟩, .null, .d⟩

theorem overlong_value :
    numberValue .lp64 overlong.specifier overlong.length (encode 8 1) = .ok (1, []) := by decide +kernel

theorem number_scratchSafe_overlong :
    ScratchSafe .lp64 (fun _ => none) overlong (encode 8 1) ↔ overlong.ScratchFits 1 :=
  number_scratchSafe_iff (.inl rfl) (.nil _) overlong_value

theorem number_not_scratchSafe : ¬ ∀ (D : DataModel) (strings : Strings) (d : Directive)
    (ap ap₁ ap' : VaList) (v : ℤ), (d.specifier.isInteger ∨ d.specifier = .p) →
    Passed D d.starArgs ap ap₁ → numberValue D d.specifier d.length ap₁ = .ok (v, ap') →
    ScratchSafe D strings d ap := by
  intro h
  have hsafe := h .lp64 (fun _ => none) overlong _ _ _ _ (.inl rfl) (.nil _) overlong_value
  exact hsafe _ _ _ (atStart_at overlong (encode 8 1)) (by decide +kernel)

end OsdevLibstdc.Vsnprintf
