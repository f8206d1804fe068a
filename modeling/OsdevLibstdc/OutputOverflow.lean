import OsdevLibstdc.ArgumentOverflow

/-!
Where the formatters can overflow: the digits subtracted from the precision and the length
subtracted from the field width. What they add to `total` is the wider of the two.
-/

namespace OsdevLibstdc.Vsnprintf

open Target ByteStores Outcomes

section Put

variable {D : DataModel}

theorem blockLength_clean (n : ℤ) : blockLength D n ≠ .error .signedOverflow := by
  unfold blockLength
  dsimp only
  split_ifs <;> simp

theorem pad_clean (out : Output) (paddingLen size : ℤ) :
    out.pad D paddingLen size ≠ .error .signedOverflow := by
  refine bind_ne_error ?_ fun _ _ => ok_ne_error _
  exact bind_ne_error (blockLength_clean _) fun _ _ => ok_ne_error _

theorem mempcpy_clean (out : Output) (value : List UInt8) (n : ℤ) :
    out.mempcpy D value n ≠ .error .signedOverflow :=
  bind_ne_error (blockLength_clean _) fun _ _ => ok_ne_error _

theorem Output.count_flags (out : Output) (n : ℤ) : (out.count n).spec.flags = out.spec.flags := rfl

theorem putWithFieldWidth_checks (out : Output) (value : List UInt8) (len size : ℤ) :
    Checks .signedOverflow (InInt (out.spec.fieldWidth - len))
      (putWithFieldWidth (wrapping D) out value len size)
      (putWithFieldWidth (trapping D) out value len size) := by
  unfold putWithFieldWidth
  refine (arith_int_checks _).then_same fun d _ => ?_
  dsimp only
  rw [Output.count_flags]
  by_cases hm : out.spec.flags.minus
  · rw [if_pos hm]
    exact bind_ne_error (mempcpy_clean _ _ _) fun _ _ => pad_clean _ _ _
  · rw [if_neg hm]
    refine bind_ne_error (pad_clean _ _ _) fun _ _ => ?_
    exact bind_ne_error (mempcpy_clean _ _ _) fun _ _ => ok_ne_error _

theorem pad_spec {out out' : Output} {paddingLen size : ℤ}
    (h : out.pad D paddingLen size = .ok out') : out'.spec = out.spec := by
  obtain ⟨o, ho, h⟩ := bind_eq_ok.mp h
  obtain ⟨k, -, ho⟩ := bind_eq_ok.mp ho
  cases ho
  cases h
  rfl

theorem mempcpy_spec {out out' : Output} {value : List UInt8} {n : ℤ}
    (h : out.mempcpy D value n = .ok out') : out'.spec = out.spec := by
  obtain ⟨k, -, h⟩ := bind_eq_ok.mp h
  cases h
  rfl

theorem putWithFieldWidth_total {out out' : Output} {value : List UInt8} {len size : ℤ}
    (h : putWithFieldWidth (trapping D) out value len size = .ok out') :
    out'.spec.total = out.spec.total + max out.spec.fieldWidth len := by
  obtain ⟨d, hd, h⟩ := bind_eq_ok.mp h
  obtain ⟨hin, hd⟩ := (arith_int_checks (D := D) _).of_ok hd
  rw [arith_int_wrapping, wrapInt_eq hin.1 hin.2] at hd
  obtain rfl := Except.ok.inj hd
  set padding : ℤ := if 0 ≤ out.spec.fieldWidth - len then out.spec.fieldWidth - len else 0 with hp
  have htotal : out'.spec.total = out.spec.total + padding + len := by
    dsimp only at h
    rw [Output.count_flags] at h
    by_cases hm : out.spec.flags.minus
    · rw [if_pos hm] at h
      obtain ⟨o, ho, h⟩ := bind_eq_ok.mp h
      rw [pad_spec h]
      simp only [Output.count, mempcpy_spec ho]
    · rw [if_neg hm] at h
      obtain ⟨o, ho, h⟩ := bind_eq_ok.mp h
      obtain ⟨o', ho', h⟩ := bind_eq_ok.mp h
      rw [← Except.ok.inj h]
      simp only [Output.count, mempcpy_spec ho', pad_spec ho]
  rw [htotal, hp]
  split_ifs <;> omega

end Put

section Numbers

variable {D : DataModel} {spec : FormatSpec} {n : ℕ}

def PrecisionKept (spec : FormatSpec) (n : ℕ) : Prop :=
  spec.flags.zero ∨ (spec.precision = 0 ∧ n = 0) ∨
    INT_MIN ≤ spec.precision - (numberDigits spec n).length

theorem push_clean (numStr more : List UInt8) : push numStr more ≠ .error .signedOverflow := by
  unfold push
  split_ifs <;> simp

theorem arith_int_trapping {x : ℤ} (h : InInt x) :
    (trapping D).arith .int x = (wrapping D).arith .int x := by
  rw [arith_int_eq _ h.1 h.2, arith_int_eq _ h.1 h.2]

theorem emulateZero_trapping (h : Renderable spec) :
    emulateZero (trapping D) spec = .ok (emulated spec) := by
  rw [← emulateZero_eq D h]
  unfold emulateZero
  by_cases hz : spec.flags.zero
  · rw [if_pos hz, if_pos hz, widthToPrecision_eq (h.zero hz), arith_int_trapping]
    have hw := h.width.2
    simp only [INT_MAX] at hw
    constructor
    · simp only [INT_MIN]
      omega
    · simp only [INT_MAX]
      omega
  · rw [if_neg hz, if_neg hz]

theorem numberToString_pushed (T : Machine) (hr : IsRadix spec.radix) (hn : n < 2 ^ 64)
    (h0 : ¬ (spec.precision = 0 ∧ n = 0)) :
    numberToString T n spec MAX_NUMBER_LEN = (do
      let p ← T.arith .int (spec.precision - (numberDigits spec n).length)
      let p ← reservePrefix T spec n p
      let numStr ← push (numberDigits spec n).reverse
        (List.replicate (min p (MAX_NUMBER_LEN : ℕ)).toNat (byte '0'))
      let numStr ← push numStr (altPrefix spec n)
      return (numStr.take (min numStr.length (MAX_NUMBER_LEN : ℤ).toNat)).reverse) := by
  unfold numberToString
  rw [if_neg h0]
  refine (pushDigits_bind spec.flags.huge hr hn _).trans ?_
  dsimp only
  rw [List.length_reverse]
  rfl

theorem numberToString_checks (hr : IsRadix spec.radix) (hn : n < 2 ^ 64)
    (hz : spec.flags.zero = false) : Checks .signedOverflow
      (spec.precision = 0 ∧ n = 0 ∨ InInt (spec.precision - (numberDigits spec n).length))
      (numberToString (wrapping D) n spec MAX_NUMBER_LEN)
      (numberToString (trapping D) n spec MAX_NUMBER_LEN) := by
  by_cases h0 : spec.precision = 0 ∧ n = 0
  · unfold numberToString
    rw [if_pos h0, if_pos h0]
    exact Checks.same (ok_ne_error _) (.inl h0)
  · have hreserve (T : Machine) (p : ℤ) : reservePrefix T spec n p = .ok p := by
      simp [reservePrefix, hz]
    rw [numberToString_pushed _ hr hn h0, numberToString_pushed _ hr hn h0]
    simp only [hreserve, ok_bind]
    refine ((arith_int_checks _).then_same fun p _ => ?_).congr ⟨.inr, fun h => h.resolve_left h0⟩
    refine bind_ne_error (push_clean _ _) fun _ _ => ?_
    exact bind_ne_error (push_clean _ _) fun _ _ => ok_ne_error _

theorem reservePrefix_trapping {p : ℤ} (hl : INT_MIN + 2 ≤ p) (hm : p ≤ INT_MAX) :
    reservePrefix (trapping D) spec n p = reservePrefix (wrapping D) spec n p := by
  simp only [INT_MIN, INT_MAX] at hl hm
  have harith {k : ℤ} (h0 : 0 ≤ k) (h2 : k ≤ 2) :
      (trapping D).arith .int (p - k) = (wrapping D).arith .int (p - k) :=
    arith_int_trapping ⟨by simp only [INT_MIN]; omega, by simp only [INT_MAX]; omega⟩
  unfold reservePrefix
  rw [harith (k := 1) (by decide) (by decide), harith (k := 2) (by decide) (by decide)]

theorem numberToString_trapping (h : Renderable spec) (hn : n < 2 ^ 64)
    (hz : spec.flags.zero) :
    numberToString (trapping D) n (emulated spec) MAX_NUMBER_LEN =
      numberToString (wrapping D) n (emulated spec) MAX_NUMBER_LEN := by
  obtain ⟨hdigits, -, -, -⟩ := emulated_texts spec n
  have hradix : IsRadix (emulated spec).radix := by
    rw [emulated, if_pos hz]
    exact h.radix
  have hprec : (emulated spec).precision = max spec.fieldWidth (-1) - (signText spec).length := by
    rw [emulated, if_pos hz]
  have hbounds := numberDigits_bounds h.radix hn
  have hsign : (signText spec).length ≤ 1 := signText_le
  have hw := h.width.2
  by_cases h0 : (emulated spec).precision = 0 ∧ n = 0
  · unfold numberToString
    rw [if_pos h0, if_pos h0]
  have hin : InInt ((emulated spec).precision - (numberDigits (emulated spec) n).length) := by
    rw [hdigits, hprec]
    simp only [InInt, INT_MIN, INT_MAX] at *
    omega
  rw [numberToString_pushed _ hradix hn h0, numberToString_pushed _ hradix hn h0,
    arith_int_eq _ hin.1 hin.2, arith_int_eq _ hin.1 hin.2, ok_bind, ok_bind,
    reservePrefix_trapping _ hin.2]
  rw [hdigits, hprec]
  simp only [INT_MIN]
  omega

theorem numberToString_clean (h : Renderable spec) (hn : n < 2 ^ 64) :
    numberToString (wrapping D) n (emulated spec) MAX_NUMBER_LEN ≠ .error .signedOverflow := by
  have hradix : IsRadix (emulated spec).radix := by
    unfold emulated
    split_ifs <;> exact h.radix
  rw [numberToString_eq D hradix hn]
  split_ifs <;> simp

theorem inInt_sub_iff {x k : ℤ} (hx : x ≤ INT_MAX) (hk : 0 ≤ k) :
    InInt (x - k) ↔ INT_MIN ≤ x - k :=
  ⟨And.left, fun h => ⟨h, by omega⟩⟩

theorem numberStr_checks (h : Renderable spec) (hn : n < 2 ^ 64) :
    Checks .signedOverflow (PrecisionKept spec n)
      (numberStr (wrapping D) spec n) (numberStr (trapping D) spec n) := by
  have hdigits : Checks .signedOverflow (PrecisionKept spec n)
      (numberToString (wrapping D) n (emulated spec) MAX_NUMBER_LEN)
      (numberToString (trapping D) n (emulated spec) MAX_NUMBER_LEN) := by
    by_cases hz : spec.flags.zero
    · rw [numberToString_trapping h hn hz]
      exact Checks.same (numberToString_clean h hn) (.inl hz)
    · have hem : emulated spec = spec := if_neg hz
      rw [hem]
      refine (numberToString_checks h.radix hn (Bool.not_eq_true _ ▸ hz)).congr ?_
      rw [inInt_sub_iff h.precision.2 (Nat.cast_nonneg _), PrecisionKept]
      exact ⟨.inr, fun hk => hk.resolve_left hz⟩
  unfold numberStr
  rw [emulateZero_eq D h, emulateZero_trapping h, ok_bind, ok_bind]
  refine hdigits.then_same fun digits _ => ?_
  exact bind_ne_error (push_clean _ _) fun _ _ => ok_ne_error _

theorem formatNumber_checks (out : Output) (hs : Renderable out.spec) (hn : n < 2 ^ 64)
    (size : ℤ) : Checks .signedOverflow
      (PrecisionKept out.spec n ∧ (FitsScratch out.spec n →
        INT_MIN ≤ outerWidth out.spec - (numberText out.spec n).length))
      (formatNumber (wrapping D) out n size) (formatNumber (trapping D) out n size) := by
  have houter : outerWidth out.spec ≤ INT_MAX := by
    unfold outerWidth
    split_ifs
    · decide
    · exact hs.width.2
  refine ((numberStr_checks hs hn).bind fun r _ =>
    putWithFieldWidth_checks { out with spec := r.1 } r.2 r.2.length size).congr ?_
  rw [numberStr_eq D hs hn]
  apply and_congr_right
  intro _
  by_cases hf : FitsScratch out.spec n
  · have hwidth : (emulated out.spec).fieldWidth = outerWidth out.spec :=
      (emulated_texts out.spec n).2.2.2
    rw [if_pos hf]
    constructor
    · intro h _
      have hin := h _ rfl
      rw [hwidth] at hin
      exact hin.1
    · intro h r hr
      rw [← Except.ok.inj hr, hwidth]
      exact (inInt_sub_iff houter (Nat.cast_nonneg _)).mpr (h hf)
  · rw [if_neg hf]
    constructor
    · intro _ h
      exact absurd h hf
    · intro _ r hr
      cases hr

end Numbers

def shownLength (D : DataModel) (spec : FormatSpec) (size : ℤ) (str : List UInt8) : ℤ :=
  let maxCount := if 0 ≤ spec.precision then min spec.precision size else size
  wrapInt (strnlen str (CType.size.convert D maxCount).toNat)

inductive Conversion.Asks (D : DataModel) (strings : Strings) (room nilRoom : ℤ) :
    Conversion → ℤ → ℤ → Prop
  | literal (c : UInt8) : Asks D strings room nilRoom (.literal c) (-1) 1
  | number {spec : FormatSpec} {n : ℕ} : FitsScratch spec n →
      Asks D strings room nilRoom (.number spec n) (outerWidth spec) (numberText spec n).length
  | char (spec : FormatSpec) (c : UInt8) :
      Asks D strings room nilRoom (.char spec c) spec.fieldWidth 1
  | string {spec : FormatSpec} {ptr : ℤ} {str : List UInt8} : loadString strings ptr = .ok str →
      Asks D strings room nilRoom (.string spec ptr) spec.fieldWidth
        (shownLength D spec room str)
  | nil (spec : FormatSpec) :
      Asks D strings room nilRoom (.nil spec) spec.fieldWidth (shownLength D spec nilRoom kNil)
  | count (ptr : ℤ) : Asks D strings room nilRoom (.count ptr) (-1) 0

def Conversion.PrecisionKept : Conversion → Prop
  | .number spec n => Vsnprintf.PrecisionKept spec n
  | _ => True

section Emit

variable {D : DataModel} {strings : Strings} {size : ℤ}

theorem convert_size_le {x : ℤ} (h0 : 0 ≤ x) (hm : x ≤ INT_MAX) :
    (CType.size.convert D x).toNat ≤ INT_MAX := by
  simp only [INT_MAX] at hm ⊢
  cases D <;> simp [CType.convert, CType.signed, CType.sizeof, DataModel.word] <;> omega

theorem shownLength_nonneg {spec : FormatSpec} {str : List UInt8}
    (h : 0 ≤ size ∧ size ≤ INT_MAX ∨ (str.length : ℤ) ≤ INT_MAX) :
    0 ≤ shownLength D spec size str := by
  have hle : ((strnlen str (CType.size.convert D
      (if 0 ≤ spec.precision then min spec.precision size else size)).toNat : ℕ) : ℤ) ≤
      INT_MAX := by
    rw [strnlen, strlen]
    rcases h with ⟨h0, hm⟩ | hl
    · have := convert_size_le (D := D)
        (x := if 0 ≤ spec.precision then min spec.precision size else size)
        (by split_ifs <;> omega) (by split_ifs <;> omega)
      omega
    · omega
  unfold shownLength
  dsimp only
  rw [wrapInt_eq (by simp only [INT_MIN]; omega) hle]
  exact Nat.cast_nonneg _

theorem formatStr_checks (out : Output) (str : List UInt8) (hw : out.spec.fieldWidth ≤ INT_MAX)
    (h : 0 ≤ size ∧ size ≤ INT_MAX ∨ (str.length : ℤ) ≤ INT_MAX) : Checks .signedOverflow
      (INT_MIN ≤ out.spec.fieldWidth - shownLength D out.spec size str)
      (formatStr (wrapping D) out size str) (formatStr (trapping D) out size str) :=
  (putWithFieldWidth_checks out str (shownLength D out.spec size str) size).congr
    (inInt_sub_iff hw (shownLength_nonneg h))

theorem shownLength_withTotal (spec : FormatSpec) (t : ℤ) (str : List UInt8) :
    shownLength D (spec.withTotal t) size str = shownLength D spec size str := rfl

theorem formatStr_total {out out' : Output} {spec : FormatSpec} {t : ℤ} {str : List UInt8}
    (h : formatStr (trapping D) { out with spec := spec.withTotal t } size str = .ok out') :
    out'.spec.total = t + max spec.fieldWidth (shownLength D spec size str) := by
  have htotal : out'.spec.total = (spec.withTotal t).total +
      max (spec.withTotal t).fieldWidth (shownLength D (spec.withTotal t) size str) :=
    putWithFieldWidth_total h
  rw [shownLength_withTotal] at htotal
  exact htotal

theorem loadString_clean (ptr : ℤ) : loadString strings ptr ≠ .error .signedOverflow := by
  unfold loadString
  split_ifs
  · exact ok_ne_error _
  · cases strings ptr.toNat <;> simp

theorem Conversion.Asks.unique {room nilRoom : ℤ} {conv : Conversion} {width width' len len' : ℤ}
    (h : conv.Asks D strings room nilRoom width len)
    (h' : conv.Asks D strings room nilRoom width' len') : width = width' ∧ len = len' := by
  cases h with
  | string hstr =>
    cases h' with
    | string hstr' =>
      rw [hstr] at hstr'
      cases hstr'
      exact ⟨rfl, rfl⟩
  | literal | number | char | nil | count =>
    cases h'
    exact ⟨rfl, rfl⟩

theorem Conversion.Asks.kept_iff {room nilRoom : ℤ} {conv : Conversion} {width len : ℤ}
    (h : conv.Asks D strings room nilRoom width len) (hp : conv.PrecisionKept) :
    (conv.PrecisionKept ∧ ∀ width len, conv.Asks D strings room nilRoom width len →
      INT_MIN ≤ width - len) ↔ INT_MIN ≤ width - len := by
  constructor
  · intro hall
    exact hall.2 width len h
  · intro hle
    refine ⟨hp, ?_⟩
    intro width' len' h'
    obtain ⟨rfl, rfl⟩ := h.unique h'
    exact hle

theorem emit_checks {conv : Conversion} (hr : conv.Ranged) (t : ℤ) (st : LoopState)
    (h0 : 0 ≤ size - st.written) (hm : size ≤ INT_MAX) (hnil : InInt (size - st.i)) :
    Checks .signedOverflow
      (conv.PrecisionKept ∧ ∀ width len,
        conv.Asks D strings (size - st.written) (size - st.i) width len → INT_MIN ≤ width - len)
      ((conv.withTotal t).emit (wrapping D) strings size st)
      ((conv.withTotal t).emit (trapping D) strings size st) := by
  have hroom : 0 ≤ size - (st.written : ℤ) ∧ size - (st.written : ℤ) ≤ INT_MAX := by omega
  cases conv with
  | literal c =>
    apply Checks.same (ok_ne_error _)
    exact (Conversion.Asks.kept_iff (.literal c) trivial).mpr (by decide)
  | number spec n =>
    have hrender : Renderable (spec.withTotal t) :=
      ⟨hr.1.radix, hr.1.zero, hr.1.width, hr.1.precision⟩
    refine ((formatNumber_checks { st.out with spec := spec.withTotal t } hrender hr.2 _).then_same
      fun _ _ => ok_ne_error _).congr (and_congr_right fun _ => ?_)
    constructor
    · rintro h _ _ ⟨⟩
      exact h ‹_›
    · intro h hf
      exact h _ _ (.number hf)
  | char spec c =>
    refine ((putWithFieldWidth_checks { st.out with spec := spec.withTotal t } [c] 1 _).then_same
      fun _ _ => ok_ne_error _).congr ?_
    have hone : InInt (spec.fieldWidth - 1) ↔ INT_MIN ≤ spec.fieldWidth - 1 :=
      inInt_sub_iff hr.width.2 (by decide)
    rw [Conversion.Asks.kept_iff (.char spec c) trivial]
    exact hone
  | string spec ptr =>
    refine (Checks.after (loadString_clean ptr) fun str _ =>
      (formatStr_checks { st.out with spec := spec.withTotal t } str hr.width.2
        (.inl hroom)).then_same fun _ _ => ok_ne_error _).congr ?_
    refine ⟨?_, fun h str hstr => h.2 _ _ (.string hstr)⟩
    intro h
    refine ⟨trivial, ?_⟩
    rintro _ _ ⟨⟩
    exact h _ ‹_›
  | nil spec =>
    have hnull : (kNil.length : ℤ) ≤ INT_MAX := by decide
    simp only [Conversion.withTotal, Conversion.emit]
    rw [arith_int_eq _ hnil.1 hnil.2, arith_int_eq _ hnil.1 hnil.2, ok_bind, ok_bind]
    refine ((formatStr_checks { st.out with spec := spec.withTotal t } kNil hr.width.2
      (.inr hnull)).then_same fun _ _ => ok_ne_error _).congr ?_
    exact (Conversion.Asks.kept_iff (.nil spec) trivial).symm
  | count ptr =>
    apply Checks.same (ok_ne_error _)
    exact (Conversion.Asks.kept_iff (.count ptr) trivial).mpr (by decide)

theorem emit_total {conv : Conversion} (hr : conv.Ranged) {st st' : LoopState}
    (h : (conv.withTotal st.out.spec.total).emit (trapping D) strings size st = .ok st') :
    ∃ width len, conv.Asks D strings (size - st.written) (size - st.i) width len ∧
      st'.out.spec.total = st.out.spec.total + max width len := by
  cases conv with
  | literal c =>
    cases h
    exact ⟨_, _, .literal c, rfl⟩
  | number spec n =>
    obtain ⟨out, ho, h⟩ := bind_eq_ok.mp h
    obtain ⟨r, hn, ho⟩ := bind_eq_ok.mp ho
    have hrender : Renderable (spec.withTotal st.out.spec.total) :=
      ⟨hr.1.radix, hr.1.zero, hr.1.width, hr.1.precision⟩
    obtain ⟨-, hn⟩ := (numberStr_checks hrender hr.2).of_ok hn
    rw [numberStr_eq D hrender hr.2] at hn
    split_ifs at hn with hf
    cases hn
    cases h
    have htotal := putWithFieldWidth_total ho
    have hwidth := (emulated_texts (spec.withTotal st.out.spec.total) n).2.2.2
    have hspec : (emulated (spec.withTotal st.out.spec.total)).total = st.out.spec.total := by
      unfold emulated
      split_ifs <;> rfl
    dsimp only at htotal
    rw [hwidth, hspec] at htotal
    exact ⟨_, _, .number hf, htotal⟩
  | char spec c =>
    obtain ⟨out, ho, h⟩ := bind_eq_ok.mp h
    cases h
    exact ⟨_, _, .char spec c, putWithFieldWidth_total ho⟩
  | string spec ptr =>
    obtain ⟨str, hstr, h⟩ := bind_eq_ok.mp h
    obtain ⟨out, ho, h⟩ := bind_eq_ok.mp h
    cases h
    exact ⟨_, _, .string hstr, formatStr_total ho⟩
  | nil spec =>
    obtain ⟨room, hroom, h⟩ := bind_eq_ok.mp h
    obtain ⟨hin, hroom⟩ := (arith_int_checks (D := D) _).of_ok hroom
    rw [arith_int_wrapping, wrapInt_eq hin.1 hin.2] at hroom
    obtain rfl := Except.ok.inj hroom
    obtain ⟨out, ho, h⟩ := bind_eq_ok.mp h
    cases h
    exact ⟨_, _, .nil spec, formatStr_total ho⟩
  | count ptr =>
    have htotal : st'.out.spec.total = st.out.spec.total := by
      rw [← Except.ok.inj h]
      split_ifs <;> rfl
    have hnone : max (-1 : ℤ) 0 = 0 := by decide
    exact ⟨_, _, .count ptr, by rw [htotal, hnone, add_zero]⟩

end Emit

end OsdevLibstdc.Vsnprintf
