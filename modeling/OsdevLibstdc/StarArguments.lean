import OsdevLibstdc.IntegerRendering
import OsdevLibstdc.ZeroFlag

/-!
Widths and precisions that are passed for a star, against the directive with the same numbers
written in.
-/

namespace OsdevLibstdc.Vsnprintf

open Target LittleEndian Outcomes Numerals

def Width.Negative : Width → Prop
  | star w => w < 0
  | _ => False

def Width.Zero : Width → Prop
  | star w => w = 0
  | _ => False

def Precision.Omitted : Precision → Prop
  | star p => p < 0
  | _ => False

/-- A width of zero cannot be written, and is no width. -/
def Width.Written : Width → Width → Prop
  | star w, u => if w = 0 then u = none else ∃ n h, u = literal n h ∧ (decimal n.digits : ℤ) = |w|
  | w, u => u = w

def Precision.Written : Precision → Precision → Prop
  | star p, u => if p < 0 then u = none else ∃ n, u = literal n ∧ (decimal n.digits : ℤ) = p
  | p, u => u = p

structure Directive.Written (d e : Directive) : Prop where
  flags : ∀ f, f ∈ e.flags ↔ f ∈ d.flags ∨ (f = .minus ∧ d.width.Negative)
  width : d.width.Written e.width
  precision : d.precision.Written e.precision
  length : e.length = d.length
  specifier : e.specifier = d.specifier

def argumentValue (D : DataModel) (k : Specifier) (len : LengthSpec) (ap : VaList) :
    Except Fault (ℤ × VaList) :=
  match k with
  | .c => vaArg D .int ap
  | .s => vaArg D .pointer ap
  | _ => integerValue D k len ap

def Directive.unpadded (strings : Strings) (d : Directive) (v : ℤ) : List UInt8 :=
  match d.specifier with
  | .c => [UInt8.ofInt v]
  | .s => cut d.precision.value (match loadString strings v with
    | .ok s => s
    | .error _ => [])
  | _ => d.head v ++ d.digitsAt d.precision.value v

def Specifier.ShowsValue (k : Specifier) : Prop := k.isInteger ∨ k = .c ∨ k = .s

def Directive.Defined (strings : Strings) (d : Directive) (v : ℤ) : Prop :=
  (d.specifier = .s → ∃ s, loadString strings v = .ok s) ∧
  (d.specifier.isInteger → INT_MIN + (d.digits v).length ≤ d.precision.value ∧
    (d.head v).length + d.precision.value ≤ 66)

def Directive.unpaddedBox (strings : Strings) (d : Directive) (v : ℤ) : Box :=
  ⟨d.leftFlag, d.width.value, d.unpadded strings v⟩

section Written

theorem decimalFrom_eq (v : ℕ) (ds : List (Fin 10)) :
    decimalFrom v ds = (ds.map Fin.val).foldl (fun v d => v * 10 + d) v := by
  induction ds generalizing v with
  | nil => rfl
  | cons d ds ih => exact ih _

def decimalDigits (n : ℕ) : List (Fin 10) := (numeral 10 n).map (Fin.ofNat 10)

theorem decimalDigits_val (n : ℕ) : (decimalDigits n).map Fin.val = numeral 10 n := by
  rw [decimalDigits, List.map_map]
  apply (List.map_congr_left _).trans (List.map_id _)
  intro d hd
  exact Nat.mod_eq_of_lt (numeral_lt (by decide) hd)

theorem decimal_decimalDigits (n : ℕ) : decimal (decimalDigits n) = n := by
  rw [decimal, decimalFrom_eq, decimalDigits_val]
  exact valueOf_numeral 10 n

theorem decimalDigits_head {n : ℕ} (hn : n ≠ 0) : ∃ d ds, decimalDigits n = d :: ds ∧ d ≠ 0 := by
  have hval := decimalDigits_val n
  cases hds : decimalDigits n with
  | nil =>
    rw [hds] at hval
    exact absurd hval.symm (numeral_ne_nil 10 n)
  | cons d ds =>
    rw [hds, List.map_cons] at hval
    refine ⟨d, ds, rfl, ?_⟩
    intro h0
    exact numeral_head hn d.val (by rw [← hval]; rfl) (congrArg Fin.val h0)

theorem exists_literal {n : ℤ} (hn : 0 ≤ n) (hmax : n ≤ INT_MAX) :
    ∃ m : Literal, (decimal m.digits : ℤ) = n ∧
      (n ≠ 0 → ∃ d ds, m.digits = d :: ds ∧ d ≠ 0) := by
  have hdecimal : (decimal (decimalDigits n.toNat) : ℤ) = n := by
    rw [decimal_decimalDigits, Int.toNat_of_nonneg hn]
  refine ⟨⟨decimalDigits n.toNat, hdecimal.trans_le hmax⟩, hdecimal, ?_⟩
  intro hne
  exact decimalDigits_head (by omega)

theorem exists_written {D : DataModel} {d : Directive} {ap ap₁ : VaList}
    (hstars : Passed D d.starArgs ap ap₁) (hmin : d.width.value ≠ INT_MIN) :
    ∃ e, d.Written e := by
  obtain ⟨hw, hp⟩ := d.ranges hstars
  have hwidth : ∃ u, d.width.Written u := by
    cases hd : d.width with
    | none => exact ⟨_, rfl⟩
    | literal n h => exact ⟨_, rfl⟩
    | star w =>
      rw [hd] at hw hmin
      by_cases h0 : w = 0
      · exact ⟨.none, by rw [Width.Written, if_pos h0]⟩
      · simp only [Width.value, INT_MIN, INT_MAX] at hw hmin
        have habs : |w| ≤ INT_MAX := abs_le.mpr ⟨by simp only [INT_MAX]; omega, hw.2⟩
        obtain ⟨m, hm, hlead⟩ := exists_literal (abs_nonneg w) habs
        refine ⟨.literal m (hlead (abs_ne_zero.mpr h0)), ?_⟩
        rw [Width.Written, if_neg h0]
        exact ⟨m, _, rfl, hm⟩
  have hprecision : ∃ u, d.precision.Written u := by
    cases hd : d.precision with
    | none => exact ⟨_, rfl⟩
    | literal n => exact ⟨_, rfl⟩
    | negative ds => exact ⟨_, rfl⟩
    | star p =>
      rw [hd] at hp
      by_cases h0 : p < 0
      · exact ⟨.none, by rw [Precision.Written, if_pos h0]⟩
      · obtain ⟨m, hm, -⟩ := exists_literal (not_lt.mp h0) hp.2
        refine ⟨.literal m, ?_⟩
        rw [Precision.Written, if_neg h0]
        exact ⟨m, rfl, hm⟩
  obtain ⟨u, hu⟩ := hwidth
  obtain ⟨q, hq⟩ := hprecision
  by_cases hneg : d.width.Negative
  · refine ⟨⟨.minus :: d.flags, u, q, d.length, d.specifier⟩, ?_, hu, hq, rfl, rfl⟩
    intro f
    simp [hneg, or_comm]
  · refine ⟨⟨d.flags, u, q, d.length, d.specifier⟩, ?_, hu, hq, rfl, rfl⟩
    intro f
    simp [hneg]

theorem Width.value_cases (w : Width) :
    (w.Negative → w.value < 0) ∧ (w.Zero → w.value = 0) ∧ (¬ w.Negative → -1 ≤ w.value) := by
  cases w with
  | none => exact ⟨False.elim, False.elim, fun _ => le_rfl⟩
  | literal n h =>
    refine ⟨False.elim, False.elim, fun _ => ?_⟩
    rw [Width.value]
    omega
  | star w =>
    refine ⟨id, id, fun h => ?_⟩
    rw [Width.Negative] at h
    rw [Width.value]
    omega

theorem Precision.value_cases (p : Precision) :
    (p.Omitted → p.value < 0 ∧ p.isNone = false) ∧ (¬ p.Omitted → -1 ≤ p.value) := by
  cases p with
  | none => exact ⟨False.elim, fun _ => le_rfl⟩
  | negative ds => exact ⟨False.elim, fun _ => le_rfl⟩
  | literal n =>
    refine ⟨False.elim, fun _ => ?_⟩
    rw [Precision.value]
    omega
  | star p =>
    refine ⟨fun h => ⟨h, rfl⟩, fun h => ?_⟩
    rw [Precision.Omitted] at h
    rw [Precision.value]
    omega

theorem Width.Written.value {w u : Width} (h : w.Written u) :
    u.args = [] ∧ (w.Negative → u.value = -w.value) ∧ (w.Zero → u.value = -1) ∧
    (¬ w.Negative → ¬ w.Zero → u.value = w.value) := by
  cases w with
  | none => exact ⟨by rw [h]; rfl, False.elim, False.elim, fun _ _ => by rw [h]⟩
  | literal n hn => exact ⟨by rw [h]; rfl, False.elim, False.elim, fun _ _ => by rw [h]⟩
  | star w =>
    rw [Width.Written] at h
    simp only [Width.Negative, Width.Zero]
    split_ifs at h with h0
    · rw [h]
      refine ⟨rfl, fun hn => ?_, fun _ => rfl, fun _ hz => absurd h0 hz⟩
      omega
    · obtain ⟨n, hn, rfl, habs⟩ := h
      refine ⟨rfl, fun hneg => ?_, fun hz => absurd hz h0, fun hneg _ => ?_⟩
      · rw [Width.value, habs, abs_of_neg hneg]
        rfl
      · rw [Width.value, habs, abs_of_nonneg (not_lt.mp hneg)]
        rfl

theorem Precision.Written.value {p u : Precision} (h : p.Written u) :
    u.args = [] ∧ (p.Omitted → u = .none) ∧
    (¬ p.Omitted → u.value = p.value ∧ u.isNone = p.isNone) := by
  cases p with
  | none => exact ⟨by rw [h]; rfl, False.elim, fun _ => by rw [h]; exact ⟨rfl, rfl⟩⟩
  | literal n => exact ⟨by rw [h]; rfl, False.elim, fun _ => by rw [h]; exact ⟨rfl, rfl⟩⟩
  | negative ds => exact ⟨by rw [h]; rfl, False.elim, fun _ => by rw [h]; exact ⟨rfl, rfl⟩⟩
  | star p =>
    rw [Precision.Written] at h
    simp only [Precision.Omitted]
    split_ifs at h with h0
    · rw [h]
      exact ⟨rfl, fun _ => rfl, fun hn => absurd h0 hn⟩
    · obtain ⟨n, rfl, hn⟩ := h
      exact ⟨rfl, fun hneg => absurd hneg h0, fun _ => ⟨hn, rfl⟩⟩

variable {d e : Directive} {v : ℤ}

theorem Directive.Written.starArgs (h : d.Written e) : e.starArgs = [] := by
  rw [Directive.starArgs, h.width.value.1, h.precision.value.1]
  rfl

theorem Directive.Written.mem (h : d.Written e) {f : Flag} (hf : f ≠ .minus) :
    f ∈ e.flags ↔ f ∈ d.flags := by
  rw [h.flags f]
  simp [hf]

theorem Directive.Written.leftFlag (h : d.Written e) :
    e.leftFlag = true ↔ d.leftFlag = true ∨ d.width.Negative := by
  have hm := h.flags .minus
  simpa [Directive.leftFlag] using hm

theorem Directive.Written.sign (h : d.Written e) (v : ℤ) : e.sign v = d.sign v := by
  have hplus := h.mem (f := .plus) (by decide)
  have hspace := h.mem (f := .space) (by decide)
  simp only [Directive.sign, hplus, hspace, h.specifier]

theorem Directive.Written.head (h : d.Written e) (v : ℤ) : e.head v = d.head v := by
  have halt := h.mem (f := .alt) (by decide)
  simp only [Directive.head, h.sign, Directive.alternative, halt, h.specifier]

theorem Directive.Written.digits (h : d.Written e) (v : ℤ) : e.digits v = d.digits v := by
  rw [Directive.digits, h.specifier]
  rfl

theorem Directive.Written.unpadded (h : d.Written e) (strings : Strings) (v : ℤ) :
    e.unpadded strings v = d.unpadded strings v := by
  have hcut (s : List UInt8) : cut e.precision.value s = cut d.precision.value s := by
    by_cases ho : d.precision.Omitted
    · have hneg := (d.precision.value_cases.1 ho).1
      rw [h.precision.value.2.1 ho, cut, cut, if_neg (by decide), if_neg (by omega)]
    · rw [(h.precision.value.2.2 ho).1]
  have hdigits : e.digitsAt e.precision.value v = d.digitsAt d.precision.value v := by
    by_cases ho : d.precision.Omitted
    · have hneg := (d.precision.value_cases.1 ho).1
      rw [h.precision.value.2.1 ho, digitsAt_neg (by decide), digitsAt_neg hneg, h.digits]
    · rw [(h.precision.value.2.2 ho).1, Directive.digitsAt, h.digits]
      rfl
  rw [Directive.unpadded, h.specifier, Directive.unpadded]
  split
  · rfl
  · rw [hcut]
  · rw [h.head, hdigits]

end Written

section Shown

variable {D : DataModel} {strings : Strings} {d : Directive} {ap ap₁ ap' : VaList} {v : ℤ}
  {text : List UInt8}

theorem clearZero_box (d : Directive) : (clearZero d.spec).flags.minus = d.leftFlag ∧
    (clearZero d.spec).fieldWidth = d.width.value ∧
    (clearZero d.spec).precision = d.precision.value := by
  rw [clearZero_spec]
  exact ⟨rfl, rfl, rfl⟩

theorem prints_char_iff (hk : d.specifier = .c) (hstars : Passed D d.starArgs ap ap₁)
    (hv : argumentValue D d.specifier d.length ap₁ = .ok (v, ap')) :
    Prints D strings d ap ap' text ↔
      text = (d.unpaddedBox strings v).full ∧ (text.length : ℤ) < INT_MAX := by
  obtain ⟨hminus, hwidth, -⟩ := clearZero_box d
  rw [hk, argumentValue] at hv
  have hbox : d.unpaddedBox strings v = ⟨d.leftFlag, d.width.value, [UInt8.ofInt v]⟩ := by
    rw [Directive.unpaddedBox, Directive.unpadded, hk]
  have hread : ReadsAs D strings d ap ap' (.padded (d.unpaddedBox strings v)) := by
    intro more
    rw [nextField_text d more hstars, hk, conversion, specifierOf_byte]
    simp only [hv, ok_bind, pure_eq, Conversion.field, hminus, hwidth, hbox]
  rw [prints_iff hread rfl]
  exact and_congr_right fun h => by rw [h]

theorem prints_string_iff (hk : d.specifier = .s) (hstars : Passed D d.starArgs ap ap₁)
    (hv : argumentValue D d.specifier d.length ap₁ = .ok (v, ap')) :
    Prints D strings d ap ap' text ↔ (∃ s, loadString strings v = .ok s) ∧
      text = (d.unpaddedBox strings v).full ∧ (text.length : ℤ) < INT_MAX := by
  obtain ⟨hminus, hwidth, hprec⟩ := clearZero_box d
  rw [hk, argumentValue] at hv
  cases hs : loadString strings v with
  | error e =>
    refine iff_of_false ?_ (fun h => by cases h.1.choose_spec)
    apply not_prints
    intro more
    rw [nextField_text d more hstars, hk, conversion, specifierOf_byte]
    simp only [hv, ok_bind, pure_eq, Conversion.field, hs]
    rfl
  | ok s =>
    have hread : ReadsAs D strings d ap ap'
        (.string d.leftFlag d.width.value d.precision.value s) := by
      intro more
      rw [nextField_text d more hstars, hk, conversion, specifierOf_byte]
      simp only [hv, ok_bind, pure_eq, Conversion.field, hs, hminus, hwidth, hprec]
    have hfull : (Field.string d.leftFlag d.width.value d.precision.value s).full =
        (d.unpaddedBox strings v).full := by
      rw [Directive.unpaddedBox, Directive.unpadded, hk, hs]
      rfl
    rw [prints_iff hread rfl, hfull]
    constructor
    · rintro ⟨rfl, hl⟩
      exact ⟨⟨s, rfl⟩, rfl, hl⟩
    · rintro ⟨-, rfl, hl⟩
      exact ⟨rfl, hl⟩

theorem argumentValue_integer {k : Specifier} (hk : k.isInteger) (len : LengthSpec) (ap : VaList) :
    argumentValue D k len ap = integerValue D k len ap := by
  cases k <;> first | rfl | contradiction

theorem unpadded_integer (hk : d.specifier.isInteger) :
    d.unpadded strings v = d.head v ++ d.digitsAt d.precision.value v := by
  rw [Directive.unpadded]
  cases hd : d.specifier <;> rw [hd] at hk <;> first | rfl | contradiction

theorem shown_box (hk : d.specifier.isInteger) (hz : d.zeroFlag → d.width.value < 0) :
    d.integerBox v = d.unpaddedBox strings v := by
  rw [Directive.unpaddedBox, unpadded_integer hk]
  by_cases hzero : d.zeroFlag = true
  · have hneg := hz hzero
    have hasked : d.askedDigits v = -1 - (d.head v).length := by
      rw [Directive.askedDigits, if_pos hzero, max_eq_right (by omega)]
    have hnone : (d.askedDigits v - ((d.digits v).length : ℤ)).toNat = 0 := by omega
    rw [Directive.integerBox, if_neg (fun h => by omega), Directive.integerText,
      if_neg (fun h => by omega), hnone, zeroFlag_precision hzero, digitsAt_neg (by decide)]
    rfl
  · rw [unflagged_box (by simpa using hzero), unflagged_text (by simpa using hzero)]

theorem shown_fits (hk : d.specifier.isInteger) (hz : d.zeroFlag → d.width.value < 0)
    (hv : integerValue D d.specifier d.length ap₁ = .ok (v, ap')) :
    d.IntegerFits v ↔ INT_MIN + (d.digits v).length ≤ d.precision.value ∧
      (d.head v).length + d.precision.value ≤ 66 := by
  rw [Directive.IntegerFits]
  split_ifs with hzero
  · have hneg := hz hzero
    have hhead := d.head_le hk v
    have hdigits := (d.digits_bounds hv).2
    rw [zeroFlag_precision hzero]
    simp only [INT_MIN]
    omega
  · rfl

theorem prints_shown_iff (hk : d.specifier.ShowsValue)
    (hz : d.specifier.isInteger → d.zeroFlag → d.width.value < 0)
    (hstars : Passed D d.starArgs ap ap₁)
    (hv : argumentValue D d.specifier d.length ap₁ = .ok (v, ap')) :
    Prints D strings d ap ap' text ↔ d.Defined strings v ∧
      text = (d.unpaddedBox strings v).full ∧ (text.length : ℤ) < INT_MAX := by
  rw [Directive.Defined]
  rcases hk with hk | hk | hk
  · rw [argumentValue_integer hk] at hv
    have hs : d.specifier ≠ .s := by
      intro h
      rw [h] at hk
      contradiction
    rw [prints_integer_iff hk hstars hv, shown_box hk (hz hk), shown_fits hk (hz hk) hv]
    exact and_congr_left' ⟨fun h => ⟨fun h' => absurd h' hs, fun _ => h⟩, fun h => h.2 hk⟩
  · rw [prints_char_iff hk hstars hv, hk]
    refine (and_iff_right ⟨?_, ?_⟩).symm <;> intro h <;> contradiction
  · rw [prints_string_iff hk hstars hv, hk]
    exact and_congr_left' ⟨fun h => ⟨fun _ => h, fun h' => by contradiction⟩, fun h => h.1 rfl⟩

end Shown

section Stars

variable {D : DataModel} {strings : Strings} {d e : Directive} {ap ap₁ ap' : VaList} {v : ℤ}
  {text : List UInt8}

def Directive.PrecisionFits (d : Directive) (v : ℤ) : Prop :=
  d.specifier.isInteger → d.precision.Omitted →
    INT_MIN + (d.digits v).length ≤ d.precision.value

theorem Directive.Written.defined (h : d.Written e) (he : e.Defined strings v) :
    d.Defined strings v ↔ d.PrecisionFits v := by
  obtain ⟨hstring, hinteger⟩ := he
  rw [h.specifier] at hstring hinteger
  rw [h.head, h.digits] at hinteger
  constructor
  · intro hd hk _
    exact (hd.2 hk).1
  · intro hfits
    refine ⟨hstring, fun hk => ?_⟩
    by_cases ho : d.precision.Omitted
    · have hneg := (d.precision.value_cases.1 ho).1
      have hhead := d.head_le hk v
      exact ⟨hfits hk ho, by omega⟩
    · rw [← (h.precision.value.2.2 ho).1]
      exact hinteger hk

structure Directive.StarAgrees (strings : Strings) (d : Directive) (v : ℤ) : Prop where
  negative : d.width.Negative → -d.width.value ≤ (d.unpadded strings v).length ∧
    INT_MIN ≤ d.width.value - (d.unpadded strings v).length
  precision : d.PrecisionFits v
  omitted : d.specifier.isInteger → d.precision.Omitted → .zero ∈ d.flags → .minus ∉ d.flags →
    ¬ d.width.Negative → d.width.value ≤ (d.unpadded strings v).length ∧
      ¬ (v = 0 ∧ 0 < d.width.value ∧ d.width.value = (d.sign v).length)
  zero : d.specifier.isInteger → d.zeroFlag → d.width.Zero → ¬ (v = 0 ∧ d.sign v = [])

structure StarPair (D : DataModel) (d e : Directive) (ap ap₁ ap' : VaList) (v : ℤ) : Prop where
  shows : d.specifier.ShowsValue
  written : d.Written e
  stars : Passed D d.starArgs ap ap₁
  value : argumentValue D d.specifier d.length ap₁ = .ok (v, ap')

theorem StarPair.passed (h : StarPair D d e ap ap₁ ap' v) : Passed D e.starArgs ap₁ ap₁ := by
  rw [h.written.starArgs]
  exact .nil ap₁

theorem StarPair.value_written (h : StarPair D d e ap ap₁ ap' v) :
    argumentValue D e.specifier e.length ap₁ = .ok (v, ap') := by
  rw [h.written.specifier, h.written.length]
  exact h.value

theorem StarPair.integer (h : StarPair D d e ap ap₁ ap' v) (hi : d.specifier.isInteger) :
    integerValue D d.specifier d.length ap₁ = .ok (v, ap') := by
  rw [← argumentValue_integer hi]
  exact h.value

theorem StarPair.integer_written (h : StarPair D d e ap ap₁ ap' v) (hi : d.specifier.isInteger) :
    e.specifier.isInteger ∧ integerValue D e.specifier e.length ap₁ = .ok (v, ap') := by
  rw [h.written.specifier, h.written.length]
  exact ⟨hi, h.integer hi⟩

theorem StarPair.minus_iff (h : StarPair D d e ap ap₁ ap' v) (hn : ¬ d.width.Negative) :
    .minus ∈ e.flags ↔ .minus ∈ d.flags := by
  rw [h.written.flags]
  simp [hn]

theorem StarPair.written_shown (h : StarPair D d e ap ap₁ ap' v)
    (hz : e.specifier.isInteger → e.zeroFlag → e.width.value < 0) :
    Prints D strings e ap₁ ap' text ↔ e.Defined strings v ∧
      text = (⟨e.leftFlag, e.width.value, d.unpadded strings v⟩ : Box).full ∧
      (text.length : ℤ) < INT_MAX := by
  rw [prints_shown_iff (h.written.specifier ▸ h.shows) hz h.passed h.value_written,
    Directive.unpaddedBox, h.written.unpadded]

theorem StarPair.star_shown (h : StarPair D d e ap ap₁ ap' v)
    (hz : d.specifier.isInteger → d.zeroFlag → d.width.value < 0) (he : e.Defined strings v) :
    Prints D strings d ap ap' text ↔ d.PrecisionFits v ∧
      text = (⟨d.leftFlag, d.width.value, d.unpadded strings v⟩ : Box).full ∧
      (text.length : ℤ) < INT_MAX := by
  rw [prints_shown_iff h.shows hz h.stars h.value, h.written.defined he]
  rfl

theorem padded_length (minus : Bool) (width : ℤ) (text : List UInt8) :
    (padded minus width text).length = (width - text.length).toNat + text.length := by
  cases minus <;> simp [padded, Box.spaces, Nat.add_comm]

theorem full_of_le (minus : Bool) {w : ℤ} {t : List UInt8} (hw : w ≤ t.length)
    (hl : INT_MIN ≤ w - t.length) (hmax : w ≤ INT_MAX) : (⟨minus, w, t⟩ : Box).full = t := by
  have hgap : (w - (t.length : ℤ)).toNat = 0 := by omega
  rw [full_eq_padded hl hmax]
  simp [padded, hgap, Box.spaces]

theorem text_short {b : Box} {t : List UInt8} (ht : t = b.full) (hl : (t.length : ℤ) < INT_MAX) :
    (b.text.length : ℤ) < INT_MAX := by
  rw [ht, b.full_length] at hl
  omega

theorem full_narrow (minus : Bool) {w : ℤ} {t : List UInt8} (hw : -1 ≤ w ∧ w ≤ 0)
    (hl : (t.length : ℤ) < INT_MAX) : (⟨minus, w, t⟩ : Box).full = t := by
  apply full_of_le
  · omega
  · simp only [INT_MIN, INT_MAX] at hl ⊢
    omega
  · simp only [INT_MAX]
    omega

theorem StarPair.negative_iff (h : StarPair D d e ap ap₁ ap' v) (hn : d.width.Negative)
    (he : Prints D strings e ap₁ ap' text) :
    Prints D strings d ap ap' text ↔ d.PrecisionFits v ∧
      -d.width.value ≤ (d.unpadded strings v).length ∧
      INT_MIN ≤ d.width.value - (d.unpadded strings v).length := by
  have hleft : e.leftFlag = true := h.written.leftFlag.mpr (.inr hn)
  have hz : e.zeroFlag = false := by
    have hminus : .minus ∈ e.flags := by simpa [Directive.leftFlag] using hleft
    simp [Directive.zeroFlag, hminus]
  have hwidth : e.width.value = -d.width.value := h.written.width.value.2.1 hn
  have hneg : d.width.value < 0 := d.width.value_cases.1 hn
  have hrange := (d.ranges h.stars).1
  obtain ⟨hdef, htext, hlen⟩ :=
    (h.written_shown fun _ hze => absurd (hz.symm.trans hze) Bool.false_ne_true).mp he
  have hmax : -d.width.value ≤ INT_MAX := by
    have hr := (e.ranges h.passed).1.2
    omega
  rw [hwidth, hleft] at htext
  have hfit := hlen
  rw [htext] at hfit
  have hnowrap := not_wrapped (by simp only [INT_MIN]; omega) hfit
  rw [h.star_shown (fun _ _ => hneg) hdef, and_iff_left hlen]
  apply and_congr_right
  intro _
  constructor
  · intro hstar
    have hfit' := hlen
    rw [hstar] at hfit'
    have hlow : INT_MIN ≤ d.width.value - (d.unpadded strings v).length :=
      not_wrapped hrange.1 hfit'
    rw [full_of_le d.leftFlag (by omega) hlow hrange.2] at hstar
    have hl := congrArg List.length (hstar.symm.trans htext)
    rw [full_eq_padded hnowrap hmax, padded_length] at hl
    refine ⟨?_, hlow⟩
    simp only at hl
    omega
  · rintro ⟨hle, hlow⟩
    rw [htext, full_of_le true hle hnowrap hmax, full_of_le d.leftFlag (by omega) hlow hrange.2]

theorem StarPair.widths (h : StarPair D d e ap ap₁ ap' v) (hn : ¬ d.width.Negative) :
    e.leftFlag = d.leftFlag ∧
    (e.width.value = d.width.value ∨ (e.width.value = -1 ∧ d.width.value = 0)) := by
  constructor
  · rw [Bool.eq_iff_iff, h.written.leftFlag]
    exact or_iff_left hn
  · by_cases h0 : d.width.Zero
    · exact .inr ⟨h.written.width.value.2.2.1 h0, d.width.value_cases.2.1 h0⟩
    · exact .inl (h.written.width.value.2.2.2 hn h0)

theorem StarPair.shown_iff (h : StarPair D d e ap ap₁ ap' v) (hn : ¬ d.width.Negative)
    (hz : d.specifier.isInteger → d.zeroFlag → d.width.value < 0)
    (hz' : e.specifier.isInteger → e.zeroFlag → e.width.value < 0)
    (he : Prints D strings e ap₁ ap' text) :
    Prints D strings d ap ap' text ↔ d.PrecisionFits v := by
  obtain ⟨hdef, htext, hlen⟩ := (h.written_shown hz').mp he
  obtain ⟨hleft, hwidth⟩ := h.widths hn
  rw [h.star_shown hz hdef, and_iff_left hlen]
  apply and_iff_left
  rcases hwidth with hw | ⟨hw, hw0⟩
  · rw [htext, hleft, hw]
  · have hshort := text_short htext hlen
    rw [htext, full_narrow e.leftFlag (by omega) hshort, full_narrow d.leftFlag (by omega) hshort]

theorem unpadded_neg (hi : d.specifier.isInteger) (hp : d.precision.value < 0) :
    d.unpadded strings v = d.head v ++ d.digits v := by
  rw [unpadded_integer hi, digitsAt_neg hp]

theorem StarPair.zero_iff (h : StarPair D d e ap ap₁ ap' v) (hi : d.specifier.isInteger)
    (hz : d.zeroFlag) (h0 : d.width.Zero) (he : Prints D strings e ap₁ ap' text) :
    Prints D strings d ap ap' text ↔ ¬ (v = 0 ∧ d.sign v = []) := by
  have hw := d.width.value_cases.2.1 h0
  have hw' := h.written.width.value.2.2.1 h0
  have hv := h.integer hi
  have hdigits := (d.digits_bounds hv).1
  have hp : d.precision.value < 0 := by
    rw [zeroFlag_precision hz]
    decide
  obtain ⟨-, htext, hlen⟩ := (h.written_shown fun _ _ => by omega).mp he
  have hshort := text_short htext hlen
  rw [full_narrow e.leftFlag (by omega) hshort] at htext
  have hnone : (0 - ((d.head v ++ d.digits v).length : ℤ)).toNat = 0 := by omega
  rw [prints_zeroFlag_iff hi h.stars hv hz hw.ge (by omega), zeroFlag_text hz hw.ge, htext, hw,
    hnone]
  simp only [unpadded_neg hi hp]
  split_ifs with hbad
  · refine iff_of_false ?_ (fun hn => hn ⟨hbad.1, List.length_eq_zero_iff.mp (by omega)⟩)
    intro heq
    have hl := congrArg List.length heq
    rw [List.length_append] at hl
    omega
  · apply iff_of_true rfl
    rintro ⟨hv0, hsign⟩
    exact hbad ⟨hv0, by rw [hsign]; rfl⟩

theorem StarPair.defined (h : StarPair D d e ap ap₁ ap' v) (hi : d.specifier.isInteger)
    (hp : e.precision.value = -1) : e.Defined strings v := by
  have hdigits := (d.digits_bounds (h.integer hi)).2
  have hhead := d.head_le hi v
  refine ⟨fun hs => ?_, fun _ => ?_⟩
  · rw [h.written.specifier] at hs
    rw [hs] at hi
    contradiction
  · rw [hp, h.written.digits, h.written.head]
    simp only [INT_MIN]
    omega

theorem StarPair.omitted_iff (h : StarPair D d e ap ap₁ ap' v) (hi : d.specifier.isInteger)
    (ho : d.precision.Omitted) (hz : e.zeroFlag) (hn : ¬ d.width.Negative)
    (hwidth : 0 ≤ e.width.value) (he : Prints D strings e ap₁ ap' text) :
    Prints D strings d ap ap' text ↔ d.PrecisionFits v ∧
      d.width.value ≤ (d.unpadded strings v).length ∧
      ¬ (v = 0 ∧ d.width.value = (d.sign v).length) := by
  obtain ⟨hi', hv'⟩ := h.integer_written hi
  have hdigits := d.digits_bounds (h.integer hi)
  have hhead := d.head_le hi v
  have hw : e.width.value = d.width.value := by
    rcases (h.widths hn).2 with hw | hw <;> omega
  have hneg := (d.precision.value_cases.1 ho).1
  have hzero : d.zeroFlag = false := by
    simp [Directive.zeroFlag, (d.precision.value_cases.1 ho).2]
  have hunpadded : d.unpadded strings v = d.head v ++ d.digits v := unpadded_neg hi hneg
  have hlen : (d.unpadded strings v).length = (d.head v).length + (d.digits v).length := by
    rw [hunpadded, List.length_append]
  have hfits := ((prints_integer_iff hi' h.passed hv').mp he).1
  rw [Directive.IntegerFits, if_pos hz] at hfits
  have htext := (prints_zeroFlag_iff hi' h.passed hv' hz hwidth hfits).mp he
  rw [zeroFlag_text hz hwidth, h.written.sign, h.written.head, h.written.digits, hw] at htext
  have hprec : e.precision.value = -1 := by
    rw [h.written.precision.value.2.1 ho]
    rfl
  rw [h.star_shown (fun _ hd => absurd (hzero.symm.trans hd) Bool.false_ne_true)
    (h.defined hi hprec), and_iff_left he.1]
  apply and_congr_right
  intro _
  constructor
  · intro hstar
    have hgood : ¬ (v = 0 ∧ d.width.value = (d.sign v).length) := by
      intro hbad
      rw [if_pos hbad, hstar] at htext
      have hl := congrArg List.length htext
      rw [Box.full_length] at hl
      have hsign : (d.sign v).length ≤ (d.head v).length := by simp [Directive.head]
      simp only [hlen] at hl
      omega
    refine ⟨?_, hgood⟩
    rw [if_neg hgood, hstar] at htext
    have hcount := congrArg (List.count (byte '0')) htext
    rw [full_count] at hcount
    simp only [hunpadded, List.count_append, zeros, List.count_replicate_self] at hcount
    rw [hlen, ← List.length_append]
    omega
  · rintro ⟨hle, hgood⟩
    have hnone : (d.width.value - ((d.head v ++ d.digits v).length : ℤ)).toNat = 0 := by
      rw [List.length_append]
      omega
    rw [if_neg hgood, hnone] at htext
    rw [full_of_le d.leftFlag hle (by simp only [INT_MIN]; omega) (d.ranges h.stars).1.2,
      hunpadded, htext]
    rfl

theorem StarPair.same (h : StarPair D d e ap ap₁ ap' v) (hi : d.specifier.isInteger)
    (hn : ¬ d.width.Negative) (h0 : ¬ d.width.Zero) (ho : ¬ d.precision.Omitted)
    (he : Prints D strings e ap₁ ap' text) : Prints D strings d ap ap' text := by
  have hv := h.integer hi
  obtain ⟨hi', hv'⟩ := h.integer_written hi
  obtain ⟨hleft, -⟩ := h.widths hn
  have hw := h.written.width.value.2.2.2 hn h0
  obtain ⟨hp, hnone⟩ := h.written.precision.value.2.2 ho
  have hzero : e.zeroFlag = d.zeroFlag := by
    have hmem := h.written.mem (f := .zero) (by decide)
    simp only [Directive.zeroFlag, hmem, h.minus_iff hn, hnone]
  have hdigits := h.written.digits v
  have hhead := h.written.head v
  have hsign := h.written.sign v
  have hasked : e.askedDigits v = d.askedDigits v := by
    simp only [Directive.askedDigits, hzero, hw, hhead, hp]
  rw [prints_integer_iff hi' h.passed hv'] at he
  rw [prints_integer_iff hi h.stars hv]
  simp only [Directive.IntegerFits, Directive.integerBox, Directive.integerText, hzero, hw, hp,
    hleft, hhead, hdigits, hsign, hasked] at he ⊢
  exact he

theorem Width.value_ne_zero {u : Width} (h : u.args = []) : u.value ≠ 0 := by
  cases u with
  | none => exact fun h => by cases h
  | star x => cases h
  | literal n hn =>
    obtain ⟨d, ds, hds, hd⟩ := hn
    have hle := decimalFrom_le ds (0 * 10 + d.val)
    have hpos : d.val ≠ 0 := fun h0 => hd (Fin.ext h0)
    rw [Width.value, hds, decimal, decimalFrom]
    omega

theorem zeroFlag_iff (d : Directive) : d.zeroFlag = true ↔
    (.zero ∈ d.flags ∧ .minus ∉ d.flags) ∧ d.precision.isNone = true := by
  simp [Directive.zeroFlag, and_assoc]

theorem StarPair.zeroFlag_iff (h : StarPair D d e ap ap₁ ap' v) (hn : ¬ d.width.Negative) :
    e.zeroFlag = true ↔ d.zeroFlag = true ∨
      ((.zero ∈ d.flags ∧ .minus ∉ d.flags) ∧ d.precision.Omitted) := by
  have hmem := h.written.mem (f := .zero) (by decide)
  rw [Vsnprintf.zeroFlag_iff, Vsnprintf.zeroFlag_iff, hmem, h.minus_iff hn, ← and_or_left]
  apply and_congr_right
  intro _
  by_cases ho : d.precision.Omitted
  · rw [h.written.precision.value.2.1 ho]
    exact iff_of_true rfl (.inr ho)
  · rw [(h.written.precision.value.2.2 ho).2]
    exact (or_iff_left ho).symm

theorem StarPair.agrees_iff (h : StarPair D d e ap ap₁ ap' v)
    (he : Prints D strings e ap₁ ap' text) :
    Prints D strings d ap ap' text ↔ d.StarAgrees strings v := by
  by_cases hn : d.width.Negative
  · rw [h.negative_iff hn he]
    have hzero : ¬ d.width.Zero := by
      intro h0
      have h1 := d.width.value_cases.1 hn
      have h2 := d.width.value_cases.2.1 h0
      omega
    constructor
    · rintro ⟨hprec, hwidth⟩
      exact ⟨fun _ => hwidth, hprec, fun _ _ _ _ hnot => absurd hn hnot,
        fun _ _ h0 => absurd h0 hzero⟩
    · intro ha
      exact ⟨ha.precision, ha.negative hn⟩
  by_cases hz : d.specifier.isInteger ∧ d.zeroFlag = true
  · obtain ⟨hi, hz⟩ := hz
    have hnone := ((Vsnprintf.zeroFlag_iff d).mp hz).2
    have ho : ¬ d.precision.Omitted := fun ho =>
      absurd (hnone.symm.trans (d.precision.value_cases.1 ho).2) (by decide)
    by_cases h0 : d.width.Zero
    · rw [h.zero_iff hi hz h0 he]
      exact ⟨fun hgood => ⟨fun h => absurd h hn, fun _ h => absurd h ho, fun _ h => absurd h ho,
        fun _ _ _ => hgood⟩, fun ha => ha.zero hi hz h0⟩
    · exact iff_of_true (h.same hi hn h0 ho he) ⟨fun h => absurd h hn, fun _ h => absurd h ho,
        fun _ h => absurd h ho, fun _ _ h => absurd h h0⟩
  by_cases hz' : d.specifier.isInteger ∧ e.zeroFlag = true ∧ 0 ≤ e.width.value
  · obtain ⟨hi, hze, hwidth⟩ := hz'
    have hd : ¬ d.zeroFlag = true := fun hd => hz ⟨hi, hd⟩
    obtain ⟨⟨hmem, hminus⟩, ho⟩ := ((h.zeroFlag_iff hn).mp hze).resolve_left hd
    have hpos : 0 < d.width.value := by
      have hne := Width.value_ne_zero h.written.width.value.1
      rcases (h.widths hn).2 with hw | hw <;> omega
    rw [h.omitted_iff hi ho hze hn hwidth he]
    constructor
    · rintro ⟨hprec, hle, hgood⟩
      exact ⟨fun h => absurd h hn, hprec, fun _ _ _ _ _ => ⟨hle, fun hbad => hgood ⟨hbad.1, hbad.2.2⟩⟩,
        fun hi h => absurd ⟨hi, h⟩ hz⟩
    · intro ha
      obtain ⟨hle, hgood⟩ := ha.omitted hi ho hmem hminus hn
      exact ⟨ha.precision, hle, fun hbad => hgood ⟨hbad.1, hpos, hbad.2⟩⟩
  · rw [h.shown_iff hn (fun hi h => absurd ⟨hi, h⟩ hz) _ he]
    · constructor
      · intro hprec
        refine ⟨fun h => absurd h hn, hprec, ?_, fun hi h => absurd ⟨hi, h⟩ hz⟩
        intro hi ho hmem hminus _
        have hze := (h.zeroFlag_iff hn).mpr (.inr ⟨⟨hmem, hminus⟩, ho⟩)
        have hwidth : e.width.value < 0 := not_le.mp fun hle => hz' ⟨hi, hze, hle⟩
        rcases (h.widths hn).2 with hw | hw <;> exact ⟨by omega, fun hbad => by omega⟩
      · intro ha
        exact ha.precision
    · intro hi hze
      rw [h.written.specifier] at hi
      exact not_le.mp fun hle => hz' ⟨hi, hze, hle⟩

theorem star_prints_iff (hk : d.specifier.ShowsValue) (hw : d.Written e)
    (hstars : Passed D d.starArgs ap ap₁)
    (hv : argumentValue D d.specifier d.length ap₁ = .ok (v, ap'))
    (he : Prints D strings e ap₁ ap' text) :
    Prints D strings d ap ap' text ↔ d.StarAgrees strings v :=
  StarPair.agrees_iff ⟨hk, hw, hstars, hv⟩ he

end Stars

def starLeft : Directive := ⟨[], .star (-6), .none, .null, .d⟩

def writtenLeft : Directive :=
  ⟨[.minus], .literal ⟨[6], by decide⟩ ⟨6, [], rfl, by decide⟩, .none, .null, .d⟩

def starLeftArgs : VaList := encode 8 4294967290 ++ encode 8 7

theorem starLeft_pair : StarPair .lp64 starLeft writtenLeft starLeftArgs (encode 8 7) [] 7 where
  shows := .inl rfl
  written := {
    flags := by
      intro f
      cases f <;> simp [starLeft, writtenLeft, Width.Negative]
    width := by
      rw [starLeft, Width.Written, if_neg (by decide)]
      exact ⟨_, _, rfl, by decide⟩
    precision := rfl
    length := rfl
    specifier := rfl }
  stars := .cons (by decide +kernel) (.nil _)
  value := by decide +kernel

theorem writtenLeft_prints :
    Prints .lp64 (fun _ => none) writtenLeft (encode 8 7) [] (bytes "7     ") := by
  have hvalue : integerValue .lp64 writtenLeft.specifier writtenLeft.length (encode 8 7) =
      .ok (7, []) := by decide +kernel
  rw [prints_plain_iff rfl (.nil _) hvalue (by decide) rfl (by decide) (by decide)]
  exact ⟨by decide, by decide, by decide⟩

theorem star_prints_starLeft :
    Prints .lp64 (fun _ => none) starLeft starLeftArgs [] (bytes "7     ") ↔
      starLeft.StarAgrees (fun _ => none) 7 :=
  star_prints_iff starLeft_pair.shows starLeft_pair.written starLeft_pair.stars starLeft_pair.value
    writtenLeft_prints

theorem not_star_prints : ¬ ∀ (D : DataModel) (strings : Strings) (d e : Directive)
    (ap ap₁ ap' : VaList) (v : ℤ) (text : List UInt8), d.specifier.ShowsValue → d.Written e →
    Passed D d.starArgs ap ap₁ → argumentValue D d.specifier d.length ap₁ = .ok (v, ap') →
    Prints D strings e ap₁ ap' text → Prints D strings d ap ap' text := by
  intro h
  have hp := starLeft_pair
  have hprints := h _ _ _ _ _ _ _ _ _ hp.shows hp.written hp.stars hp.value writtenLeft_prints
  have hneg : starLeft.width.Negative := (by decide : (-6 : ℤ) < 0)
  have hwidth := ((hp.negative_iff hneg writtenLeft_prints).mp hprints).2.1
  exact absurd hwidth (by decide)

end OsdevLibstdc.Vsnprintf
