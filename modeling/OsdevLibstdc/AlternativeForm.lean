import OsdevLibstdc.IntegerRendering

/-! The flag `#`: a prefix for hexadecimal digits, and a leading zero for octal ones. -/

namespace OsdevLibstdc.Vsnprintf

open Target LittleEndian Numerals

structure Directive.Alone (d e : Directive) (q : ℤ) : Prop where
  flags : e.flags = []
  width : e.width = .none
  precision : e.precision.value = q
  length : e.length = d.length
  specifier : e.specifier = d.specifier

def PrintsAlone (D : DataModel) (strings : Strings) (d : Directive) (ap₁ ap' : VaList) (q : ℤ)
    (text : List UInt8) : Prop :=
  ∃ e ap, d.Alone e q ∧ Passed D e.starArgs ap ap₁ ∧ Prints D strings e ap ap' text

def hexPrefix (k : Specifier) (v : ℤ) : List UInt8 :=
  if v = 0 ∨ k = .o then [] else [byte '0', if k = .X then byte 'X' else byte 'x']

def LeadingZero (text : List UInt8) : Prop := text.head? = some (byte '0')

def AlternativeLaw (D : DataModel) (strings : Strings) (d : Directive) (ap ap₁ ap' : VaList)
    (v : ℤ) : Prop :=
  if d.specifier = .o then ∃ q text, d.precision.value ≤ q ∧
    PrintsAlone D strings d ap₁ ap' q text ∧ LeadingZero text ∧
    (∀ r text', d.precision.value ≤ r → r < q → PrintsAlone D strings d ap₁ ap' r text' →
      ¬ LeadingZero text') ∧
    Prints D strings d ap ap' (d.pad text)
  else ∃ text, PrintsAlone D strings d ap₁ ap' d.precision.value text ∧
    Prints D strings d ap ap' (d.pad (hexPrefix d.specifier v ++ text))

section Alone

variable {D : DataModel} {strings : Strings} {d : Directive} {ap ap₁ ap' : VaList} {v q : ℤ}
  {text : List UInt8}

theorem exists_passed_int (D : DataModel) (ap₁ : VaList) (hl : INT_MIN ≤ q) (hu : q ≤ INT_MAX) :
    ∃ ap, Passed D [⟨.int, q⟩] ap ap₁ := by
  have hq : CType.int.convert D ((q % 4294967296).toNat : ℕ) = q := by
    rw [convert_int, Int.toNat_of_nonneg (Int.emod_nonneg q (by decide))]
    exact (Int.emod_bmod q 4294967296).trans (wrapInt_eq hl hu)
  have h := passed_encode D [(.int, (q % 4294967296).toNat)] ap₁
  rw [List.map_singleton, hq] at h
  exact ⟨_, h⟩

theorem Directive.Alone.prints_iff {e : Directive} (ha : d.Alone e q) (hstars : Passed D e.starArgs ap ap₁)
    (hk : d.specifier.isInteger) (hs : d.specifier.isSigned = false)
    (hv : integerValue D d.specifier d.length ap₁ = .ok (v, ap')) (hq : -1 ≤ q) :
    Prints D strings e ap ap' text ↔
      (d.digitsAt q v).length ≤ MAX_NUMBER_LEN ∧ text = d.digitsAt q v := by
  obtain ⟨hflags, hwidth, hprec, hlength, hspec⟩ := ha
  have halt : .alt ∉ e.flags := by simp [hflags]
  have hz : e.zeroFlag = false := by simp [Directive.zeroFlag, hflags]
  have htext : e.plainText v = d.digitsAt q v := by
    rw [Directive.plainText, Directive.sign, hspec, hs, hprec, Directive.digitsAt,
      Directive.digits, hspec]
    rfl
  have hpad : e.pad (d.digitsAt q v) = d.digitsAt q v := pad_of_none (by rw [hwidth]; rfl) _
  rw [prints_plain_iff (hspec ▸ hk) hstars (by rw [hspec, hlength]; exact hv) halt hz
    (by rw [hwidth]; exact le_rfl) (hprec ▸ hq), htext, hpad]
  refine and_congr_right fun hl => and_iff_left_of_imp ?_
  rintro rfl
  simp only [MAX_NUMBER_LEN, INT_MAX] at *
  omega

theorem printsAlone_iff (hk : d.specifier.isInteger) (hs : d.specifier.isSigned = false)
    (hv : integerValue D d.specifier d.length ap₁ = .ok (v, ap')) (hq : -1 ≤ q)
    (hfit : q ≤ MAX_NUMBER_LEN) :
    PrintsAlone D strings d ap₁ ap' q text ↔ text = d.digitsAt q v := by
  constructor
  · rintro ⟨e, ap, ha, hstars, hprints⟩
    exact ((ha.prints_iff hstars hk hs hv hq).mp hprints).2
  · intro htext
    have hmax : q ≤ INT_MAX := by
      simp only [MAX_NUMBER_LEN, INT_MAX] at *
      omega
    have hmin : INT_MIN ≤ q := by
      simp only [INT_MIN]
      omega
    obtain ⟨ap, hpassed⟩ := exists_passed_int D ap₁ hmin hmax
    have ha : d.Alone ⟨[], .none, .star q, d.length, d.specifier⟩ q := ⟨rfl, rfl, rfl, rfl, rfl⟩
    refine ⟨_, ap, ha, hpassed, (ha.prints_iff hpassed hk hs hv hq).mpr ⟨?_, htext⟩⟩
    have hdigits := (d.digits_bounds hv).2
    by_cases h0 : v = 0 ∧ q = 0
    · simp [Directive.digitsAt, h0]
    · rw [digitsAt_length h0]
      simp only [MAX_NUMBER_LEN] at *
      omega

theorem digitChar_zero {huge : Bool} {n : ℕ} (hn : n < 16) (h : digitChar huge n = byte '0') :
    n = 0 := by
  have hall : ∀ n : Fin 16, digitChar huge n = byte '0' → n = 0 := by
    cases huge <;> decide
  exact congrArg Fin.val (hall ⟨n, hn⟩ h)

theorem digits_head (hv : v ≠ 0) : ¬ LeadingZero (d.digits v) := by
  intro h
  rw [LeadingZero, Directive.digits, Specifier.digits, digitsText, List.head?_map,
    Option.map_eq_some_iff] at h
  obtain ⟨n, hn, hchar⟩ := h
  have hlt := numeral_lt d.specifier.isRadix.one_lt (List.mem_of_head? hn)
  have hradix : d.specifier.radix ≤ 16 := by
    rcases d.specifier.isRadix with hr | hr | hr <;> omega
  exact numeral_head (Int.natAbs_ne_zero.mpr hv) n hn (digitChar_zero (by omega) hchar)

theorem leadingZero_digitsAt : LeadingZero (d.digitsAt q v) ↔
    if v = 0 then q ≠ 0 else (d.digits v).length < q := by
  rw [Directive.digitsAt]
  by_cases hv : v = 0
  · have hdigits : d.digits v = [byte '0'] := by
      rw [hv]
      exact digitsText_zero _ d.specifier.radix
    rw [if_pos hv, hdigits]
    split_ifs with h0
    · exact iff_of_false (fun h => by cases h) (fun h => h h0.2)
    · refine iff_of_true ?_ (fun hq => h0 ⟨hv, hq⟩)
      cases (q - ([byte '0'].length : ℤ)).toNat <;> rfl
  · rw [if_neg (fun h => hv h.1), if_neg hv]
    by_cases hlt : (d.digits v).length < q
    · refine iff_of_true ?_ hlt
      obtain ⟨k, hk⟩ : ∃ k, (q - (d.digits v).length).toNat = k + 1 :=
        ⟨(q - (d.digits v).length).toNat - 1, by omega⟩
      rw [hk]
      rfl
    · refine iff_of_false ?_ hlt
      have hzero : (q - (d.digits v).length).toNat = 0 := by omega
      rw [hzero]
      exact digits_head hv

end Alone

section Alternative

variable {D : DataModel} {strings : Strings} {d : Directive} {ap ap₁ ap' : VaList} {v : ℤ}
  {text : List UInt8}

theorem unsigned_head (hs : d.specifier.isSigned = false) (v : ℤ) :
    d.head v = d.alternative v.natAbs := by
  rw [Directive.head, Directive.sign, hs]
  rfl

theorem unsigned_fits (hs : d.specifier.isSigned = false) (hz : d.zeroFlag = false)
    (hv : integerValue D d.specifier d.length ap₁ = .ok (v, ap')) (hp : -1 ≤ d.precision.value)
    (hfit : (d.alternative v.natAbs).length + d.precision.value ≤ MAX_NUMBER_LEN) :
    d.IntegerFits v := by
  have hdigits := (d.digits_bounds hv).2
  rw [Directive.IntegerFits, hz, if_neg Bool.false_ne_true, unsigned_head hs]
  simp only [INT_MIN, MAX_NUMBER_LEN] at *
  omega

theorem alternative_text (hs : d.specifier.isSigned = false) (hz : d.zeroFlag = false) (v : ℤ) :
    d.integerText v = d.alternative v.natAbs ++ d.digitsAt d.precision.value v := by
  rw [unflagged_text hz, unsigned_head hs]

theorem alternative_hexPrefix (hk : d.specifier = .x ∨ d.specifier = .X) (halt : .alt ∈ d.flags) :
    d.alternative v.natAbs = hexPrefix d.specifier v := by
  rcases hk with hk | hk <;> by_cases hv : v = 0 <;>
    simp [Directive.alternative, hexPrefix, hk, halt, hv]

theorem prints_pad (hk : d.specifier.isInteger) (hstars : Passed D d.starArgs ap ap₁)
    (hv : integerValue D d.specifier d.length ap₁ = .ok (v, ap')) (hz : d.zeroFlag = false)
    (hfits : d.IntegerFits v) (hroom : ((d.integerBox v).full.length : ℤ) < INT_MAX) :
    Prints D strings d ap ap' (d.pad (d.integerText v)) := by
  have hbox := unflagged_box hz v
  have hwidth := (d.ranges hstars).1
  rw [hbox] at hroom
  have hfull : (d.integerBox v).full = d.pad (d.integerText v) := by
    rw [hbox]
    exact full_eq_padded (not_wrapped hwidth.1 hroom) hwidth.2
  rw [prints_integer_iff hk hstars hv]
  refine ⟨hfits, hfull.symm, ?_⟩
  rw [← hfull, hbox]
  exact hroom

theorem alternative_octal (hk : d.specifier = .o) (halt : .alt ∈ d.flags) (v : ℤ) :
    d.alternative v.natAbs = if v = 0 then [] else [byte '0'] := by
  by_cases hv : v = 0 <;> simp [Directive.alternative, hk, halt, hv]

theorem octal_text (hk : d.specifier = .o) (halt : .alt ∈ d.flags) (hz : d.zeroFlag = false)
    (v : ℤ) : d.integerText v =
      if v ≠ 0 ∧ d.precision.value ≤ (d.digits v).length then d.digitsAt ((d.digits v).length + 1) v
      else if v ≠ 0 then byte '0' :: d.digitsAt d.precision.value v
      else d.digitsAt d.precision.value v := by
  have hs : d.specifier.isSigned = false := by rw [hk]; rfl
  rw [alternative_text hs hz, alternative_octal hk halt]
  by_cases h0 : v = 0
  · simp [h0]
  · rw [if_neg h0, if_pos h0]
    split_ifs with hle
    · have hlow : (d.precision.value - (d.digits v).length).toNat = 0 := by omega
      simp [Directive.digitsAt, h0, hlow, zeros]
    · rfl

theorem octal_law (hk : d.specifier = .o) (hstars : Passed D d.starArgs ap ap₁)
    (hv : integerValue D d.specifier d.length ap₁ = .ok (v, ap')) (halt : .alt ∈ d.flags)
    (hz : d.zeroFlag = false) (hp : -1 ≤ d.precision.value)
    (hscratch : d.precision.value ≤ MAX_NUMBER_LEN)
    (hroom : ((d.integerBox v).full.length : ℤ) < INT_MAX)
    (hgood : (v ≠ 0 ∧ d.precision.value ≤ (d.digits v).length) ∨
      (v = 0 ∧ d.precision.value ≠ 0)) :
    AlternativeLaw D strings d ap ap₁ ap' v := by
  have hi : d.specifier.isInteger := by rw [hk]; rfl
  have hs : d.specifier.isSigned = false := by rw [hk]; rfl
  have hdigits := (d.digits_bounds hv).2
  have htext := octal_text hk halt hz v
  have hfits : d.IntegerFits v := by
    apply unsigned_fits hs hz hv hp
    rw [alternative_octal hk halt]
    simp only [MAX_NUMBER_LEN] at *
    split_ifs <;> simp only [List.length_nil, List.length_singleton] <;> omega
  have hprints : Prints D strings d ap ap' (d.pad (d.integerText v)) :=
    prints_pad hi hstars hv hz hfits hroom
  have halone {q : ℤ} {text : List UInt8} (hq : -1 ≤ q) (hfit : q ≤ MAX_NUMBER_LEN) :
      PrintsAlone D strings d ap₁ ap' q text ↔ text = d.digitsAt q v :=
    printsAlone_iff hi hs hv hq hfit
  rw [AlternativeLaw, if_pos hk]
  rcases hgood with ⟨h0, hle⟩ | ⟨h0, hne⟩
  · rw [if_pos ⟨h0, hle⟩] at htext
    rw [htext] at hprints
    have hfit : ((d.digits v).length + 1 : ℤ) ≤ MAX_NUMBER_LEN := by
      simp only [MAX_NUMBER_LEN]
      omega
    refine ⟨(d.digits v).length + 1, _, by omega, (halone (by omega) hfit).mpr rfl, ?_, ?_, hprints⟩
    · rw [leadingZero_digitsAt, if_neg h0]
      omega
    · intro r text' hr hlt htext'
      rw [(halone (by omega) (by omega)).mp htext', leadingZero_digitsAt, if_neg h0]
      omega
  · rw [if_neg (fun h => h.1 h0), if_neg (fun h => h h0)] at htext
    rw [htext] at hprints
    refine ⟨d.precision.value, _, le_rfl, (halone hp hscratch).mpr rfl, ?_, ?_, hprints⟩
    · rwa [leadingZero_digitsAt, if_pos h0]
    · intro r text' hr hlt
      omega

theorem octal_not_law (hk : d.specifier = .o) (hstars : Passed D d.starArgs ap ap₁)
    (hv : integerValue D d.specifier d.length ap₁ = .ok (v, ap')) (halt : .alt ∈ d.flags)
    (hz : d.zeroFlag = false) (hp : -1 ≤ d.precision.value)
    (hscratch : d.precision.value ≤ MAX_NUMBER_LEN)
    (hbad : ¬ ((v ≠ 0 ∧ d.precision.value ≤ (d.digits v).length) ∨
      (v = 0 ∧ d.precision.value ≠ 0))) :
    ¬ AlternativeLaw D strings d ap ap₁ ap' v := by
  have hi : d.specifier.isInteger := by rw [hk]; rfl
  have hs : d.specifier.isSigned = false := by rw [hk]; rfl
  rw [AlternativeLaw, if_pos hk]
  rintro ⟨q, text, hq, halone, hlead, hleast, hprints⟩
  have hcount : text.count (byte '0') = (d.integerText v).count (byte '0') := by
    have hfull := ((prints_integer_iff hi hstars hv).mp hprints).2.1
    rw [← padded_count d.leftFlag d.width.value text, ← Directive.pad, hfull, full_count]
    rfl
  rw [octal_text hk halt hz] at hcount
  by_cases h0 : v = 0
  · have hzero : d.precision.value = 0 := by
      by_contra hne
      exact hbad (.inr ⟨h0, hne⟩)
    rw [if_neg (fun h => h.1 h0), if_neg (fun h => h h0), Directive.digitsAt,
      if_pos ⟨h0, hzero⟩, List.count_nil, List.count_eq_zero] at hcount
    exact hcount (List.mem_of_head? hlead)
  · have hlt : (d.digits v).length < d.precision.value := by
      by_contra hle
      exact hbad (.inl ⟨h0, not_lt.mp hle⟩)
    have hprec : PrintsAlone D strings d ap₁ ap' d.precision.value
        (d.digitsAt d.precision.value v) := (printsAlone_iff hi hs hv hp hscratch).mpr rfl
    have heq : q = d.precision.value := by
      by_contra hne
      apply hleast _ _ le_rfl (by omega) hprec
      rwa [leadingZero_digitsAt, if_neg h0]
    rw [heq] at halone
    rw [(printsAlone_iff hi hs hv hp hscratch).mp halone, if_neg (fun h => by omega), if_pos h0,
      List.count_cons_self] at hcount
    omega

theorem alternativeLaw_iff (hk : d.specifier = .o ∨ d.specifier = .x ∨ d.specifier = .X)
    (hstars : Passed D d.starArgs ap ap₁)
    (hv : integerValue D d.specifier d.length ap₁ = .ok (v, ap')) (halt : .alt ∈ d.flags)
    (hz : d.zeroFlag = false) (hp : -1 ≤ d.precision.value)
    (hscratch : (hexPrefix d.specifier v).length + d.precision.value ≤ MAX_NUMBER_LEN)
    (hroom : ((d.integerBox v).full.length : ℤ) < INT_MAX) :
    AlternativeLaw D strings d ap ap₁ ap' v ↔ (d.specifier = .o →
      (v ≠ 0 ∧ d.precision.value ≤ (d.digits v).length) ∨
      (v = 0 ∧ d.precision.value ≠ 0)) := by
  by_cases ho : d.specifier = .o
  · have hfit : d.precision.value ≤ MAX_NUMBER_LEN := by
      rw [hexPrefix, if_pos (.inr ho)] at hscratch
      simpa using hscratch
    refine Iff.trans ?_ (forall_prop_of_true ho).symm
    by_cases hgood : (v ≠ 0 ∧ d.precision.value ≤ (d.digits v).length) ∨
        (v = 0 ∧ d.precision.value ≠ 0)
    · exact iff_of_true (octal_law ho hstars hv halt hz hp hfit hroom hgood) hgood
    · exact iff_of_false (octal_not_law ho hstars hv halt hz hp hfit hgood) hgood
  · refine iff_of_true ?_ (fun h => absurd h ho)
    have hx := hk.resolve_left ho
    have hi : d.specifier.isInteger := by rcases hx with h | h <;> rw [h] <;> rfl
    have hs : d.specifier.isSigned = false := by rcases hx with h | h <;> rw [h] <;> rfl
    have halternative := alternative_hexPrefix (v := v) hx halt
    have hfits : d.IntegerFits v := unsigned_fits hs hz hv hp (by rw [halternative]; exact hscratch)
    have hprints : Prints D strings d ap ap' (d.pad (d.integerText v)) :=
      prints_pad hi hstars hv hz hfits hroom
    rw [alternative_text hs hz, halternative] at hprints
    rw [AlternativeLaw, if_neg ho]
    exact ⟨_, (printsAlone_iff hi hs hv hp (by omega)).mpr rfl, hprints⟩

end Alternative

def octalFive : Directive := ⟨[.alt], .none, .literal ⟨[5], by decide⟩, .null, .o⟩

theorem octalFive_value :
    integerValue .lp64 octalFive.specifier octalFive.length (encode 8 8) = .ok (8, []) := by
  decide +kernel

theorem alternativeLaw_octalFive :
    AlternativeLaw .lp64 (fun _ => none) octalFive (encode 8 8) (encode 8 8) [] 8 ↔
      (octalFive.specifier = .o →
        ((8 : ℤ) ≠ 0 ∧ octalFive.precision.value ≤ (octalFive.digits 8).length) ∨
        ((8 : ℤ) = 0 ∧ octalFive.precision.value ≠ 0)) :=
  alternativeLaw_iff (.inl rfl) (.nil _) octalFive_value (by decide) rfl (by decide) (by decide)
    (by decide)

theorem not_alternativeLaw : ¬ ∀ (D : DataModel) (strings : Strings) (d : Directive)
    (ap ap₁ ap' : VaList) (v : ℤ), (d.specifier = .o ∨ d.specifier = .x ∨ d.specifier = .X) →
    Passed D d.starArgs ap ap₁ → integerValue D d.specifier d.length ap₁ = .ok (v, ap') →
    .alt ∈ d.flags → d.zeroFlag = false → -1 ≤ d.precision.value →
    (hexPrefix d.specifier v).length + d.precision.value ≤ MAX_NUMBER_LEN →
    ((d.integerBox v).full.length : ℤ) < INT_MAX → AlternativeLaw D strings d ap ap₁ ap' v := by
  intro h
  have hlaw := h .lp64 (fun _ => none) octalFive _ _ _ _ (.inl rfl) (.nil _) octalFive_value
    (by decide) rfl (by decide) (by decide) (by decide)
  exact octal_not_law rfl (.nil _) octalFive_value (by decide) rfl (by decide) (by decide)
    (by decide) hlaw

example : (octalFive.integerBox 8).full = bytes "000010" := by decide

end OsdevLibstdc.Vsnprintf
