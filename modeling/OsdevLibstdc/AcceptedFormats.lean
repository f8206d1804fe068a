import OsdevLibstdc.ParsedDirectives

/-!
What the loop accepts: a format is made of characters and directives of the grammar, and of
directives whose conversion the code does not know.
-/

namespace OsdevLibstdc.Vsnprintf

open Target Outcomes

inductive FormatItem
  | literal (c : UInt8)
  | directive (d : Directive)
  | unknown (d : Directive) (c : UInt8)

def FormatItem.text : FormatItem → List UInt8
  | literal c => [c]
  | directive d => byte '%' :: d.text
  | unknown d c => byte '%' :: (d.modifiers ++ [c])

/-- What is to be put for an item, and which arguments it takes: an int for each star, and then
those of the conversion. A conversion that is not known stands for itself. -/
inductive FormatItem.Means (D : DataModel) (strings : Strings) :
    FormatItem → VaList → Field → VaList → Prop
  | literal {c : UInt8} {ap : VaList} : c ≠ byte '%' →
      FormatItem.Means D strings (.literal c) ap (.literal c) ap
  | directive {d : Directive} {ap ap' ap'' : VaList} {conv : Conversion} {f : Field} :
      Passed D d.starArgs ap ap' →
      conversion (wrapping D) d.specifier.byte (clearZero d.spec) ap' = .ok (conv, ap'') →
      conv.field (wrapping D) strings = .ok f → FormatItem.Means D strings (.directive d) ap f ap''
  | unknown {d : Directive} {c : UInt8} {ap ap' : VaList} : specifierOf c = none → d.Ends c →
      Passed D d.starArgs ap ap' → FormatItem.Means D strings (.unknown d c) ap (.literal c) ap'

inductive Mean (D : DataModel) (strings : Strings) :
    List FormatItem → VaList → List Field → VaList → Prop
  | nil (ap : VaList) : Mean D strings [] ap [] ap
  | cons {item : FormatItem} {items : List FormatItem} {ap ap' rest : VaList} {f : Field}
      {fields : List Field} : item.Means D strings ap f ap' → Mean D strings items ap' fields rest →
      Mean D strings (item :: items) ap (f :: fields) rest

def NumeralsFit (fmt : Cursor) : Prop := ∀ s, s <:+ fmt → numeralAt s ≤ INT_MAX

instance (fmt : Cursor) : Decidable (NumeralsFit fmt) :=
  decidable_of_iff (∀ s ∈ fmt.tails, numeralAt s ≤ INT_MAX) (by simp only [List.mem_tails]; rfl)

section Items

variable {D : DataModel} {strings : Strings} {fmt fmt' : Cursor} {ap ap' rest : VaList} {f : Field}
  {fields : List Field} {item : FormatItem} {items : List FormatItem}

theorem NumeralsFit.suffix (h : NumeralsFit fmt) (hs : fmt' <:+ fmt) : NumeralsFit fmt' :=
  fun _ hs' => h _ (hs'.trans hs)

theorem NumeralsFit.parsed (h : NumeralsFit fmt) (ap : VaList) : ParsedFits D fmt ap := by
  intro flags fmt' hscan
  have hsuffix := scanFlags_suffix hscan
  refine ⟨h _ hsuffix, ?_⟩
  intro p hp str hstr
  apply h
  have hdot : str <:+ byte '.' :: str := List.suffix_cons _ _
  rw [← hstr] at hdot
  exact hdot.trans ((parseFieldWidth_suffix hp).trans hsuffix)

theorem byte_of_specifierOf {c : UInt8} {k : Specifier} (h : specifierOf c = some k) :
    c = k.byte := by
  have hfound := List.find?_some h
  exact (of_decide_eq_true hfound).symm

theorem nextField_accepts (hfit : NumeralsFit fmt)
    (h : nextField (wrapping D) strings fmt ap = .ok (f, ap', fmt')) :
    ∃ item : FormatItem, fmt = item.text ++ fmt' ∧ item.Means D strings ap f ap' := by
  obtain ⟨⟨conv, ap₁, fmt₁⟩, hnext, h⟩ := bind_eq_ok.mp h
  obtain ⟨g, hfield, h⟩ := bind_eq_ok.mp h
  obtain ⟨rfl, hrest⟩ := Prod.mk.inj (Except.ok.inj h)
  obtain ⟨rfl, rfl⟩ := Prod.mk.inj hrest
  obtain ⟨c, hc, hnext⟩ := bind_eq_ok.mp hnext
  have hfmt := deref_eq_ok hc
  split_ifs at hnext with hpercent
  · obtain ⟨p, hparse, hnext⟩ := bind_eq_ok.mp hnext
    obtain ⟨r, hsize, hnext⟩ := bind_eq_ok.mp hnext
    obtain ⟨k, hk, hnext⟩ := bind_eq_ok.mp hnext
    obtain ⟨q, hconv, hnext⟩ := bind_eq_ok.mp hnext
    obtain ⟨rfl, hrest⟩ := Prod.mk.inj (Except.ok.inj hnext)
    obtain ⟨rfl, rfl⟩ := Prod.mk.inj hrest
    have hchecks := parseFlagsFwPrecision_checks (D := D) fmt.tail ap
    rw [← hchecks.pass ((hfit.suffix (List.tail_suffix fmt)).parsed ap)] at hparse
    have hparses : Parses (trapping D) {} fmt.tail ap r.1 r.2 p.ap := ⟨p, hparse, rfl, hsize⟩
    have hr := deref_eq_ok hk
    rw [hr] at hparses
    cases hs : specifierOf k with
    | some k' =>
      obtain ⟨d, rfl, hd, -, hspec, hargs⟩ := parses_accepts k' hparses
      obtain rfl := byte_of_specifierOf hs
      rw [hspec] at hconv
      refine ⟨.directive d, ?_, .directive hargs hconv hfield⟩
      rw [hfmt, hpercent, hd]
      simp [FormatItem.text, Directive.text, Directive.modifiers]
    | none =>
      obtain ⟨d, -, hd, hends, hspec, hargs⟩ := parses_accepts .percent hparses
      have hlit : q = (.literal k, p.ap) := by
        simp only [conversion, hs] at hconv
        exact (Except.ok.inj hconv).symm
      subst hlit
      obtain rfl := Except.ok.inj hfield
      refine ⟨.unknown d k, ?_, .unknown hs hends hargs⟩
      rw [hfmt, hpercent, hd]
      simp [FormatItem.text]
  · obtain ⟨rfl, hrest⟩ := Prod.mk.inj (Except.ok.inj hnext)
    obtain ⟨rfl, rfl⟩ := Prod.mk.inj hrest
    obtain rfl := Except.ok.inj hfield
    exact ⟨.literal c, hfmt, .literal hpercent⟩

theorem nextField_means (h : item.Means D strings ap f ap') (more : Cursor) :
    nextField (wrapping D) strings (item.text ++ more) ap = .ok (f, ap', more) := by
  cases h with
  | literal hc =>
    simp only [FormatItem.text, nextField, nextConversion, List.singleton_append, deref, ok_bind,
      if_neg hc, List.tail_cons]
    rfl
  | @directive d ap ap₁ ap' conv f hargs hconv hfield =>
    have hread : nextField (wrapping D) strings (byte '%' :: (d.text ++ more)) ap = _ :=
      nextField_text d more hargs
    refine hread.trans ?_
    rw [hconv, ok_bind, hfield]
    rfl
  | @unknown d c ap ap' hc hends hargs =>
    obtain ⟨p, hp, rfl, hsize⟩ := parses_ends (T := wrapping D) hends more hargs
    have hconv : conversion (wrapping D) c (clearZero d.spec) p.ap = .ok (.literal c, p.ap) := by
      simp only [conversion, hc]
    have htext : (FormatItem.unknown d c).text ++ more = byte '%' :: (d.modifiers ++ c :: more) := by
      simp [FormatItem.text]
    rw [htext]
    simp only [nextField, nextConversion, deref, ok_bind, ↓reduceIte, List.tail_cons, directive,
      hp, hsize, hconv]
    rfl

theorem reads_accepts (h : Reads (wrapping D) strings fmt ap fields fmt' rest)
    (hfit : NumeralsFit fmt) :
    ∃ items, fmt = items.flatMap FormatItem.text ++ fmt' ∧ Mean D strings items ap fields rest := by
  induction h with
  | done => exact ⟨[], rfl, .nil _⟩
  | field hc hf _ ih =>
    obtain ⟨item, htext, hmeans⟩ := nextField_accepts hfit hf
    obtain ⟨items, htexts, hmean⟩ := ih (hfit.suffix (nextField_suffix hf))
    refine ⟨item :: items, ?_, .cons hmeans hmean⟩
    rw [htext, htexts, List.flatMap_cons, List.append_assoc]

theorem mean_reads (h : Mean D strings items ap fields rest)
    (h0 : 0 ∉ items.flatMap FormatItem.text) :
    Reads (wrapping D) strings (items.flatMap FormatItem.text) ap fields [] rest := by
  induction h with
  | nil => exact .done _ _
  | @cons item items ap ap' rest f fields hmeans _ ih =>
    rw [List.flatMap_cons, List.mem_append, not_or] at h0
    have hread : nextField (wrapping D) strings (item.text ++ items.flatMap FormatItem.text) ap = _ :=
      nextField_means hmeans _
    obtain ⟨b, bs, hb⟩ : ∃ b bs, item.text = b :: bs := by
      cases item <;> exact ⟨_, _, rfl⟩
    rw [hb] at h0 hread
    rw [List.flatMap_cons, hb]
    refine .field ?_ hread (ih h0.2)
    rintro rfl
    exact h0.1 List.mem_cons_self

end Items

theorem fieldsOf_iff_items {D : DataModel} {strings : Strings} {fmt : CString} {ap rest : VaList}
    {fields : List Field} (hfit : NumeralsFit fmt.val) :
    FieldsOf (wrapping D) strings fmt ap fields rest ↔
      ∃ items, fmt.val = items.flatMap FormatItem.text ∧ Mean D strings items ap fields rest := by
  constructor
  · intro h
    obtain ⟨items, htext, hmean⟩ := reads_accepts h hfit
    rw [List.append_nil] at htext
    exact ⟨items, htext, hmean⟩
  · rintro ⟨items, htext, hmean⟩
    have h0 := fmt.property
    rw [htext] at h0
    rw [FieldsOf, htext]
    exact mean_reads hmean h0

def unknownFirst : CString := ⟨byte '%' :: (bytes "-5q" ++ byte '%' :: bytes "d"), by decide⟩

theorem fieldsOf_iff_items_unknownFirst :
    ∃ items, unknownFirst.val = items.flatMap FormatItem.text ∧
      Mean .lp64 (fun _ => none) items (LittleEndian.encode 8 7)
        [.literal (byte 'q'), .padded ⟨false, -1, bytes "7"⟩] [] := by
  have hunknown : nextField (wrapping .lp64) (fun _ => none) unknownFirst.val
      (LittleEndian.encode 8 7) = .ok (.literal (byte 'q'), LittleEndian.encode 8 7,
        byte '%' :: bytes "d") := by
    decide +kernel
  have hnumber : nextField (wrapping .lp64) (fun _ => none) (byte '%' :: bytes "d")
      (LittleEndian.encode 8 7) = .ok (.padded ⟨false, -1, bytes "7"⟩, [], []) := by
    decide +kernel
  apply (fieldsOf_iff_items (by decide +kernel)).mp
  exact .field (by decide) hunknown (.field (by decide) hnumber (.done _ _))

end OsdevLibstdc.Vsnprintf
