import OsdevLibstdc.MatchedArguments
import OsdevLibstdc.PrintedStrings
import OsdevLibstdc.StarArguments

/-!
Formats that `snprintf` prints: the widths and precisions that a format takes from its arguments are
written into it first, by `%d`, and then it is passed to `snprintf` itself.
-/

namespace OsdevLibstdc.Printf

open ByteMemory Target Outcomes Vsnprintf

def Part.shown : Part → List UInt8
  | char c => [c]
  | string _ => []
  | number v => decimalText v

def chars (text : List UInt8) : List Part := text.map .char

def widthParts : Width → List Part
  | .star w => [.number w]
  | w => chars w.text

def precisionParts : Precision → List Part
  | .star p => [.char (byte '.'), .number p]
  | p => chars p.text

def itemParts : Item → List Part
  | .directive d _ => chars (byte '%' :: d.flags.map Flag.byte) ++ (widthParts d.width ++
      (precisionParts d.precision ++ chars (d.length.text ++ [d.specifier.byte])))
  | item => chars item.text

def generating (items : List Item) : List Part := items.flatMap itemParts

def generated (items : List Item) : List UInt8 := (generating items).flatMap Part.shown

def itemStars : Item → List Argument
  | .literal _ _ => []
  | .directive d _ => d.starArgs

def itemValues : Item → List Argument
  | .literal _ _ => []
  | .directive d value => (designated d.specifier d.length).toList.map fun ty => ⟨ty, value⟩

def starsOf (items : List Item) : List Argument := items.flatMap itemStars

def valuesOf (items : List Item) : List Argument := items.flatMap itemValues

def Writable : Item → Prop
  | .literal _ _ => True
  | .directive d _ => ¬ d.width.Negative ∧ ¬ d.width.Zero ∧ ¬ d.precision.Omitted

section Parts

variable {parts : List Part} {text : List UInt8}

theorem chars_shown (text : List UInt8) : (chars text).flatMap Part.shown = text := by
  induction text with
  | nil => rfl
  | cons c text ih =>
    rw [chars, List.map_cons, List.flatMap_cons, ← chars, ih]
    rfl

theorem chars_args (text : List UInt8) : argsOf (chars text) = [] := by
  induction text with
  | nil => rfl
  | cons c text ih => exact ih

theorem argsOf_append (parts parts' : List Part) :
    argsOf (parts ++ parts') = argsOf parts ++ argsOf parts' := List.flatMap_append

theorem itemParts_args (item : Item) : argsOf (itemParts item) = itemStars item := by
  cases item with
  | literal c => exact chars_args _
  | directive d =>
    have hwidth : argsOf (widthParts d.width) = d.width.args := by
      cases d.width with
      | star w => rfl
      | _ => exact chars_args _
    have hprecision : argsOf (precisionParts d.precision) = d.precision.args := by
      cases d.precision with
      | star p => rfl
      | _ => exact chars_args _
    simp only [itemParts, argsOf_append, chars_args, hwidth, hprecision, List.nil_append,
      List.append_nil]
    rfl

theorem generating_args (items : List Item) : argsOf (generating items) = starsOf items := by
  induction items with
  | nil => rfl
  | cons item items ih =>
    rw [generating, List.flatMap_cons, argsOf_append, itemParts_args, ← generating, ih]
    rfl

theorem shows_shown {strings : Strings} (hs : ∀ p, .string p ∉ parts) (h0 : 0 ∉ formatOf parts) :
    Shows strings parts (parts.flatMap Part.shown) := by
  induction parts with
  | nil => exact .nil
  | cons part parts ih =>
    rw [formatOf, List.flatMap_cons, List.mem_append, not_or] at h0
    have hrest := ih (fun p hp => hs p (List.mem_cons_of_mem _ hp)) h0.2
    rw [List.flatMap_cons]
    cases part with
    | string p => exact absurd List.mem_cons_self (hs p)
    | number v => exact .number hrest
    | char c =>
      refine .char ?_ hrest
      rintro rfl
      exact h0.1 (by decide)

theorem generating_strings (items : List Item) (p : ℕ) : .string p ∉ generating items := by
  have hchars {text : List UInt8} : .string p ∉ chars text := by simp [chars]
  intro h
  obtain ⟨item, -, hp⟩ := List.mem_flatMap.mp h
  cases item with
  | literal => exact hchars hp
  | directive d =>
    simp only [itemParts, List.mem_append, hchars, false_or, or_false] at hp
    rcases hp with hp | hp
    · cases hd : d.width with
      | star w => simp [hd, widthParts] at hp
      | _ => exact hchars (by rwa [hd] at hp)
    · cases hd : d.precision with
      | star w => simp [hd, precisionParts] at hp
      | _ => exact hchars (by rwa [hd] at hp)

end Parts

section Numerals

theorem digitsText_decimal (n : ℕ) : digitsText false 10 n = (decimalDigits n).map digit := by
  have hdigit : ∀ d : Fin 10, digitChar false d.val = digit d := by decide
  rw [digitsText, ← decimalDigits_val, List.map_map]
  exact List.map_congr_left fun d _ => hdigit d

theorem decimalText_nonneg {v : ℤ} (hv : 0 ≤ v) :
    decimalText v = (decimalDigits v.toNat).map digit := by
  have habs : v.natAbs = v.toNat := by omega
  rw [decimalText_eq, if_neg (not_lt.mpr hv), List.nil_append, habs, digitsText_decimal]

theorem exists_width {w : Width} (hn : ¬ w.Negative) (h0 : ¬ w.Zero) (hmax : w.value ≤ INT_MAX) :
    ∃ u : Width, u.args = [] ∧ u.value = w.value ∧ u.text = (widthParts w).flatMap Part.shown := by
  cases w with
  | none => exact ⟨.none, rfl, rfl, rfl⟩
  | literal n h => exact ⟨.literal n h, rfl, rfl, (chars_shown _).symm⟩
  | star w =>
    simp only [Width.Negative, Width.Zero, Width.value] at hn h0 hmax
    have hdecimal : (decimal (decimalDigits w.toNat) : ℤ) = w := by
      rw [decimal_decimalDigits, Int.toNat_of_nonneg (by omega)]
    refine ⟨.literal ⟨decimalDigits w.toNat, hdecimal.trans_le hmax⟩ ?_, rfl, hdecimal, ?_⟩
    · exact decimalDigits_head (by omega)
    · exact (decimalText_nonneg (by omega)).symm.trans (List.append_nil _).symm

theorem exists_precision {p : Precision} (ho : ¬ p.Omitted) (hmax : p.value ≤ INT_MAX) :
    ∃ q : Precision, q.args = [] ∧ q.value = p.value ∧ q.isNone = p.isNone ∧
      q.text = (precisionParts p).flatMap Part.shown := by
  cases p with
  | none => exact ⟨.none, rfl, rfl, rfl, rfl⟩
  | literal n => exact ⟨.literal n, rfl, rfl, rfl, (chars_shown _).symm⟩
  | negative ds => exact ⟨.negative ds, rfl, rfl, rfl, (chars_shown _).symm⟩
  | star p =>
    simp only [Precision.Omitted, Precision.value, not_lt] at ho hmax
    have hdecimal : (decimal (decimalDigits p.toNat) : ℤ) = p := by
      rw [decimal_decimalDigits, Int.toNat_of_nonneg ho]
    refine ⟨.literal ⟨decimalDigits p.toNat, hdecimal.trans_le hmax⟩, rfl, hdecimal, rfl, ?_⟩
    have htext : (precisionParts (.star p)).flatMap Part.shown = byte '.' :: decimalText p :=
      congrArg _ (List.append_nil _)
    rw [htext, decimalText_nonneg ho]
    rfl

end Numerals

section Items

variable {D : DataModel}

structure Specializes (D : DataModel) (item e : Item) : Prop where
  text : e.text = (itemParts item).flatMap Part.shown
  args : e.args = itemValues item
  mismatched : e.mismatched = item.mismatched
  field : ∀ strings, e.field D strings = item.field D strings

theorem exists_specialized {item : Item} {stars rest : VaList} (hw : Writable item)
    (hs : Passed D (itemStars item) stars rest) : ∃ e, Specializes D item e := by
  cases item with
  | literal c hc => exact ⟨.literal c hc, (chars_shown _).symm, rfl, rfl, fun strings => rfl⟩
  | directive d value =>
    obtain ⟨hn, h0, ho⟩ := hw
    obtain ⟨⟨-, hwmax⟩, -, hpmax⟩ := d.ranges hs
    obtain ⟨u, huargs, huvalue, hutext⟩ := exists_width hn h0 hwmax
    obtain ⟨q, hqargs, hqvalue, hqnone, hqtext⟩ := exists_precision ho hpmax
    have hspec : Directive.spec ⟨d.flags, u, q, d.length, d.specifier⟩ = d.spec := by
      simp only [Directive.spec, huvalue, hqvalue, hqnone]
    refine ⟨.directive ⟨d.flags, u, q, d.length, d.specifier⟩ value, ?_, ?_, rfl, ?_⟩
    · simp only [Item.text, Directive.text, itemParts, List.flatMap_append, chars_shown, ← hutext,
        ← hqtext, List.cons_append]
    · rw [Item.args, Directive.starArgs, huargs, hqargs]
      rfl
    · intro strings
      rw [Item.field, hspec]
      rfl

theorem exists_items {items : List Item} {stars rest : VaList} (hw : ∀ item ∈ items, Writable item)
    (hs : Passed D (starsOf items) stars rest) :
    ∃ es : List Item, text es = generated items ∧ args es = valuesOf items ∧
      (Matched D items → Matched D es) ∧
      ∀ strings fields, FieldsAre D strings items fields → FieldsAre D strings es fields := by
  induction items generalizing stars with
  | nil => exact ⟨[], rfl, rfl, id, fun strings fields h => h⟩
  | cons item items ih =>
    obtain ⟨hitem, hrest⟩ := List.forall_mem_cons.mp hw
    rw [starsOf, List.flatMap_cons] at hs
    obtain ⟨stars', hhead, htail⟩ := passed_append.mp hs
    obtain ⟨e, he⟩ := exists_specialized hitem hhead
    obtain ⟨es, htext, hargs, hmatched, hes⟩ := ih hrest htail
    refine ⟨e :: es, ?_, ?_, ?_, ?_⟩
    · rw [text, List.flatMap_cons, he.text, ← text, htext]
      exact List.flatMap_append.symm
    · rw [args, List.flatMap_cons, he.args, ← args, hargs]
      rfl
    · intro hm
      obtain ⟨hone, hm⟩ := matched_cons.mp hm
      rw [← he.mismatched] at hone
      exact matched_cons.mpr ⟨hone, hmatched hm⟩
    · intro strings fields hfields
      cases hfields with
      | cons hfield hfields =>
        rw [← he.field] at hfield
        exact .cons hfield (hes _ _ hfields)

end Items

section Call

variable {D : DataModel} {m : Ram}

theorem snprintfAt_congr {buffer size fmt fmt' : ℕ} {f g : CString} {ap ap' rest rest' : VaList}
    {fields : List Field} (h1 : 1 ≤ size) (hmax : (size : ℤ) < INT_MAX)
    (hfmt : stringsOutside m buffer size fmt = some f)
    (hfmt' : stringsOutside m buffer size fmt' = some g)
    (hf : FieldsOf (wrapping D) (stringsOutside m buffer size) f ap fields rest)
    (hg : FieldsOf (wrapping D) (stringsOutside m buffer size) g ap' fields rest') :
    snprintfAt (wrapping D) m buffer size fmt ap =
      snprintfAt (wrapping D) m buffer size fmt' ap' := by
  cases hput : putFields (size - 1 : ℤ) 0 fields {} with
  | error e =>
    have hf' := vsnprintf_put_error hf h1 hmax hput
    have hg' := vsnprintf_put_error hg h1 hmax hput
    simp only [snprintfAt, hfmt, hfmt', snprintf, hf', hg']
  | ok r =>
    obtain ⟨p, left⟩ := r
    obtain ⟨c, -, hf', -⟩ := vsnprintf_put hf h1 hmax hput
    obtain ⟨c', -, hg', -⟩ := vsnprintf_put hg h1 hmax hput
    simp only [snprintfAt, hfmt, hfmt', snprintf, hf', hg']
    rfl

theorem snprintf_generated {buf bufSize gen star : ℕ} {items : List Item}
    {ap stars values : VaList} (hap : Passed D (args items) ap [])
    (hstars : Passed D (starsOf items) stars []) (hvalues : Passed D (valuesOf items) values [])
    (hw : ∀ item ∈ items, Writable item)
    (hgen : m.IsString gen (formatOf (generating items)))
    (hgapart : gen + (formatOf (generating items)).length < buf ∨ buf + bufSize ≤ gen)
    (hstar : m.IsString star (text items))
    (hsapart : star + (text items).length < buf ∨ buf + bufSize ≤ star)
    (hlen : (generated items).length < bufSize) (hmax : (bufSize : ℤ) < INT_MAX)
    (hm : m.Mapped buf bufSize) :
    ∃ m₁, snprintfAt (wrapping D) m buf bufSize gen stars = .ok ((generated items).length, m₁) ∧
      m₁.IsString buf (generated items) ∧
      ∀ (buffer size : ℕ) (fields : List Field), 1 ≤ size → (size : ℤ) < INT_MAX →
        (buf + (generated items).length < buffer ∨ buffer + size ≤ buf) →
        (star + (text items).length < buffer ∨ buffer + size ≤ star) →
        Matched D items → FieldsAre D (stringsOutside m₁ buffer size) items fields →
        snprintfAt (wrapping D) m₁ buffer size buf values =
          snprintfAt (wrapping D) m₁ buffer size star ap := by
  have hshows : Shows (stringsOutside m buf bufSize) (generating items) (generated items) :=
    shows_shown (generating_strings items) hgen.no_nul
  have hparts : Passed D (argsOf (generating items)) stars [] := by
    rw [generating_args]
    exact hstars
  obtain ⟨m₁, hrun, hleaves⟩ := snprintfAt_shows hgen hgapart hshows hparts (by omega) hmax
    (hm.mono (Nat.min_le_left _ _)) fun _ _ => hlen
  rw [List.take_of_length_le (by omega)] at hrun hleaves
  refine ⟨m₁, hrun, hleaves.string, ?_⟩
  intro buffer size fields h1 hsize hbuf hstar' hmatched hfields
  have hstored := hstar.stored hleaves.stored (by omega)
  obtain ⟨es, htext, hargs, hes, hesfields⟩ := exists_items hw hstars
  rw [← hargs] at hvalues
  have hformat : format es = ⟨generated items, hleaves.string.no_nul⟩ := Subtype.ext htext
  have hread := fieldsOf_items (hes hmatched) hvalues (hesfields _ _ hfields)
  rw [hformat] at hread
  apply snprintfAt_congr h1 hsize (stringsOutside_string hleaves.string hbuf)
    (stringsOutside_string hstored hstar') hread
  exact fieldsOf_items hmatched hap hfields

end Call

def generatingMemory : Ram :=
  { cells := (255 :: bytes "%%%dd" ++ 0 :: bytes "%*d" ++ 0 :: List.replicate 12 255).map some }

def starFive : List Item := [.directive ⟨[], .star 5, .none, .null, .d⟩ 7]

theorem snprintf_generated_five : ∃ m₁,
    snprintfAt (wrapping .lp64) generatingMemory 11 4 1 (LittleEndian.encode 8 5 ++ []) =
        .ok (3, m₁) ∧ m₁.IsString 11 (bytes "%5d") ∧
      snprintfAt (wrapping .lp64) m₁ 15 8 11 (LittleEndian.encode 8 7 ++ []) =
        snprintfAt (wrapping .lp64) m₁ 15 8 7
          (LittleEndian.encode 8 5 ++ (LittleEndian.encode 8 7 ++ [])) := by
  have hap : Passed .lp64 (args starFive)
      (LittleEndian.encode 8 5 ++ (LittleEndian.encode 8 7 ++ [])) [] :=
    .cons (by decide) (.cons (by decide) (.nil []))
  have hstars : Passed .lp64 (starsOf starFive) (LittleEndian.encode 8 5 ++ []) [] :=
    .cons (by decide) (.nil [])
  have hvalues : Passed .lp64 (valuesOf starFive) (LittleEndian.encode 8 7 ++ []) [] :=
    .cons (by decide) (.nil [])
  have hw : ∀ item ∈ starFive, Writable item := by
    intro item hitem
    rw [List.mem_singleton.mp hitem]
    exact ⟨(by decide : ¬ (5 : ℤ) < 0), (by decide : (5 : ℤ) ≠ 0), id⟩
  have hgen : generatingMemory.IsString 1 (formatOf (generating starFive)) := by decide
  have hstar : generatingMemory.IsString 7 (text starFive) := by decide
  have hm : generatingMemory.Mapped 11 4 := by decide
  obtain ⟨m₁, hrun, hstring, hcalls⟩ := snprintf_generated hap hstars hvalues hw hgen
    (.inl (by decide)) hstar (.inl (by decide)) (by decide) (by decide) hm
  refine ⟨m₁, hrun, hstring, ?_⟩
  apply hcalls 15 8 [.padded ⟨false, 5, bytes "7"⟩] (by decide) (by decide) (by decide)
    (by decide) (.inl rfl)
  have hfield : ∀ strings : Strings, Item.field .lp64 strings
      (.directive ⟨[], .star 5, .none, .null, .d⟩ 7) = .ok (.padded ⟨false, 5, bytes "7"⟩) := by
    intro strings
    rfl
  exact .cons (hfield _) .nil

end OsdevLibstdc.Printf
