import Mathlib.Data.List.Forall2
import OsdevLibstdc.ArgumentSync
import OsdevLibstdc.PrintedFields

/-!
The fields of a format whose arguments are of the types that it designates. They are those that the
loop reads where every directive fetches what it is passed; where one does not, the loop cannot read
the format to its end within the arguments.
-/

namespace OsdevLibstdc.Vsnprintf

open Target LittleEndian Outcomes

section Values

variable {D : DataModel} {spec : FormatSpec} {len : LengthSpec} {ty : CType} {v : ℤ}
  {ap ap' rest rest' : VaList}

theorem narrowed_same (signed : Bool) (h : vaArg D ty ap = .ok (v, rest)) :
    (vaArg D ty ap >>= fun r => (pure (narrow signed r.1, r.2) : Except Fault (ℤ × VaList))) =
      .ok (narrow signed v, rest) := by
  rw [h, ok_bind, pure_eq]

theorem signedValue_same (hty : fetched .d len = some ty) (h : vaArg D ty ap = .ok (v, rest))
    (h' : vaArg D ty ap' = .ok (v, rest')) :
    ∃ w, signedValue D len ap = .ok (w, rest) ∧ signedValue D len ap' = .ok (w, rest') := by
  cases len
  case hh =>
    cases hty
    exact ⟨narrow true v, narrowed_same true h, narrowed_same true h'⟩
  all_goals
    cases hty
    exact ⟨v, h, h'⟩

theorem readUnsignedNumber_same (hty : fetched .p len = some ty)
    (h : vaArg D ty ap = .ok (v, rest)) (h' : vaArg D ty ap' = .ok (v, rest')) :
    ∃ w, readUnsignedNumber D len ap = .ok (w, rest) ∧
      readUnsignedNumber D len ap' = .ok (w, rest') := by
  cases len
  case hh =>
    cases hty
    exact ⟨narrow false v, narrowed_same false h, narrowed_same false h'⟩
  all_goals
    cases hty
    exact ⟨v, h, h'⟩

theorem unsignedValue_same (hty : fetched .u len = some ty) (h : vaArg D ty ap = .ok (v, rest))
    (h' : vaArg D ty ap' = .ok (v, rest')) :
    ∃ w, unsignedValue D len ap = .ok (w, rest) ∧ unsignedValue D len ap' = .ok (w, rest') := by
  by_cases hnull : len = .null
  · subst hnull
    cases hty
    exact ⟨v, h, h'⟩
  · have hp : fetched .p len = some ty := by
      rw [← hty]
      cases len <;> first | rfl | exact absurd rfl hnull
    simp only [unsignedValue, if_neg hnull]
    exact readUnsignedNumber_same hp h h'

theorem signedArgument_same (hty : fetched .d spec.lengthSpec = some ty)
    (h : vaArg D ty ap = .ok (v, rest)) (h' : vaArg D ty ap' = .ok (v, rest')) :
    ∃ s n, signedArgument (wrapping D) spec ap = .ok (s, n, rest) ∧
      signedArgument (wrapping D) spec ap' = .ok (s, n, rest') := by
  obtain ⟨w, hw, hw'⟩ := signedValue_same hty h h'
  simp only [signedArgument, hw, hw', ok_bind, Machine.arith]
  split_ifs
  · exact ⟨_, _, rfl, rfl⟩
  · exact ⟨_, _, rfl, rfl⟩

theorem unsignedArgument_same (hty : fetched .u spec.lengthSpec = some ty)
    (h : vaArg D ty ap = .ok (v, rest)) (h' : vaArg D ty ap' = .ok (v, rest')) :
    ∃ s n, unsignedArgument D spec ap = .ok (s, n, rest) ∧
      unsignedArgument D spec ap' = .ok (s, n, rest') := by
  obtain ⟨w, hw, hw'⟩ := unsignedValue_same hty h h'
  simp only [unsignedArgument, hw, hw', ok_bind]
  exact ⟨_, _, rfl, rfl⟩

theorem number_same {x x' : Except Fault (FormatSpec × ℕ × VaList)}
    (h : ∃ s n, x = .ok (s, n, rest) ∧ x' = .ok (s, n, rest')) :
    ∃ conv, (x >>= fun r =>
        (pure (Conversion.number r.1 r.2.1, r.2.2) : Except Fault (Conversion × VaList))) =
          .ok (conv, rest) ∧
      (x' >>= fun r =>
        (pure (Conversion.number r.1 r.2.1, r.2.2) : Except Fault (Conversion × VaList))) =
          .ok (conv, rest') := by
  obtain ⟨s, n, rfl, rfl⟩ := h
  exact ⟨_, rfl, rfl⟩

theorem value_same (f : ℤ → Conversion) (h : vaArg D ty ap = .ok (v, rest))
    (h' : vaArg D ty ap' = .ok (v, rest')) :
    ∃ conv, (vaArg D ty ap >>= fun r =>
        (pure (f r.1, r.2) : Except Fault (Conversion × VaList))) = .ok (conv, rest) ∧
      (vaArg D ty ap' >>= fun r =>
        (pure (f r.1, r.2) : Except Fault (Conversion × VaList))) = .ok (conv, rest') := by
  rw [h, h']
  exact ⟨_, rfl, rfl⟩

theorem conversion_same (k : Specifier) (hty : fetched k spec.lengthSpec = some ty)
    (h : vaArg D ty ap = .ok (v, rest)) (h' : vaArg D ty ap' = .ok (v, rest')) :
    ∃ conv, conversion (wrapping D) k.byte spec ap = .ok (conv, rest) ∧
      conversion (wrapping D) k.byte spec ap' = .ok (conv, rest') := by
  unfold conversion
  rw [specifierOf_byte]
  cases k
  case d => exact number_same (signedArgument_same hty h h')
  case i => exact number_same (signedArgument_same hty h h')
  case u => exact number_same (unsignedArgument_same hty h h')
  case o => exact number_same (unsignedArgument_same hty h h')
  case X => exact number_same (unsignedArgument_same hty h h')
  case x => exact number_same (unsignedArgument_same hty h h')
  case p =>
    obtain ⟨w, hw, hw'⟩ := readUnsignedNumber_same hty h h'
    simp only [hw, hw', ok_bind]
    split_ifs
    · exact ⟨_, rfl, rfl⟩
    · exact ⟨_, rfl, rfl⟩
  case n =>
    cases hty
    exact value_same .count h h'
  case c =>
    cases hty
    exact value_same (fun v => .char spec (UInt8.ofInt v)) h h'
  case s =>
    cases hty
    exact value_same (.string spec) h h'
  case percent => cases hty

end Values

section Fields

/-- What is to be put for an item: for a directive, what the code makes of the value where it is
passed in the width that `va_arg` fetches. -/
def Item.field (D : DataModel) (strings : Strings) : Item → Except Fault Field
  | .literal c _ => .ok (.literal c)
  | .directive d value => do
    let fetch := width D (fetched d.specifier d.length)
    let passed := encode fetch (value % 256 ^ fetch).toNat
    let (conv, _) ← conversion (wrapping D) d.specifier.byte (clearZero d.spec) passed
    conv.field (wrapping D) strings

def FieldsAre (D : DataModel) (strings : Strings) (items : List Item) (fields : List Field) :
    Prop :=
  List.Forall₂ (fun item f => item.field D strings = .ok f) items fields

/-- Every item fetches as many slots as its arguments take up. -/
def Matched (D : DataModel) (items : List Item) : Prop :=
  D = .lp64 ∨ ∀ item ∈ items, item.mismatched = false

variable {D : DataModel} {strings : Strings} {ap rest : VaList} {others : List Argument}

theorem matched_cons {item : Item} {items : List Item} :
    Matched D (item :: items) ↔ (D = .lp64 ∨ item.mismatched = false) ∧ Matched D items := by
  unfold Matched
  rw [List.forall_mem_cons, or_and_left]

theorem matched_append {items items' : List Item} :
    Matched D (items ++ items') ↔ Matched D items ∧ Matched D items' := by
  unfold Matched
  rw [List.forall_mem_append, or_and_left]

theorem sizeof_fetched : ∀ (D : DataModel) (k : Specifier) (len : LengthSpec),
    D = .lp64 ∨ mismatched k len = false → ∀ ty ∈ fetched k len, ∃ ty' ∈ designated k len,
      ty.slot D = ty'.slot D ∧ ty.sizeof D ≤ ty'.sizeof D := by
  intro D k len
  cases D <;> cases k <;> cases len <;> simp [fetched, designated, mismatched] <;> decide

theorem vaArg_encode {ty : CType} (value : ℤ) :
    vaArg D ty (encode (ty.slot D) (value % 256 ^ ty.slot D).toNat) =
      .ok (ty.convert D value, []) := by
  have hl := encode_length (ty.slot D) (value % 256 ^ ty.slot D).toNat
  have hv := (Argument.occupies_encode D ty (value % 256 ^ ty.slot D).toNat).2
  have hmod : value % 256 ^ ty.slot D ≡ value [ZMOD 256 ^ ty.sizeof D] :=
    (Int.mod_modEq value _).of_dvd (pow_dvd_pow 256 (sizeof_le_slot D ty))
  have hpos : (256 ^ ty.slot D : ℤ) ≠ 0 := by positivity
  rw [vaArg, if_neg (by omega), hv, List.drop_eq_nil_of_le hl.le,
    Int.toNat_of_nonneg (Int.emod_nonneg value hpos), convert_congr hmod]

theorem conversion_passed {k : Specifier} {spec : FormatSpec} {value : ℤ}
    (hm : D = .lp64 ∨ mismatched k spec.lengthSpec = false)
    (h : Passed D (((designated k spec.lengthSpec).toList.map fun ty => ⟨ty, value⟩) ++ others) ap
      rest) :
    ∃ conv ap' left, conversion (wrapping D) k.byte spec ap = .ok (conv, ap') ∧
      conversion (wrapping D) k.byte spec
        (encode (width D (fetched k spec.lengthSpec))
          (value % 256 ^ width D (fetched k spec.lengthSpec)).toNat) = .ok (conv, left) ∧
      Passed D others ap' rest := by
  have hsame := (width_fetched D k spec.lengthSpec).mpr hm
  cases hty : fetched k spec.lengthSpec with
  | none =>
    have hpercent : k = .percent := by cases k <;> first | rfl | cases hty
    subst hpercent
    exact ⟨_, ap, _, rfl, rfl, h⟩
  | some ty =>
    obtain ⟨ty', hty', hslot, hsize⟩ := sizeof_fetched D k spec.lengthSpec hm ty hty
    rw [Option.mem_def.mp hty'] at h
    obtain ⟨ap', hv, hrest⟩ := Passed.vaArg_as hslot hsize h
    obtain ⟨conv, hconv, hconv'⟩ := conversion_same k hty hv (vaArg_encode value)
    exact ⟨conv, ap', [], hconv, hconv', hrest⟩

theorem nextField_passed {item : Item} {f : Field} (hm : D = .lp64 ∨ item.mismatched = false)
    (hap : Passed D (item.args ++ others) ap rest) (hf : item.field D strings = .ok f)
    (more : Cursor) :
    ∃ ap', nextField (wrapping D) strings (item.text ++ more) ap = .ok (f, ap', more) ∧
      Passed D others ap' rest := by
  cases item with
  | literal c hc =>
    cases hf
    refine ⟨ap, ?_, hap⟩
    simp only [nextField, nextConversion, Item.text, List.cons_append, List.nil_append, deref,
      ok_bind, if_neg hc.2]
    rfl
  | directive d value =>
    rw [Item.args, List.append_assoc] at hap
    obtain ⟨ap₁, hstars, hvalue⟩ := passed_append.mp hap
    have hlength : (clearZero d.spec).lengthSpec = d.length := clearZero_lengthSpec d.spec
    have hmatched : D = .lp64 ∨ mismatched d.specifier (clearZero d.spec).lengthSpec = false := by
      rw [hlength]
      exact hm
    rw [Item.field, ← hlength] at hf
    rw [← hlength] at hvalue
    obtain ⟨conv, ap', left, hconv, hconv', hrest⟩ := conversion_passed hmatched hvalue
    rw [hconv', ok_bind] at hf
    have hfield : conv.field (wrapping D) strings = .ok f := hf
    refine ⟨ap', ?_, hrest⟩
    rw [Item.text, List.cons_append, nextField_text d more hstars, hconv, ok_bind, hfield, ok_bind]

theorem Item.exists_text (item : Item) : ∃ c cs, item.text = c :: cs ∧ c ≠ 0 := by
  cases item with
  | literal c hc => exact ⟨c, [], rfl, hc.1⟩
  | directive d value => exact ⟨byte '%', d.text, rfl, by decide⟩

theorem text_cons {item : Item} {c : UInt8} {cs : List UInt8} (hc : item.text = c :: cs)
    (items : List Item) (more : List UInt8) :
    text (item :: items) ++ more = c :: (cs ++ (text items ++ more)) := by
  rw [text, List.flatMap_cons, hc, List.append_assoc]
  rfl

theorem fieldsOf_items {items : List Item} {fields : List Field} (hm : Matched D items)
    (hap : Passed D (args items) ap rest) (hf : FieldsAre D strings items fields) :
    FieldsOf (wrapping D) strings (format items) ap fields rest := by
  have hreads : Reads (wrapping D) strings (text items) ap fields [] rest := by
    induction hf generalizing ap with
    | nil =>
      cases hap
      exact .done _ _
    | @cons item f items fields hitem _ ih =>
      obtain ⟨hhead, htail⟩ := matched_cons.mp hm
      obtain ⟨ap', hnext, hrest⟩ := nextField_passed hhead hap hitem (text items)
      obtain ⟨c, cs, hc, h0⟩ := item.exists_text
      have hcursor : text (item :: items) = c :: (cs ++ text items) := by
        rw [text, List.flatMap_cons, hc]
        rfl
      rw [hc, List.cons_append] at hnext
      rw [hcursor]
      exact .field h0 hnext (ih htail hrest)
  exact hreads

end Fields

section Taken

def Item.taken (D : DataModel) : Item → ℕ
  | .literal _ _ => 0
  | .directive d _ => slots D d.starArgs + width D (fetched d.specifier d.length)

def taken (D : DataModel) (items : List Item) : ℕ := (items.map (Item.taken D)).sum

variable {D : DataModel} {strings : Strings} {ap ap' rest : VaList} {f : Field}
  {fields : List Field}

theorem exists_passed (ty : CType) (h : ty.slot D ≤ ap.length) :
    ∃ v ap', Passed D [⟨ty, v⟩] ap ap' := by
  have hread : ∃ r, vaArg D ty ap = .ok r := ⟨_, if_neg (not_lt.mpr h)⟩
  obtain ⟨⟨v, ap'⟩, hv⟩ := hread
  exact ⟨v, ap', passed_of_vaArg hv⟩

theorem Width.exists_read (w : Width) (h : slots D w.args ≤ ap.length) :
    ∃ (w' : Width) (ap' : VaList), w'.text = w.text ∧ Passed D w'.args ap ap' ∧
      slots D w'.args = slots D w.args := by
  cases w with
  | none => exact ⟨.none, ap, rfl, .nil ap, rfl⟩
  | literal n hn => exact ⟨.literal n hn, ap, rfl, .nil ap, rfl⟩
  | star v =>
    obtain ⟨v', ap', hv⟩ := exists_passed .int h
    exact ⟨.star v', ap', rfl, hv, rfl⟩

theorem Precision.exists_read (p : Precision) (h : slots D p.args ≤ ap.length) :
    ∃ (p' : Precision) (ap' : VaList), p'.text = p.text ∧ Passed D p'.args ap ap' ∧
      slots D p'.args = slots D p.args := by
  cases p with
  | none => exact ⟨.none, ap, rfl, .nil ap, rfl⟩
  | literal n => exact ⟨.literal n, ap, rfl, .nil ap, rfl⟩
  | negative ds => exact ⟨.negative ds, ap, rfl, .nil ap, rfl⟩
  | star v =>
    obtain ⟨v', ap', hv⟩ := exists_passed .int h
    exact ⟨.star v', ap', rfl, hv, rfl⟩

theorem Directive.exists_read (d : Directive) (h : slots D d.starArgs ≤ ap.length) :
    ∃ (d' : Directive) (ap' : VaList), d'.text = d.text ∧ d'.specifier = d.specifier ∧
      d'.length = d.length ∧ Passed D d'.starArgs ap ap' ∧
      ap.length = slots D d.starArgs + ap'.length := by
  rw [Directive.starArgs, slots_append] at h
  have hwidth : slots D d.width.args ≤ ap.length := by omega
  obtain ⟨w, ap₁, hwtext, hw, hwslots⟩ := d.width.exists_read hwidth
  have hlen := hw.length
  have hprecision : slots D d.precision.args ≤ ap₁.length := by omega
  obtain ⟨p, ap₂, hptext, hp, hpslots⟩ := d.precision.exists_read hprecision
  have hlen' := hp.length
  refine ⟨⟨d.flags, w, p, d.length, d.specifier⟩, ap₂, ?_, rfl, rfl, ?_, ?_⟩
  · simp only [Directive.text, hwtext, hptext]
  · exact passed_append.mpr ⟨ap₁, hw, hp⟩
  · rw [Directive.starArgs, slots_append]
    omega

theorem nextField_stars {d : Directive} (hlen : slots D d.starArgs ≤ ap.length) {more fmt : Cursor}
    (h : nextField (wrapping D) strings (byte '%' :: (d.text ++ more)) ap = .ok (f, ap', fmt)) :
    fmt = more ∧
      ap.length = slots D d.starArgs + width D (fetched d.specifier d.length) + ap'.length ∧
      ∀ more', nextField (wrapping D) strings (byte '%' :: (d.text ++ more')) ap =
        .ok (f, ap', more') := by
  obtain ⟨d', ap₁, htext, hspec, hl, hstars, hlen'⟩ := d.exists_read hlen
  have hread (more : Cursor) : nextField (wrapping D) strings (byte '%' :: (d.text ++ more)) ap =
      (conversion (wrapping D) d'.specifier.byte (clearZero d'.spec) ap₁ >>= fun r =>
        r.1.field (wrapping D) strings >>= fun f => .ok (f, r.2, more)) := by
    rw [← htext]
    exact nextField_text d' more hstars
  rw [hread] at h
  obtain ⟨⟨conv, ap₂⟩, hconv, h⟩ := bind_eq_ok.mp h
  obtain ⟨g, hg, h⟩ := bind_eq_ok.mp h
  cases h
  have hclear : (clearZero d'.spec).lengthSpec = d.length :=
    (clearZero_lengthSpec d'.spec).trans hl
  have hfetch : ap₂.length + width D (fetched d'.specifier (clearZero d'.spec).lengthSpec) =
      ap₁.length := ((conversion_fetches _).mp ⟨conv, hconv⟩).length
  rw [hclear, hspec] at hfetch
  refine ⟨rfl, by rw [hlen', Nat.add_assoc, ← hfetch, Nat.add_comm ap₂.length], ?_⟩
  intro more'
  rw [hread, hconv, ok_bind, hg, ok_bind]

theorem nextField_taken {item : Item} {more fmt : Cursor}
    (h : nextField (wrapping D) strings (item.text ++ more) ap = .ok (f, ap', fmt)) :
    fmt = more ∧ ap.length = item.taken D + ap'.length ∧
      ∀ more', nextField (wrapping D) strings (item.text ++ more') ap = .ok (f, ap', more') := by
  cases item with
  | literal c hc =>
    have hread (more : Cursor) : nextField (wrapping D) strings (c :: more) ap =
        .ok (.literal c, ap, more) := by
      simp only [nextField, nextConversion, deref, ok_bind, if_neg hc.2]
      rfl
    simp only [Item.text, List.cons_append, List.nil_append, hread] at h ⊢
    cases h
    exact ⟨rfl, (Nat.zero_add _).symm, fun more' => rfl⟩
  | directive d value =>
    -- bytes enough behind the list show that its length is that of what is fetched
    have hpad := nextField_append [] (List.replicate (slots D d.starArgs) 0) h
    rw [List.append_nil] at hpad
    have hstars : slots D d.starArgs ≤ (ap ++ List.replicate (slots D d.starArgs) 0).length := by
      rw [List.length_append, List.length_replicate]
      exact Nat.le_add_left _ _
    obtain ⟨-, hlen, -⟩ := nextField_stars hstars hpad
    rw [List.length_append, List.length_append] at hlen
    exact nextField_stars (by omega) h

theorem Reads.items {items : List Item} {fmt : Cursor}
    (h : Reads (wrapping D) strings (text items ++ [0]) ap fields fmt rest) :
    ∃ pre post, items = pre ++ post ∧ fmt = text post ++ [0] ∧
      ap.length = taken D pre + rest.length ∧
      ∀ more, Reads (wrapping D) strings (text pre ++ more) ap fields more rest := by
  induction items generalizing ap fields with
  | nil =>
    cases h with
    | done => exact ⟨[], [], rfl, rfl, (Nat.zero_add _).symm, fun more => .done more _⟩
    | field hc => exact absurd rfl hc
  | cons item items ih =>
    obtain ⟨c, cs, hc, h0⟩ := item.exists_text
    rw [text_cons hc] at h
    cases h with
    | done =>
      refine ⟨[], item :: items, rfl, (text_cons hc items [0]).symm, (Nat.zero_add _).symm, ?_⟩
      exact fun more => .done more _
    | @field _ _ _ _ _ ap' _ f fields _ hnext hreads =>
      rw [← List.cons_append, ← hc] at hnext
      obtain ⟨rfl, hlen, hany⟩ := nextField_taken hnext
      obtain ⟨pre, post, hitems, hfmt, hrest, hpre⟩ := ih hreads
      refine ⟨item :: pre, post, congrArg _ hitems, hfmt, ?_, ?_⟩
      · rw [hlen, hrest, taken, taken, List.map_cons, List.sum_cons, Nat.add_assoc]
      · intro more
        have hread := hany (text pre ++ more)
        rw [text_cons hc]
        rw [hc, List.cons_append] at hread
        exact .field h0 hread (hpre more)

theorem text_append (items items' : List Item) : text (items ++ items') = text items ++ text items' :=
  List.flatMap_append

theorem width_designated (D : DataModel) (k : Specifier) (len : LengthSpec) :
    width D (designated k len) ≤ width D (fetched k len) := by
  cases D <;> cases k <;> cases len <;> decide

theorem slots_designated (k : Specifier) (len : LengthSpec) (value : ℤ) :
    slots D ((designated k len).toList.map fun ty => ⟨ty, value⟩) = width D (designated k len) := by
  cases designated k len <;> simp [slots, width]

theorem slots_args (item : Item) : slots D item.args ≤ item.taken D ∧
    (item.taken D ≤ slots D item.args → D = .lp64 ∨ item.mismatched = false) := by
  cases item with
  | literal c hc => exact ⟨le_rfl, fun _ => .inr rfl⟩
  | directive d value =>
    have hle := width_designated D d.specifier d.length
    rw [Item.args, slots_append, slots_designated]
    refine ⟨Nat.add_le_add_left hle _, ?_⟩
    intro h
    exact (width_fetched D d.specifier d.length).mp (by rw [Item.taken] at h; omega)

theorem slots_items (items : List Item) : slots D (args items) ≤ taken D items ∧
    (taken D items ≤ slots D (args items) → Matched D items) := by
  induction items with
  | nil => exact ⟨le_rfl, fun _ => .inr (List.forall_mem_nil _)⟩
  | cons item items ih =>
    obtain ⟨hle, hmatched⟩ := slots_args (D := D) item
    obtain ⟨hrest, hitems⟩ := ih
    have hslots : slots D (args (item :: items)) = slots D item.args + slots D (args items) :=
      slots_append D item.args (args items)
    have htaken : taken D (item :: items) = item.taken D + taken D items := rfl
    refine ⟨by omega, ?_⟩
    intro h
    exact matched_cons.mpr ⟨hmatched (by omega), hitems (by omega)⟩

theorem matched_of_reads {items : List Item} (hap : Passed D (args items) ap [])
    (h : Reads (wrapping D) strings (text items ++ [0]) ap fields [0] rest) : Matched D items := by
  obtain ⟨pre, post, hitems, hfmt, hlen, -⟩ := h.items
  have hpost : post = [] := by
    cases post with
    | nil => rfl
    | cons item post =>
      obtain ⟨c, cs, hc, -⟩ := item.exists_text
      have hlength := congrArg List.length hfmt
      simp [text, hc] at hlength
  rw [hpost, List.append_nil] at hitems
  have hslots := hap.length
  rw [← hitems] at hlen
  rw [List.length_nil] at hslots
  exact (slots_items items).2 (by omega)

end Taken

end OsdevLibstdc.Vsnprintf
