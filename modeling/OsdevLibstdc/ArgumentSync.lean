import OsdevLibstdc.DirectiveParsing
import OsdevLibstdc.LoopRuns

/-!
Which arguments the directives of a format designate, and which `va_arg` fetches for them. The two
are in step where every fetched type takes up the slots of the designated one.
-/

namespace OsdevLibstdc.Vsnprintf

open Target LittleEndian Outcomes

section Designated

def designated (k : Specifier) (len : LengthSpec) : Option CType :=
  match k with
  | .d | .i => some (match len with
    | .null | .h | .hh => .int
    | .l => .long
    | .ll => .longLong
    | .z => .ssize
    | .t => .ptrdiff)
  | .u | .o | .x | .X => some (match len with
    | .null | .h | .hh => .unsignedInt
    | .l => .unsignedLong
    | .ll => .unsignedLongLong
    | .z => .size
    | .t => .unsignedPtrdiff)
  | .c => some .int
  | .p | .n | .s => some .pointer
  | .percent => none

/-- The type that `va_arg` is called with for a directive. -/
def fetched (k : Specifier) (len : LengthSpec) : Option CType :=
  let unsigned : CType := match len with
    | .l => .unsignedLong
    | .z => .size
    | .h | .hh => .unsignedInt
    | .ll | .t | .null => .unsignedLongLong
  match k with
  | .d | .i => some (match len with
    | .null | .h | .hh => .int
    | .l => .long
    | .ll => .longLong
    | .z => .int64
    | .t => .ptrdiff)
  | .u | .o | .x | .X => some (if len = .null then .unsignedInt else unsigned)
  | .p => some unsigned
  | .c => some .int
  | .n | .s => some .pointer
  | .percent => none

/-- The directives that fetch eight bytes where the argument of the 32-bit target has four. -/
def mismatched (k : Specifier) (len : LengthSpec) : Bool :=
  match k with
  | .d | .i => len = .z
  | .u | .o | .x | .X => len = .t
  | .p => len = .null ∨ len = .ll ∨ len = .t
  | _ => false

def width (D : DataModel) (ty : Option CType) : ℕ := (ty.map (fun ty => ty.slot D)).getD 0

theorem width_fetched (D : DataModel) (k : Specifier) (len : LengthSpec) :
    width D (fetched k len) = width D (designated k len) ↔ D = .lp64 ∨ mismatched k len = false := by
  cases D <;> cases k <;> cases len <;> decide

end Designated

section Fetch

variable {D : DataModel} {spec : FormatSpec} {ap ap' : VaList}

def Fetches (D : DataModel) (ty : Option CType) (ap ap' : VaList) : Prop :=
  match ty with
  | none => ap' = ap
  | some ty => ∃ v, vaArg D ty ap = .ok (v, ap')

theorem narrowed_fetches (ty : CType) (signed : Bool) :
    (∃ v, (vaArg D ty ap >>= fun r => (pure (narrow signed r.1, r.2) : Except Fault (ℤ × VaList))) =
      .ok (v, ap')) ↔ ∃ v, vaArg D ty ap = .ok (v, ap') := by
  cases vaArg D ty ap with
  | error e => simp
  | ok r => simp [pure_eq, Prod.ext_iff]

theorem signedValue_fetches (len : LengthSpec) :
    (∃ v, signedValue D len ap = .ok (v, ap')) ↔ Fetches D (fetched .d len) ap ap' := by
  cases len
  case hh => exact narrowed_fetches .int true
  all_goals exact Iff.rfl

theorem readUnsignedNumber_fetches (len : LengthSpec) :
    (∃ v, readUnsignedNumber D len ap = .ok (v, ap')) ↔ Fetches D (fetched .p len) ap ap' := by
  cases len
  case hh => exact narrowed_fetches .unsignedInt false
  all_goals exact Iff.rfl

theorem unsignedValue_fetches (len : LengthSpec) :
    (∃ v, unsignedValue D len ap = .ok (v, ap')) ↔ Fetches D (fetched .u len) ap ap' := by
  cases len
  case hh => exact narrowed_fetches .unsignedInt false
  all_goals exact Iff.rfl

theorem signedArgument_fetches :
    (∃ s n, signedArgument (wrapping D) spec ap = .ok (s, n, ap')) ↔
      Fetches D (fetched .d spec.lengthSpec) ap ap' := by
  rw [← signedValue_fetches]
  simp only [signedArgument, Machine.arith]
  cases signedValue D spec.lengthSpec ap with
  | error e => simp
  | ok r =>
    simp only [ok_bind]
    split_ifs <;> simp [pure_eq, Prod.ext_iff]

theorem unsignedArgument_fetches :
    (∃ s n, unsignedArgument D spec ap = .ok (s, n, ap')) ↔
      Fetches D (fetched .u spec.lengthSpec) ap ap' := by
  rw [← unsignedValue_fetches]
  simp only [unsignedArgument]
  cases unsignedValue D spec.lengthSpec ap with
  | error e => simp
  | ok r => simp [pure_eq, Prod.ext_iff]

theorem number_fetches (x : Except Fault (FormatSpec × ℕ × VaList)) :
    (∃ conv, (x >>= fun r =>
      (pure (Conversion.number r.1 r.2.1, r.2.2) : Except Fault (Conversion × VaList))) =
        .ok (conv, ap')) ↔ ∃ s n, x = .ok (s, n, ap') := by
  cases x with
  | error e => simp
  | ok r => simp [pure_eq, Prod.ext_iff]

theorem value_fetches (ty : CType) (f : ℤ → Conversion) :
    (∃ conv, (vaArg D ty ap >>= fun r =>
      (pure (f r.1, r.2) : Except Fault (Conversion × VaList))) = .ok (conv, ap')) ↔
      ∃ v, vaArg D ty ap = .ok (v, ap') := by
  cases vaArg D ty ap with
  | error e => simp
  | ok r => simp [pure_eq, Prod.ext_iff]

theorem conversion_fetches (k : Specifier) :
    (∃ conv, conversion (wrapping D) k.byte spec ap = .ok (conv, ap')) ↔
      Fetches D (fetched k spec.lengthSpec) ap ap' := by
  unfold conversion
  rw [specifierOf_byte]
  cases k
  case d => exact (number_fetches _).trans signedArgument_fetches
  case i => exact (number_fetches _).trans signedArgument_fetches
  case u => exact (number_fetches _).trans unsignedArgument_fetches
  case o => exact (number_fetches _).trans unsignedArgument_fetches
  case X => exact (number_fetches _).trans unsignedArgument_fetches
  case x => exact (number_fetches _).trans unsignedArgument_fetches
  case p =>
    rw [← readUnsignedNumber_fetches]
    cases readUnsignedNumber D spec.lengthSpec ap with
    | error e => simp
    | ok r =>
      simp only [ok_bind]
      split_ifs <;> simp [pure_eq, Prod.ext_iff]
  case n => exact value_fetches .pointer .count
  case c => exact value_fetches .int fun v => .char spec (UInt8.ofInt v)
  case s => exact value_fetches .pointer (.string spec)
  case percent =>
    constructor
    · rintro ⟨conv, h⟩
      exact (Prod.mk.inj (Except.ok.inj h)).2.symm
    · rintro rfl
      exact ⟨_, rfl⟩

theorem Fetches.length {ty : Option CType} (h : Fetches D ty ap ap') :
    ap'.length + width D ty = ap.length := by
  cases ty with
  | none =>
    rw [h]
    rfl
  | some ty =>
    obtain ⟨v, hv⟩ := h
    exact vaArg_length hv

theorem fetches_of_width {ty : CType} {a : Argument} {args : List Argument} {rest : VaList}
    (hw : ty.slot D = a.ty.slot D) (h : Passed D (a :: args) ap rest) :
    ∃ ap', Fetches D (some ty) ap ap' ∧ Passed D args ap' rest := by
  cases h with
  | @cons _ _ bs ap rest ha h =>
    have hl : bs.length = ty.slot D := ha.1.trans hw.symm
    refine ⟨ap, ⟨ty.convert D (decode ((bs ++ ap).take (ty.sizeof D))), ?_⟩, h⟩
    rw [vaArg, if_neg (by simp only [List.length_append]; omega), ← hl, List.drop_left]

end Fetch

inductive Item
  | literal (c : UInt8) (hc : c ≠ 0 ∧ c ≠ byte '%')
  | directive (d : Directive) (value : ℤ)

namespace Item

def text : Item → List UInt8
  | literal c _ => [c]
  | directive d _ => byte '%' :: d.text

def args : Item → List Argument
  | literal _ _ => []
  | directive d value =>
    d.starArgs ++ (designated d.specifier d.length).toList.map fun ty => ⟨ty, value⟩

def mismatched : Item → Bool
  | literal _ _ => false
  | directive d _ => Vsnprintf.mismatched d.specifier d.length

end Item

def text (items : List Item) : List UInt8 := items.flatMap Item.text

def args (items : List Item) : List Argument := items.flatMap Item.args

section Consume

def consume (T : Machine) : ℕ → Cursor → VaList → Except Fault (VaList × Cursor)
  | 0, fmt, ap => .ok (ap, fmt)
  | n + 1, fmt, ap => do
    let (_, ap, fmt) ← nextConversion T {} fmt ap
    consume T n fmt ap

theorem consume_add (T : Machine) (n k : ℕ) (fmt : Cursor) (ap : VaList) :
    consume T (n + k) fmt ap = consume T n fmt ap >>= fun r => consume T k r.2 r.1 := by
  induction n generalizing fmt ap with
  | zero =>
    rw [Nat.zero_add]
    rfl
  | succ n ih =>
    rw [Nat.add_right_comm, consume, consume, bind_assoc]
    congr 1
    funext r
    exact ih r.2.2 r.2.1

variable {D : DataModel}

theorem nextConversion_directive (d : Directive) (value : ℤ) (more : Cursor)
    {ap ap' ap'' : VaList} (hstars : Passed D d.starArgs ap ap') :
    (∃ conv, nextConversion (wrapping D) {} ((Item.directive d value).text ++ more) ap =
      .ok (conv, ap'', more)) ↔ Fetches D (fetched d.specifier d.length) ap' ap'' := by
  obtain ⟨p, hp, hap, hs⟩ := parses_directive (wrapping D) d more hstars
  have hclear : (clearZero d.spec).lengthSpec = d.length := clearZero_lengthSpec d.spec
  rw [← hclear, ← conversion_fetches]
  simp only [nextConversion, Item.text, List.cons_append, deref, ok_bind, ↓reduceIte,
    List.tail_cons, directive, hp, hs, hap]
  cases conversion (wrapping D) d.specifier.byte (clearZero d.spec) ap' with
  | error e => simp
  | ok r => simp [pure_eq, Prod.ext_iff]

theorem nextConversion_item (item : Item) (more : Cursor) {others : List Argument}
    {ap rest : VaList} (hm : D = .lp64 ∨ item.mismatched = false)
    (hap : Passed D (item.args ++ others) ap rest) :
    ∃ conv ap', nextConversion (wrapping D) {} (item.text ++ more) ap = .ok (conv, ap', more) ∧
      Passed D others ap' rest := by
  cases item with
  | literal c hc =>
    refine ⟨.literal c, ap, ?_, hap⟩
    simp only [nextConversion, Item.text, List.cons_append, List.nil_append, deref, ok_bind,
      if_neg hc.2]
    rfl
  | directive d value =>
    rw [Item.args, List.append_assoc] at hap
    obtain ⟨ap', hstars, hvalue⟩ := passed_append.mp hap
    have hwidth := (width_fetched D d.specifier d.length).mpr hm
    have hfetch : ∃ ap'', Fetches D (fetched d.specifier d.length) ap' ap'' ∧
        Passed D others ap'' rest := by
      cases hd : designated d.specifier d.length with
      | none =>
        rw [hd] at hvalue hwidth
        cases hf : fetched d.specifier d.length with
        | none => exact ⟨ap', rfl, hvalue⟩
        | some ty =>
          rw [hf] at hwidth
          exact absurd hwidth (slot_pos D ty).ne'
      | some ty =>
        rw [hd] at hvalue hwidth
        cases hf : fetched d.specifier d.length with
        | none =>
          rw [hf] at hwidth
          exact absurd hwidth.symm (slot_pos D ty).ne'
        | some ty' =>
          rw [hf] at hwidth
          have hslot : ty'.slot D = (⟨ty, value⟩ : Argument).ty.slot D := hwidth
          exact fetches_of_width hslot hvalue
    obtain ⟨ap'', hfetch, hrest⟩ := hfetch
    obtain ⟨conv, hconv⟩ := (nextConversion_directive d value more hstars).mpr hfetch
    exact ⟨conv, ap'', hconv, hrest⟩

theorem matched_of_nextConversion {item : Item} {more : Cursor} {others : List Argument}
    {ap ap' rest : VaList} {conv : Conversion} (hap : Passed D (item.args ++ others) ap rest)
    (h : nextConversion (wrapping D) {} (item.text ++ more) ap = .ok (conv, ap', more))
    (hrest : Passed D others ap' rest) : D = .lp64 ∨ item.mismatched = false := by
  cases item with
  | literal c hc => exact .inr rfl
  | directive d value =>
    obtain ⟨ap'', hargs, hothers⟩ := passed_append.mp hap
    obtain ⟨apv, hstars, hvalue⟩ := passed_append.mp hargs
    have hfetch := ((nextConversion_directive d value more hstars).mp ⟨conv, h⟩).length
    have h1 := hvalue.length
    have h2 := hothers.length
    have h3 := hrest.length
    apply (width_fetched D d.specifier d.length).mp
    cases hd : designated d.specifier d.length with
    | none =>
      rw [hd] at h1
      simp only [Option.toList_none, List.map_nil, slots, List.sum_nil, width, Option.map_none,
        Option.getD_none] at h1 hfetch ⊢
      omega
    | some ty =>
      rw [hd] at h1
      simp only [Option.toList_some, List.map_cons, List.map_nil, slots, List.sum_cons,
        List.sum_nil, width, Option.map_some, Option.getD_some] at h1 hfetch ⊢
      omega

end Consume

theorem zero_notMem_digits (ds : List (Fin 10)) : 0 ∉ ds.map digit := by
  intro h
  obtain ⟨d, -, hd⟩ := List.mem_map.mp h
  revert hd
  revert d
  decide

theorem zero_notMem_directive (d : Directive) : 0 ∉ d.text := by
  have hflags : 0 ∉ d.flags.map Flag.byte := by
    intro h
    obtain ⟨f, -, hf⟩ := List.mem_map.mp h
    revert hf
    cases f <;> decide
  have hwidth : 0 ∉ d.width.text := by
    cases d.width with
    | none => exact List.not_mem_nil
    | literal n _ => exact zero_notMem_digits n.digits
    | star v => exact (by decide : (0 : UInt8) ∉ [byte '*'])
  have hdot : (0 : UInt8) ≠ byte '.' := by decide
  have hminus : (0 : UInt8) ≠ byte '-' := by decide
  have hprecision : 0 ∉ d.precision.text := by
    cases d.precision with
    | none => exact List.not_mem_nil
    | literal n =>
      rw [Precision.text, List.mem_cons, not_or]
      exact ⟨hdot, zero_notMem_digits n.digits⟩
    | negative ds =>
      rw [Precision.text, List.mem_cons, List.mem_cons, not_or, not_or]
      exact ⟨hdot, hminus, zero_notMem_digits ds⟩
    | star v => exact (by decide : (0 : UInt8) ∉ [byte '.', byte '*'])
  have hlength : 0 ∉ d.length.text := by cases d.length <;> decide
  have hspecifier : 0 ∉ [d.specifier.byte] := by cases d.specifier <;> decide
  simp only [Directive.text, List.mem_append, not_or]
  exact ⟨hflags, hwidth, hprecision, hlength, hspecifier⟩

theorem zero_notMem_items (items : List Item) : 0 ∉ text items := by
  intro h
  obtain ⟨item, -, h⟩ := List.mem_flatMap.mp h
  cases item with
  | literal c hc => exact hc.1 (List.mem_singleton.mp h).symm
  | directive d value =>
    rcases List.mem_cons.mp h with h | h
    · exact absurd h (by decide)
    · exact zero_notMem_directive d h

def format (items : List Item) : CString := ⟨text items, zero_notMem_items items⟩

def InSync (D : DataModel) (items : List Item) (ap rest : VaList) : Prop :=
  ∀ pre post, items = pre ++ post → ∃ ap',
    consume (wrapping D) pre.length (cursor (format items)) ap = .ok (ap', text post ++ [0]) ∧
      Passed D (args post) ap' rest

section Sync

variable {D : DataModel} {ap rest : VaList}

theorem consume_items (pre post : List Item) (hap : Passed D (args (pre ++ post)) ap rest)
    (hm : D = .lp64 ∨ ∀ item ∈ pre, item.mismatched = false) :
    ∃ ap', consume (wrapping D) pre.length (text (pre ++ post) ++ [0]) ap =
      .ok (ap', text post ++ [0]) ∧ Passed D (args post) ap' rest := by
  induction pre generalizing ap with
  | nil => exact ⟨ap, rfl, hap⟩
  | cons item pre ih =>
    have hhead : D = .lp64 ∨ item.mismatched = false :=
      hm.imp_right fun h => h item List.mem_cons_self
    have htail : D = .lp64 ∨ ∀ item ∈ pre, item.mismatched = false :=
      hm.imp_right fun h item hi => h item (List.mem_cons_of_mem _ hi)
    have htext : text (item :: pre ++ post) ++ [0] = item.text ++ (text (pre ++ post) ++ [0]) := by
      simp [text]
    obtain ⟨conv, ap', hconv, hrest⟩ :=
      nextConversion_item item (text (pre ++ post) ++ [0]) hhead hap
    obtain ⟨ap'', hconsume, hrest'⟩ := ih hrest htail
    refine ⟨ap'', ?_, hrest'⟩
    rw [htext, List.length_cons, consume, hconv]
    exact hconsume

theorem iterates_items {strings : Strings} {size : ℤ} (hs : size ≤ INT_MAX) {n : ℕ}
    {st st' : LoopState} (h : Iterates (wrapping D) strings size n st st')
    (hw : st.written = st.out.pos) {items : List Item} (hfmt : st.fmt = text items ++ [0])
    (hap : Passed D (args items) st.ap rest)
    (hm : D = .lp64 ∨ ∀ item ∈ items, item.mismatched = false) :
    ∃ pre post, items = pre ++ post ∧ pre.length = n ∧ st'.fmt = text post ++ [0] ∧
      Passed D (args post) st'.ap rest := by
  induction h generalizing items with
  | refl st => exact ⟨[], items, rfl, rfl, hfmt, hap⟩
  | @step n st st' st'' hg hstep _ ih =>
    obtain ⟨c, fmt, hc, hc0, hlt⟩ := loopGuard_eq_true.mp hg
    obtain ⟨f, p, hf, -, -⟩ := loopStep_eq_ok hs hw hlt hstep
    cases items with
    | nil =>
      rw [hfmt] at hc
      exact absurd (List.cons.inj hc).1.symm hc0
    | cons item items =>
      have hhead : D = .lp64 ∨ item.mismatched = false :=
        hm.imp_right fun h => h item List.mem_cons_self
      have htail : D = .lp64 ∨ ∀ item ∈ items, item.mismatched = false :=
        hm.imp_right fun h item hi => h item (List.mem_cons_of_mem _ hi)
      have htext : text (item :: items) ++ [0] = item.text ++ (text items ++ [0]) := by
        simp [text]
      obtain ⟨conv, ap', hconv, hrest⟩ := nextConversion_item item (text items ++ [0]) hhead hap
      obtain ⟨r, hr, hf⟩ := bind_eq_ok.mp hf
      rw [hfmt, htext, hconv] at hr
      obtain rfl := Except.ok.inj hr
      obtain ⟨g, -, hf⟩ := bind_eq_ok.mp hf
      have hnext := Prod.mk.inj (Prod.mk.inj (Except.ok.inj hf)).2
      rw [hnext.1] at hrest
      obtain ⟨pre, post, hitems, hn, hfmt', hap'⟩ :=
        ih (loopStep_written hstep hw) hnext.2.symm hrest htail
      exact ⟨item :: pre, post, by rw [hitems, List.cons_append], by rw [List.length_cons, hn],
        hfmt', hap'⟩

theorem vsnprintf_inSync {items : List Item} (hap : Passed D (args items) ap rest) :
    (InSync D items ap rest ↔ D = .lp64 ∨ ∀ item ∈ items, item.mismatched = false) ∧
    (InSync D items ap rest → ∀ (strings : Strings) (maxSize n : ℕ) (st : LoopState),
      (maxSize : ℤ) < INT_MAX →
      Iterates (wrapping D) strings (maxSize - 1) n (startState (format items) ap) st →
      ∃ pre post, items = pre ++ post ∧ pre.length = n ∧ st.fmt = text post ++ [0] ∧
        Passed D (args post) st.ap rest) := by
  have hsync : InSync D items ap rest ↔ D = .lp64 ∨ ∀ item ∈ items, item.mismatched = false := by
    constructor
    · intro h
      by_contra hm
      rw [not_or, not_forall] at hm
      obtain ⟨hD, item, hm⟩ := hm
      rw [Classical.not_imp] at hm
      obtain ⟨hmem, hbad⟩ := hm
      obtain ⟨pre, post, rfl⟩ := List.append_of_mem hmem
      obtain ⟨ap', hpre, hpassed⟩ := h pre (item :: post) rfl
      obtain ⟨ap'', hnext, hrest⟩ := h (pre ++ [item]) post (by simp)
      rw [List.length_append, consume_add, hpre, ok_bind, List.length_singleton, consume] at hnext
      obtain ⟨r, hr, hnext⟩ := bind_eq_ok.mp hnext
      obtain ⟨conv, ap3, fmt3⟩ := r
      obtain ⟨rfl, rfl⟩ := Prod.mk.inj (Except.ok.inj hnext)
      have htext : text (item :: post) ++ [0] = item.text ++ (text post ++ [0]) := by
        simp [text]
      rw [htext] at hr
      rcases matched_of_nextConversion hpassed hr hrest with h | h
      · exact hD h
      · exact hbad h
    · rintro hm pre post rfl
      apply consume_items pre post hap
      exact hm.imp_right fun h item hi => h item (List.mem_append_left _ hi)
  refine ⟨hsync, fun h strings maxSize n st hmax hit => ?_⟩
  exact iterates_items (by omega) hit rfl rfl hap (hsync.mp h)

end Sync

def pointerThenInt : List Item :=
  [.directive ⟨[], .none, .none, .null, .p⟩ 4096, .directive ⟨[], .none, .none, .null, .d⟩ 7]

def pointerThenIntArgs : VaList := encode 4 4096 ++ (encode 4 7 ++ [])

theorem pointerThenInt_passed : Passed .ilp32 (args pointerThenInt) pointerThenIntArgs [] :=
  .cons (by decide) (.cons (by decide) (.nil []))

theorem vsnprintf_inSync_pointerThenInt :
    (InSync .ilp32 pointerThenInt pointerThenIntArgs [] ↔
      DataModel.ilp32 = .lp64 ∨ ∀ item ∈ pointerThenInt, item.mismatched = false) ∧
    (InSync .ilp32 pointerThenInt pointerThenIntArgs [] → ∀ (strings : Strings)
      (maxSize n : ℕ) (st : LoopState), (maxSize : ℤ) < INT_MAX →
      Iterates (wrapping .ilp32) strings (maxSize - 1) n
        (startState (format pointerThenInt) pointerThenIntArgs) st →
      ∃ pre post, pointerThenInt = pre ++ post ∧ pre.length = n ∧ st.fmt = text post ++ [0] ∧
        Passed .ilp32 (args post) st.ap []) :=
  vsnprintf_inSync pointerThenInt_passed

theorem vsnprintf_not_inSync :
    ¬ ∀ (D : DataModel) (items : List Item) (ap rest : VaList), Passed D (args items) ap rest →
      InSync D items ap rest := by
  intro h
  obtain ⟨ap', hconsume, hpassed⟩ :=
    h .ilp32 pointerThenInt pointerThenIntArgs [] pointerThenInt_passed
      [.directive ⟨[], .none, .none, .null, .p⟩ 4096]
      [.directive ⟨[], .none, .none, .null, .d⟩ 7] rfl
  have hrun : consume (wrapping .ilp32) 1 (cursor (format pointerThenInt)) pointerThenIntArgs =
      .ok ([], text [.directive ⟨[], .none, .none, .null, .d⟩ 7] ++ [0]) := rfl
  have hap := (Prod.mk.inj (Except.ok.inj (hrun.symm.trans hconsume))).1
  have hlength := hpassed.length
  rw [← hap] at hlength
  exact absurd hlength (by decide)

end OsdevLibstdc.Vsnprintf
