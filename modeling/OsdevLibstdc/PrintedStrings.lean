import OsdevLibstdc.PrintfMemory

/-!
Formats of plain characters, `%s` and `%d`, whose text `snprintf` cuts to the buffer as `strlcpy` and
`strlcat` do.
-/

namespace OsdevLibstdc.Printf

open ByteMemory ByteStores Target Outcomes Vsnprintf

inductive Part
  | char (c : UInt8)
  | string (p : ℕ)
  | number (v : ℤ)

def escape (c : UInt8) : List UInt8 := if c = byte '%' then [byte '%', byte '%'] else [c]

def Part.format : Part → List UInt8
  | char c => escape c
  | string _ => [byte '%', byte 's']
  | number _ => [byte '%', byte 'd']

def Part.args : Part → List Argument
  | char _ => []
  | string p => [⟨.pointer, p⟩]
  | number v => [⟨.int, v⟩]

def plain (k : Specifier) : Directive := ⟨[], .none, .none, .null, k⟩

def decimalText (v : ℤ) : List UInt8 := (plain .d).integerText v

def formatOf (parts : List Part) : List UInt8 := parts.flatMap Part.format

def argsOf (parts : List Part) : List Argument := parts.flatMap Part.args

inductive Shows (strings : Strings) : List Part → List UInt8 → Prop
  | nil : Shows strings [] []
  | char {c : UInt8} {parts : List Part} {text : List UInt8} : c ≠ 0 → Shows strings parts text →
      Shows strings (.char c :: parts) (c :: text)
  | string {p : ℕ} {s text : List UInt8} {parts : List Part} :
      loadString strings p = .ok s → Shows strings parts text →
      Shows strings (.string p :: parts) (s ++ text)
  | number {v : ℤ} {parts : List Part} {text : List UInt8} : Shows strings parts text →
      Shows strings (.number v :: parts) (decimalText v ++ text)

inductive Verbatim (numbers : Prop) : List Field → List UInt8 → Prop
  | nil : Verbatim numbers [] []
  | literal {c : UInt8} {fields : List Field} {text : List UInt8} : Verbatim numbers fields text →
      Verbatim numbers (.literal c :: fields) (c :: text)
  | string {s text : List UInt8} {fields : List Field} : Verbatim numbers fields text →
      Verbatim numbers (.string false (-1) (-1) s :: fields) (s ++ text)
  | padded {s text : List UInt8} {fields : List Field} : numbers → (s.length : ℤ) < INT_MAX →
      Verbatim numbers fields text → Verbatim numbers (.padded ⟨false, -1, s⟩ :: fields) (s ++ text)

section Decimals

theorem decimalText_eq (v : ℤ) : decimalText v =
    (if v < 0 then [byte '-'] else []) ++ digitsText false 10 v.natAbs := by
  have hasked : (plain .d).askedDigits v = -1 := rfl
  have hsign : (plain .d).sign v = if v < 0 then [byte '-'] else [] := rfl
  have hhead : (plain .d).head v = (plain .d).sign v := List.append_nil _
  rw [decimalText, Directive.integerText, hasked, if_neg (fun h => absurd h.2 (by decide)), hhead,
    hsign]
  congr 1
  have hzeros : ((-1 : ℤ) - ((plain .d).digits v).length).toNat = 0 := by omega
  rw [hzeros]
  rfl

theorem decimalText_nonzero (v : ℤ) : 0 ∉ decimalText v := by
  rw [decimalText_eq, List.mem_append, not_or]
  constructor
  · split_ifs <;> decide
  · rw [digitsText, List.mem_map]
    rintro ⟨d, -, hd⟩
    exact digitChar_ne_zero _ _ hd

theorem nextField_number {D : DataModel} {strings : Strings} {v : ℤ} {ap ap' : VaList}
    (more : Cursor) (hv : vaArg D .int ap = .ok (v, ap')) :
    nextField (wrapping D) strings ((Part.number v).format ++ more) ap =
      .ok (.padded ⟨false, -1, decimalText v⟩, ap', more) ∧ (decimalText v).length ≤ 23 := by
  have hvalue : integerValue D (plain .d).specifier (plain .d).length ap = .ok (v, ap') := hv
  have hsign : ((plain .d).head v).length ≤ 1 := by
    rw [Directive.head, List.length_append]
    exact (plain .d).sign_le v
  have hdigits := (plain .d).digits_bounds hvalue
  have hfits : (plain .d).IntegerFits v := by
    have hbound : INT_MIN + ((plain .d).digits v).length ≤ -1 ∧
        (((plain .d).head v).length : ℤ) + -1 ≤ 66 := by
      simp only [INT_MIN]
      omega
    exact hbound
  have hread : nextField (wrapping D) strings (byte '%' :: ((plain .d).text ++ more)) ap = _ :=
    nextField_integer rfl (.nil ap) hvalue more
  rw [if_pos hfits] at hread
  refine ⟨hread, ?_⟩
  have hdigits' : (digitsText false 10 v.natAbs).length ≤ 22 := hdigits.2
  rw [decimalText_eq, List.length_append]
  split_ifs
  · rw [List.length_singleton]
    omega
  · rw [List.length_nil]
    omega

end Decimals

section Reading

variable {D : DataModel} {strings : Strings} {parts parts' : List Part} {text text' : List UInt8}

theorem Shows.append (h : Shows strings parts text) (h' : Shows strings parts' text') :
    Shows strings (parts ++ parts') (text ++ text') := by
  induction h with
  | nil => exact h'
  | char hc _ ih => exact .char hc ih
  | string hs _ ih =>
    rw [List.append_assoc]
    exact .string hs ih
  | number _ ih =>
    rw [List.append_assoc]
    exact .number ih

theorem Shows.nonzero (h : Shows strings parts text) : 0 ∉ text := by
  induction h with
  | nil => exact List.not_mem_nil
  | char hc _ ih =>
    rw [List.mem_cons, not_or]
    exact ⟨Ne.symm hc, ih⟩
  | string hs _ ih =>
    rw [List.mem_append, not_or]
    exact ⟨loadString_nonzero hs, ih⟩
  | number _ ih =>
    rw [List.mem_append, not_or]
    exact ⟨decimalText_nonzero _, ih⟩

theorem escape_cons (c : UInt8) : ∃ b bs, escape c = b :: bs ∧ (b = 0 → c = 0) := by
  unfold escape
  split_ifs
  · exact ⟨_, _, rfl, fun h => absurd h (by decide)⟩
  · exact ⟨c, [], rfl, id⟩

theorem nextField_escape {c : UInt8} (more : Cursor) (ap : VaList) :
    nextField (wrapping D) strings (escape c ++ more) ap = .ok (.literal c, ap, more) := by
  unfold escape
  split_ifs with hc
  · subst hc
    exact nextField_text ⟨[], .none, .none, .null, .percent⟩ more (.nil ap)
  · simp only [nextField, nextConversion, List.cons_append, List.nil_append, deref, ok_bind,
      if_neg hc, List.tail_cons]
    rfl

theorem nextField_string {p : ℕ} {s : List UInt8} {ap ap' : VaList} (more : Cursor)
    (hv : vaArg D .pointer ap = .ok ((p : ℤ), ap')) (hs : loadString strings p = .ok s) :
    nextField (wrapping D) strings ((Part.string p).format ++ more) ap =
      .ok (.string false (-1) (-1) s, ap', more) := by
  have htext : nextField (wrapping D) strings (byte '%' :: ((plain .s).text ++ more)) ap = _ :=
    nextField_text (plain .s) more (.nil ap)
  refine htext.trans ?_
  have hk : (plain .s).specifier = .s := rfl
  rw [hk, conversion, specifierOf_byte]
  simp only [hv, ok_bind, pure_eq, Conversion.field, hs]
  rfl

theorem Shows.reads (h : Shows strings parts text) {ap rest : VaList}
    (hap : Passed D (argsOf parts) ap rest) {numbers : Prop}
    (hn : ∀ v, .number v ∈ parts → numbers) :
    ∃ fields, Reads (wrapping D) strings (formatOf parts) ap fields [] rest ∧
      Verbatim numbers fields text := by
  induction h generalizing ap with
  | nil =>
    cases hap
    exact ⟨[], .done _ _, .nil⟩
  | @char c parts text hc _ ih =>
    obtain ⟨fields, hreads, hverb⟩ := ih hap fun v hv => hn v (List.mem_cons_of_mem _ hv)
    obtain ⟨b, bs, hb, hb0⟩ := escape_cons c
    have hnext : nextField (wrapping D) strings (escape c ++ formatOf parts) ap = _ :=
      nextField_escape (formatOf parts) ap
    rw [hb] at hnext
    refine ⟨_, ?_, .literal hverb⟩
    rw [formatOf, List.flatMap_cons, Part.format, hb]
    exact .field (fun h0 => hc (hb0 h0)) hnext hreads
  | @string p s text parts hs _ ih =>
    obtain ⟨ap', hv, hap'⟩ := Passed.vaArg hap
    obtain ⟨fields, hreads, hverb⟩ := ih hap' fun v hv => hn v (List.mem_cons_of_mem _ hv)
    exact ⟨_, .field (by decide) (nextField_string (formatOf parts) hv hs) hreads,
      .string hverb⟩
  | @number v parts text _ ih =>
    obtain ⟨ap', hv, hap'⟩ := Passed.vaArg hap
    obtain ⟨fields, hreads, hverb⟩ := ih hap' fun v hv => hn v (List.mem_cons_of_mem _ hv)
    have hnext : nextField (wrapping D) strings ((Part.number v).format ++ formatOf parts) ap = _ ∧ _ :=
      nextField_number (formatOf parts) hv
    obtain ⟨hread, hlen⟩ := hnext
    refine ⟨_, .field (by decide) hread hreads,
      .padded (hn v List.mem_cons_self) ?_ hverb⟩
    simp only [INT_MAX]
    omega

end Reading

section Putting

variable {size i : ℤ} {numbers : Prop}

theorem put_unpadded {f : Field} {t : List UInt8} {p : Progress} (hlt : (p.pos : ℤ) < size)
    (hn : f.isNil = false) (hcount : ∀ ptr, f ≠ .count ptr)
    (hpad : (f.box (size - p.pos).toNat).padding = 0)
    (htext : (f.box (size - p.pos).toNat).text.take (size - p.pos).toNat =
      t.take (size - p.pos).toNat) :
    ∃ p', f.put size i p = .ok p' ∧ Appends (t.take (size - p.pos).toNat) p p' ∧
      p'.total = p.total + (f.box (size - p.pos).toNat).text.length ∧ p'.counts = p.counts := by
  have hroom : f.room size i p.pos = size - p.pos := Field.room_eq hn
  obtain ⟨p', hput, hputs⟩ := Field.put_ok (f := f) (i := i) hlt (by omega)
  have himage : f.image size i p.pos = t.take (size - p.pos).toNat := by
    rw [Field.image, hroom, Box.image, hpad, ← htext]
    simp
  have hadv : f.advance size i p.pos = (t.take (size - p.pos).toNat).length := by
    rw [Field.advance, hroom, Box.advance, hpad, ← htext, List.length_take, Nat.min_comm]
    split_ifs
    · rfl
    · rw [Nat.sub_zero, Nat.zero_add, Nat.min_comm]
  have hreq : f.request size i p.pos = (f.box (size - p.pos).toNat).text.length := by
    rw [Field.request, hroom, Box.full_length, hpad, Nat.zero_add]
  refine ⟨p', hput, ⟨?_, ?_, ?_⟩, ?_, put_counts hcount hput⟩
  · rw [hputs.pos, hadv]
  · intro m
    rw [hputs.memory, himage]
  · rw [hputs.volume, himage]
  · rw [hputs.total, hreq]

theorem unpadded (s : List UInt8) (h : (s.length : ℤ) ≤ INT_MAX) :
    Box.padding ⟨false, -1, s⟩ = 0 := by
  have hwrap : wrapInt (-1 - s.length) = -1 - s.length := by
    apply wrapInt_eq <;> simp only [INT_MIN, INT_MAX] at * <;> omega
  rw [Box.padding, hwrap]
  omega

def PutVerbatim (numbers : Prop) (size i : ℤ) (fields : List Field) (text : List UInt8)
    (p : Progress) : Prop :=
  ∃ q left, putFields size i fields p = .ok (q, left) ∧
    Appends (text.take (size - p.pos).toNat) p q ∧ q.counts = p.counts ∧
    ((numbers → text.length ≤ (size - p.pos).toNat) →
      q.total = p.total + (text.take (size - p.pos).toNat).length)

theorem putVerbatim_stop {fields : List Field} {text : List UInt8} {p : Progress}
    (hp : ¬ (p.pos : ℤ) < size) : PutVerbatim numbers size i fields text p := by
  have hroom : (size - (p.pos : ℤ)).toNat = 0 := by omega
  refine ⟨p, fields, putFields_stop fields hp, ?_, rfl, fun _ => ?_⟩
  · rw [hroom]
    exact .refl p
  · rw [hroom]
    exact (add_zero _).symm

theorem putVerbatim_cons {f : Field} {fields : List Field} {t text : List UInt8} {p : Progress}
    (hn : f.isNil = false) (hcount : ∀ ptr, f ≠ .count ptr)
    (hbox : ∀ room : ℕ, 0 < room → (room : ℤ) ≤ size → (f.box room).padding = 0 ∧
      (f.box room).text.take room = t.take room ∧
      ((numbers → t.length ≤ room) → (f.box room).text.length = (t.take room).length))
    (ih : ∀ p', PutVerbatim numbers size (wrapInt (i + 1)) fields text p') :
    PutVerbatim numbers size i (f :: fields) (t ++ text) p := by
  by_cases hlt : (p.pos : ℤ) < size
  · obtain ⟨hpad, htext, hcut⟩ := hbox (size - p.pos).toNat (by omega) (by omega)
    obtain ⟨p', hput, happ, htotal, hcounts⟩ := put_unpadded (i := i) hlt hn hcount hpad htext
    obtain ⟨q, left, hrun, happ', hcounts', htotal'⟩ := ih p'
    have hpos := happ.pos
    rw [List.length_take] at hpos
    have hroom : (size - (p'.pos : ℤ)).toNat = (size - p.pos).toNat - t.length := by omega
    have htake : (t ++ text).take (size - p.pos).toNat =
        t.take (size - p.pos).toNat ++ text.take (size - p'.pos).toNat := by
      rw [hroom, List.take_append]
    unfold PutVerbatim
    rw [htake, List.length_append]
    refine ⟨q, left, ?_, happ.trans happ', hcounts'.trans hcounts, fun hfit => ?_⟩
    · rw [putFields, if_pos hlt, hput, ok_bind, hrun]
    · rw [htotal' fun h => ?_, htotal, hcut fun h => ?_, List.length_append]
      · push_cast
        omega
      · have := hfit h
        omega
      · have := hfit h
        omega
  · exact putVerbatim_stop hlt

theorem Verbatim.put {fields : List Field} {text : List UInt8} (h : Verbatim numbers fields text)
    (hs : size ≤ INT_MAX) (p : Progress) : PutVerbatim numbers size i fields text p := by
  induction h generalizing i p with
  | nil =>
    refine ⟨p, [], rfl, ?_, rfl, fun _ => ?_⟩
    · rw [List.take_nil]
      exact .refl p
    · rw [List.take_nil]
      exact (add_zero _).symm
  | @literal c fields text _ ih =>
    apply putVerbatim_cons (t := [c]) rfl (fun ptr h => by cases h) _ ih
    intro room hroom _
    refine ⟨rfl, rfl, fun _ => ?_⟩
    rw [List.take_of_length_le hroom]
    rfl
  | @string s text fields _ ih =>
    apply putVerbatim_cons rfl (fun ptr h => by cases h) _ ih
    intro room _ hroom
    refine ⟨unpadded (s.take room) ?_, ?_, fun _ => rfl⟩
    · rw [List.length_take]
      omega
    · have htake : (s.take room).take room = s.take room := by rw [List.take_take, Nat.min_self]
      exact htake
  | padded hnumbers hlen _ ih =>
    apply putVerbatim_cons rfl (fun ptr h => by cases h) _ ih
    intro room _ _
    refine ⟨unpadded _ hlen.le, rfl, fun hfit => ?_⟩
    rw [List.take_of_length_le (hfit hnumbers)]
    rfl

end Putting

section Call

variable {D : DataModel} {m : Ram} {buffer size fmt : ℕ} {ap rest : VaList} {parts : List Part}
  {text : List UInt8}

theorem snprintfAt_shows (hfmt : m.IsString fmt (formatOf parts))
    (hapart : fmt + (formatOf parts).length < buffer ∨ buffer + size ≤ fmt)
    (hshows : Shows (stringsOutside m buffer size) parts text)
    (hap : Passed D (argsOf parts) ap rest) (h1 : 1 ≤ size) (hmax : (size : ℤ) < INT_MAX)
    (hm : m.Mapped buffer (min size (text.length + 1)))
    (hfit : ∀ v, .number v ∈ parts → text.length < size) :
    ∃ m', snprintfAt (wrapping D) m buffer size fmt ap =
        .ok (((text.take (size - 1)).length : ℤ), m') ∧
      Cstring.Leaves m m' buffer buffer (text.take (size - 1)) := by
  obtain ⟨fields, hreads, hverb⟩ := hshows.reads hap hfit
  have hput : PutVerbatim _ (size - 1) 0 fields text {} := hverb.put (by omega) {}
  obtain ⟨q, left, hput, happ, hcounts, htotal⟩ := hput
  have hroom : ((size - 1 : ℤ) - ((0 : ℕ) : ℤ)).toNat = size - 1 := by omega
  rw [hroom] at happ htotal
  have hlen : (text.take (size - 1)).length = min (size - 1) text.length := List.length_take
  have hvalue : wrapInt q.total = (text.take (size - 1)).length := by
    rw [htotal fun h => by omega, zero_add]
    apply wrapInt_eq <;> simp only [INT_MIN, INT_MAX] at * <;> omega
  rw [← hvalue]
  refine snprintfAt_leaves (stringsOutside_string hfmt hapart) hreads h1 hmax hput happ hcounts ?_
    (hm.mono (by omega))
  intro h0
  exact hshows.nonzero (List.mem_of_mem_take h0)

end Call

/-- A string at `src`, passed as an argument of `%s` or written into the format. -/
structure Piece where
  inlined : Bool
  src : ℕ
  text : List UInt8

namespace Piece

def parts (x : Piece) : List Part := if x.inlined then x.text.map .char else [.string x.src]

structure Outside (m : Ram) (buffer size : ℕ) (x : Piece) : Prop where
  string : m.IsString x.src x.text
  apart : x.src + x.text.length < buffer ∨ buffer + size ≤ x.src
  ne : x.src ≠ 0

end Piece

def partsOf (pieces : List Piece) : List Part := pieces.flatMap Piece.parts

def textOf (pieces : List Piece) : List UInt8 := pieces.flatMap Piece.text

def catenate (m : Ram) (dst size : ℕ) : List Piece → Except AccessFault Ram
  | [] => .ok m
  | x :: pieces => do
    let (_, m) ← Cstring.strlcat m dst x.src size
    catenate m dst size pieces

section Catenate

variable {m m₁ : Ram} {buffer size : ℕ} {x : Piece} {pieces : List Piece}

theorem shows_chars {strings : Strings} {text : List UInt8} (h0 : 0 ∉ text) :
    Shows strings (text.map .char) text := by
  induction text with
  | nil => exact .nil
  | cons c text ih =>
    rw [List.mem_cons, not_or] at h0
    exact .char (Ne.symm h0.1) (ih h0.2)

theorem Piece.Outside.shows (h : x.Outside m buffer size) :
    Shows (stringsOutside m buffer size) x.parts x.text := by
  unfold Piece.parts
  split_ifs
  · exact shows_chars h.string.no_nul
  · have hs := Shows.string (loadString_outside h.string h.ne h.apart) (.nil)
    rwa [List.append_nil] at hs

theorem number_notMem (pieces : List Piece) (v : ℤ) : .number v ∉ partsOf pieces := by
  intro h
  obtain ⟨x, -, h⟩ := List.mem_flatMap.mp h
  unfold Piece.parts at h
  split_ifs at h <;> simp at h

theorem shows_pieces (h : ∀ x ∈ pieces, x.Outside m buffer size) :
    Shows (stringsOutside m buffer size) (partsOf pieces) (textOf pieces) := by
  induction pieces with
  | nil => exact .nil
  | cons x pieces ih =>
    obtain ⟨hx, hrest⟩ := List.forall_mem_cons.mp h
    exact hx.shows.append (ih hrest)

theorem Piece.Outside.stored {lo hi : ℕ} (h : x.Outside m buffer size) (hst : m.StoredIn m₁ lo hi)
    (hlo : buffer ≤ lo) (hhi : hi ≤ buffer + size) : x.Outside m₁ buffer size := by
  have := h.apart
  exact ⟨h.string.stored hst (by omega), h.apart, h.ne⟩

theorem catenate_ok {text : List UInt8} (h1 : 1 ≤ size) (hm : m.Mapped buffer size)
    (hleaves : Cstring.Leaves m m₁ buffer buffer (text.take (size - 1)))
    (h : ∀ x ∈ pieces, x.Outside m buffer size) :
    ∃ m', catenate m₁ buffer size pieces = .ok m' ∧
      Cstring.Leaves m m' buffer buffer ((text ++ textOf pieces).take (size - 1)) := by
  have hlen (t : List UInt8) : (t.take (size - 1)).length = min (size - 1) t.length :=
    List.length_take
  induction pieces generalizing text m₁ with
  | nil =>
    refine ⟨m₁, rfl, ?_⟩
    rw [textOf, List.flatMap_nil, List.append_nil]
    exact hleaves
  | cons x pieces ih =>
    obtain ⟨hx, hrest⟩ := List.forall_mem_cons.mp h
    have hlt := hlen text
    have hx₁ := hx.stored hleaves.stored le_rfl (by omega)
    have happ := hx₁.apart
    obtain ⟨m₂, hcat, hl₂⟩ := Cstring.strlcat_ok hx₁.string
      (hleaves.stored.mapped_range (hm.mono (Nat.min_le_left size _))) hleaves.string (by omega)
      (by omega)
    have htake : (text.take (size - 1) ++ x.text).take (size - 1) =
        (text ++ x.text).take (size - 1) := by
      rw [List.take_append, List.take_append, List.take_take, Nat.min_self, List.length_take]
      congr 2
      omega
    rw [htake] at hl₂
    have hle : (text.take (size - 1)).length ≤ ((text ++ x.text).take (size - 1)).length := by
      rw [hlen, hlen, List.length_append]
      omega
    have hboth : Cstring.Leaves m m₂ buffer buffer ((text ++ x.text).take (size - 1)) :=
      ⟨hl₂.string, (hleaves.stored.mono le_rfl (by omega)).trans (hl₂.stored.mono (by omega) le_rfl)⟩
    obtain ⟨m', hrun, hl'⟩ := ih hboth hrest
    refine ⟨m', ?_, ?_⟩
    · rw [catenate, hcat]
      exact hrun
    · rw [List.append_assoc] at hl'
      exact hl'

end Catenate

theorem snprintf_eq_strlcat {D : DataModel} {m : Ram} {buffer size fmt : ℕ} {ap rest : VaList}
    {x : Piece} {pieces : List Piece} (h1 : 1 ≤ size) (hmax : (size : ℤ) < INT_MAX)
    (hm : m.Mapped buffer size) (hpieces : ∀ y ∈ x :: pieces, y.Outside m buffer size)
    (hfmt : m.IsString fmt (formatOf (partsOf (x :: pieces))))
    (hapart : fmt + (formatOf (partsOf (x :: pieces))).length < buffer ∨ buffer + size ≤ fmt)
    (hap : Passed D (argsOf (partsOf (x :: pieces))) ap rest) :
    ∃ (len k : ℕ) (m₁ m₂ m₃ : Ram), snprintfAt (wrapping D) m buffer size fmt ap = .ok ((len : ℤ), m₁) ∧
      Cstring.strlen m₁ buffer = .ok len ∧ Cstring.strlcpy m buffer x.src size = .ok (k, m₂) ∧
      catenate m₂ buffer size pieces = .ok m₃ ∧ m₁.cells = m₃.cells := by
  obtain ⟨m₁, hrun, hleaves⟩ := snprintfAt_shows hfmt hapart (shows_pieces hpieces) hap h1 hmax
    (hm.mono (Nat.min_le_left _ _)) fun v hv => absurd hv (number_notMem _ v)
  obtain ⟨hx, hrest⟩ := List.forall_mem_cons.mp hpieces
  have happ := hx.apart
  obtain ⟨m₂, hcpy, hl₂⟩ := Cstring.strlcpy_ok hx.string
    (hm.mono (Nat.min_le_left size _)) (by omega) (by omega)
  obtain ⟨m₃, hcat, hl₃⟩ := catenate_ok h1 hm hl₂ hrest
  refine ⟨_, _, m₁, m₂, m₃, hrun, Cstring.strlen_ok hleaves.string, hcpy, hcat, ?_⟩
  have htext : textOf (x :: pieces) = x.text ++ textOf pieces := rfl
  rw [htext] at hleaves
  exact hleaves.unique hl₃ le_rfl le_rfl

def fiftyPercent : Ram :=
  { cells := (255 :: bytes "50%" ++ 0 :: List.replicate 6 255 ++ bytes "50%%%s" ++ [0]).map some }

theorem snprintf_eq_strlcat_fiftyPercent : ∃ (len k : ℕ) (m₁ m₂ m₃ : Ram),
    snprintfAt (wrapping .lp64) fiftyPercent 5 6 11 (LittleEndian.encode 8 1 ++ []) =
        .ok ((len : ℤ), m₁) ∧
      Cstring.strlen m₁ 5 = .ok len ∧ Cstring.strlcpy fiftyPercent 5 1 6 = .ok (k, m₂) ∧
      catenate m₂ 5 6 [⟨false, 1, bytes "50%"⟩] = .ok m₃ ∧ m₁.cells = m₃.cells := by
  have hstring : fiftyPercent.IsString 1 (bytes "50%") := by decide
  have houtside (inlined : Bool) : Piece.Outside fiftyPercent 5 6 ⟨inlined, 1, bytes "50%"⟩ :=
    ⟨hstring, .inl (Nat.le_refl 5), Nat.one_ne_zero⟩
  apply snprintf_eq_strlcat (x := ⟨true, 1, bytes "50%"⟩) (by decide) (by decide) (by decide)
  · intro y hy
    simp only [List.mem_cons, List.not_mem_nil, or_false] at hy
    rcases hy with rfl | rfl <;> exact houtside _
  · decide
  · decide
  · exact .cons (by decide) (.nil [])

end OsdevLibstdc.Printf
