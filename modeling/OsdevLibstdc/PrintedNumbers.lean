import OsdevLibstdc.CaseFolding
import OsdevLibstdc.NumeralOrder
import OsdevLibstdc.PrintfMemory

/-!
Numbers that a directive prints into a buffer. `strcmp` orders texts of one width as the numbers,
and the case functions turn the texts of `%x` and `%X` into each other.
-/

namespace OsdevLibstdc.Printf

open ByteMemory ByteStores Target Outcomes Vsnprintf Numerals FirstDifferences

structure ShowsInteger (D : DataModel) (m : Ram) (buffer size fmt : ℕ) (d : Directive) (ap : VaList)
    (v : ℤ) : Prop where
  integer : d.specifier.isInteger
  format : m.IsString fmt (byte '%' :: d.text)
  apart : fmt + (byte '%' :: d.text).length < buffer ∨ buffer + size ≤ fmt
  argument : ∃ ap₁ rest, Passed D d.starArgs ap ap₁ ∧
    integerValue D d.specifier d.length ap₁ = .ok (v, rest)
  scratch : d.IntegerFits v
  padding : (d.integerBox v).PaddingFits (size - 1)
  positive : 1 ≤ size
  bound : (size : ℤ) < INT_MAX

/-- What is returned for a number: its whole length, but nothing from a buffer of one byte. -/
def returned (size : ℕ) (text : List UInt8) : ℤ := if size = 1 then 0 else wrapInt text.length

section Call

variable {D : DataModel} {m : Ram} {buffer size fmt : ℕ} {d : Directive} {ap : VaList} {v : ℤ}

theorem put_box {b : Box} (h1 : 1 ≤ size) (hfit : b.PaddingFits (size - 1)) :
    ∃ q left, putFields (size - 1 : ℤ) 0 [.padded b] {} = .ok (q, left) ∧
      Appends (b.full.take (size - 1)) {} q ∧ q.counts = [] ∧
      wrapInt q.total = returned size b.full := by
  by_cases hone : size = 1
  · subst hone
    refine ⟨{}, _, putFields_stop _ (by simp only; omega), ?_, rfl, ?_⟩
    · rw [Nat.sub_self, List.take_zero]
      exact .refl _
    · rw [returned, if_pos rfl]
      rfl
  · have hlt : ((0 : ℕ) : ℤ) < (size : ℤ) - 1 := by omega
    obtain ⟨q, hput, hputs⟩ := Field.put_ok (f := .padded b) (i := 0) (p := {}) hlt (by
      simp only [Field.room]
      omega)
    have hroom : ((size : ℤ) - 1 - ((0 : ℕ) : ℤ)).toNat = size - 1 := by omega
    have himage : (Field.padded b).image (size - 1) 0 0 = b.full.take (size - 1) := by
      simp only [Field.image, Field.room, hroom]
      exact Box.image_of_fits hfit
    have hadv : (Field.padded b).advance (size - 1) 0 0 = (b.full.take (size - 1)).length := by
      simp only [Field.advance, Field.room, hroom]
      rw [List.length_take, Nat.min_comm]
      exact Box.advance_of_fits hfit
    refine ⟨q, [], ?_, ⟨?_, ?_, ?_⟩, ?_, ?_⟩
    · rw [putFields, if_pos hlt, hput]
      rfl
    · rw [hputs.pos, hadv]
    · intro init
      rw [hputs.memory, himage]
    · rw [hputs.volume, himage]
    · exact put_counts (fun ptr h => by cases h) hput
    · rw [hputs.total, returned, if_neg hone, zero_add]
      rfl

theorem integerText_nonzero (d : Directive) (v : ℤ) : 0 ∉ d.integerText v := by
  have hsign : 0 ∉ d.sign v := by
    unfold Directive.sign
    split_ifs <;> decide
  have halt : 0 ∉ d.alternative v.natAbs := by
    unfold Directive.alternative
    split_ifs
    · cases d.specifier <;> decide
    · decide
  have hdigits : 0 ∉ d.digits v := by
    intro h
    obtain ⟨k, -, hk⟩ := List.mem_map.mp h
    exact digitChar_ne_zero _ _ hk
  have hzeros (k : ℕ) : 0 ∉ zeros k := by
    intro h
    exact absurd (List.eq_of_mem_replicate h) (by decide)
  unfold Directive.integerText Directive.head
  split_ifs
  · exact hsign
  · simp only [List.mem_append, not_or]
    exact ⟨⟨hsign, halt⟩, hzeros _, hdigits⟩

theorem ShowsInteger.call (h : ShowsInteger D m buffer size fmt d ap v)
    (hm : m.Mapped buffer (min size ((d.integerBox v).full.length + 1))) :
    ∃ m', snprintfAt (wrapping D) m buffer size fmt ap =
        .ok (returned size (d.integerBox v).full, m') ∧
      Cstring.Leaves m m' buffer buffer ((d.integerBox v).full.take (size - 1)) := by
  obtain ⟨ap₁, rest, hstars, hv⟩ := h.argument
  obtain ⟨q, left, hput, happ, hcounts, htotal⟩ := put_box h.positive h.padding
  have h1 := h.positive
  have hread : nextField (wrapping D) (stringsOutside m buffer size)
      (byte '%' :: (d.text ++ [])) ap = _ := nextField_integer h.integer hstars hv []
  rw [if_pos h.scratch, List.append_nil] at hread
  have hfields : FieldsOf (wrapping D) (stringsOutside m buffer size)
      ⟨byte '%' :: d.text, h.format.no_nul⟩ ap [.padded (d.integerBox v)] rest :=
    .field (by decide) hread (.done _ _)
  have h0 : 0 ∉ (d.integerBox v).full :=
    zero_notMem_full (f := .padded (d.integerBox v)) (integerText_nonzero d v)
  rw [← htotal]
  refine snprintfAt_leaves (stringsOutside_string h.format h.apart) hfields h1 h.bound hput happ
    hcounts (fun hm => h0 (List.mem_of_mem_take hm)) (hm.mono ?_)
  rw [List.length_take]
  omega

end Call

def FixedWidth (d : Directive) (v : ℤ) : Prop := ((d.digits v).length : ℤ) ≤ d.askedDigits v

instance (d : Directive) (v : ℤ) : Decidable (FixedWidth d v) := by
  unfold FixedWidth
  infer_instance

def printedDigits (d : Directive) (v : ℤ) : List ℕ :=
  List.replicate (d.askedDigits v - (d.digits v).length).toNat 0 ++
    numeral d.specifier.radix v.natAbs

section Order

variable {d : Directive} {v v' : ℤ}

theorem digitChar_sign (huge : Bool) {x y : ℕ} (hx : x < 16) (hy : y < 16) :
    (charValue (digitChar huge x) - charValue (digitChar huge y)).sign = ((x : ℤ) - y).sign := by
  have h : ∀ x y : Fin 16, (charValue (digitChar huge x) - charValue (digitChar huge y)).sign =
      (((x : ℕ) : ℤ) - (y : ℕ)).sign := by
    cases huge <;> decide
  exact h ⟨x, hx⟩ ⟨y, hy⟩

theorem printedDigits_lt : ∀ x ∈ printedDigits d v, x < d.specifier.radix := by
  have hr := d.specifier.isRadix.one_lt
  intro x hx
  rcases List.mem_append.mp hx with hx | hx
  · rw [List.eq_of_mem_replicate hx]
    omega
  · exact numeral_lt hr hx

theorem valueOf_printedDigits : valueOf d.specifier.radix (printedDigits d v) = v.natAbs := by
  rw [printedDigits, valueOf_zeros, valueOf_numeral]

theorem FixedWidth.length (h : FixedWidth d v) :
    ((printedDigits d v).length : ℤ) = d.askedDigits v := by
  have hl : (d.digits v).length = (numeral d.specifier.radix v.natAbs).length := List.length_map _
  unfold FixedWidth at h
  rw [printedDigits, List.length_append, List.length_replicate, ← hl]
  omega

theorem FixedWidth.text (h : FixedWidth d v) : d.integerText v =
    d.head v ++ (printedDigits d v).map (digitChar (d.specifier = .X)) := by
  have hpos : 0 < (d.digits v).length := digitsText_pos _ _ _
  have hzero (huge : Bool) : digitChar huge 0 = byte '0' := by cases huge <;> rfl
  unfold FixedWidth at h
  rw [Directive.integerText, if_neg (by omega), printedDigits, List.map_append, List.map_replicate,
    hzero]
  rfl

theorem askedDigits_congr (hhead : d.head v = d.head v') : d.askedDigits v = d.askedDigits v' := by
  rw [Directive.askedDigits, hhead]
  rfl

theorem full_around {b b' : Box} (hm : b.minus = b'.minus) (hw : b.width = b'.width)
    (hl : b.text.length = b'.text.length) :
    ∃ left right, b.full = left ++ (b.text ++ right) ∧ b'.full = left ++ (b'.text ++ right) := by
  have hp : b.padding = b'.padding := by rw [Box.padding, Box.padding, hw, hl]
  unfold Box.full
  rw [← hm, ← hp]
  split_ifs
  · exact ⟨[], Box.spaces b.padding, rfl, rfl⟩
  · refine ⟨Box.spaces b.padding, [], ?_, ?_⟩ <;> rw [List.append_nil]

theorem full_fixed (h : FixedWidth d v) (h' : FixedWidth d v') (hhead : d.head v = d.head v') :
    (printedDigits d v).length = (printedDigits d v').length ∧ ∃ left right,
      (d.integerBox v).full =
        left ++ (d.head v' ++ (printedDigits d v).map (digitChar (d.specifier = .X)) ++ right) ∧
      (d.integerBox v').full =
        left ++ (d.head v' ++ (printedDigits d v').map (digitChar (d.specifier = .X)) ++ right) := by
  have hlen : (printedDigits d v).length = (printedDigits d v').length := by
    have := askedDigits_congr hhead
    have := h.length
    have := h'.length
    omega
  have htext : (d.integerBox v).text = d.head v' ++ _ := hhead ▸ h.text
  have htext' : (d.integerBox v').text = d.head v' ++ _ := h'.text
  refine ⟨hlen, ?_⟩
  rw [← htext, ← htext']
  refine full_around rfl rfl ?_
  rw [htext, htext', List.length_append, List.length_append, List.length_map, List.length_map, hlen]

theorem full_sign (h : FixedWidth d v) (h' : FixedWidth d v') (hhead : d.head v = d.head v') :
    (difference (Cstring.keys id (d.integerBox v).full)
      (Cstring.keys id (d.integerBox v').full)).sign = ((v.natAbs : ℤ) - v'.natAbs).sign := by
  obtain ⟨hlen, left, right, hfull, hfull'⟩ := full_fixed h h' hhead
  have hkeys (ds : List ℕ) : Cstring.keys id (left ++ (d.head v' ++
      ds.map (digitChar (d.specifier = .X)) ++ right)) =
      (Cstring.keys id left ++ Cstring.keys id (d.head v')) ++
        (ds.map (fun x => charValue (digitChar (d.specifier = .X) x)) ++ Cstring.keys id right) := by
    simp only [Cstring.keys, List.map_append, List.map_map, List.append_assoc]
    rfl
  have hradix : d.specifier.radix ≤ 16 := by
    rcases d.specifier.isRadix with hr | hr | hr <;> omega
  rw [hfull, hfull', hkeys, hkeys, difference_around, ← valueOf_printedDigits (d := d),
    ← valueOf_printedDigits (d := d)]
  · refine difference_sign d.specifier.isRadix.one_lt ?_ hlen printedDigits_lt printedDigits_lt
    intro x y hx hy
    exact digitChar_sign _ (by omega) (by omega)
  · rw [List.length_map, List.length_map, hlen]

theorem full_length_eq (h : FixedWidth d v) (h' : FixedWidth d v') (hhead : d.head v = d.head v') :
    (d.integerBox v').full.length = (d.integerBox v).full.length := by
  obtain ⟨hlen, left, right, hfull, hfull'⟩ := full_fixed h h' hhead
  simp only [hfull, hfull', List.length_append, List.length_map, hlen]

end Order

section Calls

variable {D : DataModel} {m m₁ : Ram} {buffer size fmt : ℕ} {d : Directive} {ap : VaList} {v : ℤ}

theorem ShowsInteger.stored {lo hi : ℕ} (h : ShowsInteger D m buffer size fmt d ap v)
    (hst : m.StoredIn m₁ lo hi) (hd : fmt + (byte '%' :: d.text).length < lo ∨ hi ≤ fmt) :
    ShowsInteger D m₁ buffer size fmt d ap v :=
  { h with format := h.format.stored hst hd }

theorem ShowsInteger.whole (h : ShowsInteger D m buffer size fmt d ap v) (hw : FixedWidth d v)
    (hm : m.Mapped buffer size) (hroom : (d.integerBox v).full.length < size) :
    ∃ m', snprintfAt (wrapping D) m buffer size fmt ap =
        .ok (((d.integerBox v).full.length : ℤ), m') ∧
      Cstring.Leaves m m' buffer buffer (d.integerBox v).full := by
  obtain ⟨m', hrun, hleaves⟩ := h.call (hm.mono (Nat.min_le_left _ _))
  have hpos : 0 < (d.integerBox v).full.length := by
    have hdigits : 0 < (d.digits v).length := digitsText_pos _ _ _
    have htext : (d.integerBox v).text = d.head v ++ _ := hw.text
    have hlen := hw.length
    unfold FixedWidth at hw
    rw [Box.full_length, htext, List.length_append, List.length_map]
    omega
  have hvalue : returned size (d.integerBox v).full = (d.integerBox v).full.length := by
    have := h.bound
    rw [returned, if_neg (by omega)]
    apply wrapInt_eq <;> simp only [INT_MIN, INT_MAX] at * <;> omega
  rw [hvalue] at hrun
  rw [List.take_of_length_le (by omega)] at hleaves
  exact ⟨m', hrun, hleaves⟩

end Calls

theorem strcmp_printed {D : DataModel} {m : Ram} {buffer buffer' size size' fmt : ℕ} {d : Directive}
    {ap ap' : VaList} {v v' : ℤ} (h : ShowsInteger D m buffer size fmt d ap v)
    (h' : ShowsInteger D m buffer' size' fmt d ap' v') (hm : m.Mapped buffer size)
    (hm' : m.Mapped buffer' size') (hd : buffer + size ≤ buffer' ∨ buffer' + size' ≤ buffer)
    (hw : FixedWidth d v) (hw' : FixedWidth d v') (hhead : d.head v = d.head v')
    (hroom : (d.integerBox v).full.length < size) (hroom' : (d.integerBox v').full.length < size') :
    ∃ (len : ℕ) (m₁ m₂ : Ram) (r : ℤ),
      snprintfAt (wrapping D) m buffer size fmt ap = .ok ((len : ℤ), m₁) ∧
      snprintfAt (wrapping D) m₁ buffer' size' fmt ap' = .ok ((len : ℤ), m₂) ∧
      Cstring.strcmp m₂ buffer buffer' = .ok r ∧
      r.sign = ((v.natAbs : ℤ) - v'.natAbs).sign := by
  obtain ⟨m₁, hrun, hl⟩ := h.whole hw hm hroom
  have hapart := h.apart
  have h₁ := h'.stored hl.stored (by omega)
  obtain ⟨m₂, hrun', hl'⟩ := h₁.whole hw' (hl.stored.mapped_range hm') hroom'
  have hstring := hl.string.stored hl'.stored (by omega)
  rw [full_length_eq hw hw' hhead] at hrun'
  exact ⟨_, m₁, m₂, _, hrun, hrun',
    Cstring.strings_compare (fun _ => Iff.rfl) hstring hl'.string, full_sign hw hw' hhead⟩

def twoDigits : Directive :=
  ⟨[.zero], .literal ⟨[2], by decide⟩ ⟨2, [], rfl, by decide⟩, .none, .null, .d⟩

def twoBuffers : Ram :=
  { cells := (255 :: bytes "%02d" ++ 0 :: List.replicate 10 255).map some }

theorem strcmp_printed_twoDigits : ∃ (len : ℕ) (m₁ m₂ : Ram) (r : ℤ),
    snprintfAt (wrapping .lp64) twoBuffers 6 5 1 (LittleEndian.encode 8 9) = .ok ((len : ℤ), m₁) ∧
      snprintfAt (wrapping .lp64) m₁ 11 5 1 (LittleEndian.encode 8 10) = .ok ((len : ℤ), m₂) ∧
      Cstring.strcmp m₂ 6 11 = .ok r ∧ r.sign = (((9 : ℤ).natAbs : ℤ) - (10 : ℤ).natAbs).sign := by
  apply strcmp_printed (d := twoDigits)
  · exact ⟨rfl, by decide, by decide, ⟨_, [], .nil _, by decide +kernel⟩, by decide, by decide,
      by decide, by decide⟩
  · exact ⟨rfl, by decide, by decide, ⟨_, [], .nil _, by decide +kernel⟩, by decide, by decide,
      by decide, by decide⟩
  all_goals decide

def huge (d : Directive) : Directive := { d with specifier := .X }

section Case

variable {d e : Directive} {g : UInt8 → UInt8} {v : ℤ}

structure Folds (g : UInt8 → UInt8) (d e : Directive) : Prop where
  flags : e.flags = d.flags
  width : e.width = d.width
  precision : e.precision = d.precision
  unsigned : ∀ v, e.sign v = [] ∧ d.sign v = []
  alternative : ∀ n, e.alternative n = (d.alternative n).map g
  digits : ∀ n, e.specifier.digits n = (d.specifier.digits n).map g
  fixed : g (byte '0') = byte '0' ∧ g (byte ' ') = byte ' '

theorem Folds.zeroFlag (h : Folds g d e) : e.zeroFlag = d.zeroFlag := by
  rw [Directive.zeroFlag, h.flags, h.precision]
  rfl

theorem Folds.head (h : Folds g d e) (v : ℤ) : e.head v = (d.head v).map g := by
  rw [Directive.head, Directive.head, (h.unsigned v).1, (h.unsigned v).2, h.alternative]
  rfl

theorem Folds.askedDigits (h : Folds g d e) (v : ℤ) : e.askedDigits v = d.askedDigits v := by
  rw [Directive.askedDigits, h.zeroFlag, h.head, h.width, h.precision, List.length_map]
  rfl

theorem Folds.text (h : Folds g d e) (v : ℤ) : e.integerText v = (d.integerText v).map g := by
  have hdigits : e.digits v = (d.digits v).map g := h.digits _
  unfold Directive.integerText
  rw [h.askedDigits, (h.unsigned v).1, (h.unsigned v).2, h.head, hdigits, List.length_map]
  split_ifs
  · rfl
  · rw [List.map_append, List.map_append, zeros, List.map_replicate, h.fixed.1]

theorem Folds.padding (h : Folds g d e) (v : ℤ) :
    (e.integerBox v).padding = (d.integerBox v).padding := by
  rw [Box.padding, Box.padding, Directive.integerBox, Directive.integerBox, h.zeroFlag, h.width,
    h.text, List.length_map]

theorem Folds.full (h : Folds g d e) (v : ℤ) :
    (e.integerBox v).full = (d.integerBox v).full.map g := by
  have hspaces (k : ℕ) : (Box.spaces k).map g = Box.spaces k := by
    rw [Box.spaces, List.map_replicate, h.fixed.2]
  have hminus : (e.integerBox v).minus = (d.integerBox v).minus := by
    simp only [Directive.integerBox, Directive.leftFlag, h.flags]
  have htext : (e.integerBox v).text = (d.integerBox v).text.map g := h.text v
  unfold Box.full
  rw [hminus, h.padding, htext]
  split_ifs <;> rw [List.map_append, hspaces]

theorem digitsText_map {hu hu' : Bool} {radix : ℕ} (hr : IsRadix radix)
    (hg : ∀ x : Fin 16, g (digitChar hu x) = digitChar hu' x) (n : ℕ) :
    digitsText hu' radix n = (digitsText hu radix n).map g := by
  have h16 : radix ≤ 16 := by rcases hr with h | h | h <;> omega
  rw [digitsText, digitsText, List.map_map]
  apply List.map_congr_left
  intro x hx
  have hlt := numeral_lt hr.one_lt hx
  exact (hg ⟨x, by omega⟩).symm

theorem huge_folds (hk : d.specifier = .x) :
    Folds Cstring.upper d (huge d) ∧ Folds Cstring.lower (huge d) d := by
  have hsign (v : ℤ) : (huge d).sign v = [] ∧ d.sign v = [] := by
    refine ⟨rfl, ?_⟩
    rw [Directive.sign, hk]
    rfl
  have halt (n : ℕ) : (huge d).alternative n = (d.alternative n).map Cstring.upper ∧
      d.alternative n = ((huge d).alternative n).map Cstring.lower := by
    have hu : (huge d).specifier = .X := rfl
    have hf : (huge d).flags = d.flags := rfl
    simp only [Directive.alternative, hk, hu, hf]
    split_ifs <;> decide
  have hdigits (n : ℕ) : Specifier.X.digits n = (Specifier.x.digits n).map Cstring.upper ∧
      Specifier.x.digits n = (Specifier.X.digits n).map Cstring.lower :=
    ⟨digitsText_map (.inr (.inr rfl)) (by decide) n, digitsText_map (.inr (.inr rfl)) (by decide) n⟩
  constructor
  · exact ⟨rfl, rfl, rfl, hsign, fun n => (halt n).1, fun n => hk ▸ (hdigits n).1, by decide⟩
  · exact ⟨rfl, rfl, rfl, fun v => (hsign v).symm, fun n => (halt n).2,
      fun n => hk ▸ (hdigits n).2, by decide⟩

theorem ShowsInteger.huge {D : DataModel} {m : Ram} {buffer size fmt fmt' : ℕ} {ap : VaList}
    (hk : d.specifier = .x) (h : ShowsInteger D m buffer size fmt d ap v)
    (hfmt : m.IsString fmt' (byte '%' :: (huge d).text))
    (hapart : fmt' + (byte '%' :: (huge d).text).length < buffer ∨ buffer + size ≤ fmt') :
    ShowsInteger D m buffer size fmt' (Printf.huge d) ap v := by
  have hfolds := (huge_folds hk).1
  have hfits := h.scratch
  have hpad := h.padding
  have harg := h.argument
  rw [hk] at harg
  refine ⟨rfl, hfmt, hapart, harg, ?_, ?_, h.positive, h.bound⟩
  · have hdigits : (Printf.huge d).digits v = (d.digits v).map Cstring.upper := hfolds.digits _
    unfold Directive.IntegerFits at hfits ⊢
    rw [hfolds.zeroFlag, hdigits, hfolds.head, List.length_map, List.length_map]
    exact hfits
  · have htext : ((Printf.huge d).integerBox v).text = (d.integerBox v).text.map Cstring.upper :=
      hfolds.text v
    unfold Box.PaddingFits at hpad ⊢
    rw [hfolds.padding, htext, List.length_map]
    exact hpad

theorem folded_cells {m m₁ m₂ m₃ : Ram} {p : ℕ} {s : List UInt8} (h₁ : Cstring.Leaves m m₁ p p s)
    (h₂ : Cstring.Leaves m m₂ p p (s.map g)) (h₃ : Cstring.Leaves m₁ m₃ p p (s.map g)) :
    m₃.cells = m₂.cells := by
  rw [← List.map_id s] at h₁ h₃
  exact h₂.map_again (fun _ => rfl) h₁ h₃

end Case

theorem case_printed {D : DataModel} {m : Ram} {buffer size fmt fmt' : ℕ} {d : Directive}
    {ap : VaList} {v : ℤ} (hk : d.specifier = .x) (h : ShowsInteger D m buffer size fmt d ap v)
    (hfmt : m.IsString fmt' (byte '%' :: (huge d).text))
    (hapart : fmt' + (byte '%' :: (huge d).text).length < buffer ∨ buffer + size ≤ fmt')
    (hm : m.Mapped buffer size) :
    ∃ r m₁ m₂ m₃ m₄, snprintfAt (wrapping D) m buffer size fmt ap = .ok (r, m₁) ∧
      snprintfAt (wrapping D) m buffer size fmt' ap = .ok (r, m₂) ∧
      Cstring.strupr m₁ buffer = .ok (buffer, m₃) ∧ m₃.cells = m₂.cells ∧
      Cstring.strlwr m₂ buffer = .ok (buffer, m₄) ∧ m₄.cells = m₁.cells := by
  obtain ⟨hu, hl⟩ := huge_folds hk
  obtain ⟨m₁, hrun₁, hl₁⟩ := h.call (hm.mono (Nat.min_le_left _ _))
  obtain ⟨m₂, hrun₂, hl₂⟩ := (h.huge hk hfmt hapart).call (hm.mono (Nat.min_le_left _ _))
  obtain ⟨m₃, hupr, hl₃⟩ := Cstring.strupr_ok hl₁.string
  obtain ⟨m₄, hlwr, hl₄⟩ := Cstring.strlwr_ok hl₂.string
  have hupper : ((huge d).integerBox v).full.take (size - 1) =
      ((d.integerBox v).full.take (size - 1)).map Cstring.upper := by
    rw [hu.full, List.map_take]
  have hlower : (d.integerBox v).full.take (size - 1) =
      (((huge d).integerBox v).full.take (size - 1)).map Cstring.lower := by
    rw [hl.full, List.map_take]
  have hvalue : returned size ((huge d).integerBox v).full = returned size (d.integerBox v).full := by
    rw [returned, returned, hu.full, List.length_map]
  rw [hvalue] at hrun₂
  refine ⟨_, m₁, m₂, m₃, m₄, hrun₁, hrun₂, hupr, ?_, hlwr, ?_⟩
  · exact folded_cells hl₁ (hupper ▸ hl₂) hl₃
  · exact folded_cells hl₂ (hlower ▸ hl₁) hl₄

def prefixedHex : Directive := ⟨[.alt], .none, .none, .null, .x⟩

def hexFormats : Ram :=
  { cells := (255 :: bytes "%#x" ++ 0 :: bytes "%#X" ++ 0 :: List.replicate 4 255).map some }

theorem case_printed_prefixedHex : ∃ r m₁ m₂ m₃ m₄,
    snprintfAt (wrapping .lp64) hexFormats 9 4 1 (LittleEndian.encode 8 175) = .ok (r, m₁) ∧
      snprintfAt (wrapping .lp64) hexFormats 9 4 5 (LittleEndian.encode 8 175) = .ok (r, m₂) ∧
      Cstring.strupr m₁ 9 = .ok (9, m₃) ∧ m₃.cells = m₂.cells ∧
      Cstring.strlwr m₂ 9 = .ok (9, m₄) ∧ m₄.cells = m₁.cells := by
  apply case_printed (d := prefixedHex) (v := 175)
  · rfl
  · exact ⟨rfl, by decide, by decide, ⟨_, [], .nil _, by decide +kernel⟩, by decide, by decide,
      by decide, by decide⟩
  all_goals decide

end OsdevLibstdc.Printf
