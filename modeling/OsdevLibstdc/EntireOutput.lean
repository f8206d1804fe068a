import OsdevLibstdc.FieldLayout

/-!
Calls that leave all of the rendered format. A field may come out entire although it does not fit
the room it is given, and the output then goes on behind the room.
-/

namespace OsdevLibstdc.Vsnprintf

open Target ByteStores Outcomes

def Renders (D : DataModel) (strings : Strings) (maxSize : ℕ) (fmt : CString) (ap : VaList)
    (text : List UInt8) : Prop :=
  ∃ res, vsnprintf (wrapping D) strings maxSize fmt ap = .ok res ∧ Leaves text res ∧
    res.value = text.length

/-- All that the room cuts off a string on the left of its field are blanks, and the padding puts
as many back. -/
def Field.BlanksRestored (room : ℕ) (f : Field) : Prop :=
  f.isString = true ∧ f.whole.minus = true ∧ room < f.whole.text.length ∧
    (∀ c ∈ f.whole.text.drop room, c = byte ' ') ∧
    f.whole.text.length ≤ room + (f.box room).padding ∧ (f.box room).padding ≤ room

def Field.Entire (room : ℕ) (f : Field) : Prop := f.whole.StoredWhole room ∨ f.BlanksRestored room

def AllEntire (size : ℤ) : ℤ → ℕ → List Field → Prop
  | _, _, [] => True
  | i, o, f :: fields =>
    if (o : ℤ) < size then
      (0 ≤ f.room size i o ∧ f.Entire (f.room size i o).toNat) ∧
        AllEntire size (wrapInt (i + 1)) (o + f.full.length) fields
    else render (f :: fields) = []

theorem render_cons (f : Field) (fields : List Field) :
    render (f :: fields) = f.full ++ render fields := rfl

section Boxes

theorem padding_eq {b : Box} (hb : (b.padding + b.text.length : ℤ) ≤ INT_MAX) (k : ℕ)
    (hk : k ≤ b.text.length) {text : List UInt8} (ht : text.length = k) :
    Box.padding ⟨b.minus, b.width, text⟩ = (wrapInt b.width - k).toNat := by
  have hl := wrapInt_ge b.width
  have hu := wrapInt_le b.width
  have hge : INT_MIN ≤ wrapInt b.width - b.text.length := by
    by_contra hlt
    have hwrap : wrapInt (b.width - b.text.length) =
        wrapInt b.width - b.text.length + 4294967296 := by
      rw [← wrapInt_sub, ← wrapInt_add]
      apply wrapInt_eq <;> simp only [INT_MIN, INT_MAX] at * <;> omega
    unfold Box.padding at hb
    rw [hwrap] at hb
    simp only [INT_MIN, INT_MAX] at *
    omega
  simp only [Box.padding, ht]
  rw [← wrapInt_sub, wrapInt_eq (by omega) (by omega)]

variable {f : Field} {room : ℕ}

theorem string_box (hs : f.isString = true) (hl : (f.full.length : ℤ) ≤ INT_MAX) (room : ℕ) :
    (f.box room).minus = f.whole.minus ∧ (f.box room).text = f.whole.text.take room ∧
      (f.box room).padding = (wrapInt f.whole.width).toNat - min room f.whole.text.length ∧
      f.whole.padding = (wrapInt f.whole.width).toNat - f.whole.text.length := by
  have hfull := f.full_length
  have hbox : f.box room = { f.whole with text := f.whole.text.take room } := by
    rw [Field.box, if_pos hs]
  have hb : (f.whole.padding + f.whole.text.length : ℤ) ≤ INT_MAX := by omega
  rw [hbox]
  refine ⟨rfl, rfl, ?_, ?_⟩
  · rw [padding_eq hb (min room f.whole.text.length) (by omega) List.length_take]
    omega
  · rw [padding_eq hb f.whole.text.length le_rfl rfl]
    omega

theorem box_of_not_string (hs : f.isString = false) (room : ℕ) : f.box room = f.whole := by
  rw [Field.box, if_neg (by simp [hs])]

theorem advance_le_full (hl : (f.full.length : ℤ) ≤ INT_MAX) (room : ℕ) :
    (f.box room).advance room ≤ f.full.length := by
  rw [f.full_length]
  by_cases hs : f.isString = true
  · obtain ⟨hminus, htext, hpad, hwhole⟩ := string_box hs hl room
    rw [hwhole]
    unfold Box.advance
    rw [hpad, htext, List.length_take]
    split_ifs <;> omega
  · rw [box_of_not_string (by simpa using hs)]
    unfold Box.advance
    split_ifs <;> omega

theorem storedWhole_iff (b : Box) (room : ℕ) :
    b.image room = b.full ∧ b.advance room = b.full.length ↔ b.StoredWhole room := by
  constructor
  · rintro ⟨himage, -⟩
    have hlen := congrArg List.length himage
    rw [Box.image_length, Box.full_length] at hlen
    unfold Box.StoredWhole
    split_ifs at hlen ⊢ <;> omega
  · intro h
    exact ⟨h.image_eq, h.advance_eq⟩

theorem blanks_iff {xs : List UInt8} {r k j : ℕ} (hr : r ≤ xs.length)
    (hlen : r + k = xs.length + j) :
    xs.take r ++ Box.spaces k = xs ++ Box.spaces j ↔ ∀ c ∈ xs.drop r, c = byte ' ' := by
  have hsplit : xs ++ Box.spaces j = xs.take r ++ (xs.drop r ++ Box.spaces j) := by
    rw [← List.append_assoc, List.take_append_drop]
  have hk : k = (xs.drop r).length + j := by
    rw [List.length_drop]
    omega
  rw [hsplit, List.append_cancel_left_eq, hk, ← Box.spaces_append, List.append_cancel_right_eq,
    ← Box.eq_spaces_iff, eq_comm]

theorem entire_iff (hl : (f.full.length : ℤ) ≤ INT_MAX) (room : ℕ) :
    (f.box room).image room = f.full ∧ (f.box room).advance room = f.full.length ↔
      f.Entire room := by
  rw [Field.Entire]
  by_cases hle : f.whole.text.length ≤ room
  · have hblank : ¬ f.BlanksRestored room := fun h => by
      have := h.2.2.1
      omega
    rw [Field.box_of_le hle, or_iff_left hblank]
    exact storedWhole_iff _ _
  · have hcut : ¬ f.whole.StoredWhole room := fun h => hle h.text_le
    rw [or_iff_right hcut]
    by_cases hs : f.isString = true
    · obtain ⟨hminus, htext, hpad, hwhole⟩ := string_box hs hl room
      have himage := Box.image_length (f.box room) room
      have hfull := f.full_length
      rw [hminus, htext, List.length_take] at himage
      by_cases hm : f.whole.minus = true
      · rw [if_pos hm] at himage
        have hshape : (f.box room).image room = f.whole.text.take room ++
            Box.spaces (min (f.box room).padding room) := by
          rw [Box.image, hminus, if_pos hm, htext, List.take_take, Nat.min_self]
        have hwhole' : f.full = f.whole.text ++ Box.spaces f.whole.padding := by
          rw [Field.full, Box.full, if_pos hm]
        have hadv : (f.box room).advance room = room + (f.box room).padding := by
          rw [Box.advance, hminus, if_pos hm, htext, List.length_take]
          omega
        rw [hadv]
        constructor
        · rintro ⟨he, ha⟩
          rw [he] at himage
          have hpadr : (f.box room).padding ≤ room := by omega
          rw [hshape, hwhole', Nat.min_eq_left hpadr, blanks_iff (by omega) (by omega)] at he
          exact ⟨hs, hm, by omega, he, by omega, hpadr⟩
        · rintro ⟨-, -, -, hblank, hlen, hpadr⟩
          refine ⟨?_, by omega⟩
          rw [hshape, hwhole', Nat.min_eq_left hpadr, blanks_iff (by omega) (by omega)]
          exact hblank
      · rw [if_neg hm] at himage
        refine iff_of_false ?_ (fun h => hm h.2.1)
        rintro ⟨h, -⟩
        rw [h] at himage
        omega
    · have hbox := box_of_not_string (f := f) (by simpa using hs) room
      refine iff_of_false ?_ (fun h => hs h.1)
      rw [hbox]
      intro h
      exact hcut ((storedWhole_iff _ _).mp h)

end Boxes

section Runs

variable {size i : ℤ}

theorem PutRun.within {fields left : List Field} {p q : Progress}
    (h : PutRun size i fields p q left) (hl : ((render fields).length : ℤ) ≤ INT_MAX) :
    q.pos ≤ p.pos + (render fields).length ∧
      ∀ m a, a < p.pos ∨ q.pos ≤ a → replay q.stores m a = replay p.stores m a := by
  induction h with
  | done | stop => exact ⟨Nat.le_add_right _ _, fun _ _ _ => rfl⟩
  | @put i f fields left p p' q _ _ _ hputs hrest ih =>
    rw [render_cons, List.length_append] at hl ⊢
    have hadv : f.advance size i p.pos ≤ f.full.length := advance_le_full (by omega) _
    have himage : (f.image size i p.pos).length ≤ f.advance size i p.pos :=
      Field.image_length_le p.pos f
    have hpos := hputs.pos
    obtain ⟨hle, hmem⟩ := ih (by omega)
    have hpq : p'.pos ≤ q.pos := hrest.pos_le
    refine ⟨by omega, ?_⟩
    intro m a ha
    rw [hmem m a (by omega), hputs.memory]
    rcases ha with ha | ha
    · exact write_below ha
    · exact write_above (by simp only; omega)

theorem entire_request {f : Field} {o : ℕ} (hl : (f.full.length : ℤ) ≤ INT_MAX)
    (h : f.Entire (f.room size i o).toNat) : f.request size i o = f.full.length := by
  rw [Field.request]
  rcases h with hw | ⟨hs, hm, hcut, -, hlen, -⟩
  · rw [Field.box_of_le hw.text_le]
    rfl
  · obtain ⟨-, htext, hpad, hwhole⟩ := string_box hs hl (f.room size i o).toNat
    have hfull := f.full_length
    rw [Box.full_length, htext, List.length_take]
    omega

theorem putFields_entire {fields : List Field} {p : Progress}
    (hl : ((render fields).length : ℤ) ≤ INT_MAX) (h : AllEntire size i p.pos fields) :
    ∃ q left, putFields size i fields p = .ok (q, left) ∧ Appends (render fields) p q ∧
      q.total = p.total + (render fields).length := by
  induction fields generalizing i p with
  | nil => exact ⟨p, [], rfl, .refl p, (add_zero _).symm⟩
  | cons f fields ih =>
    by_cases hlt : (p.pos : ℤ) < size
    · rw [AllEntire, if_pos hlt] at h
      obtain ⟨⟨hroom, hentire⟩, hrest⟩ := h
      rw [render_cons, List.length_append] at hl ⊢
      obtain ⟨himage, hadv⟩ := (entire_iff (by omega) _).mpr hentire
      obtain ⟨p', hp', hputs⟩ := Field.put_ok hlt hroom
      have hpos : p'.pos = p.pos + f.full.length := hputs.pos.trans (congrArg (p.pos + ·) hadv)
      have htotal := hputs.total
      rw [entire_request (by omega) hentire] at htotal
      have hfirst : Appends f.full p p' := by
        constructor
        · exact hpos
        · intro m
          rw [hputs.memory, Field.image, himage]
        · rw [hputs.volume, Field.image, himage]
      rw [← hpos] at hrest
      obtain ⟨q, left, hput, happ, hq⟩ := ih (by omega) hrest
      refine ⟨q, left, ?_, hfirst.trans happ, ?_⟩
      · rw [putFields, if_pos hlt, hp', ok_bind, hput]
      · rw [hq, htotal]
        push_cast
        omega
    · rw [AllEntire, if_neg hlt] at h
      refine ⟨p, _, putFields_stop _ hlt, ?_, ?_⟩
      · rw [h]
        exact .refl p
      · rw [h]
        exact (add_zero _).symm

theorem PutRun.allEntire {fields left : List Field} {p q : Progress}
    (h : PutRun size i fields p q left) (hl : ((render fields).length : ℤ) ≤ INT_MAX)
    (hq : q.pos = p.pos + (render fields).length) {m : Memory}
    (hm : ∀ j (hj : j < (render fields).length),
      replay p.stores m (p.pos + j) ≠ (render fields)[j])
    (hread : ∀ j (hj : j < (render fields).length),
      replay q.stores m (p.pos + j) = (render fields)[j]) : AllEntire size i p.pos fields := by
  induction h with
  | done => trivial
  | stop i f fields p hstop =>
    rw [AllEntire, if_neg hstop]
    apply List.length_eq_zero_iff.mp
    omega
  | @put i f fields left p p' q hlt hroom _ hputs hrest ih =>
    rw [AllEntire, if_pos hlt]
    have hlen : (render (f :: fields)).length = f.full.length + (render fields).length := by
      rw [render_cons, List.length_append]
    have hadv : f.advance size i p.pos ≤ f.full.length := advance_le_full (by omega) _
    have hbound : (f.image size i p.pos).length ≤ f.advance size i p.pos :=
      Field.image_length_le p.pos f
    obtain ⟨hle, hkeep⟩ := hrest.within (by omega)
    have hpos := hputs.pos
    have hp' : p'.pos = p.pos + f.full.length := by omega
    have hhead (j : ℕ) (hj : j < f.full.length) (hj' : j < (render (f :: fields)).length) :
        (render (f :: fields))[j] = f.full[j] := by
      simp only [render_cons]
      exact List.getElem_append_left hj
    have htail (j : ℕ) (hj : j < (render fields).length)
        (hj' : f.full.length + j < (render (f :: fields)).length) :
        (render (f :: fields))[f.full.length + j] = (render fields)[j] := by
      simp only [render_cons]
      rw [List.getElem_append_right (by omega)]
      simp
    have himage : f.image size i p.pos = f.full := by
      apply bytes_eq_of_write (by omega)
      · intro j hj
        rw [← hhead j hj (by omega)]
        exact hm j _
      · intro j hj
        rw [← hputs.memory, ← hkeep m _ (by omega), ← hhead j hj (by omega)]
        exact hread j _
    refine ⟨⟨hroom, (entire_iff (by omega) _).mp ⟨himage, ?_⟩⟩, ?_⟩
    · have : f.advance size i p.pos = f.full.length := by omega
      exact this
    · rw [← hp']
      apply ih (by omega) (by omega)
      · intro j hj
        rw [hputs.memory, write_above (by simp only; omega), ← htail j hj (by omega), hp',
          Nat.add_assoc]
        exact hm _ _
      · intro j hj
        rw [← htail j hj (by omega), hp', Nat.add_assoc]
        exact hread _ _

end Runs

section Unlike

variable {bs : List UInt8}

def unlike (bs : List UInt8) : Memory := fun a => (bs[a]?).getD 0 + 1

theorem unlike_ne {j : ℕ} (hj : j < bs.length) : unlike bs j ≠ bs[j] := by
  intro h
  rw [unlike, List.getElem?_eq_getElem hj, Option.getD_some] at h
  have hnat := congrArg UInt8.toNat h
  simp only [UInt8.toNat_add, UInt8.reduceToNat] at hnat
  omega

theorem unlike_length : unlike bs bs.length ≠ 0 := by
  rw [unlike, List.getElem?_eq_none le_rfl]
  decide

end Unlike

section Call

variable {D : DataModel} {strings : Strings} {maxSize : ℕ} {fmt : CString} {ap rest : VaList}
  {fields : List Field}

theorem renders_of_put {q : Progress} {left : List Field}
    (hf : FieldsOf (wrapping D) strings fmt ap fields rest) (h1 : 1 ≤ maxSize)
    (hmax : (maxSize : ℤ) < INT_MAX) (hl : ((render fields).length : ℤ) ≤ INT_MAX)
    (hput : putFields (maxSize - 1 : ℤ) 0 fields {} = .ok (q, left))
    (happ : Appends (render fields) {} q) (htotal : q.total = (render fields).length) :
    Renders D strings maxSize fmt ap (render fields) := by
  obtain ⟨fmt', _, hres, -⟩ := vsnprintf_put hf h1 hmax hput
  refine ⟨_, hres, leaves_of_appends happ fmt', ?_⟩
  rw [← htotal]
  exact wrapInt_eq (by simp only [INT_MIN]; omega) (by omega)

theorem renders_iff (hf : FieldsOf (wrapping D) strings fmt ap fields rest) (h1 : 1 ≤ maxSize)
    (hmax : (maxSize : ℤ) < INT_MAX) (hl : ((render fields).length : ℤ) ≤ INT_MAX) :
    Renders D strings maxSize fmt ap (render fields) ↔ AllEntire (maxSize - 1) 0 0 fields := by
  constructor
  · rintro ⟨res, hres, hleaves, -⟩
    obtain ⟨q, left, fmt', hput, rfl⟩ := put_of_vsnprintf hf h1 hmax hres
    obtain ⟨hle, hkeep⟩ := (putRun_of_ok hput).within hl
    simp only [Nat.zero_add] at hle hkeep
    have hpos : q.pos = (render fields).length := by
      by_contra hbehind
      have hnul := hleaves.nul (unlike (render fields))
      rw [q.result_memory fmt' _ (by omega), hkeep _ _ (.inr (by omega))] at hnul
      exact unlike_length hnul
    apply (putRun_of_ok hput).allEntire hl (by simp only; omega) (m := unlike (render fields))
    · intro j hj
      simp only [Nat.zero_add]
      exact unlike_ne hj
    · intro j hj
      have hbyte := read_eq_iff.mp (hleaves.bytes (unlike (render fields))) j hj
      rw [Nat.zero_add, q.result_memory fmt' _ (by omega)] at hbyte
      rwa [Nat.zero_add]
  · intro h
    obtain ⟨q, left, hput, happ, htotal⟩ := putFields_entire (p := {}) hl h
    exact renders_of_put hf h1 hmax hl hput happ (by simpa using htotal)

end Call

end OsdevLibstdc.Vsnprintf
