import OsdevLibstdc.EntireOutput
import OsdevLibstdc.MatchedArguments
import OsdevLibstdc.TruncatedOutput

/-!
A format that is put in front of another. Every field but the null pointer's is put the same
wherever it stands; that one takes its room from the number of directives before it.
-/

namespace OsdevLibstdc.Vsnprintf

open Target ByteStores LittleEndian Outcomes

def Field.NilFits (size i : ℤ) (o : ℕ) (f : Field) : Prop :=
  f.isNil = true → 0 ≤ f.room size i o ∧ f.whole.StoredWhole (f.room size i o).toNat

structure Field.Stored (size i : ℤ) (o : ℕ) (f : Field) : Prop where
  clean : f.Clean size i o
  request : f.request size i o = f.full.length

section Stored

variable {size i : ℤ}

theorem Field.NilFits.stored {o : ℕ} {f : Field} (ho : (o : ℤ) < size) (h : f.NilFits size i o)
    (hl : (o + f.full.length : ℤ) ≤ size) : f.Stored size i o := by
  have hfull := f.full_length
  by_cases hn : f.isNil = true
  · obtain ⟨hr, hw⟩ := h hn
    refine ⟨clean_of_storedWhole hr (by omega) hw, ?_⟩
    rw [request, box_of_le hw.text_le]
    rfl
  · have hr : f.room size i o = size - o := room_eq (by simpa using hn)
    refine ⟨clean_of_le ho hr hl, ?_⟩
    rw [request, hr, box_of_le (by omega)]
    rfl

theorem render_append (fs gs : List Field) : render (fs ++ gs) = render fs ++ render gs :=
  List.flatMap_append

theorem eachField_stored {o : ℕ} {fields : List Field}
    (h : EachField size (Field.NilFits size) i o fields)
    (hl : (o + (render fields).length : ℤ) ≤ size) :
    EachField size (Field.Stored size) i o fields := by
  induction fields generalizing i o with
  | nil => trivial
  | cons f fields ih =>
    intro ho
    obtain ⟨hf, hrest⟩ := h ho
    rw [render_cons, List.length_append] at hl
    refine ⟨hf.stored ho (by omega), ih hrest ?_⟩
    push_cast at hl ⊢
    omega

theorem PutRun.all {fields left : List Field} {p q : Progress}
    (h : PutRun size i fields p q left) (hq : (q.pos : ℤ) < size) : left = [] := by
  induction h with
  | done => rfl
  | stop i f fields p hstop => exact absurd hq hstop
  | put _ _ _ _ _ ih => exact ih hq

theorem PutRun.request {fields left : List Field} {p q : Progress}
    (hrun : PutRun size i fields p q left) (h : EachField size (Field.Stored size) i p.pos fields)
    (hl : (p.pos + (render fields).length : ℤ) ≤ size) :
    q.total = p.total + (render fields).length := by
  induction hrun with
  | done i p => exact (add_zero _).symm
  | stop => omega
  | @put i f fields left p p' q hlt _ _ hputs _ ih =>
    obtain ⟨hstored, hrest⟩ := h hlt
    rw [render_cons, List.length_append] at hl ⊢
    have hpos : p'.pos = p.pos + f.full.length := by
      rw [hputs.pos, hstored.clean.advance]
      omega
    have htotal := hputs.total
    rw [hstored.request] at htotal
    rw [← hpos] at hrest
    rw [ih hrest (by omega), htotal]
    push_cast
    omega

theorem eachField_ample {o : ℕ} {fields : List Field} (hi : 0 ≤ i) (hs : size ≤ INT_MAX)
    (hl : i + fields.length + o + (render fields).length ≤ size) :
    EachField size (Field.NilFits size) i o fields := by
  induction fields generalizing i o with
  | nil => trivial
  | cons f fields ih =>
    rw [render_cons, List.length_append, List.length_cons] at hl
    push_cast at hl
    have hwrap : wrapInt (i + 1) = i + 1 :=
      wrapInt_eq (by simp only [INT_MIN]; omega) (by omega)
    refine fun _ => ⟨fun hn => ?_, ?_⟩
    · have hr : f.room size i o = size - i := by
        cases f with
        | nil => exact wrapInt_eq (by simp only [INT_MIN]; omega) (by omega)
        | _ => cases hn
      have hfull := f.full_length
      refine ⟨by omega, ?_⟩
      unfold Box.StoredWhole
      split_ifs <;> omega
    · rw [hwrap]
      apply ih (by omega)
      push_cast
      omega

end Stored

section Nil

variable {size i : ℤ} {o : ℕ} {f : Field}

theorem nil_no_blank (hn : f.isNil = true) : byte ' ' ∉ f.whole.text := by
  cases f with
  | nil minus width precision =>
    have hk : byte ' ' ∉ kNil := by decide
    unfold Field.whole cut
    simp only
    split_ifs
    · intro hm
      exact hk (List.mem_of_mem_take hm)
    · exact hk
  | _ => cases hn

theorem nil_not_restored (hn : f.isNil = true) (room : ℕ) : ¬ f.BlanksRestored room := by
  rintro ⟨-, -, hcut, hblank, -, -⟩
  have hpos : 0 < (f.whole.text.drop room).length := by
    rw [List.length_drop]
    omega
  have hmem := List.getElem_mem hpos
  have hspace := hblank _ hmem
  exact nil_no_blank hn (hspace ▸ List.mem_of_mem_drop hmem)

theorem nilFits_of_allEntire {fields : List Field} (h : AllEntire size i o fields) :
    EachField size (Field.NilFits size) i o fields := by
  induction fields generalizing i o with
  | nil => trivial
  | cons f fields ih =>
    intro ho
    rw [AllEntire, if_pos ho] at h
    obtain ⟨⟨hroom, hentire⟩, hrest⟩ := h
    refine ⟨?_, ih hrest⟩
    intro hn
    exact ⟨hroom, hentire.resolve_right (nil_not_restored hn _)⟩

end Nil

section Call

variable {D : DataModel} {strings : Strings} {maxSize A B : ℕ} {fmt : CString} {f g : List Item}
  {ap apf apg rest : VaList} {fields fs gs : List Field}

/-- The call renders the text and comes to the end of the format, as in an ample buffer. -/
def RendersAll (D : DataModel) (strings : Strings) (maxSize : ℕ) (fmt : CString) (ap : VaList)
    (text : List UInt8) : Prop :=
  ∃ res, vsnprintf (wrapping D) strings maxSize fmt ap = .ok res ∧ Leaves text res ∧
    res.value = text.length ∧ res.fmt = [0]

def Concatenates (D : DataModel) (strings : Strings) (maxSize A B : ℕ) (f g : CString)
    (apf apg : VaList) (s t : List UInt8) : Prop :=
  RendersAll D strings A f apf s ∧ RendersAll D strings B g apg t ∧
    Renders D strings maxSize (concat f g) (apf ++ apg) (s ++ t)

theorem renders_of_nilFits (hf : FieldsOf (wrapping D) strings fmt ap fields rest)
    (hmax : (maxSize : ℤ) < INT_MAX) (hl : (render fields).length < maxSize)
    (hn : EachField (maxSize - 1) (Field.NilFits (maxSize - 1)) 0 0 fields) :
    Renders D strings maxSize fmt ap (render fields) := by
  have hstored := eachField_stored hn (by omega)
  have hclean : EachField (maxSize - 1) (Field.Clean (maxSize - 1)) 0 0 fields :=
    hstored.mono fun _ _ _ _ _ h => h.clean
  obtain ⟨q, left, hput, happ⟩ := putFields_clean (p := {}) hclean
  rw [List.take_of_length_le (by simp only; omega)] at happ
  have htotal := (putRun_of_ok hput).request hstored (by simp only; omega)
  exact renders_of_put hf (by omega) hmax (by omega) hput happ (by simpa using htotal)

theorem nilFits_of_renders (hf : FieldsOf (wrapping D) strings fmt ap fields rest)
    (hmax : (maxSize : ℤ) < INT_MAX) (hl : (render fields).length < maxSize)
    (h : Renders D strings maxSize fmt ap (render fields)) :
    EachField (maxSize - 1) (Field.NilFits (maxSize - 1)) 0 0 fields := by
  apply nilFits_of_allEntire
  exact (renders_iff hf (by omega) hmax (by omega)).mp h

theorem rendersAll_ample (hf : FieldsOf (wrapping D) strings fmt ap fields rest)
    (hA : fields.length + (render fields).length < A) (hmax : (A : ℤ) < INT_MAX) :
    RendersAll D strings A fmt ap (render fields) := by
  have hn : EachField (A - 1) (Field.NilFits (A - 1)) 0 0 fields :=
    eachField_ample le_rfl (by omega) (by push_cast; omega)
  obtain ⟨res, hres, hleaves, hvalue⟩ := renders_of_nilFits hf hmax (by omega) hn
  obtain ⟨q, left, _, hput, -⟩ := put_of_vsnprintf hf (by omega) hmax hres
  have hrun := putRun_of_ok hput
  have hleft : left = [] := by
    cases fields with
    | nil =>
      cases hrun
      rfl
    | cons f fields =>
      have hpos := (hrun.within (by omega)).1
      simp only [List.length_cons] at hpos hA
      exact hrun.all (by omega)
  obtain ⟨fmt', ap', hcall, hreads⟩ := vsnprintf_put hf (by omega) hmax hput
  rw [hres] at hcall
  rw [hleft] at hreads
  cases hreads
  exact ⟨res, hres, hleaves, hvalue, by rw [Except.ok.inj hcall]; rfl⟩

theorem matched_of_complete {items : List Item} {res : Result} (hap : Passed D (args items) ap [])
    (h1 : 1 ≤ maxSize) (hmax : (maxSize : ℤ) < INT_MAX)
    (hres : vsnprintf (wrapping D) strings maxSize (format items) ap = .ok res)
    (hend : res.fmt = [0]) : Matched D items := by
  obtain ⟨fields, p, c, fmt', rest, hreads, -, rfl, -⟩ := reads_of_vsnprintf h1 hmax hres
  have hfmt : c :: fmt' = [0] := hend
  rw [hfmt] at hreads
  exact matched_of_reads hap hreads

theorem RendersAll.matched {items : List Item} {text : List UInt8}
    (h : RendersAll D strings maxSize (format items) ap text) (hap : Passed D (args items) ap [])
    (h1 : 1 ≤ maxSize) (hmax : (maxSize : ℤ) < INT_MAX) : Matched D items := by
  obtain ⟨res, hres, -, -, hend⟩ := h
  exact matched_of_complete hap h1 hmax hres hend

theorem vsnprintf_concat (hapf : Passed D (args f) apf []) (hapg : Passed D (args g) apg [])
    (hf : FieldsAre D strings f fs) (hg : FieldsAre D strings g gs)
    (hA : fs.length + (render fs).length < A) (hA' : (A : ℤ) < INT_MAX)
    (hB : gs.length + (render gs).length < B) (hB' : (B : ℤ) < INT_MAX)
    (hmax : (maxSize : ℤ) < INT_MAX) (hl : (render (fs ++ gs)).length < maxSize) :
    (Matched D (f ++ g) → RendersAll D strings A (format f) apf (render fs) ∧
      RendersAll D strings B (format g) apg (render gs)) ∧
    (Concatenates D strings maxSize A B (format f) (format g) apf apg (render fs) (render gs) ↔
      Matched D (f ++ g) ∧ EachField (maxSize - 1) (Field.NilFits (maxSize - 1)) 0 0 (fs ++ gs)) := by
  have halone (hm : Matched D (f ++ g)) : RendersAll D strings A (format f) apf (render fs) ∧
      RendersAll D strings B (format g) apg (render gs) := by
    obtain ⟨hmf, hmg⟩ := matched_append.mp hm
    constructor
    · exact rendersAll_ample (fieldsOf_items hmf hapf hf) hA hA'
    · exact rendersAll_ample (fieldsOf_items hmg hapg hg) hB hB'
  have hfields (hm : Matched D (f ++ g)) :
      FieldsOf (wrapping D) strings (concat (format f) (format g)) (apf ++ apg) (fs ++ gs) [] := by
    obtain ⟨hmf, hmg⟩ := matched_append.mp hm
    exact (fieldsOf_items hmf hapf hf).concat (fieldsOf_items hmg hapg hg)
  refine ⟨halone, ?_⟩
  unfold Concatenates
  rw [← render_append]
  constructor
  · rintro ⟨hrf, hrg, hrfg⟩
    have hm : Matched D (f ++ g) := by
      apply matched_append.mpr
      exact ⟨hrf.matched hapf (by omega) hA', hrg.matched hapg (by omega) hB'⟩
    exact ⟨hm, nilFits_of_renders (hfields hm) hmax hl hrfg⟩
  · rintro ⟨hm, hn⟩
    obtain ⟨hrf, hrg⟩ := halone hm
    exact ⟨hrf, hrg, renders_of_nilFits (hfields hm) hmax hl hn⟩

end Call

def twoStrings : List Item :=
  [.directive ⟨[], .none, .none, .null, .s⟩ 4096, .directive ⟨[], .none, .none, .null, .s⟩ 4096]

def nullPointer : List Item := [.directive ⟨[], .none, .none, .null, .p⟩ 0]

def noLetters : Strings := fun _ => some ⟨[], by decide⟩

theorem twoStrings_passed :
    Passed .lp64 (args twoStrings) (encode 8 4096 ++ (encode 8 4096 ++ [])) [] :=
  .cons (by decide) (.cons (by decide) (.nil []))

theorem twoStrings_fields : FieldsAre .lp64 noLetters twoStrings
    [.string false (-1) (-1) [], .string false (-1) (-1) []] :=
  .cons rfl (.cons rfl .nil)

theorem nullPointer_passed : Passed .lp64 (args nullPointer) (encode 8 0 ++ []) [] :=
  .cons (by decide) (.nil [])

theorem nullPointer_fields :
    FieldsAre .lp64 noLetters nullPointer [.nil false (-1) (-1)] := .cons rfl .nil

theorem vsnprintf_concat_nullPointers :
    (Matched .lp64 (nullPointer ++ nullPointer) →
      RendersAll .lp64 noLetters 20 (format nullPointer) (encode 8 0 ++ [])
        (render [.nil false (-1) (-1)]) ∧
      RendersAll .lp64 noLetters 20 (format nullPointer) (encode 8 0 ++ [])
        (render [.nil false (-1) (-1)])) ∧
    (Concatenates .lp64 noLetters 20 20 20 (format nullPointer) (format nullPointer)
        (encode 8 0 ++ []) (encode 8 0 ++ []) (render [.nil false (-1) (-1)])
        (render [.nil false (-1) (-1)]) ↔
      Matched .lp64 (nullPointer ++ nullPointer) ∧
        EachField ((20 : ℕ) - 1) (Field.NilFits ((20 : ℕ) - 1)) 0 0
          ([.nil false (-1) (-1)] ++ [.nil false (-1) (-1)])) :=
  vsnprintf_concat nullPointer_passed nullPointer_passed nullPointer_fields nullPointer_fields
    (by decide) (by decide) (by decide) (by decide) (by decide) (by decide)

theorem vsnprintf_not_concat :
    ¬ ∀ (D : DataModel) (strings : Strings) (maxSize A B : ℕ) (f g : List Item)
      (apf apg : VaList) (fs gs : List Field), Passed D (args f) apf [] →
      Passed D (args g) apg [] → FieldsAre D strings f fs → FieldsAre D strings g gs →
      fs.length + (render fs).length < A → (A : ℤ) < INT_MAX →
      gs.length + (render gs).length < B → (B : ℤ) < INT_MAX → (maxSize : ℤ) < INT_MAX →
      (render (fs ++ gs)).length < maxSize →
      Concatenates D strings maxSize A B (format f) (format g) apf apg (render fs) (render gs) := by
  intro h
  obtain ⟨-, -, res, hres, -, hvalue⟩ := h .lp64 noLetters 6 20 20 twoStrings nullPointer _ _ _ _
    twoStrings_passed nullPointer_passed twoStrings_fields nullPointer_fields (by decide)
    (by decide) (by decide) (by decide) (by decide) (by decide)
  have hrun : vsnprintf (wrapping .lp64) noLetters 6
      (concat (format twoStrings) (format nullPointer))
      ((encode 8 4096 ++ (encode 8 4096 ++ [])) ++ (encode 8 0 ++ [])) =
      .ok ⟨3, 3, [⟨3, [0]⟩, ⟨0, bytes "(ni"⟩, ⟨0, []⟩, ⟨0, []⟩, ⟨0, []⟩, ⟨0, []⟩, ⟨0, []⟩],
        [], [0]⟩ := rfl
  rw [hrun] at hres
  obtain rfl := Except.ok.inj hres
  exact absurd hvalue (by decide)

end OsdevLibstdc.Vsnprintf
