import OsdevLibstdc.CleanOutput
import OsdevLibstdc.DirectiveParsing

/-!
What one iteration of the loop prints for a directive, wherever the loop stands and whatever
room it has for the text.
-/

namespace OsdevLibstdc.Vsnprintf

open Target ByteStores Outcomes

structure LoopState.At (st : LoopState) (size : ℤ) (d : Directive) (more : Cursor) (ap : VaList) :
    Prop where
  bound : size ≤ INT_MAX
  written : st.written = st.out.pos
  room : (st.written : ℤ) < size
  cursor : st.fmt = byte '%' :: (d.text ++ more)
  args : st.ap = ap

structure Printed (st st' : LoopState) (text : List UInt8) : Prop where
  pos : st'.out.pos = st.out.pos + text.length
  total : st'.out.spec.total = st.out.spec.total + text.length
  memory : ∀ m, replay st'.out.stores m =
    (Store.mk st.out.pos text).write (replay st.out.stores m)
  volume : volume st'.out.stores = volume st.out.stores + text.length

/-- Wherever the text fits, the directive stores exactly it, and takes the arguments up to `ap'`. -/
def Prints (D : DataModel) (strings : Strings) (d : Directive) (ap ap' : VaList)
    (text : List UInt8) : Prop :=
  (text.length : ℤ) < INT_MAX ∧
  ∀ st size more, st.At size d more ap → (st.out.pos + text.length : ℤ) ≤ size →
    ∃ st', loopStep (wrapping D) strings size st = .ok st' ∧ st'.fmt = more ∧ st'.ap = ap' ∧
      Printed st st' text

def ReadsAs (D : DataModel) (strings : Strings) (d : Directive) (ap ap' : VaList) (f : Field) :
    Prop :=
  ∀ more, nextField (wrapping D) strings (byte '%' :: (d.text ++ more)) ap = .ok (f, ap', more)

theorem nextField_text {D : DataModel} {strings : Strings} (d : Directive) (more : Cursor)
    {ap ap' : VaList} (hstars : Passed D d.starArgs ap ap') :
    nextField (wrapping D) strings (byte '%' :: (d.text ++ more)) ap =
      (conversion (wrapping D) d.specifier.byte (clearZero d.spec) ap' >>= fun r =>
        r.1.field (wrapping D) strings >>= fun f => .ok (f, r.2, more)) := by
  obtain ⟨p, hp, hap, hs⟩ := parses_directive (wrapping D) d more hstars
  simp only [nextField, nextConversion, deref, ok_bind, ↓reduceIte, List.tail_cons, directive, hp,
    hs, hap, bind_assoc]
  rfl

section Prints

variable {D : DataModel} {strings : Strings} {d : Directive} {ap ap' : VaList} {f : Field}
  {text : List UInt8}

def atStart (d : Directive) (ap : VaList) : LoopState :=
  { fmt := byte '%' :: (d.text ++ [0]), ap, out := { pos := 0, spec := {}, stores := [] }
    written := 0, i := 0, counts := [] }

theorem atStart_at (d : Directive) (ap : VaList) : (atStart d ap).At INT_MAX d [0] ap :=
  ⟨le_rfl, rfl, by simp [atStart, INT_MAX], rfl, rfl⟩

theorem Prints.start (h : Prints D strings d ap ap' text) :
    ∃ st', loopStep (wrapping D) strings INT_MAX (atStart d ap) = .ok st' ∧ st'.ap = ap' ∧
      Printed (atStart d ap) st' text := by
  obtain ⟨hl, hprint⟩ := h
  have hfit : ((atStart d ap).out.pos + text.length : ℤ) ≤ INT_MAX := by
    have : (atStart d ap).out.pos = 0 := rfl
    omega
  obtain ⟨st', hst, -, hap, hp⟩ := hprint _ _ _ (atStart_at d ap) hfit
  exact ⟨st', hst, hap, hp⟩

theorem Printed.unique {st st' : LoopState} {text' : List UInt8} (h : Printed st st' text)
    (h' : Printed st st' text') : text = text' := by
  have hl : text.length = text'.length := by
    have h1 := h.pos
    have h2 := h'.pos
    omega
  apply List.ext_getElem hl
  intro j hj hj'
  have h1 := write_inside (s := Store.mk st.out.pos text) (m := replay st.out.stores fun _ => 0) hj
  have h2 := write_inside (s := Store.mk st.out.pos text') (m := replay st.out.stores fun _ => 0) hj'
  rw [← h.memory] at h1
  rw [← h'.memory, h1] at h2
  exact h2

theorem Prints.unique {ap'' : VaList} {text' : List UInt8} (h : Prints D strings d ap ap' text)
    (h' : Prints D strings d ap ap'' text') : text = text' ∧ ap' = ap'' := by
  obtain ⟨st₁, hst₁, hap₁, hp₁⟩ := h.start
  obtain ⟨st₂, hst₂, hap₂, hp₂⟩ := h'.start
  rw [hst₁] at hst₂
  cases hst₂
  exact ⟨hp₁.unique hp₂, hap₁.symm.trans hap₂⟩

theorem box_eq_whole {r : ℕ} (h : (f.box r).full.length < r) : f.box r = f.whole := by
  unfold Field.box at h ⊢
  split_ifs at h ⊢
  · rw [Box.full_length, List.length_take] at h
    rw [List.take_of_length_le (by omega)]
  · rfl

theorem prints_of_reads (h : ReadsAs D strings d ap ap' f) (hn : f.isNil = false)
    (hl : (f.full.length : ℤ) < INT_MAX) : Prints D strings d ap ap' f.full := by
  refine ⟨hl, ?_⟩
  intro st size more hat hfit
  have hpos : (st.view.progress.pos : ℤ) < size := by
    have : st.view.progress.pos = st.written := hat.written.symm
    rw [this]
    exact hat.room
  have hroom : f.room size st.i st.out.pos = size - st.out.pos := Field.room_eq hn
  have hclean : f.Clean size st.i st.out.pos := Field.clean_of_le hpos hroom hfit
  obtain ⟨p, hput, hputs⟩ := Field.put_ok (i := st.i) hpos hclean.room
  have hf := h more
  rw [← hat.cursor, ← hat.args] at hf
  obtain ⟨st', hst, hv⟩ := loopStep_put hat.bound hat.written hat.room hf hput
  have happ := hputs.appends hclean
  have htake : f.full.take (size - st.view.progress.pos).toNat = f.full := by
    apply List.take_of_length_le
    have : st.view.progress.pos = st.out.pos := rfl
    omega
  have hprog : st'.view.progress = p := congrArg View.progress hv
  have htotal : st'.out.spec.total = p.total := congrArg Progress.total hprog
  have hstores : st'.out.stores = p.stores := congrArg Progress.stores hprog
  have hrequest : f.request size st.i st.view.progress.pos = f.full.length := by
    have hle := f.full_length
    have hr : f.room size st.i st.view.progress.pos = size - st.out.pos := hroom
    rw [Field.request, hr, Field.box_of_le (by omega)]
    rfl
  rw [htake] at happ
  refine ⟨st', hst, congrArg View.fmt hv, congrArg View.ap hv, ?_, ?_, ?_, ?_⟩
  · exact (congrArg Progress.pos hprog).trans happ.pos
  · rw [htotal, hputs.total, hrequest]
    rfl
  · rw [hstores]
    exact happ.memory
  · rw [hstores]
    exact happ.volume

theorem Prints.reads (hp : Prints D strings d ap ap' text) :
    ∃ f rest, nextField (wrapping D) strings (byte '%' :: (d.text ++ [0])) ap =
      .ok (f, ap', rest) ∧ (f.isNil = false → (f.full.length : ℤ) < INT_MAX) := by
  have hlen := hp.1
  obtain ⟨st', hst, hap, hprinted⟩ := hp.start
  have hat := atStart_at d ap
  obtain ⟨f, p, hf, hput, hv⟩ := loopStep_eq_ok hat.bound hat.written hat.room hst
  rw [hap] at hf
  refine ⟨f, st'.fmt, hf, ?_⟩
  intro hn
  have hpos : ((atStart d ap).view.progress.pos : ℤ) < INT_MAX := hat.room
  obtain ⟨-, hputs⟩ := Field.puts_of_ok hpos hput
  have htotal : st'.out.spec.total = p.total := congrArg (fun v => v.progress.total) hv
  have hroom : (f.room INT_MAX (atStart d ap).i 0).toNat = INT_MAX.toNat := by
    rw [Field.room_eq hn]
    rfl
  have h1 := hprinted.total
  have h2 := hputs.total
  have h0 : (atStart d ap).view.progress.total = (atStart d ap).out.spec.total := rfl
  have hpos0 : (atStart d ap).view.progress.pos = 0 := rfl
  rw [hpos0, Field.request, hroom] at h2
  have hbox : f.box INT_MAX.toNat = f.whole := by
    apply box_eq_whole
    simp only [INT_MAX] at *
    omega
  rw [hbox] at h2
  have hfull : f.full.length = f.whole.full.length := rfl
  omega

theorem prints_iff (h : ReadsAs D strings d ap ap' f) (hn : f.isNil = false) :
    Prints D strings d ap ap' text ↔ text = f.full ∧ (f.full.length : ℤ) < INT_MAX := by
  constructor
  · intro hp
    obtain ⟨f', rest, hf', hlen⟩ := hp.reads
    rw [h [0]] at hf'
    cases hf'
    have hl := hlen hn
    exact ⟨(hp.unique (prints_of_reads h hn hl)).1, hl⟩
  · rintro ⟨rfl, hl⟩
    exact prints_of_reads h hn hl

theorem not_prints {e : Fault} (h : ∀ more,
    nextField (wrapping D) strings (byte '%' :: (d.text ++ more)) ap = .error e) :
    ¬ Prints D strings d ap ap' text := by
  intro hp
  obtain ⟨f, rest, hf, -⟩ := hp.reads
  rw [h] at hf
  cases hf

end Prints

end OsdevLibstdc.Vsnprintf
