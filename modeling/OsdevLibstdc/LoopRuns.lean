import OsdevLibstdc.LoopSimulation
import OsdevLibstdc.FormatCursor

/-!
Runs of the loop. Reading fields and putting them one after the other is a run, and every run
reads and puts fields.
-/

namespace OsdevLibstdc.Vsnprintf

open Target ByteStores Outcomes

inductive Iterates (T : Machine) (strings : Strings) (size : ℤ) :
    ℕ → LoopState → LoopState → Prop
  | refl (st : LoopState) : Iterates T strings size 0 st st
  | step {n : ℕ} {st st' st'' : LoopState} :
      loopGuard size st = .ok true → loopStep T strings size st = .ok st' →
      Iterates T strings size n st' st'' → Iterates T strings size (n + 1) st st''

theorem loopGuard_eq_true {size : ℤ} {st : LoopState} :
    loopGuard size st = .ok true ↔
      ∃ c fmt, st.fmt = c :: fmt ∧ c ≠ 0 ∧ (st.written : ℤ) < size := by
  unfold loopGuard
  cases hf : st.fmt with
  | nil => simp [deref]
  | cons c fmt => simp [deref, pure_eq]

theorem loopGuard_eq_false {size : ℤ} {st : LoopState} :
    loopGuard size st = .ok false ↔
      ∃ c fmt, st.fmt = c :: fmt ∧ (c = 0 ∨ size ≤ st.written) := by
  unfold loopGuard
  cases hf : st.fmt with
  | nil => simp [deref]
  | cons c fmt =>
    simp [deref, pure_eq]
    tauto

section Machine

variable {T : Machine} {strings : Strings} {size : ℤ}

theorem loop_iterates {n : ℕ} {st st' : LoopState} (h : Iterates T strings size n st st')
    (fuel : ℕ) : loop T strings size (n + fuel) st = loop T strings size fuel st' := by
  induction h with
  | refl st => rw [Nat.zero_add]
  | step hg hs _ ih =>
    rw [Nat.add_right_comm, loop, hg, ok_bind, if_pos rfl, hs, ok_bind, ih]

theorem loop_reaches {fuel : ℕ} {st st' : LoopState} (h : loop T strings size fuel st = .ok st') :
    ∃ n, Iterates T strings size n st st' ∧ loopGuard size st' = .ok false := by
  induction fuel generalizing st with
  | zero => cases h
  | succ fuel ih =>
    rw [loop] at h
    obtain ⟨b, hg, h⟩ := bind_eq_ok.mp h
    cases b with
    | false =>
      cases h
      exact ⟨0, .refl _, hg⟩
    | true =>
      rw [if_pos rfl] at h
      obtain ⟨st₁, hs, h⟩ := bind_eq_ok.mp h
      obtain ⟨n, hit, hend⟩ := ih h
      exact ⟨n + 1, .step hg hs hit, hend⟩

theorem loop_exit {st : LoopState} (hg : loopGuard size st = .ok false) (fuel : ℕ) :
    loop T strings size (fuel + 1) st = .ok st := by
  rw [loop, hg]
  rfl

theorem loop_guard_error {st : LoopState} {e : Fault} (hg : loopGuard size st = .error e)
    (fuel : ℕ) : loop T strings size (fuel + 1) st = .error e := by
  rw [loop, hg]
  rfl

theorem loop_step_error {st : LoopState} {e : Fault} (hg : loopGuard size st = .ok true)
    (hs : loopStep T strings size st = .error e) (fuel : ℕ) :
    loop T strings size (fuel + 1) st = .error e := by
  rw [loop, hg, ok_bind, if_pos rfl, hs]
  rfl

theorem loop_error {fuel : ℕ} {st : LoopState} {e : Fault}
    (h : loop T strings size fuel st = .error e) :
    ∃ n st', Iterates T strings size n st st' ∧ (loopGuard size st' = .error e ∨
      loopGuard size st' = .ok true ∧ loopStep T strings size st' = .error e ∨
      n = fuel ∧ e = .outOfFuel) := by
  induction fuel generalizing st with
  | zero => exact ⟨0, st, .refl st, .inr (.inr ⟨rfl, (Except.error.inj h).symm⟩)⟩
  | succ fuel ih =>
    rw [loop] at h
    rcases bind_eq_error.mp h with hg | ⟨b, hg, h⟩
    · exact ⟨0, st, .refl st, .inl hg⟩
    · cases b with
      | false => cases h
      | true =>
        rw [if_pos rfl] at h
        rcases bind_eq_error.mp h with hs | ⟨st', hs, h⟩
        · exact ⟨0, st, .refl st, .inr (.inl ⟨hg, hs⟩)⟩
        · obtain ⟨n, st'', hi, hend⟩ := ih h
          refine ⟨n + 1, st'', .step hg hs hi, ?_⟩
          rcases hend with hend | hend | ⟨hn, he⟩
          · exact .inl hend
          · exact .inr (.inl hend)
          · exact .inr (.inr ⟨by rw [hn], he⟩)

end Machine

section Wrapping

variable {D : DataModel} {strings : Strings} {size : ℤ}

theorem loopStep_eq_ok {st st' : LoopState} (hs : size ≤ INT_MAX) (hw : st.written = st.out.pos)
    (hg : (st.written : ℤ) < size) (h : loopStep (wrapping D) strings size st = .ok st') :
    ∃ f p, nextField (wrapping D) strings st.fmt st.ap = .ok (f, st'.ap, st'.fmt) ∧
      f.put size st.i st.view.progress = .ok p ∧
      st'.view = ⟨st'.fmt, st'.ap, p, wrapInt (st.i + 1)⟩ := by
  have hv := loopStep_view D strings st hs hw hg
  rw [h, map_ok] at hv
  obtain ⟨⟨f, ap, fmt⟩, hf, hv⟩ := bind_eq_ok.mp hv.symm
  obtain ⟨p, hp, hv⟩ := bind_eq_ok.mp hv
  have hview : (⟨fmt, ap, p, wrapInt (st.i + 1)⟩ : View) = st'.view := Except.ok.inj hv
  have hfmt : fmt = st'.fmt := congrArg View.fmt hview
  have hap : ap = st'.ap := congrArg View.ap hview
  subst hfmt hap
  exact ⟨f, p, hf, hp, hview.symm⟩

theorem loopStep_put {st : LoopState} {f : Field} {ap : VaList} {fmt : Cursor} {p : Progress}
    (hs : size ≤ INT_MAX) (hw : st.written = st.out.pos) (hg : (st.written : ℤ) < size)
    (hf : nextField (wrapping D) strings st.fmt st.ap = .ok (f, ap, fmt))
    (hp : f.put size st.i st.view.progress = .ok p) :
    ∃ st', loopStep (wrapping D) strings size st = .ok st' ∧
      st'.view = ⟨fmt, ap, p, wrapInt (st.i + 1)⟩ := by
  have hv := loopStep_view D strings st hs hw hg
  have hp' : f.put size st.i (st.out.progress st.counts) = .ok p := hp
  rw [hf] at hv
  simp only [ok_bind, hp', pure_eq] at hv
  exact map_eq_ok.mp hv

theorem loopStep_error {st : LoopState} {e : Fault} (hs : size ≤ INT_MAX)
    (hw : st.written = st.out.pos) (hg : (st.written : ℤ) < size) :
    loopStep (wrapping D) strings size st = .error e ↔
      nextField (wrapping D) strings st.fmt st.ap = .error e ∨
      ∃ r, nextField (wrapping D) strings st.fmt st.ap = .ok r ∧
        r.1.put size st.i st.view.progress = .error e := by
  rw [← map_eq_error (f := LoopState.view), loopStep_view D strings st hs hw hg, bind_eq_error]
  have hput (r : Field × VaList × Cursor) :
      ((do
        let p ← r.1.put size st.i (st.out.progress st.counts)
        return ⟨r.2.2, r.2.1, p, wrapInt (st.i + 1)⟩ : Except Fault View) = .error e) ↔
      r.1.put size st.i st.view.progress = .error e := by
    rw [bind_eq_error]
    simp [pure_eq, LoopState.view]
  exact or_congr_right (exists_congr fun r => and_congr_right fun _ => hput r)

theorem iterates_length {n : ℕ} {st st' : LoopState}
    (h : Iterates (wrapping D) strings size n st st') (hs : size ≤ INT_MAX)
    (hw : st.written = st.out.pos) :
    st'.written = st'.out.pos ∧ st'.fmt.length + n ≤ st.fmt.length := by
  induction h with
  | refl st => exact ⟨hw, le_rfl⟩
  | step hg hstep _ ih =>
    obtain ⟨_, _, -, -, hlt⟩ := loopGuard_eq_true.mp hg
    obtain ⟨f, p, hf, -, -⟩ := loopStep_eq_ok hs hw hlt hstep
    obtain ⟨hw', hl⟩ := ih (loopStep_written hstep hw)
    have := nextField_length hf
    exact ⟨hw', by omega⟩

theorem startState_written (fmt : CString) (ap : VaList) :
    (startState fmt ap).written = (startState fmt ap).out.pos := rfl

theorem startState_view (fmt : CString) (ap : VaList) :
    (startState fmt ap).view = ⟨cursor fmt, ap, {}, 0⟩ := rfl

theorem loop_round {c : UInt8} {fmt fmt' : Cursor} {ap ap' : VaList} {f : Field} {p : Progress}
    {i : ℤ} {st : LoopState} (hs : size ≤ INT_MAX) (hw : st.written = st.out.pos)
    (hv : st.view = ⟨c :: fmt, ap, p, i⟩) (hc : c ≠ 0)
    (hf : nextField (wrapping D) strings (c :: fmt) ap = .ok (f, ap', fmt'))
    (hlt : (p.pos : ℤ) < size) :
    loopGuard size st = .ok true ∧
    (∀ q, f.put size i p = .ok q → ∃ st', loopStep (wrapping D) strings size st = .ok st' ∧
      st'.written = st'.out.pos ∧ st'.view = ⟨fmt', ap', q, wrapInt (i + 1)⟩) ∧
    ∀ e, f.put size i p = .error e → loopStep (wrapping D) strings size st = .error e := by
  have hfmt : st.fmt = c :: fmt := congrArg View.fmt hv
  have hap : st.ap = ap := congrArg View.ap hv
  have hi : st.i = i := congrArg View.i hv
  have hprog : st.view.progress = p := congrArg View.progress hv
  have hpos : st.written = p.pos := hw.trans (congrArg Progress.pos hprog)
  rw [← hpos] at hlt
  rw [← hfmt, ← hap] at hf
  rw [← hi, ← hprog]
  refine ⟨loopGuard_eq_true.mpr ⟨c, fmt, hfmt, hc, hlt⟩, ?_, ?_⟩
  · intro q hq
    obtain ⟨st', hstep, hv'⟩ := loopStep_put hs hw hlt hf hq
    exact ⟨st', hstep, loopStep_written hstep hw, hv'⟩
  · intro e he
    exact (loopStep_error hs hw hlt).mpr (.inr ⟨_, hf, he⟩)

theorem iterates_putFields {fmt fmt' : Cursor} {ap rest : VaList} {fields left : List Field}
    {p p' : Progress} {i : ℤ} {st : LoopState}
    (hr : Reads (wrapping D) strings fmt ap fields fmt' rest)
    (hs : size ≤ INT_MAX) (hw : st.written = st.out.pos) (hv : st.view = ⟨fmt, ap, p, i⟩)
    (hp : putFields size i fields p = .ok (p', left)) :
    ∃ n st', Iterates (wrapping D) strings size n st st' ∧ st'.view.progress = p' ∧
      Reads (wrapping D) strings st'.fmt st'.ap left fmt' rest ∧
      (left ≠ [] → size ≤ st'.written) := by
  induction hr generalizing p i st with
  | done fmt ap =>
    obtain ⟨rfl, rfl⟩ := Prod.mk.inj (Except.ok.inj hp)
    refine ⟨0, st, .refl st, congrArg View.progress hv, ?_, fun h => absurd rfl h⟩
    have hfmt : st.fmt = fmt := congrArg View.fmt hv
    have hap : st.ap = ap := congrArg View.ap hv
    rw [hfmt, hap]
    exact .done fmt ap
  | @field c fmt fmt' fmt'' ap ap' rest f fields hc hf hr ih =>
    rw [putFields] at hp
    split_ifs at hp with hlt
    · obtain ⟨q, hq, hp⟩ := bind_eq_ok.mp hp
      obtain ⟨hguard, hputs, -⟩ := loop_round hs hw hv hc hf hlt
      obtain ⟨st', hstep, hw', hv'⟩ := hputs q hq
      obtain ⟨n, st'', hit, hend⟩ := ih hw' hv' hp
      exact ⟨n + 1, st'', .step hguard hstep hit, hend⟩
    · obtain ⟨rfl, rfl⟩ := Prod.mk.inj (Except.ok.inj hp)
      have hfmt : st.fmt = c :: fmt := congrArg View.fmt hv
      have hap : st.ap = ap := congrArg View.ap hv
      have hprog : st.view.progress = p := congrArg View.progress hv
      have hpos : st.written = p.pos := hw.trans (congrArg Progress.pos hprog)
      refine ⟨0, st, .refl st, hprog, ?_, fun _ => by omega⟩
      rw [hfmt, hap]
      exact .field hc hf hr

theorem iterates_putFields_error {fmt fmt' : Cursor} {ap rest : VaList} {fields : List Field}
    {p : Progress} {i : ℤ} {st : LoopState} {e : Fault}
    (hr : Reads (wrapping D) strings fmt ap fields fmt' rest)
    (hs : size ≤ INT_MAX) (hw : st.written = st.out.pos) (hv : st.view = ⟨fmt, ap, p, i⟩)
    (hp : putFields size i fields p = .error e) :
    ∃ n st', Iterates (wrapping D) strings size n st st' ∧ loopGuard size st' = .ok true ∧
      loopStep (wrapping D) strings size st' = .error e := by
  induction hr generalizing p i st with
  | done fmt ap => cases hp
  | @field c fmt fmt' fmt'' ap ap' rest f fields hc hf hr ih =>
    rw [putFields] at hp
    split_ifs at hp with hlt
    obtain ⟨hguard, hputs, hfails⟩ := loop_round hs hw hv hc hf hlt
    rcases bind_eq_error.mp hp with hput | ⟨q, hq, hp⟩
    · exact ⟨0, st, .refl st, hguard, hfails e hput⟩
    · obtain ⟨st', hstep, hw', hv'⟩ := hputs q hq
      obtain ⟨n, st'', hit, hend⟩ := ih hw' hv' hp
      exact ⟨n + 1, st'', .step hguard hstep hit, hend⟩

theorem iterates_reads {n : ℕ} {st st' : LoopState}
    (h : Iterates (wrapping D) strings size n st st') (hs : size ≤ INT_MAX)
    (hw : st.written = st.out.pos) :
    ∃ fields, Reads (wrapping D) strings st.fmt st.ap fields st'.fmt st'.ap ∧
      putFields size st.i fields st.view.progress = .ok (st'.view.progress, []) := by
  induction h with
  | refl st => exact ⟨[], .done _ _, rfl⟩
  | @step n st st' st'' hg hstep _ ih =>
    obtain ⟨c, fmt, hfmt, hc, hlt⟩ := loopGuard_eq_true.mp hg
    obtain ⟨f, p, hf, hp, hv⟩ := loopStep_eq_ok hs hw hlt hstep
    obtain ⟨fields, hr, hput⟩ := ih (loopStep_written hstep hw)
    refine ⟨f :: fields, ?_, ?_⟩
    · rw [hfmt] at hf ⊢
      exact .field hc hf hr
    · have hpos : (st.view.progress.pos : ℤ) < size := by
        have : st.view.progress.pos = st.written := hw.symm
        rw [this]
        exact hlt
      have hi : st'.i = wrapInt (st.i + 1) := congrArg View.i hv
      have hprog : st'.view.progress = p := congrArg View.progress hv
      rw [putFields, if_pos hpos, hp, ok_bind, ← hi, ← hprog]
      exact hput

end Wrapping

section Call

variable {D : DataModel} {strings : Strings} {maxSize : ℕ} {fmt : CString} {ap rest : VaList}
  {fields : List Field}

theorem vsnprintf_eq (T : Machine) (h1 : 1 ≤ maxSize) (hmax : (maxSize : ℤ) < INT_MAX) :
    vsnprintf T strings maxSize fmt ap = (do
      let st ← loop T strings (maxSize - 1 : ℤ) ((cursor fmt).length + 1) (startState fmt ap)
      let value ← T.arith .int st.out.spec.total
      return ⟨value, st.out.spec.total, ⟨st.out.pos, [0]⟩ :: st.out.stores, st.counts, st.fmt⟩) := by
  rw [vsnprintf, if_neg (by omega), if_pos hmax]

theorem loop_from_start {n : ℕ} {st : LoopState} (hmax : (maxSize : ℤ) < INT_MAX)
    (hit : Iterates (wrapping D) strings (maxSize - 1) n (startState fmt ap) st) :
    loop (wrapping D) strings (maxSize - 1 : ℤ) ((cursor fmt).length + 1) (startState fmt ap) =
      loop (wrapping D) strings (maxSize - 1 : ℤ) ((cursor fmt).length - n + 1) st := by
  obtain ⟨-, hl⟩ := iterates_length hit (by omega) rfl
  have hfuel : (cursor fmt).length + 1 = n + ((cursor fmt).length - n + 1) := by
    have : (startState fmt ap).fmt.length = (cursor fmt).length := rfl
    omega
  rw [hfuel, loop_iterates hit]

def Progress.result (p : Progress) (fmt : Cursor) : Result :=
  ⟨wrapInt p.total, p.total, ⟨p.pos, [0]⟩ :: p.stores, p.counts, fmt⟩

theorem Progress.result_memory (p : Progress) (fmt : Cursor) (init : Memory) {a : ℕ}
    (ha : a ≠ p.pos) : (p.result fmt).memory init a = replay p.stores init a := by
  rcases Nat.lt_or_gt_of_ne ha with h | h
  · exact write_below h
  · exact write_above (by simp only [List.length_singleton]; omega)

theorem vsnprintf_put {p : Progress} {left : List Field}
    (hf : FieldsOf (wrapping D) strings fmt ap fields rest) (h1 : 1 ≤ maxSize)
    (hmax : (maxSize : ℤ) < INT_MAX)
    (hp : putFields (maxSize - 1 : ℤ) 0 fields {} = .ok (p, left)) :
    ∃ fmt' ap', vsnprintf (wrapping D) strings maxSize fmt ap = .ok (p.result fmt') ∧
      Reads (wrapping D) strings fmt' ap' left [0] rest := by
  have hs : (maxSize - 1 : ℤ) ≤ INT_MAX := by omega
  obtain ⟨n, st, hit, hprog, hr, hleft⟩ :=
    iterates_putFields hf.reads hs (startState_written fmt ap) (startState_view fmt ap) hp
  have hexit : loopGuard (maxSize - 1 : ℤ) st = .ok false := by
    rw [loopGuard_eq_false]
    generalize hfmt : st.fmt = f at hr
    cases hr with
    | done => exact ⟨0, [], rfl, .inl rfl⟩
    | field => exact ⟨_, _, rfl, .inr (hleft (List.cons_ne_nil _ _))⟩
  refine ⟨st.fmt, st.ap, ?_, hr⟩
  rw [vsnprintf_eq _ h1 hmax, loop_from_start hmax hit, loop_exit hexit, ok_bind,
    arith_int_wrapping, ok_bind, ← hprog]
  rfl

theorem vsnprintf_put_error {e : Fault} (hf : FieldsOf (wrapping D) strings fmt ap fields rest)
    (h1 : 1 ≤ maxSize) (hmax : (maxSize : ℤ) < INT_MAX)
    (hp : putFields (maxSize - 1 : ℤ) 0 fields {} = .error e) :
    vsnprintf (wrapping D) strings maxSize fmt ap = .error e := by
  have hs : (maxSize - 1 : ℤ) ≤ INT_MAX := by omega
  obtain ⟨n, st, hit, hg, hstep⟩ :=
    iterates_putFields_error hf.reads hs (startState_written fmt ap) (startState_view fmt ap) hp
  rw [vsnprintf_eq _ h1 hmax, loop_from_start hmax hit, loop_step_error hg hstep]
  rfl

theorem put_of_vsnprintf {res : Result} (hf : FieldsOf (wrapping D) strings fmt ap fields rest)
    (h1 : 1 ≤ maxSize) (hmax : (maxSize : ℤ) < INT_MAX)
    (hres : vsnprintf (wrapping D) strings maxSize fmt ap = .ok res) :
    ∃ p left fmt', putFields (maxSize - 1 : ℤ) 0 fields {} = .ok (p, left) ∧
      res = p.result fmt' := by
  cases hput : putFields (maxSize - 1 : ℤ) 0 fields {} with
  | error e =>
    rw [vsnprintf_put_error hf h1 hmax hput] at hres
    cases hres
  | ok r =>
    obtain ⟨fmt', _, hok, -⟩ := vsnprintf_put hf h1 hmax hput
    rw [hok] at hres
    exact ⟨r.1, r.2, fmt', rfl, (Except.ok.inj hres).symm⟩

theorem reads_of_vsnprintf {res : Result} (h1 : 1 ≤ maxSize) (hmax : (maxSize : ℤ) < INT_MAX)
    (hres : vsnprintf (wrapping D) strings maxSize fmt ap = .ok res) :
    ∃ fields p c fmt' rest, Reads (wrapping D) strings (cursor fmt) ap fields (c :: fmt') rest ∧
      putFields (maxSize - 1 : ℤ) 0 fields {} = .ok (p, []) ∧ res = p.result (c :: fmt') ∧
      (c = 0 ∨ (maxSize - 1 : ℤ) ≤ p.pos) := by
  rw [vsnprintf_eq _ h1 hmax] at hres
  obtain ⟨st, hloop, hres⟩ := bind_eq_ok.mp hres
  rw [arith_int_wrapping, ok_bind] at hres
  obtain ⟨n, hit, hend⟩ := loop_reaches hloop
  obtain ⟨c, fmt', hfmt, hc⟩ := loopGuard_eq_false.mp hend
  obtain ⟨fields, hr, hput⟩ := iterates_reads hit (by omega) rfl
  have hwritten : st.written = st.view.progress.pos := (iterates_length hit (by omega) rfl).1
  rw [hfmt] at hr
  rw [hwritten] at hc
  refine ⟨fields, st.view.progress, c, fmt', st.ap, hr, hput, ?_, hc⟩
  rw [← Except.ok.inj hres, ← hfmt]
  rfl

theorem vsnprintf_of_reads {p : Progress} {c : UInt8} {fmt' : Cursor} (h1 : 1 ≤ maxSize)
    (hmax : (maxSize : ℤ) < INT_MAX)
    (hr : Reads (wrapping D) strings (cursor fmt) ap fields (c :: fmt') rest)
    (hput : putFields (maxSize - 1 : ℤ) 0 fields {} = .ok (p, []))
    (hend : c = 0 ∨ (maxSize - 1 : ℤ) ≤ p.pos) :
    vsnprintf (wrapping D) strings maxSize fmt ap = .ok (p.result (c :: fmt')) := by
  obtain ⟨n, st, hit, hprog, hreads, -⟩ := iterates_putFields hr (by omega)
    (startState_written fmt ap) (startState_view fmt ap) hput
  have hfmt : st.fmt = c :: fmt' := by
    generalize st.fmt = f at hreads
    cases hreads
    rfl
  have hwritten : st.written = p.pos :=
    (iterates_length hit (by omega) rfl).1.trans (congrArg Progress.pos hprog)
  rw [← hwritten] at hend
  have hexit := loopGuard_eq_false.mpr ⟨c, fmt', hfmt, hend⟩
  rw [vsnprintf_eq _ h1 hmax, loop_from_start hmax hit, loop_exit hexit, ok_bind,
    arith_int_wrapping, ok_bind, ← hprog, ← hfmt]
  rfl

end Call

end OsdevLibstdc.Vsnprintf
