import OsdevLibstdc.OutputOverflow
import OsdevLibstdc.LoopRuns

/-!
Runs without signed overflow. The range of every operation of an iteration is a condition on the
state before it, and a run whose iterations all meet it is the same on every machine.
-/

namespace OsdevLibstdc.Vsnprintf

open Target ByteStores Outcomes

structure Conversion.Computes (D : DataModel) (strings : Strings) (room nilRoom : ℤ)
    (conv : Conversion) : Prop where
  negated : conv.Negatable
  precision : conv.PrecisionKept
  width : ∀ width len, conv.Asks D strings room nilRoom width len → INT_MIN ≤ width - len

structure LoopState.InRange (D : DataModel) (strings : Strings) (size : ℤ) (st : LoopState) :
    Prop where
  index : st.i < INT_MAX
  digits : ∀ fmt, st.fmt = byte '%' :: fmt → ParsedFits D fmt st.ap
  conversion : ∀ conv ap fmt,
    nextConversion (wrapping D) {} st.fmt st.ap = .ok (conv, ap, fmt) →
      conv.Computes D strings (size - st.written) (size - st.i) ∧
      ∀ width len, conv.Asks D strings (size - st.written) (size - st.i) width len →
        st.out.spec.total + max width len ≤ INT_MAX

section Step

variable {D : DataModel} {strings : Strings} {size : ℤ}

theorem directive_forall {fmt : Cursor} {ap : VaList} (P : Conversion → Prop) :
    (∀ conv ap' fmt', directive (wrapping D) {} fmt ap = .ok (conv, ap', fmt') → P conv) ↔
      ∀ p, parseFlagsFwPrecision (wrapping D) fmt {} ap = .ok p →
        ∀ r, parseSizeSpecifier p.fmt p.spec = .ok r → ∀ c, deref r.2 = .ok c →
          ∀ q, conversion (wrapping D) c (clearZero r.1) p.ap = .ok q → P q.1 := by
  constructor
  · intro h p hp r hr c hc q hq
    refine h q.1 q.2 r.2.tail ?_
    simp only [directive, hp, hr, hc, hq, ok_bind]
    rfl
  · intro h conv ap' fmt' hd
    obtain ⟨p, hp, hd⟩ := bind_eq_ok.mp hd
    obtain ⟨r, hr, hd⟩ := bind_eq_ok.mp hd
    obtain ⟨c, hc, hd⟩ := bind_eq_ok.mp hd
    obtain ⟨q, hq, hd⟩ := bind_eq_ok.mp hd
    cases hd
    exact h p hp r hr c hc q hq

theorem conversion_computes_checks {spec : FormatSpec} (hs : spec.Scanned) (c : UInt8)
    (ap : VaList) (t : ℤ) (st : VaList → LoopState) {room nilRoom : ℤ}
    (hst : ∀ ap, size - (st ap).written = room ∧ size - (st ap).i = nilRoom)
    (h0 : 0 ≤ room) (hm : size ≤ INT_MAX) (hnil : InInt nilRoom)
    (next : LoopState → LoopState) : Checks .signedOverflow
      (∀ q, conversion (wrapping D) c spec ap = .ok q → q.1.Computes D strings room nilRoom)
      (do
        let q ← conversion (wrapping D) c spec ap
        let st ← (q.1.withTotal t).emit (wrapping D) strings size (st q.2)
        return next st)
      (do
        let q ← conversion (trapping D) c spec ap
        let st ← (q.1.withTotal t).emit (trapping D) strings size (st q.2)
        return next st) := by
  refine ((conversion_checks hs.negative c ap).bind
    (P := fun q => q.1.PrecisionKept ∧ ∀ width len,
      q.1.Asks D strings room nilRoom width len → INT_MIN ≤ width - len)
    fun q hq => ?_).congr ?_
  · have hranged := conversion_ranged hs hq
    obtain ⟨hroom, hnilRoom⟩ := hst q.2
    subst hroom hnilRoom
    exact (emit_checks hranged t (st q.2) h0 hm hnil).then_same fun _ _ => ok_ne_error _
  · constructor
    · rintro ⟨hneg, hrest⟩ q hq
      exact ⟨hneg q hq, (hrest q hq).1, (hrest q hq).2⟩
    · intro h
      exact ⟨fun q hq => (h q hq).negated, fun q hq => ⟨(h q hq).precision, (h q hq).width⟩⟩

theorem loopDirective_checks (D : DataModel) (strings : Strings) (st : LoopState) {t : ℤ}
    (hspec : st.out.spec = ({} : FormatSpec).withTotal t)
    (h0 : 0 ≤ size - (st.written : ℤ)) (hm : size ≤ INT_MAX) (hnil : InInt (size - st.i)) :
    Checks .signedOverflow
      (ParsedFits D st.fmt.tail st.ap ∧ ∀ conv ap fmt,
        directive (wrapping D) {} st.fmt.tail st.ap = .ok (conv, ap, fmt) →
          conv.Computes D strings (size - st.written) (size - st.i))
      (loopDirective (wrapping D) strings size st) (loopDirective (trapping D) strings size st) := by
  have hparse (T : Machine) :
      parseFlagsFwPrecision T st.fmt.tail st.out.spec st.ap =
        Parsed.withTotal t <$> parseFlagsFwPrecision T st.fmt.tail {} st.ap := by
    rw [hspec]
    exact parseFlagsFwPrecision_withTotal T t _ _ _
  rw [directive_forall]
  simp only [loopDirective, hparse, bind_map_left, Parsed.withTotal, parseSizeSpecifier_withTotal,
    clearZero_withTotal, convert_eq, LoopState.withSpec, conversion_withTotal, bind_assoc]
  refine (parseFlagsFwPrecision_checks st.fmt.tail st.ap).bind fun p hp => ?_
  refine Checks.after (parseSizeSpecifier_clean _ _) fun r hr => ?_
  refine Checks.after (deref_clean _) fun c _ => ?_
  have hscanned := (parseSizeSpecifier_scanned (parseFlagsFwPrecision_scanned hp) hr).clearZero
  exact conversion_computes_checks hscanned c p.ap t
    (fun ap => { st with
      fmt := r.2, ap
      out := { st.out with spec := (clearZero r.1).withTotal t } })
    (fun _ => ⟨rfl, rfl⟩) h0 hm hnil (fun st => { st with written := st.out.pos })

theorem loopBody_checks {st : LoopState} (h0 : 0 ≤ size - (st.written : ℤ)) (hm : size ≤ INT_MAX)
    (hnil : InInt (size - st.i)) : Checks .signedOverflow
      ((∀ fmt, st.fmt = byte '%' :: fmt → ParsedFits D fmt st.ap) ∧ ∀ conv ap fmt,
        nextConversion (wrapping D) {} st.fmt st.ap = .ok (conv, ap, fmt) →
          conv.Computes D strings (size - st.written) (size - st.i))
      (loopBody (wrapping D) strings size st) (loopBody (trapping D) strings size st) := by
  unfold loopBody nextConversion
  cases hfmt : st.fmt with
  | nil =>
    have hst : (st.withSpec st.out.spec.reset).fmt = [] := hfmt
    simp only [hst, deref, error_bind]
    refine Checks.same (error_ne_error (by decide)) ⟨?_, ?_⟩
    · intro fmt hfmt'
      cases hfmt'
    · intro conv ap fmt hok
      cases hok
  | cons c fmt =>
    have hst : (st.withSpec st.out.spec.reset).fmt = c :: fmt := hfmt
    simp only [hst, deref, ok_bind]
    by_cases hc : c = byte '%'
    · rw [if_pos hc, if_pos hc, if_pos hc]
      have hdir := loopDirective_checks D strings (st.withSpec st.out.spec.reset)
        (t := st.out.spec.total) rfl h0 hm hnil
      have htail : (st.withSpec st.out.spec.reset).fmt.tail = fmt := by rw [hst]; rfl
      rw [htail] at hdir
      refine hdir.congr (and_congr_left fun _ => ?_)
      constructor
      · rintro h fmt' hfmt'
        obtain ⟨-, rfl⟩ := List.cons.inj hfmt'
        exact h
      · intro h
        exact h fmt (by rw [hc])
    · rw [if_neg hc, if_neg hc, if_neg hc]
      refine Checks.same (ok_ne_error _) ⟨?_, ?_⟩
      · intro fmt' hfmt'
        exact absurd (List.cons.inj hfmt').1 hc
      · intro conv ap fmt' hok
        cases hok
        refine ⟨trivial, trivial, ?_⟩
        rintro _ _ ⟨⟩
        decide

theorem emit_index {T : Machine} {conv : Conversion} {st st' : LoopState}
    (h : conv.emit T strings size st = .ok st') : st'.i = st.i := by
  cases conv with
  | literal c =>
    cases h
    rfl
  | number spec n | char spec c =>
    obtain ⟨out, -, h⟩ := bind_eq_ok.mp h
    cases h
    rfl
  | string spec ptr =>
    obtain ⟨str, -, h⟩ := bind_eq_ok.mp h
    obtain ⟨out, -, h⟩ := bind_eq_ok.mp h
    cases h
    rfl
  | nil spec =>
    obtain ⟨room, -, h⟩ := bind_eq_ok.mp h
    obtain ⟨out, -, h⟩ := bind_eq_ok.mp h
    cases h
    rfl
  | count ptr =>
    rw [← Except.ok.inj h]
    split_ifs <;> rfl

theorem loopBody_index {T : Machine} {st st' : LoopState}
    (h : loopBody T strings size st = .ok st') : st'.i = st.i := by
  obtain ⟨c, -, h⟩ := bind_eq_ok.mp h
  split_ifs at h
  · obtain ⟨p, -, h⟩ := bind_eq_ok.mp h
    obtain ⟨r, -, h⟩ := bind_eq_ok.mp h
    obtain ⟨c, -, h⟩ := bind_eq_ok.mp h
    obtain ⟨st'', hconv, h⟩ := bind_eq_ok.mp h
    rw [convert_eq] at hconv
    obtain ⟨q, -, hemit⟩ := bind_eq_ok.mp hconv
    have hindex := emit_index hemit
    cases h
    exact hindex
  · cases h
    rfl

theorem loopDirective_total (st : LoopState) {st' : LoopState} {t : ℤ}
    (hspec : st.out.spec = ({} : FormatSpec).withTotal t)
    (h : loopDirective (trapping D) strings size st = .ok st') :
    ∃ conv ap fmt, directive (wrapping D) {} st.fmt.tail st.ap = .ok (conv, ap, fmt) ∧
      ∃ width len, conv.Asks D strings (size - st.written) (size - st.i) width len ∧
        st'.out.spec.total = t + max width len := by
  have hparse : parseFlagsFwPrecision (trapping D) st.fmt.tail st.out.spec st.ap =
      Parsed.withTotal t <$> parseFlagsFwPrecision (trapping D) st.fmt.tail {} st.ap := by
    rw [hspec]
    exact parseFlagsFwPrecision_withTotal _ t _ _ _
  simp only [loopDirective, hparse, bind_map_left, Parsed.withTotal, parseSizeSpecifier_withTotal,
    clearZero_withTotal, convert_eq, LoopState.withSpec, conversion_withTotal, bind_assoc] at h
  obtain ⟨p, hp, h⟩ := bind_eq_ok.mp h
  obtain ⟨r, hr, h⟩ := bind_eq_ok.mp h
  obtain ⟨c, hc, h⟩ := bind_eq_ok.mp h
  obtain ⟨q, hq, h⟩ := bind_eq_ok.mp h
  obtain ⟨st'', hemit, h⟩ := bind_eq_ok.mp h
  obtain ⟨-, hp⟩ := (parseFlagsFwPrecision_checks _ _).of_ok hp
  have hscanned := (parseSizeSpecifier_scanned (parseFlagsFwPrecision_scanned hp) hr).clearZero
  obtain ⟨-, hq⟩ := (conversion_checks hscanned.negative c p.ap).of_ok hq
  obtain ⟨width, len, hasks, htotal⟩ := emit_total (conversion_ranged hscanned hq) hemit
  refine ⟨q.1, q.2, r.2.tail, ?_, width, len, hasks, ?_⟩
  · simp only [directive, hp, hr, hc, hq, ok_bind]
    rfl
  · rw [← Except.ok.inj h]
    exact htotal

theorem loopBody_total {st st' : LoopState} (h : loopBody (trapping D) strings size st = .ok st') :
    ∃ conv ap fmt, nextConversion (wrapping D) {} st.fmt st.ap = .ok (conv, ap, fmt) ∧
      ∃ width len, conv.Asks D strings (size - st.written) (size - st.i) width len ∧
        st'.out.spec.total = st.out.spec.total + max width len := by
  obtain ⟨c, hc, h⟩ := bind_eq_ok.mp h
  have hderef : deref st.fmt = .ok c := hc
  rw [nextConversion, hderef, ok_bind]
  split_ifs at h ⊢
  · exact loopDirective_total (st.withSpec st.out.spec.reset) rfl h
  · cases h
    exact ⟨_, _, _, rfl, _, _, .literal c, rfl⟩

theorem Conversion.Asks.len_nonneg {room nilRoom : ℤ} {conv : Conversion} {width len : ℤ}
    (h : conv.Asks D strings room nilRoom width len) (h0 : 0 ≤ room) (hm : room ≤ INT_MAX) :
    0 ≤ len := by
  cases h with
  | literal | char => exact zero_le_one
  | number => exact Nat.cast_nonneg _
  | string => exact shownLength_nonneg (.inl ⟨h0, hm⟩)
  | nil => exact shownLength_nonneg (.inr (by decide))
  | count => exact le_rfl

structure LoopState.Counted (st : LoopState) : Prop where
  index : 0 ≤ st.i ∧ st.i ≤ INT_MAX
  total : 0 ≤ st.out.spec.total ∧ st.out.spec.total ≤ INT_MAX

theorem LoopState.Counted.room {st : LoopState} (hst : st.Counted) (hm : size ≤ INT_MAX)
    (hg : loopGuard size st = .ok true) :
    0 ≤ size - (st.written : ℤ) ∧ InInt (size - st.i) := by
  obtain ⟨c, fmt, -, -, hlt⟩ := loopGuard_eq_true.mp hg
  have hi := hst.index
  simp only [InInt, INT_MIN, INT_MAX] at *
  omega

theorem loopStep_checks (D : DataModel) (strings : Strings) {st : LoopState} (hst : st.Counted)
    (hm : size ≤ INT_MAX) (hg : loopGuard size st = .ok true) : Checks .signedOverflow
      (((∀ fmt, st.fmt = byte '%' :: fmt → ParsedFits D fmt st.ap) ∧ ∀ conv ap fmt,
        nextConversion (wrapping D) {} st.fmt st.ap = .ok (conv, ap, fmt) →
          conv.Computes D strings (size - st.written) (size - st.i)) ∧
        ∀ st', loopBody (wrapping D) strings size st = .ok st' → InInt (st'.i + 1))
      (loopStep (wrapping D) strings size st) (loopStep (trapping D) strings size st) := by
  obtain ⟨h0, hnil⟩ := hst.room hm hg
  exact (loopBody_checks h0 hm hnil).bind fun st' _ =>
    (arith_int_checks _).then_same fun _ _ => ok_ne_error _

theorem loopStep_inRange {st : LoopState} (hst : st.Counted) (hm : size ≤ INT_MAX)
    (hg : loopGuard size st = .ok true) (hr : st.InRange D strings size) :
    loopStep (trapping D) strings size st = loopStep (wrapping D) strings size st ∧
      loopStep (wrapping D) strings size st ≠ .error .signedOverflow := by
  have hchecks := loopStep_checks D strings hst hm hg
  refine ⟨hchecks.pass ⟨⟨hr.digits, fun _ _ _ h => (hr.conversion _ _ _ h).1⟩, ?_⟩, hchecks.clean⟩
  intro st' hbody
  rw [loopBody_index hbody]
  have hi := hst.index
  have hindex := hr.index
  simp only [InInt, INT_MIN, INT_MAX] at *
  omega

theorem loopStep_counted {st st' : LoopState} (hst : st.Counted) (hm : size ≤ INT_MAX)
    (hg : loopGuard size st = .ok true) (hr : st.InRange D strings size)
    (h : loopStep (trapping D) strings size st = .ok st') : st'.Counted := by
  obtain ⟨h0, -⟩ := hst.room hm hg
  obtain ⟨st'', hbody, h⟩ := bind_eq_ok.mp h
  obtain ⟨i, hi, h⟩ := bind_eq_ok.mp h
  obtain ⟨hin, hi⟩ := (arith_int_checks (D := D) _).of_ok hi
  rw [arith_int_wrapping, wrapInt_eq hin.1 hin.2, loopBody_index hbody] at hi
  obtain ⟨conv, ap, fmt, hnext, width, len, hasks, htotal⟩ := loopBody_total hbody
  have hmax := (hr.conversion _ _ _ hnext).2 width len hasks
  have hlen := hasks.len_nonneg h0 (by omega)
  have hindex := hst.index
  have hold := hst.total
  have hlt := hr.index
  rw [← Except.ok.inj h]
  constructor
  · rw [← Except.ok.inj hi]
    dsimp only
    omega
  · dsimp only
    rw [htotal]
    exact ⟨by omega, hmax⟩

theorem inRange_of_loopStep {st st' : LoopState} (hst : st.Counted) (hm : size ≤ INT_MAX)
    (hg : loopGuard size st = .ok true)
    (h : loopStep (trapping D) strings size st = .ok st') (ht : st'.out.spec.total ≤ INT_MAX) :
    st.InRange D strings size := by
  obtain ⟨⟨⟨hdigits, hcomputes⟩, -⟩, -⟩ :=
    (loopStep_checks D strings hst hm hg).of_ok h
  obtain ⟨st'', hbody, h⟩ := bind_eq_ok.mp h
  obtain ⟨i, hi, h⟩ := bind_eq_ok.mp h
  obtain ⟨hin, -⟩ := (arith_int_checks (D := D) _).of_ok hi
  rw [loopBody_index hbody] at hin
  obtain ⟨conv, ap, fmt, hnext, width, len, hasks, htotal⟩ := loopBody_total hbody
  refine ⟨?_, hdigits, fun conv' ap' fmt' hnext' => ⟨hcomputes _ _ _ hnext', ?_⟩⟩
  · have := hin.2
    omega
  · intro width' len' hasks'
    rw [hnext] at hnext'
    obtain ⟨rfl, -⟩ := Prod.mk.inj (Except.ok.inj hnext')
    obtain ⟨rfl, rfl⟩ := hasks.unique hasks'
    rw [← Except.ok.inj h] at ht
    dsimp only at ht
    rwa [← htotal]

end Step

section Runs

variable {D : DataModel} {strings : Strings} {size : ℤ}

def RunInRange (D : DataModel) (strings : Strings) (size : ℤ) (st : LoopState) : Prop :=
  ∀ n st', Iterates (wrapping D) strings size n st st' → loopGuard size st' = .ok true →
    st'.InRange D strings size

theorem iterates_inRange {T : Machine} (hT : T = wrapping D ∨ T = trapping D)
    {n : ℕ} {st st' : LoopState} (hm : size ≤ INT_MAX) (hr : RunInRange D strings size st)
    (hst : st.Counted) (h : Iterates T strings size n st st') :
    Iterates (wrapping D) strings size n st st' ∧ st'.Counted := by
  induction h with
  | refl st => exact ⟨.refl st, hst⟩
  | @step n st st' st'' hg hstep _ ih =>
    have hin := hr 0 st (.refl st) hg
    have hsame := (loopStep_inRange hst hm hg hin).1
    have hwrap : loopStep (wrapping D) strings size st = .ok st' := by
      rcases hT with rfl | rfl
      · exact hstep
      · rw [← hsame, hstep]
    obtain ⟨hiter, hlast⟩ := ih (fun k t ht => hr (k + 1) t (.step hg hwrap ht))
      (loopStep_counted hst hm hg hin (hsame.trans hwrap))
    exact ⟨.step hg hwrap hiter, hlast⟩

theorem inRange_of_iterates {n : ℕ} {st st' : LoopState} (hm : size ≤ INT_MAX)
    (hst : st.Counted)
    (hsteps : ∀ n st', Iterates (trapping D) strings size n st st' →
      loopGuard size st' = .ok true →
        loopStep (trapping D) strings size st' ≠ .error .signedOverflow)
    (htotals : ∀ n st', Iterates (trapping D) strings size n st st' →
      st'.out.spec.total ≤ INT_MAX)
    (hok : ∀ n st', Iterates (wrapping D) strings size n st st' → loopGuard size st' = .ok true →
      ∃ st'', loopStep (wrapping D) strings size st' = .ok st'')
    (h : Iterates (wrapping D) strings size n st st') (hg : loopGuard size st' = .ok true) :
    st'.InRange D strings size := by
  have step {st st'' : LoopState} (hst : st.Counted) (hg : loopGuard size st = .ok true)
      (hne : loopStep (trapping D) strings size st ≠ .error .signedOverflow)
      (hwrap : loopStep (wrapping D) strings size st = .ok st'') :
      loopStep (trapping D) strings size st = .ok st'' := by
    have hchecks := loopStep_checks D strings hst hm hg
    rw [hchecks.pass (hchecks.ne_error_iff.mp hne), hwrap]
  induction h with
  | refl st =>
    obtain ⟨st'', hwrap⟩ := hok 0 st (.refl st) hg
    have htrap := step hst hg (hsteps 0 st (.refl st) hg) hwrap
    exact inRange_of_loopStep hst hm hg htrap (htotals 1 st'' (.step hg htrap (.refl st'')))
  | @step n st st₁ st' hg₁ hwrap _ ih =>
    have htrap := step hst hg₁ (hsteps 0 st (.refl st) hg₁) hwrap
    have hin := inRange_of_loopStep hst hm hg₁ htrap (htotals 1 st₁ (.step hg₁ htrap (.refl st₁)))
    exact ih (loopStep_counted hst hm hg₁ hin htrap)
      (fun k t ht => hsteps (k + 1) t (.step hg₁ htrap ht))
      (fun k t ht => htotals (k + 1) t (.step hg₁ htrap ht))
      (fun k t ht => hok (k + 1) t (.step hg₁ hwrap ht)) hg

end Runs

end OsdevLibstdc.Vsnprintf
