import OsdevLibstdc.FieldRooms
import OsdevLibstdc.LoopRuns

/-!
How far the format is read. Every parser stops in front of the terminating NUL, but the `switch`
takes any byte for a specifier, the NUL as well, and the loop then steps past it.
-/

namespace OsdevLibstdc.Vsnprintf

open Target ByteStores Outcomes

def Terminated (fmt : Cursor) : Prop := ∃ s, 0 ∉ s ∧ fmt = s ++ [0]

def NotOverread (e : Fault) : Prop := e ≠ .formatOverread

theorem terminated_cursor (fmt : CString) : Terminated (cursor fmt) := ⟨fmt.val, fmt.property, rfl⟩

theorem Terminated.cases {fmt : Cursor} (h : Terminated fmt) :
    fmt = [0] ∨ ∃ c rest, fmt = c :: rest ∧ c ≠ 0 ∧ Terminated rest := by
  obtain ⟨s, hs, rfl⟩ := h
  cases s with
  | nil => exact .inl rfl
  | cons c s =>
    rw [List.mem_cons, not_or] at hs
    exact .inr ⟨c, s ++ [0], rfl, Ne.symm hs.1, s, hs.2, rfl⟩

theorem Terminated.tail {c : UInt8} {fmt : Cursor} (h : Terminated (c :: fmt)) (hc : c ≠ 0) :
    Terminated fmt := by
  rcases h.cases with h | ⟨d, rest, h, -, hrest⟩
  · exact absurd (List.cons.inj h).1 hc
  · rw [(List.cons.inj h).2]
    exact hrest

theorem Terminated.eq_nil {fmt : Cursor} (h : Terminated (0 :: fmt)) : fmt = [] := by
  rcases h.cases with h | ⟨d, rest, h, hd, -⟩
  · exact (List.cons.inj h).2
  · exact absurd (List.cons.inj h).1.symm hd

theorem deref_ensures {fmt : Cursor} (h : Terminated fmt) :
    Ensures (fun c => fmt = c :: fmt.tail ∧ (c ≠ 0 → Terminated fmt.tail)) NotOverread (deref fmt) := by
  rcases h.cases with rfl | ⟨c, rest, rfl, -, hrest⟩
  · exact ⟨rfl, fun hc => absurd rfl hc⟩
  · exact ⟨rfl, fun _ => hrest⟩

theorem ne_zero_of_isdigit {c : UInt8} (h : isdigit (charValue c) = true) : c ≠ 0 := by
  rintro rfl
  exact absurd h (by decide)

theorem ne_zero_of_addFlag {flags flags' : FormatFlags} {c : UInt8}
    (h : addFlag flags c = some flags') : c ≠ 0 := by
  rintro rfl
  have : addFlag flags 0 = none := rfl
  rw [this] at h
  cases h

theorem byte_ne_zero {c : UInt8} {k : Char} (h : c = byte k) (hk : byte k ≠ 0) : c ≠ 0 :=
  h ▸ hk

section Parsers

variable {T : Machine}

theorem arith_ensures (ty : CType) (x : ℤ) :
    Ensures (fun _ => True) NotOverread (T.arith ty x) := by
  unfold Machine.arith
  split
  · trivial
  · split_ifs
    · trivial
    · exact Fault.noConfusion

theorem vaArg_ensures (D : DataModel) (ty : CType) (ap : VaList) :
    Ensures (fun _ => True) NotOverread (vaArg D ty ap) := by
  unfold vaArg
  split_ifs
  · exact Fault.noConfusion
  · trivial

theorem parseNumber_ensures {fmt : Cursor} (h : Terminated fmt) (v : ℤ) :
    Ensures (fun r => Terminated r.2) NotOverread (parseNumber T fmt v) := by
  induction fmt generalizing v with
  | nil =>
    rcases h.cases with h | ⟨_, _, h, -⟩ <;> cases h
  | cons c fmt ih =>
    rw [parseNumber]
    split_ifs with hd
    · exact (arith_ensures _ _).bind fun v _ => ih (h.tail (ne_zero_of_isdigit hd)) v
    · exact h

theorem scanFlags_ensures {fmt : Cursor} (h : Terminated fmt) (flags : FormatFlags) :
    Ensures (fun r => Terminated r.2 ∧ deref r.2 ≠ .ok (byte '-')) NotOverread
      (scanFlags fmt flags) := by
  induction fmt generalizing flags with
  | nil =>
    rcases h.cases with h | ⟨_, _, h, -⟩ <;> cases h
  | cons c fmt ih =>
    rw [scanFlags]
    cases hf : addFlag flags c with
    | some flags' => exact ih (h.tail (ne_zero_of_addFlag hf)) flags'
    | none =>
      refine ⟨h, fun hc => ?_⟩
      rw [Except.ok.inj hc] at hf
      cases hf

theorem skipDigits_ensures {fmt : Cursor} (h : Terminated fmt) :
    Ensures Terminated NotOverread (skipDigits fmt) := by
  induction fmt with
  | nil =>
    rcases h.cases with h | ⟨_, _, h, -⟩ <;> cases h
  | cons c fmt ih =>
    rw [skipDigits]
    split_ifs with hd
    · exact ih (h.tail (ne_zero_of_isdigit hd))
    · exact h

theorem parseFieldWidth_ensures {p : Parsed} (h : Terminated p.fmt)
    (hd : deref p.fmt ≠ .ok (byte '-')) :
    Ensures (fun q => Terminated q.fmt) NotOverread (parseFieldWidth T p) := by
  unfold parseFieldWidth
  cases hc : deref p.fmt with
  | error e => exact (deref_ensures h).of_error hc
  | ok c =>
    obtain ⟨-, htail⟩ := (deref_ensures h).of_ok hc
    rw [ok_bind]
    split_ifs with h1 h2 h3
    · apply (vaArg_ensures _ _ _).bind
      intro r _
      exact htail (byte_ne_zero h1 (by decide))
    · apply (parseNumber_ensures h 0).bind
      intro r hr
      exact hr
    · exact absurd (h3 ▸ hc) hd
    · exact h

theorem parsePrecision_ensures {p : Parsed} (h : Terminated p.fmt) :
    Ensures (fun q => Terminated q.fmt) NotOverread (parsePrecision T p) := by
  apply (deref_ensures h).bind
  rintro c ⟨-, htail⟩
  split_ifs with h1
  · have h' := htail (byte_ne_zero h1 (by decide))
    apply (deref_ensures h').bind
    rintro d ⟨-, htail'⟩
    split_ifs with h2 h3 h4
    · apply (vaArg_ensures _ _ _).bind
      intro r _
      exact htail' (byte_ne_zero h2 (by decide))
    · apply (skipDigits_ensures (htail' (byte_ne_zero h3 (by decide)))).bind
      intro r hr
      exact hr
    · apply (parseNumber_ensures h' 0).bind
      intro r hr
      exact hr
    · exact h'
  · exact h

theorem parseFlagsFwPrecision_ensures {fmt : Cursor} (h : Terminated fmt) (spec : FormatSpec)
    (ap : VaList) :
    Ensures (fun q => Terminated q.fmt) NotOverread (parseFlagsFwPrecision T fmt spec ap) := by
  apply (scanFlags_ensures h _).bind
  rintro r ⟨hr, hd⟩
  apply (parseFieldWidth_ensures hr hd).bind
  intro p hp
  exact parsePrecision_ensures hp

theorem parseSizeSpecifier_ensures {fmt : Cursor} (h : Terminated fmt) (spec : FormatSpec) :
    Ensures (fun r => Terminated r.2) NotOverread (parseSizeSpecifier fmt spec) := by
  apply (deref_ensures h).bind
  rintro c ⟨-, htail⟩
  split_ifs with h1 h2 h3 h4
  · have h' := htail (byte_ne_zero h1 (by decide))
    apply (deref_ensures h').bind
    rintro d ⟨-, htail'⟩
    split_ifs with h5
    · exact htail' (byte_ne_zero h5 (by decide))
    · exact h'
  · have h' := htail (byte_ne_zero h2 (by decide))
    apply (deref_ensures h').bind
    rintro d ⟨-, htail'⟩
    split_ifs with h5
    · exact htail' (byte_ne_zero h5 (by decide))
    · exact h'
  · exact htail (byte_ne_zero h3 (by decide))
  · exact htail (byte_ne_zero h4 (by decide))
  · exact h

theorem narrowed_ensures (D : DataModel) (ty : CType) (signed : Bool) (ap : VaList) :
    Ensures (fun _ => True) NotOverread (vaArg D ty ap >>= fun r =>
      (pure (narrow signed r.1, r.2) : Except Fault (ℤ × VaList))) :=
  (vaArg_ensures D ty ap).bind fun _ _ => trivial

theorem readSignedNumber_ensures (D : DataModel) (len : LengthSpec) (ap : VaList) :
    Ensures (fun _ => True) NotOverread (readSignedNumber D len ap) := by
  cases len
  case hh => exact narrowed_ensures _ _ _ _
  all_goals exact vaArg_ensures _ _ _

theorem readUnsignedNumber_ensures (D : DataModel) (len : LengthSpec) (ap : VaList) :
    Ensures (fun _ => True) NotOverread (readUnsignedNumber D len ap) := by
  cases len
  case hh => exact narrowed_ensures _ _ _ _
  all_goals exact vaArg_ensures _ _ _

theorem signedArgument_ensures (spec : FormatSpec) (ap : VaList) :
    Ensures (fun _ => True) NotOverread (signedArgument T spec ap) := by
  have hv : Ensures (fun _ => True) NotOverread (signedValue T.model spec.lengthSpec ap) := by
    unfold signedValue
    split_ifs
    · exact vaArg_ensures _ _ _
    · exact readSignedNumber_ensures _ _ _
  apply hv.bind
  rintro ⟨v, ap'⟩ _
  simp only
  split_ifs
  · exact (arith_ensures _ _).bind fun _ _ => trivial
  · trivial

theorem unsignedArgument_ensures (D : DataModel) (spec : FormatSpec) (ap : VaList) :
    Ensures (fun _ => True) NotOverread (unsignedArgument D spec ap) := by
  have hv : Ensures (fun _ => True) NotOverread (unsignedValue D spec.lengthSpec ap) := by
    unfold unsignedValue
    split_ifs
    · exact vaArg_ensures _ _ _
    · exact readUnsignedNumber_ensures _ _ _
  exact hv.bind fun _ _ => trivial

theorem conversion_ensures (c : UInt8) (spec : FormatSpec) (ap : VaList) :
    Ensures (fun _ => True) NotOverread (conversion T c spec ap) := by
  unfold conversion
  split
  case h_1 | h_2 => exact (signedArgument_ensures _ _).bind fun _ _ => trivial
  case h_3 | h_4 | h_5 | h_6 => exact (unsignedArgument_ensures _ _ _).bind fun _ _ => trivial
  case h_7 =>
    apply (readUnsignedNumber_ensures _ _ _).bind
    rintro ⟨v, ap'⟩ _
    simp only
    split_ifs <;> trivial
  case h_8 | h_9 | h_10 => exact (vaArg_ensures _ _ _).bind fun _ _ => trivial
  case h_11 | h_12 => trivial

theorem directive_ensures {fmt : Cursor} (h : Terminated fmt) (spec : FormatSpec) (ap : VaList) :
    Ensures (fun r => Terminated r.2.2 ∨ r.1 = .literal 0 ∧ r.2.2 = []) NotOverread
      (directive T spec fmt ap) := by
  apply (parseFlagsFwPrecision_ensures h spec ap).bind
  intro p hp
  apply (parseSizeSpecifier_ensures hp p.spec).bind
  rintro ⟨spec', fmt'⟩ hfmt
  apply (deref_ensures hfmt).bind
  rintro c ⟨hc, htail⟩
  simp only at hc htail ⊢
  by_cases h0 : c = 0
  · subst h0
    have hnil : fmt'.tail = [] := by
      rw [hc] at hfmt
      exact hfmt.eq_nil
    exact .inr ⟨rfl, hnil⟩
  · apply (conversion_ensures c _ _).bind
    intro r _
    exact .inl (htail h0)

theorem push_ensures (xs ys : List UInt8) :
    Ensures (fun _ => True) NotOverread (push xs ys) := by
  unfold push
  split_ifs
  · trivial
  · exact Fault.noConfusion

theorem pushDigits_ensures (huge : Bool) (radix room n : ℕ) :
    Ensures (fun _ => True) NotOverread (pushDigits huge radix room n) := by
  induction room generalizing n with
  | zero =>
    cases n with
    | zero => trivial
    | succ n => exact Fault.noConfusion
  | succ room ih =>
    cases n with
    | zero => trivial
    | succ n => exact (ih _).bind fun _ _ => trivial

theorem emulateZero_ensures (spec : FormatSpec) :
    Ensures (fun _ => True) NotOverread (emulateZero T spec) := by
  unfold emulateZero
  split_ifs
  · exact (arith_ensures _ _).bind fun _ _ => trivial
  · trivial
  · trivial

theorem reservePrefix_ensures (spec : FormatSpec) (n : ℕ) (p : ℤ) :
    Ensures (fun _ => True) NotOverread (reservePrefix T spec n p) := by
  unfold reservePrefix
  split_ifs
  · exact arith_ensures _ _
  · exact arith_ensures _ _
  · trivial
  · trivial

theorem numberToString_ensures (n : ℕ) (spec : FormatSpec) (size : ℤ) :
    Ensures (fun _ => True) NotOverread (numberToString T n spec size) := by
  unfold numberToString
  split_ifs
  · trivial
  all_goals
    apply Ensures.bind (P := fun _ => True)
    · first
        | trivial
        | exact pushDigits_ensures _ _ _ _
    intro digits _
    apply (arith_ensures _ _).bind
    intro p _
    apply (reservePrefix_ensures spec n p).bind
    intro p' _
    apply (push_ensures _ _).bind
    intro zeros _
    exact (push_ensures _ _).bind fun _ _ => trivial

theorem numberStr_ensures (spec : FormatSpec) (n : ℕ) :
    Ensures (fun _ => True) NotOverread (numberStr T spec n) := by
  apply (emulateZero_ensures spec).bind
  intro spec' _
  apply (numberToString_ensures n spec' _).bind
  intro digits _
  exact (push_ensures _ _).bind fun _ _ => trivial

theorem loadString_ensures (strings : Strings) (ptr : ℤ) :
    Ensures (fun _ => True) NotOverread (loadString strings ptr) := by
  unfold loadString
  split_ifs
  · trivial
  · split
    · trivial
    · exact Fault.noConfusion

theorem field_ensures (strings : Strings) (conv : Conversion) :
    Ensures (fun f => conv = .literal 0 → f = .literal 0) NotOverread (conv.field T strings) := by
  cases conv with
  | literal c => exact fun h => congrArg Field.literal (Conversion.literal.inj h)
  | number spec n => exact (numberStr_ensures spec n).bind fun _ _ h => nomatch h
  | char spec c => exact fun h => nomatch h
  | string spec ptr => exact (loadString_ensures strings ptr).bind fun _ _ h => nomatch h
  | nil spec => exact fun h => nomatch h
  | count ptr => exact fun h => nomatch h

def Unfinished (T : Machine) (fmt : Cursor) (ap : VaList) : Prop :=
  ∃ rest conv ap', fmt = byte '%' :: rest ∧ directive T {} rest ap = .ok (conv, ap', [])

theorem nextField_ensures (strings : Strings) {c : UInt8} {fmt : Cursor} (ap : VaList)
    (h : Terminated (c :: fmt)) (hc : c ≠ 0) :
    Ensures (fun r => Terminated r.2.2 ∨ Unfinished T (c :: fmt) ap) NotOverread
      (nextField T strings (c :: fmt) ap) := by
  have htail := h.tail hc
  have hconv : Ensures (fun r => Terminated r.2.2 ∨ Unfinished T (c :: fmt) ap) NotOverread
      (nextConversion T {} (c :: fmt) ap) := by
    simp only [nextConversion, deref, ok_bind, List.tail_cons]
    split_ifs with hp
    · cases hd : directive T {} fmt ap with
      | error e => exact (directive_ensures htail {} ap).of_error hd
      | ok r =>
        rcases (directive_ensures htail {} ap).of_ok hd with hr | ⟨-, hr⟩
        · exact .inl hr
        · exact .inr ⟨fmt, r.1, r.2.1, by rw [hp], by rw [hd, ← hr]⟩
    · exact .inl htail
  apply hconv.bind
  intro r hr
  exact (field_ensures strings r.1).bind fun _ _ => hr

theorem Unfinished.nextField_eq {fmt : Cursor} {ap : VaList} (h : Unfinished T fmt ap)
    (hfmt : Terminated fmt) (strings : Strings) :
    ∃ ap', nextField T strings fmt ap = .ok (.literal 0, ap', []) := by
  obtain ⟨rest, conv, ap', rfl, hd⟩ := h
  rcases (directive_ensures (hfmt.tail (by decide)) {} ap).of_ok hd with hr | ⟨hconv, -⟩
  · rcases hr.cases with h | ⟨_, _, h, -⟩ <;> cases h
  · simp only at hconv
    refine ⟨ap', ?_⟩
    simp only [nextField, nextConversion, deref, ok_bind, List.tail_cons, ↓reduceIte, hd, hconv]
    rfl

theorem Unfinished.consumes {fmt fmt' : Cursor} {ap ap' : VaList} {strings : Strings} {f : Field}
    (h : Unfinished T fmt ap) (hfmt : Terminated fmt)
    (hf : nextField T strings fmt ap = .ok (f, ap', fmt')) : fmt' = [] := by
  obtain ⟨ap'', hlast⟩ := h.nextField_eq hfmt strings
  rw [hf] at hlast
  exact (Prod.mk.inj (Prod.mk.inj (Except.ok.inj hlast)).2).2

theorem reads_unfinished {strings : Strings} {fmt : Cursor} {ap rest : VaList}
    {fields : List Field} (h : Reads T strings fmt ap fields [] rest) (hfmt : Terminated fmt) :
    ∃ pre f tail ap', fields = pre ++ [f] ∧ Reads T strings fmt ap pre tail ap' ∧
      Unfinished T tail ap' := by
  generalize hend : ([] : Cursor) = fmt'' at h
  induction h with
  | done fmt ap =>
    subst hend
    rcases hfmt.cases with h | ⟨_, _, h, -⟩ <;> cases h
  | @field c fmt fmt' fmt'' ap ap' rest f fields hc hf hr ih =>
    rcases (nextField_ensures strings ap hfmt hc).of_ok hf with ht | hu
    · obtain ⟨pre, g, tail, ap'', hfields, hpre, hu⟩ := ih ht hend
      exact ⟨f :: pre, g, tail, ap'', by rw [hfields, List.cons_append], .field hc hf hpre, hu⟩
    · obtain rfl := hu.consumes hfmt hf
      cases hr
      exact ⟨[], f, c :: fmt, ap, rfl, .done _ _, hu⟩

theorem reads_terminated {strings : Strings} {fmt fmt' : Cursor} {ap ap' : VaList}
    {fields : List Field} (h : Reads T strings fmt ap fields fmt' ap') (hfmt : Terminated fmt) :
    Terminated fmt' ∨ fmt' = [] := by
  induction h with
  | done fmt ap => exact .inl hfmt
  | @field c fmt fmt' fmt'' ap ap' rest f fields hc hf hr ih =>
    rcases (nextField_ensures strings ap hfmt hc).of_ok hf with ht | hu
    · exact ih ht
    · obtain rfl := hu.consumes hfmt hf
      cases hr
      exact .inr rfl

end Parsers

def RoomLeft (size : ℤ) : ℤ → ℕ → List Field → Prop
  | _, o, [] => (o : ℤ) < size
  | i, o, f :: fields => (o : ℤ) < size ∧ 0 ≤ f.room size i o ∧
    RoomLeft size (wrapInt (i + 1)) (o + f.advance size i o) fields

theorem roomLeft_of_putFields {size i : ℤ} {fields : List Field} {f : Field} {p q : Progress}
    (h : putFields size i (fields ++ [f]) p = .ok (q, [])) : RoomLeft size i p.pos fields := by
  induction fields generalizing i p with
  | nil =>
    by_contra hlt
    rw [putFields_stop _ hlt] at h
    cases h
  | cons g fields ih =>
    by_cases hlt : (p.pos : ℤ) < size
    · obtain ⟨hroom, p', -, hputs, h⟩ := (putFields_cons hlt).mp h
      refine ⟨hlt, hroom, ?_⟩
      rw [← hputs.pos]
      exact ih h
    · rw [putFields_stop _ hlt] at h
      cases h

theorem putFields_of_roomLeft {size i : ℤ} {fields : List Field} {p : Progress}
    (h : RoomLeft size i p.pos fields) (c : UInt8) :
    ∃ q, putFields size i (fields ++ [.literal c]) p = .ok (q, []) := by
  induction fields generalizing i p with
  | nil =>
    have hlt : (p.pos : ℤ) < size := h
    rw [List.nil_append, putFields, if_pos hlt]
    exact ⟨_, rfl⟩
  | cons f fields ih =>
    obtain ⟨hlt, hroom, h⟩ := h
    obtain ⟨p', hp', hputs⟩ := Field.put_ok hlt hroom
    rw [← hputs.pos] at h
    rw [List.cons_append, putFields, if_pos hlt, hp', ok_bind]
    exact ih h

def ReadsWithin (D : DataModel) (strings : Strings) (maxSize : ℕ) (fmt : CString) (ap : VaList) :
    Prop :=
  vsnprintf (wrapping D) strings maxSize fmt ap ≠ .error .formatOverread ∧
    ∀ n st, Iterates (wrapping D) strings (maxSize - 1) n (startState fmt ap) st →
      n ≤ strlen fmt.val

section Call

variable {D : DataModel} {strings : Strings} {maxSize : ℕ} {fmt : CString} {ap : VaList}

def ReachesUnfinished (D : DataModel) (strings : Strings) (maxSize : ℕ) (fmt : CString)
    (ap : VaList) : Prop :=
  ∃ fields tail ap', Reads (wrapping D) strings (cursor fmt) ap fields tail ap' ∧
    Unfinished (wrapping D) tail ap' ∧ RoomLeft (maxSize - 1) 0 0 fields

theorem reachesUnfinished_of_iterates (hmax : (maxSize : ℤ) < INT_MAX) {n : ℕ} {st : LoopState}
    (hit : Iterates (wrapping D) strings (maxSize - 1) n (startState fmt ap) st)
    (hst : st.fmt = []) : ReachesUnfinished D strings maxSize fmt ap := by
  obtain ⟨fields, hr, hput⟩ := iterates_reads hit (by omega) rfl
  rw [hst] at hr
  obtain ⟨pre, f, tail, ap', rfl, hpre, hu⟩ := reads_unfinished hr (terminated_cursor fmt)
  exact ⟨pre, tail, ap', hpre, hu, roomLeft_of_putFields hput⟩

theorem overread_of_reachesUnfinished (h1 : 1 ≤ maxSize) (hmax : (maxSize : ℤ) < INT_MAX)
    (h : ReachesUnfinished D strings maxSize fmt ap) :
    vsnprintf (wrapping D) strings maxSize fmt ap = .error .formatOverread := by
  obtain ⟨fields, tail, ap', hr, hu, hroom⟩ := h
  have htail : Terminated tail := by
    rcases reads_terminated hr (terminated_cursor fmt) with h | rfl
    · exact h
    · obtain ⟨_, _, _, h, -⟩ := hu
      cases h
  obtain ⟨ap'', hlast⟩ := hu.nextField_eq htail strings
  have hall : Reads (wrapping D) strings (cursor fmt) ap (fields ++ [.literal 0]) [] ap'' := by
    obtain ⟨rest, _, _, rfl, -⟩ := hu
    exact hr.trans (.field (by decide) hlast (.done _ _))
  obtain ⟨q, hput⟩ := putFields_of_roomLeft (p := {}) hroom 0
  obtain ⟨n, st, hit, -, hend, -⟩ :=
    iterates_putFields hall (by omega) (startState_written fmt ap) (startState_view fmt ap) hput
  have hst : st.fmt = [] := by
    generalize st.fmt = f at hend
    cases hend
    rfl
  have hguard : loopGuard (maxSize - 1 : ℤ) st = .error .formatOverread := by
    rw [loopGuard, hst]
    rfl
  rw [vsnprintf_eq _ h1 hmax, loop_from_start hmax hit, loop_guard_error hguard]
  rfl

theorem reachesUnfinished_of_overread (h1 : 1 ≤ maxSize) (hmax : (maxSize : ℤ) < INT_MAX)
    (h : vsnprintf (wrapping D) strings maxSize fmt ap = .error .formatOverread) :
    ReachesUnfinished D strings maxSize fmt ap := by
  rw [vsnprintf_eq _ h1 hmax] at h
  rcases bind_eq_error.mp h with h | ⟨st, -, h⟩
  · obtain ⟨n, st, hit, hend⟩ := loop_error h
    have hw := iterates_length hit (by omega) rfl
    rcases hend with hguard | ⟨hguard, hstep⟩ | ⟨-, he⟩
    · apply reachesUnfinished_of_iterates hmax hit
      cases hfmt : st.fmt with
      | nil => rfl
      | cons c rest =>
        rw [loopGuard, hfmt] at hguard
        cases hguard
    · obtain ⟨c, rest, hfmt, hc, hlt⟩ := loopGuard_eq_true.mp hguard
      obtain ⟨fields, hr, -⟩ := iterates_reads hit (by omega) rfl
      have ht : Terminated st.fmt := by
        rcases reads_terminated hr (terminated_cursor fmt) with h | h
        · exact h
        · rw [h] at hfmt
          cases hfmt
      rcases (loopStep_error (by omega) hw.1 hlt).mp hstep with hf | ⟨r, -, hput⟩
      · rw [hfmt] at hf ht
        exact absurd rfl ((nextField_ensures strings st.ap ht hc).of_error hf)
      · have hpos : ((st.view.progress.pos : ℕ) : ℤ) < maxSize - 1 := by
          have : st.view.progress.pos = st.written := hw.1.symm
          rw [this]
          exact hlt
        by_cases hroom : 0 ≤ r.1.room (maxSize - 1) st.i st.view.progress.pos
        · obtain ⟨q, hq, -⟩ := Field.put_ok hpos hroom
          rw [hq] at hput
          cases hput
        · rw [Field.put_error hpos (not_le.mp hroom)] at hput
          cases hput
    · cases he
  · rw [arith_int_wrapping] at h
    cases h

theorem vsnprintf_readsWithin_iff (h1 : 1 ≤ maxSize) (hmax : (maxSize : ℤ) < INT_MAX) :
    ReadsWithin D strings maxSize fmt ap ↔ ¬ ReachesUnfinished D strings maxSize fmt ap := by
  constructor
  · rintro ⟨hover, -⟩ h
    exact hover (overread_of_reachesUnfinished h1 hmax h)
  · intro h
    refine ⟨fun hover => h (reachesUnfinished_of_overread h1 hmax hover), ?_⟩
    intro n st hit
    have hst : st.fmt ≠ [] := fun hst => h (reachesUnfinished_of_iterates hmax hit hst)
    obtain ⟨-, hl⟩ := iterates_length hit (by omega) rfl
    have hlen : (startState fmt ap).fmt.length = fmt.val.length + 1 := List.length_append
    have hpos := List.length_pos_iff.mpr hst
    rw [strlen]
    omega

end Call

def lonePercent : CString := ⟨bytes "%", by decide⟩

theorem vsnprintf_readsWithin_iff_lonePercent :
    ReadsWithin .lp64 (fun _ => none) 10 lonePercent [] ↔
      ¬ ReachesUnfinished .lp64 (fun _ => none) 10 lonePercent [] :=
  vsnprintf_readsWithin_iff (by decide) (by decide)

theorem vsnprintf_not_readsWithin :
    ¬ ∀ (D : DataModel) (strings : Strings) (maxSize : ℕ) (fmt : CString) (ap : VaList),
      1 ≤ maxSize → (maxSize : ℤ) < INT_MAX → ReadsWithin D strings maxSize fmt ap := by
  intro h
  have hover := (h .lp64 (fun _ => none) 10 lonePercent [] (by decide) (by decide)).1
  exact hover rfl

end OsdevLibstdc.Vsnprintf
