import OsdevLibstdc.FormatTotals

/-!
The loop of `vsnprintf` simulates reading and putting fields, on a machine whose signed
arithmetic wraps.
-/

namespace OsdevLibstdc.Vsnprintf

open Target ByteStores Outcomes

theorem padding_cast (b : Box) :
    (if 0 ≤ wrapInt (b.width - b.text.length) then wrapInt (b.width - b.text.length) else 0) =
      (b.padding : ℤ) := by
  unfold Box.padding
  split_ifs <;> omega

theorem padding_le (b : Box) : (b.padding : ℤ) ≤ INT_MAX := by
  have := wrapInt_le (b.width - b.text.length)
  unfold Box.padding INT_MAX at *
  omega

def Output.put (out : Output) (b : Box) (room : ℕ) : Output :=
  { pos := out.pos + b.advance room
    spec := { out.spec with total := out.spec.total + (b.padding + b.text.length) }
    stores := b.stores out.pos room ++ out.stores }

section Put

variable (D : DataModel)

theorem pad_eq (out : Output) {padding : ℕ} {size : ℤ} (hp : (padding : ℤ) ≤ INT_MAX)
    (hs : 0 ≤ size) :
    out.pad D padding size = .ok { out with
      pos := out.pos + padding
      stores := ⟨out.pos, Box.spaces (min padding size.toNat)⟩ :: out.stores } := by
  have hb : blockLength D (min padding size) = .ok (min padding size.toNat) := by
    rw [blockLength_eq D (by omega) (by omega)]
    congr 1
    omega
  simp only [Output.pad, Output.memset, hb, ok_bind, pure_eq, Int.toNat_natCast]
  rfl

theorem mempcpy_eq (out : Output) (value : List UInt8) {len : ℕ} {size : ℤ}
    (hl : (len : ℤ) ≤ INT_MAX) (hs : 0 ≤ size) :
    out.mempcpy D value (min len size) = .ok { out with
      pos := out.pos + min len size.toNat
      stores := ⟨out.pos, (value.take len).take size.toNat⟩ :: out.stores } := by
  have hb : blockLength D (min len size) = .ok (min len size.toNat) := by
    rw [blockLength_eq D (by omega) (by omega)]
    congr 1
    omega
  simp only [Output.mempcpy, hb, ok_bind, pure_eq, List.take_take, Nat.min_comm len]

theorem putWithFieldWidth_eq (out : Output) (value : List UInt8) {len : ℕ} {size : ℤ}
    (hl : (len : ℤ) ≤ INT_MAX) (hv : len ≤ value.length) (hs : 0 ≤ size) :
    putWithFieldWidth (wrapping D) out value len size =
      .ok (out.put ⟨out.spec.flags.minus, out.spec.fieldWidth, value.take len⟩ size.toNat) := by
  set b : Box := ⟨out.spec.flags.minus, out.spec.fieldWidth, value.take len⟩ with hb
  have htl : b.text.length = len := by simp [hb, hv]
  have hpad := padding_cast b
  rw [htl] at hpad
  have hle := padding_le b
  unfold putWithFieldWidth
  rw [arith_int_wrapping, ok_bind, hpad]
  by_cases hm : out.spec.flags.minus
  · simp only [Output.count, hm, ↓reduceIte]
    rw [mempcpy_eq D _ value hl hs, ok_bind, pad_eq D _ hle hs]
    have hbm : b.minus = true := hm
    simp only [Output.put, Box.advance, Box.stores, hbm, ↓reduceIte, htl, List.cons_append,
      List.nil_append, add_assoc]
    rfl
  · simp only [Output.count, hm, Bool.false_eq_true, ↓reduceIte]
    have hroom : (if size > (b.padding : ℤ) then size - (b.padding : ℤ) else 0) =
        ((size.toNat - b.padding : ℕ) : ℤ) := by
      split_ifs <;> omega
    have hbm : b.minus = false := by simpa using hm
    rw [pad_eq D _ hle hs, ok_bind, hroom, mempcpy_eq D _ value hl (by omega), ok_bind]
    simp only [Output.put, Box.advance, Box.stores, hbm, Bool.false_eq_true, ↓reduceIte, htl,
      List.cons_append, List.nil_append, add_assoc, Int.toNat_natCast, pure_eq]
    rfl

theorem putWithFieldWidth_neg (out : Output) (value : List UInt8) {len size : ℤ}
    (hs : size < 0) (hm : INT_MIN ≤ size) (hl : INT_MIN ≤ len) :
    putWithFieldWidth (wrapping D) out value len size = .error .hugeBlock := by
  unfold putWithFieldWidth
  rw [arith_int_wrapping, ok_bind]
  have hcopy (out : Output) : out.mempcpy D value (min len size) = .error .hugeBlock := by
    rw [Output.mempcpy, blockLength_neg D (by omega) (by omega)]
    rfl
  have hpad (out : Output) (d : ℤ) :
      out.pad D (if 0 ≤ d then d else 0) size = .error .hugeBlock := by
    have hd : min (if 0 ≤ d then d else 0) size = size := by split_ifs <;> omega
    rw [Output.pad, Output.memset, hd, blockLength_neg D hs hm]
    rfl
  by_cases hminus : out.spec.flags.minus
  · simp only [Output.count, hminus, ↓reduceIte, hcopy, error_bind]
  · simp only [Output.count, hminus, Bool.false_eq_true, ↓reduceIte, hpad, error_bind]

theorem wrapInt_ge (x : ℤ) : INT_MIN ≤ wrapInt x := by
  have := Int.le_bmod (x := x) (m := 4294967296) (by norm_num)
  simp only [wrapInt, INT_MIN]
  omega

theorem formatStr_eq (out : Output) (s : List UInt8) {size : ℤ} (hs : 0 ≤ size)
    (hm : size ≤ INT_MAX) :
    formatStr (wrapping D) out size s =
      .ok (out.put ⟨out.spec.flags.minus, out.spec.fieldWidth,
        (cut out.spec.precision s).take size.toNat⟩ size.toNat) := by
  set maxCount : ℤ := if 0 ≤ out.spec.precision then min out.spec.precision size else size with hc
  have hc0 : 0 ≤ maxCount := by
    rw [hc]
    split_ifs <;> omega
  have hcm : maxCount ≤ INT_MAX := by
    rw [hc]
    split_ifs <;> omega
  have hconv : (CType.size.convert D maxCount).toNat = maxCount.toNat := by
    simp only [INT_MAX] at hcm
    cases D <;> simp [CType.convert, CType.signed, CType.sizeof, DataModel.word] <;> omega
  have htake : s.take (min s.length maxCount.toNat) = (cut out.spec.precision s).take size.toNat := by
    have hmin : s.take (min s.length maxCount.toNat) = s.take maxCount.toNat :=
      List.take_eq_take_iff.mpr (by omega)
    rw [hmin, hc, cut]
    split_ifs with hp
    · rw [List.take_take]
      congr 1
      omega
    · rfl
  have hlen : wrapInt (strnlen s maxCount.toNat) = (min s.length maxCount.toNat : ℕ) := by
    rw [strnlen, strlen, wrapInt_eq] <;> simp only [INT_MIN, INT_MAX] at * <;> omega
  simp only [formatStr, ← hc, hconv, hlen]
  rw [putWithFieldWidth_eq D out s (by simp only [INT_MAX] at *; omega) (by omega) hs, htake]

theorem formatStr_neg (out : Output) (s : List UInt8) {size : ℤ} (hs : size < 0)
    (hm : INT_MIN ≤ size) : formatStr (wrapping D) out size s = .error .hugeBlock :=
  putWithFieldWidth_neg D out s hs hm (wrapInt_ge _)

end Put

section Emit

def Conversion.emit (T : Machine) (strings : Strings) (size : ℤ) (st : LoopState) :
    Conversion → Except Fault LoopState
  | .literal c => .ok { st with out := st.out.putChar c }
  | .number spec n => do
    let out ← formatNumber T { st.out with spec } n (size - st.written)
    return { st with out }
  | .char spec c => do
    let out ← putWithFieldWidth T { st.out with spec } [c] 1 (size - st.written)
    return { st with out }
  | .string spec ptr => do
    let str ← loadString strings ptr
    let out ← formatStr T { st.out with spec } (size - st.written) str
    return { st with out }
  | .nil spec => do
    let room ← T.arith .int (size - st.i)
    let out ← formatStr T { st.out with spec } room kNil
    return { st with out }
  | .count ptr =>
    .ok (if ptr = 0 then st else { st with counts := (ptr.toNat, st.written) :: st.counts })

theorem readFormatUnsignedInt_eq (T : Machine) (strings : Strings) (size : ℤ) (st : LoopState)
    (spec : FormatSpec) :
    (readFormatUnsignedInt T { st.out with spec } (size - st.written) st.ap >>= fun r =>
      (pure (st.withOutput r) : Except Fault LoopState)) =
    (unsignedArgument T.model spec st.ap >>= fun r =>
      (pure (Conversion.number r.1 r.2.1, r.2.2) : Except Fault (Conversion × VaList))) >>=
      fun r => r.1.emit T strings size { st with ap := r.2 } := by
  simp only [readFormatUnsignedInt, bind_assoc, pure_bind, Conversion.emit, LoopState.withOutput]

theorem convert_eq (T : Machine) (strings : Strings) (size : ℤ) (c : UInt8) (st : LoopState) :
    convert T strings size c st = conversion T c st.out.spec st.ap >>= fun r =>
      r.1.emit T strings size { st with ap := r.2 } := by
  unfold convert conversion
  cases specifierOf c with
  | none => rfl
  | some k =>
    cases k
    case d => simp only [bind_assoc, pure_bind, Conversion.emit, LoopState.withOutput]
    case i => simp only [bind_assoc, pure_bind, Conversion.emit, LoopState.withOutput]
    case u => exact readFormatUnsignedInt_eq T strings size st _
    case o => exact readFormatUnsignedInt_eq T strings size st _
    case X => exact readFormatUnsignedInt_eq T strings size st _
    case x => exact readFormatUnsignedInt_eq T strings size st _
    case p =>
      simp only [bind_assoc]
      congr 1
      funext r
      split_ifs
      · simp only [pure_bind, Conversion.emit, LoopState.withOutput]
      · simp only [pure_bind, Conversion.emit, LoopState.withOutput, formatString, bind_assoc]
    case n =>
      simp only [bind_assoc, pure_bind, Conversion.emit]
      congr 1
      funext r
      split_ifs <;> rfl
    case c =>
      simp only [formatChar, bind_assoc, pure_bind, Conversion.emit, LoopState.withOutput]
    case s =>
      simp only [formatString, bind_assoc, pure_bind, Conversion.emit, LoopState.withOutput]
    case percent => rfl

structure View where
  fmt : Cursor
  ap : VaList
  progress : Progress
  i : ℤ

def Output.progress (out : Output) (counts : List (ℕ × ℕ)) : Progress :=
  ⟨out.pos, out.spec.total, out.stores, counts⟩

def LoopState.view (st : LoopState) : View := ⟨st.fmt, st.ap, st.out.progress st.counts, st.i⟩

theorem numberStr_length {T : Machine} {spec spec' : FormatSpec} {n : ℕ} {text : List UInt8}
    (h : numberStr T spec n = .ok (spec', text)) : text.length ≤ MAX_NUMBER_LEN := by
  simp only [numberStr, bind_eq_ok, push] at h
  obtain ⟨_, -, _, -, _, ht, h⟩ := h
  split_ifs at ht with hl
  obtain ⟨-, rfl⟩ := Prod.mk.inj (Except.ok.inj h)
  rwa [← Except.ok.inj ht]

theorem emit_view (D : DataModel) (strings : Strings) (conv : Conversion) {size : ℤ}
    (st : LoopState) (hs : size ≤ INT_MAX) (hw : st.written = st.out.pos)
    (hg : (st.written : ℤ) < size) :
    LoopState.view <$> (conv.withTotal st.out.spec.total).emit (wrapping D) strings size st =
      (do
        let f ← conv.field (wrapping D) strings
        let p ← f.put size st.i (st.out.progress st.counts)
        return ⟨st.fmt, st.ap, p, st.i⟩) := by
  have hroom : size - st.written = size - st.out.pos := by rw [hw]
  have h0 : (0 : ℤ) ≤ size - st.out.pos := by omega
  have hmax : size - (st.out.pos : ℤ) ≤ INT_MAX := by omega
  cases conv with
  | literal c => rfl
  | number spec n =>
    simp only [Conversion.withTotal, Conversion.emit, Conversion.field, formatNumber,
      numberStr_withTotal, hroom]
    cases hn : numberStr (wrapping D) spec n with
    | error e => rfl
    | ok r =>
      have hl : (r.2.length : ℤ) ≤ INT_MAX := by
        have := numberStr_length hn
        simp only [MAX_NUMBER_LEN, INT_MAX] at *
        omega
      simp only [map_ok, ok_bind]
      rw [putWithFieldWidth_eq D _ r.2 hl le_rfl h0, List.take_length]
      rfl
  | char spec c =>
    simp only [Conversion.withTotal, Conversion.emit, Conversion.field, hroom]
    have hone : ((1 : ℕ) : ℤ) ≤ INT_MAX := by simp [INT_MAX]
    have hp := putWithFieldWidth_eq D { st.out with spec := spec.withTotal st.out.spec.total } [c]
      hone le_rfl h0
    rw [Nat.cast_one] at hp
    rw [hp]
    rfl
  | string spec ptr =>
    simp only [Conversion.withTotal, Conversion.emit, Conversion.field, hroom]
    cases loadString strings ptr with
    | error e => rfl
    | ok str =>
      simp only [ok_bind]
      rw [formatStr_eq D _ str h0 hmax]
      rfl
  | nil spec =>
    simp only [Conversion.withTotal, Conversion.emit, Conversion.field, arith_int_wrapping, ok_bind]
    by_cases hneg : wrapInt (size - st.i) < 0
    · rw [formatStr_neg D _ kNil hneg (wrapInt_ge _)]
      simp [Field.put, hneg]
    · rw [formatStr_eq D _ kNil (by omega) (wrapInt_le _)]
      simp only [Field.put, hneg, ↓reduceIte]
      rfl
  | count ptr =>
    simp only [Conversion.withTotal, Conversion.emit, Conversion.field, Field.put, ok_bind, hw]
    split_ifs <;> rfl

theorem loopBody_written {T : Machine} {strings : Strings} {size : ℤ} {st st' : LoopState}
    (h : loopBody T strings size st = .ok st') (hw : st.written = st.out.pos) :
    st'.written = st'.out.pos := by
  simp only [loopBody, bind_eq_ok] at h
  obtain ⟨c, -, h⟩ := h
  split_ifs at h
  · simp only [loopDirective, bind_eq_ok] at h
    obtain ⟨_, -, _, -, _, -, _, -, h⟩ := h
    rw [← Except.ok.inj h]
  · rw [← Except.ok.inj h]
    simp [Output.putChar, LoopState.withSpec, hw]

theorem loopStep_written {T : Machine} {strings : Strings} {size : ℤ} {st st' : LoopState}
    (h : loopStep T strings size st = .ok st') (hw : st.written = st.out.pos) :
    st'.written = st'.out.pos := by
  simp only [loopStep, bind_eq_ok] at h
  obtain ⟨_, hb, _, -, h⟩ := h
  have := loopBody_written hb hw
  rw [← Except.ok.inj h]
  exact this

def View.next (v : View) : View := { v with fmt := v.fmt.tail, i := wrapInt (v.i + 1) }

theorem loopDirective_view (D : DataModel) (strings : Strings) {size : ℤ} (st : LoopState)
    (hs : size ≤ INT_MAX) (hw : st.written = st.out.pos) (hg : (st.written : ℤ) < size)
    (spec : FormatSpec) (hspec : st.out.spec = spec.withTotal st.out.spec.total) :
    (fun st : LoopState => st.view.next) <$> loopDirective (wrapping D) strings size st =
      (do
        let (conv, ap, fmt) ← directive (wrapping D) spec st.fmt.tail st.ap
        let f ← conv.field (wrapping D) strings
        let p ← f.put size st.i (st.out.progress st.counts)
        return ⟨fmt, ap, p, wrapInt (st.i + 1)⟩) := by
  have hparse := parseFlagsFwPrecision_withTotal (wrapping D) st.out.spec.total st.fmt.tail spec st.ap
  rw [← hspec] at hparse
  simp only [loopDirective, directive, hparse, map_bind, bind_map_left, bind_assoc, pure_bind]
  congr 1
  funext p
  simp only [Parsed.withTotal, parseSizeSpecifier_withTotal, bind_map_left]
  congr 1
  funext r
  congr 1
  funext c
  rw [clearZero_withTotal, convert_eq]
  simp only [LoopState.withSpec, conversion_withTotal, bind_map_left, bind_assoc]
  congr 1
  funext q
  have hemit := emit_view D strings q.1 { st with
    fmt := r.2, ap := q.2,
    out := { st.out with spec := (clearZero r.1).withTotal st.out.spec.total } } hs hw hg
  have hnext := congrArg (fun x => View.next <$> x) hemit
  simp only [map_bind, Functor.map_map, map_pure] at hnext
  exact hnext

theorem loopStep_view (D : DataModel) (strings : Strings) {size : ℤ} (st : LoopState)
    (hs : size ≤ INT_MAX) (hw : st.written = st.out.pos) (hg : (st.written : ℤ) < size) :
    LoopState.view <$> loopStep (wrapping D) strings size st =
      (do
        let (f, ap, fmt) ← nextField (wrapping D) strings st.fmt st.ap
        let p ← f.put size st.i (st.out.progress st.counts)
        return ⟨fmt, ap, p, wrapInt (st.i + 1)⟩) := by
  have hstep : LoopState.view <$> loopStep (wrapping D) strings size st =
      (fun st : LoopState => st.view.next) <$> loopBody (wrapping D) strings size st := by
    simp only [loopStep, arith_int_wrapping, ok_bind, map_bind]
    rfl
  have hdir := loopDirective_view D strings (st.withSpec st.out.spec.reset) hs hw hg {} rfl
  rw [hstep]
  simp only [loopBody, nextField, nextConversion, bind_assoc]
  cases hd : deref st.fmt with
  | error e => simp [LoopState.withSpec, hd]
  | ok c =>
    have hd' : deref (st.withSpec st.out.spec.reset).fmt = .ok c := hd
    simp only [hd', ok_bind]
    split_ifs with hc
    · rw [hdir]
      simp only [pure_bind]
      rfl
    · rfl

end Emit

end OsdevLibstdc.Vsnprintf
