import OsdevLibstdc.FormatOutput

/-!
The argument readers and the main loop of `vsnprintf`.
-/

namespace OsdevLibstdc.Vsnprintf

open Target ByteStores

/-- A plain `char` or `unsigned char` variable assigned from an `int`, and then widened. -/
def narrow (signed : Bool) (v : ℤ) : ℤ := if signed then v.bmod 256 else v % 256

def readSignedNumber (D : DataModel) (lengthSpec : LengthSpec) (ap : VaList) :
    Except Fault (ℤ × VaList) :=
  match lengthSpec with
  | .l => vaArg D .long ap
  | .z => vaArg D .int64 ap
  | .hh => do
    let (v, ap) ← vaArg D .int ap
    return (narrow true v, ap)
  | .h => vaArg D .int ap
  | .t => vaArg D .ptrdiff ap
  | .ll | .null => vaArg D .longLong ap

def readUnsignedNumber (D : DataModel) (lengthSpec : LengthSpec) (ap : VaList) :
    Except Fault (ℤ × VaList) :=
  match lengthSpec with
  | .l => vaArg D .unsignedLong ap
  | .z => vaArg D .size ap
  | .hh => do
    let (v, ap) ← vaArg D .unsignedInt ap
    return (narrow false v, ap)
  | .h => vaArg D .unsignedInt ap
  | .ll | .t | .null => vaArg D .unsignedLongLong ap

def signedValue (D : DataModel) (lengthSpec : LengthSpec) (ap : VaList) :
    Except Fault (ℤ × VaList) :=
  if lengthSpec = .null then vaArg D .int ap else readSignedNumber D lengthSpec ap

def unsignedValue (D : DataModel) (lengthSpec : LengthSpec) (ap : VaList) :
    Except Fault (ℤ × VaList) :=
  if lengthSpec = .null then vaArg D .unsignedInt ap else readUnsignedNumber D lengthSpec ap

def signedArgument (T : Machine) (spec : FormatSpec) (ap : VaList) :
    Except Fault (FormatSpec × ℕ × VaList) := do
  let spec := { spec with flags.alt := false, radix := 10 }
  let (value, ap) ← signedValue T.model spec.lengthSpec ap
  let spec := { spec with negative := value < 0 }
  if value < 0 then
    let value ← T.arith .longLong (-value)
    let number := (CType.unsignedLongLong.convert T.model value).toNat
    return ({ spec with flags.space := false }, number, ap)
  else
    return (spec, (CType.unsignedLongLong.convert T.model value).toNat, ap)

def unsignedArgument (D : DataModel) (spec : FormatSpec) (ap : VaList) :
    Except Fault (FormatSpec × ℕ × VaList) := do
  let spec := { spec with flags.space := false, flags.plus := false }
  let (value, ap) ← unsignedValue D spec.lengthSpec ap
  return (spec, value.toNat, ap)

def readFormatUnsignedInt (T : Machine) (out : Output) (size : ℤ) (ap : VaList) :
    Except Fault (Output × VaList) := do
  let (spec, number, ap) ← unsignedArgument T.model out.spec ap
  return (← formatNumber T { out with spec } number size, ap)

/-- `written` is `pos - buf` at the end of the last directive, and `i` counts iterations. A store
of `%n` outside the buffer is a pointer and the value stored there. -/
structure LoopState where
  fmt : Cursor
  ap : VaList
  out : Output
  written : ℕ
  i : ℤ
  counts : List (ℕ × ℕ)
deriving Repr, DecidableEq

def Output.putChar (out : Output) (c : UInt8) : Output :=
  { (out.count 1) with pos := out.pos + 1, stores := ⟨out.pos, [c]⟩ :: out.stores }

def LoopState.withOutput (st : LoopState) (r : Output × VaList) : LoopState :=
  { st with out := r.1, ap := r.2 }

def LoopState.withSpec (st : LoopState) (spec : FormatSpec) : LoopState :=
  { st with out := { st.out with spec } }

def pointerSpec (D : DataModel) (spec : FormatSpec) : FormatSpec :=
  let precision : ℤ := if spec.precision = -1 ∧ spec.fieldWidth = -1 then
    (CType.pointer.sizeof D * 2 : ℕ) else spec.precision
  { spec with
    flags := { spec.flags with zero := false, space := false, plus := false, alt := false }
    radix := 16
    precision }

inductive Specifier
  | d | i | u | o | X | x | p | n | c | s | percent
deriving Repr, DecidableEq

def Specifier.byte : Specifier → UInt8
  | d => Target.byte 'd'
  | i => Target.byte 'i'
  | u => Target.byte 'u'
  | o => Target.byte 'o'
  | X => Target.byte 'X'
  | x => Target.byte 'x'
  | p => Target.byte 'p'
  | n => Target.byte 'n'
  | c => Target.byte 'c'
  | s => Target.byte 's'
  | percent => Target.byte '%'

def specifierOf (c : UInt8) : Option Specifier :=
  [.d, .i, .u, .o, .X, .x, .p, .n, .c, .s, .percent].find? (fun k => k.byte = c)

theorem specifierOf_byte (k : Specifier) : specifierOf k.byte = some k := by
  cases k <;> rfl

def convert (T : Machine) (strings : Strings) (size : ℤ) (c : UInt8) (st : LoopState) :
    Except Fault LoopState :=
  let room := size - st.written
  let spec := st.out.spec
  match specifierOf c with
  | some .d | some .i => do
    let (spec, number, ap) ← signedArgument T spec st.ap
    let out ← formatNumber T { st.out with spec } number room
    return st.withOutput (out, ap)
  | some .u => do
    let spec := { spec with flags.alt := false }
    return st.withOutput (← readFormatUnsignedInt T { st.out with spec } room st.ap)
  | some .o => do
    let spec := { spec with radix := 8 }
    return st.withOutput (← readFormatUnsignedInt T { st.out with spec } room st.ap)
  | some .X => do
    let spec := { spec with flags.huge := true, radix := 16 }
    return st.withOutput (← readFormatUnsignedInt T { st.out with spec } room st.ap)
  | some .x => do
    let spec := { spec with radix := 16 }
    return st.withOutput (← readFormatUnsignedInt T { st.out with spec } room st.ap)
  | some .p => do
    let (value, ap) ← readUnsignedNumber T.model spec.lengthSpec st.ap
    if 0 < value then
      let out ← formatNumber T { st.out with spec := pointerSpec T.model spec } value.toNat room
      return st.withOutput (out, ap)
    else
      -- the room is computed from `i`, where every other case has `written`
      let room ← T.arith .int (size - st.i)
      return st.withOutput (← formatString T strings st.out room ap (some kNil))
  | some .n => do
    let (ptr, ap) ← vaArg T.model .pointer st.ap
    if ptr = 0 then return { st with ap }
    else return { st with ap, counts := (ptr.toNat, st.written) :: st.counts }
  | some .c => do
    return st.withOutput (← formatChar T st.out room st.ap)
  | some .s => do
    return st.withOutput (← formatString T strings st.out room st.ap none)
  | some .percent | none => .ok { st with out := st.out.putChar c }

def clearZero (spec : FormatSpec) : FormatSpec :=
  if spec.flags.minus then { spec with flags.zero := false } else spec

theorem clearZero_lengthSpec (spec : FormatSpec) :
    (clearZero spec).lengthSpec = spec.lengthSpec := by
  unfold clearZero
  split_ifs <;> rfl

def loopDirective (T : Machine) (strings : Strings) (size : ℤ) (st : LoopState) :
    Except Fault LoopState := do
  let p ← parseFlagsFwPrecision T st.fmt.tail st.out.spec st.ap
  let (spec, fmt) ← parseSizeSpecifier p.fmt p.spec
  let c ← deref fmt
  let st ← convert T strings size c { st.withSpec (clearZero spec) with fmt, ap := p.ap }
  return { st with written := st.out.pos }

def loopBody (T : Machine) (strings : Strings) (size : ℤ) (st : LoopState) :
    Except Fault LoopState := do
  let st := st.withSpec st.out.spec.reset
  let c ← deref st.fmt
  if c = byte '%' then loopDirective T strings size st
  else return { st with out := st.out.putChar c, written := st.written + 1 }

def loopStep (T : Machine) (strings : Strings) (size : ℤ) (st : LoopState) :
    Except Fault LoopState := do
  let st ← loopBody T strings size st
  let i ← T.arith .int (st.i + 1)
  return { st with i, fmt := st.fmt.tail }

def loopGuard (size : ℤ) (st : LoopState) : Except Fault Bool := do
  let c ← deref st.fmt
  return c ≠ 0 ∧ (st.written : ℤ) < size

def loop (T : Machine) (strings : Strings) (size : ℤ) : ℕ → LoopState → Except Fault LoopState
  | 0, _ => .error .outOfFuel
  | fuel + 1, st => do
    if ← loopGuard size st then
      let st ← loopStep T strings size st
      loop T strings size fuel st
    else return st

/-- What a call leaves behind. `value` is the returned `int` and `total` its exact value; the
newest store comes first; `fmt` is where the loop stopped. -/
structure Result where
  value : ℤ
  total : ℤ
  stores : List Store
  counts : List (ℕ × ℕ)
  fmt : Cursor
deriving Repr, DecidableEq

def Result.memory (r : Result) (init : Memory) : Memory := replay r.stores init

def startState (fmt : CString) (ap : VaList) : LoopState :=
  { fmt := cursor fmt, ap, out := { pos := 0, spec := {}, stores := [] }, written := 0, i := 0,
    counts := [] }

def vsnprintf (T : Machine) (strings : Strings) (maxSize : ℕ) (fmt : CString) (ap : VaList) :
    Except Fault Result :=
  if maxSize = 0 then .ok ⟨0, 0, [], [], cursor fmt⟩
  else if (maxSize : ℤ) < INT_MAX then do
    let size : ℤ := maxSize - 1
    -- every iteration moves `fmt` forward, so the fuel is never used up
    let st ← loop T strings size ((cursor fmt).length + 1) (startState fmt ap)
    let total := st.out.spec.total
    let value ← T.arith .int total
    return ⟨value, total, ⟨st.out.pos, [0]⟩ :: st.out.stores, st.counts, st.fmt⟩
  else .ok ⟨0, 0, [], [], cursor fmt⟩

end OsdevLibstdc.Vsnprintf
