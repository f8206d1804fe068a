import OsdevLibstdc.ByteStores
import OsdevLibstdc.FormatParser

/-!
The formatters: `put_with_field_width`, `format_string`, `format_char`, `number_to_string` and
`format_number`. A formatter returns the cursor it has moved, the `FormatSpec` it has changed
and the stores it has made, with offsets from the caller's buffer.
-/

namespace OsdevLibstdc.Vsnprintf

open Target ByteStores

structure Output where
  pos : ℕ
  spec : FormatSpec
  stores : List Store
deriving Repr, DecidableEq

def Output.count (out : Output) (n : ℤ) : Output :=
  { out with spec := { out.spec with total := out.spec.total + n } }

def Output.memset (D : DataModel) (out : Output) (c : UInt8) (n : ℤ) : Except Fault Output := do
  let n ← blockLength D n
  return { out with stores := ⟨out.pos, List.replicate n c⟩ :: out.stores }

def Output.mempcpy (D : DataModel) (out : Output) (value : List UInt8) (n : ℤ) :
    Except Fault Output := do
  let n ← blockLength D n
  return { out with pos := out.pos + n, stores := ⟨out.pos, value.take n⟩ :: out.stores }

/-- `memset(buf, ' ', min(padding_len, size)); buf += padding_len;` -/
def Output.pad (D : DataModel) (out : Output) (paddingLen size : ℤ) : Except Fault Output := do
  let out ← out.memset D (byte ' ') (min paddingLen size)
  return { out with pos := out.pos + paddingLen.toNat }

def putWithFieldWidth (T : Machine) (out : Output) (value : List UInt8) (len size : ℤ) :
    Except Fault Output := do
  let d ← T.arith .int (out.spec.fieldWidth - len)
  let paddingLen := if 0 ≤ d then d else 0
  let out := out.count paddingLen
  if out.spec.flags.minus then
    let out ← out.mempcpy T.model value (min len size)
    (out.count len).pad T.model paddingLen size
  else
    let out ← out.pad T.model paddingLen size
    let size := if size > paddingLen then size - paddingLen else 0
    let out ← out.mempcpy T.model value (min len size)
    return out.count len

def kNull : List UInt8 := bytes "(null)"

def kNil : List UInt8 := bytes "(nil)"

def strlen (s : List UInt8) : ℕ := s.length

def strnlen (s : List UInt8) (maxLen : ℕ) : ℕ := min (strlen s) maxLen

/-- `format_string` past its choice of `str`, for a string with the given contents. -/
def formatStr (T : Machine) (out : Output) (size : ℤ) (str : List UInt8) : Except Fault Output :=
  let maxCount := if 0 ≤ out.spec.precision then min out.spec.precision size else size
  let len := strnlen str (CType.size.convert T.model maxCount).toNat
  putWithFieldWidth T out str (wrapInt len) size

def loadString (strings : Strings) (ptr : ℤ) : Except Fault (List UInt8) :=
  if ptr = 0 then .ok kNull
  else match strings ptr.toNat with
    | some s => .ok s.val
    | none => .error .badPointer

def formatString (T : Machine) (strings : Strings) (out : Output) (size : ℤ) (ap : VaList)
    (s : Option (List UInt8)) : Except Fault (Output × VaList) := do
  match s with
  | some s => return (← formatStr T out size s, ap)
  | none =>
    let (ptr, ap) ← vaArg T.model .pointer ap
    let str ← loadString strings ptr
    return (← formatStr T out size str, ap)

def formatChar (T : Machine) (out : Output) (size : ℤ) (ap : VaList) :
    Except Fault (Output × VaList) := do
  let (c, ap) ← vaArg T.model .int ap
  return (← putWithFieldWidth T out [UInt8.ofInt c] 1 size, ap)

def MAX_NUMBER_LEN : ℕ := 66

def digitChar (huge : Bool) (n : ℕ) : UInt8 :=
  ((bytes (if huge then "0123456789ABCDEF" else "0123456789abcdef"))[n]?).getD (byte '0')

def pushDigits (huge : Bool) (radix : ℕ) : ℕ → ℕ → Except Fault (List UInt8)
  | _, 0 => .ok []
  | 0, _ + 1 => .error .scratchOverflow
  | room + 1, nr + 1 => do
    let rest ← pushDigits huge radix room ((nr + 1) / radix)
    return digitChar huge ((nr + 1) % radix) :: rest

def push (numStr more : List UInt8) : Except Fault (List UInt8) :=
  if (numStr ++ more).length ≤ MAX_NUMBER_LEN then .ok (numStr ++ more)
  else .error .scratchOverflow

def reservePrefix (T : Machine) (spec : FormatSpec) (number : ℕ) (p : ℤ) : Except Fault ℤ :=
  if spec.flags.zero ∧ spec.flags.alt ∧ 0 < number then
    if spec.radix = 8 then T.arith .int (p - 1)
    else if spec.radix = 16 then T.arith .int (p - 2)
    else .ok p
  else .ok p

/-- The alternative prefix in the order of the scratch buffer, which is reversed at the end. -/
def altPrefix (spec : FormatSpec) (number : ℕ) : List UInt8 :=
  if spec.flags.alt ∧ 0 < number then
    if spec.radix = 8 then [byte '0']
    else if spec.radix = 16 then [if spec.flags.huge then byte 'X' else byte 'x', byte '0']
    else []
  else []

def numberToString (T : Machine) (number : ℕ) (spec : FormatSpec) (size : ℤ) :
    Except Fault (List UInt8) := do
  if spec.precision = 0 ∧ number = 0 then return []
  let numStr ← if number = 0 then pure [byte '0']
    else pushDigits spec.flags.huge spec.radix MAX_NUMBER_LEN number
  let p ← T.arith .int (spec.precision - numStr.length)
  let p ← reservePrefix T spec number p
  let numStr ← push numStr (List.replicate (min p size).toNat (byte '0'))
  let numStr ← push numStr (altPrefix spec number)
  return (numStr.take (min numStr.length size.toNat)).reverse

def signChar (spec : FormatSpec) : Option UInt8 :=
  if spec.negative then some (byte '-')
  else if spec.flags.plus then some (byte '+')
  else if spec.flags.space then some (byte ' ')
  else none

def widthToPrecision (spec : FormatSpec) : FormatSpec :=
  if spec.precision < spec.fieldWidth then
    { spec with precision := spec.fieldWidth, fieldWidth := 0 }
  else spec

def emulateZero (T : Machine) (spec : FormatSpec) : Except Fault FormatSpec :=
  if spec.flags.zero then
    if (signChar spec).isSome then do
      let precision ← T.arith .int ((widthToPrecision spec).precision - 1)
      return { widthToPrecision spec with precision }
    else return widthToPrecision spec
  else return spec

def numberStr (T : Machine) (spec : FormatSpec) (number : ℕ) :
    Except Fault (FormatSpec × List UInt8) := do
  let sign := (signChar spec).toList
  let spec ← emulateZero T spec
  let digits ← numberToString T number spec MAX_NUMBER_LEN
  let text ← push sign digits
  return (spec, text)

def formatNumber (T : Machine) (out : Output) (number : ℕ) (size : ℤ) : Except Fault Output := do
  let (spec, text) ← numberStr T out.spec number
  putWithFieldWidth T { out with spec } text text.length size

end OsdevLibstdc.Vsnprintf
