import OsdevLibstdc.Target

/-!
`FormatSpec`, `parse_number`, `parse_flags_fw_precision` and `parse_size_specifier`.
-/

namespace OsdevLibstdc.Vsnprintf

open Target

inductive LengthSpec
  | null | h | hh | l | ll | z | t
deriving Repr, DecidableEq

structure FormatFlags where
  minus : Bool := false
  plus : Bool := false
  space : Bool := false
  alt : Bool := false
  zero : Bool := false
  huge : Bool := false
deriving Repr, DecidableEq

/-- `total` is kept exact: it is only ever added to, and `vsnprintf` converts it on return. -/
structure FormatSpec where
  flags : FormatFlags := {}
  lengthSpec : LengthSpec := .null
  total : ℤ := 0
  fieldWidth : ℤ := -1
  precision : ℤ := -1
  negative : Bool := false
  radix : ℕ := 10
deriving Repr, DecidableEq

def FormatSpec.reset (spec : FormatSpec) : FormatSpec :=
  { spec with
    flags := {}, lengthSpec := .null, fieldWidth := -1, precision := -1,
    negative := false, radix := 10 }

/-- The format from a pointer on, its terminating NUL included. -/
abbrev Cursor := List UInt8

def cursor (fmt : CString) : Cursor := fmt.val ++ [0]

def deref : Cursor → Except Fault UInt8
  | [] => .error .formatOverread
  | c :: _ => .ok c

structure Parsed where
  fmt : Cursor
  spec : FormatSpec
  ap : VaList
deriving Repr, DecidableEq

def parseNumber (T : Machine) : Cursor → ℤ → Except Fault (ℤ × Cursor)
  | [], _ => .error .formatOverread
  | c :: str, v =>
    if isdigit (charValue c) then do
      let v ← T.arith .int (v * 10 + (charValue c - 48))
      parseNumber T str v
    else .ok (v, c :: str)

def addFlag (flags : FormatFlags) (c : UInt8) : Option FormatFlags :=
  if c = byte '#' then some { flags with alt := true }
  else if c = byte ' ' then some { flags with space := true }
  else if c = byte '0' then some { flags with zero := true }
  else if c = byte '-' then some { flags with minus := true }
  else if c = byte '+' then some { flags with plus := true }
  else none

/-- The `do`/`while` over flags. `continue` tests and steps past a flag, which is never NUL. -/
def scanFlags : Cursor → FormatFlags → Except Fault (FormatFlags × Cursor)
  | [], _ => .error .formatOverread
  | c :: fmt, flags =>
    match addFlag flags c with
    | some flags => scanFlags fmt flags
    | none => .ok (flags, c :: fmt)

def skipDigits : Cursor → Except Fault Cursor
  | [] => .error .formatOverread
  | c :: fmt => if isdigit (charValue c) then skipDigits fmt else .ok (c :: fmt)

def parseFieldWidth (T : Machine) (p : Parsed) : Except Fault Parsed := do
  let c ← deref p.fmt
  if c = byte '*' then
    let (width, ap) ← vaArg T.model .int p.ap
    return { fmt := p.fmt.tail, spec := { p.spec with fieldWidth := width }, ap }
  else if isdigit (charValue c) then
    let (width, fmt) ← parseNumber T p.fmt 0
    return { p with fmt, spec := { p.spec with fieldWidth := width } }
  else if c = byte '-' then
    -- the scan before stops at no '-', so this branch is never taken
    let spec := { p.spec with flags.minus := true }
    let fmt := p.fmt.tail.tail
    if isdigit (charValue (← deref fmt)) then
      let (width, fmt) ← parseNumber T fmt 0
      return { p with fmt, spec := { spec with fieldWidth := width } }
    else return { p with fmt, spec }
  else return p

def parsePrecision (T : Machine) (p : Parsed) : Except Fault Parsed := do
  if (← deref p.fmt) = byte '.' then
    let spec := { p.spec with precision := 0, flags.zero := false }
    let fmt := p.fmt.tail
    let c ← deref fmt
    if c = byte '*' then
      let (precision, ap) ← vaArg T.model .int p.ap
      return { fmt := fmt.tail, spec := { spec with precision }, ap }
    else if c = byte '-' then
      let fmt ← skipDigits fmt.tail
      return { p with fmt, spec := { spec with precision := -1 } }
    else if isdigit (charValue c) then
      let (precision, fmt) ← parseNumber T fmt 0
      return { p with fmt, spec := { spec with precision } }
    else return { p with fmt, spec }
  else return p

def parseFlagsFwPrecision (T : Machine) (fmt : Cursor) (spec : FormatSpec) (ap : VaList) :
    Except Fault Parsed := do
  let (flags, fmt) ← scanFlags fmt spec.flags
  let p ← parseFieldWidth T { fmt, spec := { spec with flags }, ap }
  parsePrecision T p

def parseSizeSpecifier (fmt : Cursor) (spec : FormatSpec) : Except Fault (FormatSpec × Cursor) := do
  let c ← deref fmt
  if c = byte 'h' then
    if (← deref fmt.tail) = byte 'h' then return ({ spec with lengthSpec := .hh }, fmt.tail.tail)
    else return ({ spec with lengthSpec := .h }, fmt.tail)
  else if c = byte 'l' then
    if (← deref fmt.tail) = byte 'l' then return ({ spec with lengthSpec := .ll }, fmt.tail.tail)
    else return ({ spec with lengthSpec := .l }, fmt.tail)
  else if c = byte 'z' then return ({ spec with lengthSpec := .z }, fmt.tail)
  else if c = byte 't' then return ({ spec with lengthSpec := .t }, fmt.tail)
  else return (spec, fmt)

end OsdevLibstdc.Vsnprintf
