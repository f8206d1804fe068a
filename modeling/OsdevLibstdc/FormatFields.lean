import OsdevLibstdc.Outcomes
import OsdevLibstdc.VsnprintfLoop

/-!
What `vsnprintf` is for: a format and its arguments are a list of fields, and a field is put
at the cursor. Reading a field looks at the format and the arguments only, putting it at the
room only; the loop does the two in turn.
-/

namespace OsdevLibstdc.Vsnprintf

open Target ByteStores

inductive Conversion
  | literal (c : UInt8)
  | number (spec : FormatSpec) (number : ℕ)
  | char (spec : FormatSpec) (c : UInt8)
  | string (spec : FormatSpec) (ptr : ℤ)
  | nil (spec : FormatSpec)
  | count (ptr : ℤ)
deriving Repr, DecidableEq

def conversion (T : Machine) (c : UInt8) (spec : FormatSpec) (ap : VaList) :
    Except Fault (Conversion × VaList) :=
  match specifierOf c with
  | some .d | some .i => do
    let (spec, number, ap) ← signedArgument T spec ap
    return (.number spec number, ap)
  | some .u => do
    let (spec, number, ap) ← unsignedArgument T.model { spec with flags.alt := false } ap
    return (.number spec number, ap)
  | some .o => do
    let (spec, number, ap) ← unsignedArgument T.model { spec with radix := 8 } ap
    return (.number spec number, ap)
  | some .X => do
    let (spec, number, ap) ←
      unsignedArgument T.model { spec with flags.huge := true, radix := 16 } ap
    return (.number spec number, ap)
  | some .x => do
    let (spec, number, ap) ← unsignedArgument T.model { spec with radix := 16 } ap
    return (.number spec number, ap)
  | some .p => do
    let (value, ap) ← readUnsignedNumber T.model spec.lengthSpec ap
    if 0 < value then return (.number (pointerSpec T.model spec) value.toNat, ap)
    else return (.nil spec, ap)
  | some .n => do
    let (ptr, ap) ← vaArg T.model .pointer ap
    return (.count ptr, ap)
  | some .c => do
    let (v, ap) ← vaArg T.model .int ap
    return (.char spec (UInt8.ofInt v), ap)
  | some .s => do
    let (ptr, ap) ← vaArg T.model .pointer ap
    return (.string spec ptr, ap)
  | some .percent | none => .ok (.literal c, ap)

def directive (T : Machine) (spec : FormatSpec) (fmt : Cursor) (ap : VaList) :
    Except Fault (Conversion × VaList × Cursor) := do
  let p ← parseFlagsFwPrecision T fmt spec ap
  let (spec, fmt) ← parseSizeSpecifier p.fmt p.spec
  let c ← deref fmt
  let (conv, ap) ← conversion T c (clearZero spec) p.ap
  return (conv, ap, fmt.tail)

def nextConversion (T : Machine) (spec : FormatSpec) (fmt : Cursor) (ap : VaList) :
    Except Fault (Conversion × VaList × Cursor) := do
  let c ← deref fmt
  if c = byte '%' then directive T spec fmt.tail ap
  else return (.literal c, ap, fmt.tail)

structure Box where
  minus : Bool
  width : ℤ
  text : List UInt8
deriving Repr, DecidableEq

namespace Box

def padding (b : Box) : ℕ := (wrapInt (b.width - b.text.length)).toNat

def spaces (n : ℕ) : List UInt8 := List.replicate n (byte ' ')

def full (b : Box) : List UInt8 :=
  if b.minus then b.text ++ spaces b.padding else spaces b.padding ++ b.text

def advance (b : Box) (room : ℕ) : ℕ :=
  if b.minus then min b.text.length room + b.padding
  else b.padding + min b.text.length (room - b.padding)

def stores (b : Box) (pos room : ℕ) : List Store :=
  if b.minus then
    [⟨pos + min b.text.length room, spaces (min b.padding room)⟩, ⟨pos, b.text.take room⟩]
  else [⟨pos + b.padding, b.text.take (room - b.padding)⟩, ⟨pos, spaces (min b.padding room)⟩]

end Box

inductive Field
  | literal (c : UInt8)
  | padded (b : Box)
  | string (minus : Bool) (width precision : ℤ) (s : List UInt8)
  | nil (minus : Bool) (width precision : ℤ)
  | count (ptr : ℤ)
deriving Repr, DecidableEq

def cut (precision : ℤ) (s : List UInt8) : List UInt8 :=
  if 0 ≤ precision then s.take precision.toNat else s

namespace Field

def whole : Field → Box
  | literal c => ⟨false, -1, [c]⟩
  | padded b => b
  | string minus width precision s => ⟨minus, width, cut precision s⟩
  | nil minus width precision => ⟨minus, width, cut precision kNil⟩
  | count _ => ⟨false, -1, []⟩

def isString : Field → Bool
  | string .. | nil .. => true
  | _ => false

/-- The box a field is put as with `room` bytes of room, which cuts strings before padding. -/
def box (room : ℕ) (f : Field) : Box :=
  if f.isString then { f.whole with text := f.whole.text.take room } else f.whole

def full (f : Field) : List UInt8 := f.whole.full

def isNil : Field → Bool
  | nil .. => true
  | _ => false

end Field

def Conversion.field (T : Machine) (strings : Strings) : Conversion → Except Fault Field
  | .literal c => .ok (.literal c)
  | .number spec n => do
    let (spec, text) ← numberStr T spec n
    return .padded ⟨spec.flags.minus, spec.fieldWidth, text⟩
  | .char spec c => .ok (.padded ⟨spec.flags.minus, spec.fieldWidth, [c]⟩)
  | .string spec ptr => do
    let s ← loadString strings ptr
    return .string spec.flags.minus spec.fieldWidth spec.precision s
  | .nil spec => .ok (.nil spec.flags.minus spec.fieldWidth spec.precision)
  | .count ptr => .ok (.count ptr)

def nextField (T : Machine) (strings : Strings) (fmt : Cursor) (ap : VaList) :
    Except Fault (Field × VaList × Cursor) := do
  let (conv, ap, fmt) ← nextConversion T {} fmt ap
  return (← conv.field T strings, ap, fmt)

inductive Reads (T : Machine) (strings : Strings) :
    Cursor → VaList → List Field → Cursor → VaList → Prop
  | done (fmt : Cursor) (ap : VaList) : Reads T strings fmt ap [] fmt ap
  | field {c : UInt8} {fmt fmt' fmt'' : Cursor} {ap ap' rest : VaList} {f : Field}
      {fields : List Field} :
      c ≠ 0 → nextField T strings (c :: fmt) ap = .ok (f, ap', fmt') →
      Reads T strings fmt' ap' fields fmt'' rest →
      Reads T strings (c :: fmt) ap (f :: fields) fmt'' rest

/-- The fields of a format whose last directive is complete, read with arguments that match it
and numbers that fit the scratch buffers; `rest` is what is left of the arguments. No directive
looks at the NUL behind the text. -/
def FieldsOf (T : Machine) (strings : Strings) (fmt : CString) (ap : VaList)
    (fields : List Field) (rest : VaList) : Prop :=
  Reads T strings fmt.val ap fields [] rest

structure Progress where
  pos : ℕ := 0
  total : ℤ := 0
  stores : List Store := []
  counts : List (ℕ × ℕ) := []
deriving Repr, DecidableEq

def Progress.put (p : Progress) (b : Box) (room : ℕ) : Progress :=
  { p with
    pos := p.pos + b.advance room
    total := p.total + (b.padding + b.text.length)
    stores := b.stores p.pos room ++ p.stores }

/-- Put a field of index `i`. Only the null pointer's field takes its room from `i`, and a negative
room reaches the block functions as a huge length. -/
def Field.put (size i : ℤ) (p : Progress) : Field → Except Fault Progress
  | .literal c => .ok { p with pos := p.pos + 1, total := p.total + 1, stores := ⟨p.pos, [c]⟩ :: p.stores }
  | .count ptr => .ok (if ptr = 0 then p else { p with counts := (ptr.toNat, p.pos) :: p.counts })
  | .nil minus width precision =>
    let room := wrapInt (size - i)
    if room < 0 then .error .hugeBlock
    else .ok (p.put ((Field.nil minus width precision).box room.toNat) room.toNat)
  | .padded b => .ok (p.put b (size - p.pos).toNat)
  | .string minus width precision s =>
    let room := (size - p.pos).toNat
    .ok (p.put ((Field.string minus width precision s).box room) room)

def putFields (size : ℤ) : ℤ → List Field → Progress → Except Fault (Progress × List Field)
  | _, [], p => .ok (p, [])
  | i, f :: fields, p =>
    if (p.pos : ℤ) < size then do
      let p ← f.put size i p
      putFields size (wrapInt (i + 1)) fields p
    else .ok (p, f :: fields)

def render (fields : List Field) : List UInt8 := fields.flatMap Field.full

end OsdevLibstdc.Vsnprintf
