import OsdevLibstdc.VariadicArguments
import OsdevLibstdc.VsnprintfLoop

/-!
The grammar `%[flags][field_width][.precision][length]specifier`. A directive comes with the ints
that are passed for its stars, so that its text and its meaning are functions of it.
-/

namespace OsdevLibstdc.Vsnprintf

open Target

inductive Flag
  | minus | plus | space | alt | zero
deriving Repr, DecidableEq

def Flag.byte : Flag → UInt8
  | minus => Target.byte '-'
  | plus => Target.byte '+'
  | space => Target.byte ' '
  | alt => Target.byte '#'
  | zero => Target.byte '0'

/-- One constant for the decimal digits of every module. -/
instance neZeroTen : NeZero 10 := ⟨by decide⟩

def digit (d : Fin 10) : UInt8 := UInt8.ofNat (48 + d.val)

def decimalFrom : ℕ → List (Fin 10) → ℕ
  | v, [] => v
  | v, d :: ds => decimalFrom (v * 10 + d.val) ds

def decimal (ds : List (Fin 10)) : ℕ := decimalFrom 0 ds

structure Literal where
  digits : List (Fin 10)
  bound : (decimal digits : ℤ) ≤ INT_MAX

inductive Width
  | none
  | literal (n : Literal) (leading : ∃ d ds, n.digits = d :: ds ∧ d ≠ 0)
  | star (passed : ℤ)

inductive Precision
  | none
  | literal (n : Literal)
  | negative (digits : List (Fin 10))
  | star (passed : ℤ)

structure Directive where
  flags : List Flag
  width : Width
  precision : Precision
  length : LengthSpec
  specifier : Specifier

def Width.text : Width → List UInt8
  | none => []
  | literal n _ => n.digits.map digit
  | star _ => [byte '*']

def Precision.text : Precision → List UInt8
  | none => []
  | literal n => byte '.' :: n.digits.map digit
  | negative ds => byte '.' :: byte '-' :: ds.map digit
  | star _ => [byte '.', byte '*']

def LengthSpec.text : LengthSpec → List UInt8
  | null => []
  | h => [byte 'h']
  | hh => [byte 'h', byte 'h']
  | l => [byte 'l']
  | ll => [byte 'l', byte 'l']
  | z => [byte 'z']
  | t => [byte 't']

def Directive.text (d : Directive) : List UInt8 :=
  d.flags.map Flag.byte ++ (d.width.text ++ (d.precision.text ++ (d.length.text ++ [d.specifier.byte])))

def Width.value : Width → ℤ
  | none => -1
  | literal n _ => decimal n.digits
  | star v => v

def Precision.value : Precision → ℤ
  | none | negative _ => -1
  | literal n => decimal n.digits
  | star v => v

def Precision.isNone : Precision → Bool
  | none => true
  | _ => false

def Width.args : Width → List Argument
  | star v => [⟨.int, v⟩]
  | _ => []

def Precision.args : Precision → List Argument
  | star v => [⟨.int, v⟩]
  | _ => []

def Directive.starArgs (d : Directive) : List Argument := d.width.args ++ d.precision.args

def flagSet (fs : List Flag) : FormatFlags where
  minus := .minus ∈ fs
  plus := .plus ∈ fs
  space := .space ∈ fs
  alt := .alt ∈ fs
  zero := .zero ∈ fs

def Directive.spec (d : Directive) : FormatSpec where
  flags := { flagSet d.flags with zero := (flagSet d.flags).zero && d.precision.isNone }
  lengthSpec := d.length
  fieldWidth := d.width.value
  precision := d.precision.value

end OsdevLibstdc.Vsnprintf
