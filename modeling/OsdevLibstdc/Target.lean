import Mathlib.Tactic.NormNum
import Mathlib.Tactic.Linarith
import OsdevLibstdc.LittleEndian

/-!
What the C code takes from its target: the two data models, integer conversions, `va_arg`
and the character type. A C operation with no defined result is a `Fault`.
-/

namespace OsdevLibstdc.Target

open LittleEndian

inductive Fault
  | formatOverread
  | vaListExhausted
  | badPointer
  | scratchOverflow
  | hugeBlock
  | signedOverflow
  | outOfFuel
deriving Repr, DecidableEq

inductive DataModel
  | lp64
  | ilp32
deriving Repr, DecidableEq

/-- What an arithmetic result outside its signed type does: wrap as with `-fwrapv`, or trap. -/
inductive Overflow
  | wrap
  | trap
deriving Repr, DecidableEq

structure Machine where
  model : DataModel
  overflow : Overflow
deriving Repr, DecidableEq

inductive CType
  | int | unsignedInt | long | unsignedLong | longLong | unsignedLongLong
  | int64 | size | ssize | ptrdiff | unsignedPtrdiff | pointer
deriving Repr, DecidableEq

def DataModel.word : DataModel → ℕ
  | .lp64 => 8
  | .ilp32 => 4

def CType.sizeof (D : DataModel) : CType → ℕ
  | .int | .unsignedInt => 4
  | .longLong | .unsignedLongLong | .int64 => 8
  | .long | .unsignedLong | .size | .ssize | .ptrdiff | .unsignedPtrdiff | .pointer => D.word

def CType.signed : CType → Bool
  | .int | .long | .longLong | .int64 | .ssize | .ptrdiff => true
  | .unsignedInt | .unsignedLong | .unsignedLongLong | .size | .unsignedPtrdiff | .pointer => false

def CType.convert (D : DataModel) (ty : CType) (x : ℤ) : ℤ :=
  if ty.signed then x.bmod (256 ^ ty.sizeof D) else x % (256 ^ ty.sizeof D : ℕ)

def INT_MAX : ℤ := 2147483647
def INT_MIN : ℤ := -2147483648

def wrapInt (x : ℤ) : ℤ := x.bmod 4294967296

def Machine.arith (T : Machine) (ty : CType) (x : ℤ) : Except Fault ℤ :=
  match T.overflow with
  | .wrap => .ok (ty.convert T.model x)
  | .trap => if ty.convert T.model x = x then .ok x else .error .signedOverflow

abbrev wrapping (D : DataModel) : Machine := ⟨D, .wrap⟩

theorem convert_int (D : DataModel) (x : ℤ) : CType.int.convert D x = wrapInt x := by
  simp [CType.convert, CType.signed, CType.sizeof, wrapInt]

theorem wrapInt_eq {x : ℤ} (hl : INT_MIN ≤ x) (hu : x ≤ INT_MAX) : wrapInt x = x := by
  simp only [INT_MIN, INT_MAX] at hl hu
  exact Int.bmod_eq_of_le (by norm_num; omega) (by norm_num; omega)

theorem wrapInt_sub (x y : ℤ) : wrapInt (wrapInt x - y) = wrapInt (x - y) := by simp [wrapInt]

theorem wrapInt_add (x : ℤ) : wrapInt (x + 4294967296) = wrapInt x := by
  simp only [wrapInt]
  exact Int.add_bmod_right x 4294967296

theorem wrapInt_le (x : ℤ) : wrapInt x ≤ INT_MAX := by
  have := Int.bmod_lt (x := x) (m := 4294967296) (by norm_num)
  simp only [wrapInt, INT_MAX]
  omega

theorem arith_int_eq (T : Machine) {x : ℤ} (hl : INT_MIN ≤ x) (hu : x ≤ INT_MAX) :
    T.arith .int x = .ok x := by
  have hc : CType.int.convert T.model x = x := by rw [convert_int, wrapInt_eq hl hu]
  cases ho : T.overflow <;> simp [Machine.arith, ho, hc]

@[simp] theorem arith_int_wrapping (D : DataModel) (x : ℤ) :
    (wrapping D).arith .int x = .ok (wrapInt x) := by
  simp [Machine.arith, convert_int]

/-- The bytes `va_arg` has not fetched yet: stack slots, or register save slots and then stack. -/
abbrev VaList := List UInt8

/-- The bytes an argument occupies, its type's size rounded up to whole slots. -/
def CType.slot (D : DataModel) (ty : CType) : ℕ :=
  (ty.sizeof D + D.word - 1) / D.word * D.word

def vaArg (D : DataModel) (ty : CType) (ap : VaList) : Except Fault (ℤ × VaList) :=
  if ap.length < ty.slot D then .error .vaListExhausted
  else .ok (ty.convert D (decode (ap.take (ty.sizeof D))), ap.drop (ty.slot D))

theorem sizeof_le_slot (D : DataModel) (ty : CType) : ty.sizeof D ≤ ty.slot D := by
  cases D <;> cases ty <;> decide

theorem slot_pos (D : DataModel) (ty : CType) : 0 < ty.slot D := by
  cases D <;> cases ty <;> decide

theorem vaArg_length {D : DataModel} {ty : CType} {ap ap' : VaList} {v : ℤ}
    (h : vaArg D ty ap = .ok (v, ap')) : ap'.length + ty.slot D = ap.length := by
  unfold vaArg at h
  split_ifs at h with hl
  obtain ⟨-, rfl⟩ := Prod.mk.inj (Except.ok.inj h)
  simp only [List.length_drop]
  omega

theorem vaArg_append {D : DataModel} {ty : CType} {ap ap' : VaList} {v : ℤ} (tail : VaList)
    (h : vaArg D ty ap = .ok (v, ap')) : vaArg D ty (ap ++ tail) = .ok (v, ap' ++ tail) := by
  unfold vaArg at h ⊢
  split_ifs at h with hl
  obtain ⟨rfl, rfl⟩ := Prod.mk.inj (Except.ok.inj h)
  have hs := sizeof_le_slot D ty
  rw [if_neg (by simp only [List.length_append]; omega),
    List.take_append_of_le_length (by omega), List.drop_append_of_le_length (by omega)]

/-- The value of a plain `char`, which is signed, after promotion to `int`. -/
def charValue (c : UInt8) : ℤ := c.toInt8.toInt

def byte (c : Char) : UInt8 := c.toUInt8

def bytes (s : String) : List UInt8 := s.toList.map byte

def isdigit (c : ℤ) : Bool := 48 ≤ c ∧ c ≤ 57

def CString := { s : List UInt8 // 0 ∉ s }

abbrev Strings := ℕ → Option CString

/-- `n--` for a `size_t`, which wraps at 0. -/
def sizePred (D : DataModel) (n : ℕ) : ℕ := if n = 0 then 256 ^ D.word - 1 else n - 1

theorem sizePred_succ (D : DataModel) (n : ℕ) : sizePred D (n + 1) = n := by
  rw [sizePred, if_neg (Nat.succ_ne_zero n), Nat.add_sub_cancel]

/-- The length a block function receives for an `int`, converted to `size_t`. No object has more
than `PTRDIFF_MAX` bytes, so a longer block faults wherever it starts. -/
def blockLength (D : DataModel) (n : ℤ) : Except Fault ℕ :=
  let k := (CType.size.convert D n).toNat
  if k ≤ (256 ^ D.word - 1) / 2 then .ok k else .error .hugeBlock

theorem blockLength_eq (D : DataModel) {n : ℤ} (hn : 0 ≤ n) (hm : n ≤ INT_MAX) :
    blockLength D n = .ok n.toNat := by
  simp only [INT_MAX] at hm
  have hc : CType.size.convert D n = n := by
    cases D <;> simp [CType.convert, CType.signed, CType.sizeof, DataModel.word] <;> omega
  rw [blockLength, hc, if_pos]
  cases D <;> simp only [DataModel.word] <;> omega

theorem blockLength_neg (D : DataModel) {n : ℤ} (hn : n < 0) (hm : INT_MIN ≤ n) :
    blockLength D n = .error .hugeBlock := by
  simp only [INT_MIN] at hm
  have hc : CType.size.convert D n = n + (256 ^ D.word : ℕ) := by
    cases D <;> simp [CType.convert, CType.signed, CType.sizeof, DataModel.word] <;> omega
  rw [blockLength, hc, if_neg]
  cases D <;> simp only [DataModel.word] <;> omega

end OsdevLibstdc.Target
