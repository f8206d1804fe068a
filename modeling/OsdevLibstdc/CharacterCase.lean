import OsdevLibstdc.StringScans

/-!
The functions of `cctype.cpp` on the case of letters and on printable characters, and what the
results of `tolower` and `toupper` are as bytes again.
-/

namespace OsdevLibstdc.Cctype

open Cstring Target

def islower (c : ℤ) : Bool := 97 ≤ c ∧ c ≤ 122

def isupper (c : ℤ) : Bool := 65 ≤ c ∧ c ≤ 90

def isprint (c : ℤ) : Bool := 32 ≤ c ∧ c ≤ 126

def tolower (c : ℤ) : ℤ := if 65 ≤ c ∧ c ≤ 90 then c + (97 - 65) else c

def toupper (c : ℤ) : ℤ := if 97 ≤ c ∧ c ≤ 122 then c - (97 - 65) else c

theorem charValue_injective : Function.Injective charValue :=
  Function.LeftInverse.injective ofInt_charValue

theorem charValue_bounds (c : UInt8) : -128 ≤ charValue c ∧ charValue c ≤ 127 := by
  have hl := c.toInt8.le_toInt
  have hu := c.toInt8.toInt_lt
  unfold charValue
  omega

theorem charValue_ofInt {x : ℤ} (hl : -128 ≤ x) (hu : x ≤ 127) :
    charValue (UInt8.ofInt x) = x := by
  have hb := charValue_bounds (UInt8.ofInt x)
  have hc := congrArg UInt8.toNat (ofInt_charValue (UInt8.ofInt x))
  simp only [UInt8.ofInt, UInt8.toNat_ofNat'] at hc hb ⊢
  omega

theorem charValue_eq_zero {c : UInt8} : charValue c = 0 ↔ c = 0 :=
  charValue_injective.eq_iff' (by rfl)

theorem charValue_eq (c : UInt8) :
    charValue c = if c.toNat < 128 then (c.toNat : ℤ) else c.toNat - 256 := by
  have hb := charValue_bounds c
  have hc := congrArg UInt8.toNat (ofInt_charValue c)
  simp only [UInt8.ofInt, UInt8.toNat_ofNat'] at hc
  split_ifs <;> omega

theorem tolower_eq_zero {x : ℤ} : tolower x = 0 ↔ x = 0 := by
  unfold tolower
  split_ifs <;> omega

end OsdevLibstdc.Cctype
