import Mathlib.Data.Int.ModEq
import OsdevLibstdc.IntegerRendering

/-! The length modifiers as conversions of the argument to the type that they name. -/

namespace OsdevLibstdc.Vsnprintf

open Target LittleEndian Outcomes Numerals

def LengthSpec.bits : LengthSpec → ℕ
  | hh => 8
  | h => 16
  | null => 32
  | l | ll | z | t => 64

def LengthSpec.keptBits : LengthSpec → ℕ
  | h => 32
  | len => len.bits

def LengthSpec.Promoted : LengthSpec → CType → Prop
  | null, ty | h, ty | hh, ty => ty = .int ∨ ty = .unsignedInt
  | l, ty => ty = .long ∨ ty = .unsignedLong
  | ll, ty => ty = .longLong ∨ ty = .unsignedLongLong
  | z, ty => ty = .ssize ∨ ty = .size
  | t, ty => ty = .ptrdiff ∨ ty = .unsignedPtrdiff

def PassedFor (len : LengthSpec) (x : ℤ) (ap ap' : VaList) : Prop :=
  ∃ ty, len.Promoted ty ∧ Passed .lp64 [⟨ty, x⟩] ap ap'

def Specifier.convert (k : Specifier) (bits : ℕ) (x : ℤ) : ℤ :=
  if k.isSigned then x.bmod (2 ^ bits) else x % 2 ^ bits

def bare (k : Specifier) (len : LengthSpec) : Directive := ⟨[], .none, .none, len, k⟩

def Specifier.numeral (k : Specifier) (v : ℤ) : List UInt8 :=
  (if v < 0 then [Target.byte '-'] else []) ++ k.digits v.natAbs

def Specifier.InShort (k : Specifier) (v : ℤ) : Prop :=
  if k.isSigned then -2 ^ 15 ≤ v ∧ v < 2 ^ 15 else 0 ≤ v ∧ v < 2 ^ 16

section Values

variable {k : Specifier} {len : LengthSpec} {x : ℤ} {ap ap' : VaList}

theorem vaArg_passed {D : DataModel} {ty ty' : CType} (hs : ty'.sizeof D = ty.sizeof D)
    (h : Passed D [⟨ty, x⟩] ap ap') : vaArg D ty' ap = .ok (ty'.convert D x, ap') := by
  have hslot : ty'.slot D = ty.slot D := by rw [CType.slot, CType.slot, hs]
  obtain ⟨ap'', hv, hrest⟩ := h.vaArg_as hslot hs.le
  cases hrest
  exact hv

theorem Specifier.convert_convert (k : Specifier) {b b' : ℕ} (h : b ≤ b') (x : ℤ) :
    k.convert b (k.convert b' x) = k.convert b x := by
  unfold Specifier.convert
  split_ifs
  · exact Int.bmod_bmod_of_dvd (Nat.pow_dvd_pow 2 h)
  · exact Int.emod_emod_of_dvd x (pow_dvd_pow 2 h)

theorem Specifier.convert_eq_iff (k : Specifier) (b : ℕ) (x y : ℤ) :
    k.convert b x = k.convert b y ↔ x ≡ y [ZMOD 2 ^ b] := by
  have hcast : ((2 ^ b : ℕ) : ℤ) = 2 ^ b := by push_cast; rfl
  unfold Specifier.convert Int.ModEq
  split_ifs
  · rw [← hcast]
    constructor
    · intro h
      rw [← Int.bmod_emod, h, Int.bmod_emod]
    · intro h
      rw [← Int.emod_bmod x, h, Int.emod_bmod]
  · rfl

theorem convert_short_iff (k : Specifier) (x : ℤ) :
    k.convert 32 x = k.convert 16 x ↔ k.InShort (k.convert 32 x) := by
  rw [← k.convert_convert (by norm_num : 16 ≤ 32) x]
  generalize k.convert 32 x = y
  unfold Specifier.convert Specifier.InShort
  split_ifs
  · have hl := Int.le_bmod (x := y) (m := 2 ^ 16) (by norm_num)
    have hu := Int.bmod_lt (x := y) (m := 2 ^ 16) (by norm_num)
    constructor
    · intro h
      rw [h]
      norm_num at hl hu ⊢
      omega
    · intro h
      exact (Int.bmod_eq_of_le (by norm_num; omega) (by norm_num; omega)).symm
  · constructor
    · intro h
      omega
    · intro h
      exact (Int.emod_eq_of_lt h.1 h.2).symm

theorem signedValue_passed (hs : k.isSigned) (h : PassedFor len x ap ap') :
    signedValue .lp64 len ap = .ok (k.convert len.keptBits x, ap') := by
  obtain ⟨ty, hty, h⟩ := h
  have hconvert (bits : ℕ) (y : ℤ) : k.convert bits y = y.bmod (2 ^ bits) := if_pos hs
  cases len
  case hh =>
    have hread : vaArg .lp64 .int ap = .ok (k.convert 32 x, ap') := by
      rw [hconvert]
      rcases hty with rfl | rfl <;> exact vaArg_passed (by rfl) h
    have hbits : LengthSpec.hh.keptBits = 8 := rfl
    rw [hbits, ← k.convert_convert (by norm_num : 8 ≤ 32), hconvert 8]
    simp only [signedValue, readSignedNumber, hread, ok_bind]
    rfl
  all_goals
    rw [hconvert]
    rcases hty with rfl | rfl <;> exact vaArg_passed (by rfl) h

theorem unsignedValue_passed (hs : k.isSigned = false) (h : PassedFor len x ap ap') :
    unsignedValue .lp64 len ap = .ok (k.convert len.keptBits x, ap') := by
  obtain ⟨ty, hty, h⟩ := h
  have hconvert (bits : ℕ) (y : ℤ) : k.convert bits y = y % 2 ^ bits := by
    rw [Specifier.convert, hs]
    rfl
  cases len
  case hh =>
    have hread : vaArg .lp64 .unsignedInt ap = .ok (k.convert 32 x, ap') := by
      rw [hconvert]
      rcases hty with rfl | rfl <;> exact vaArg_passed (by rfl) h
    have hbits : LengthSpec.hh.keptBits = 8 := rfl
    rw [hbits, ← k.convert_convert (by norm_num : 8 ≤ 32), hconvert 8]
    simp only [unsignedValue, readUnsignedNumber, hread, ok_bind]
    rfl
  all_goals
    rw [hconvert]
    rcases hty with rfl | rfl <;> exact vaArg_passed (by rfl) h

theorem integerValue_passed (h : PassedFor len x ap ap') :
    integerValue .lp64 k len ap = .ok (k.convert len.keptBits x, ap') := by
  rw [integerValue]
  split_ifs with hs
  · exact signedValue_passed hs h
  · exact unsignedValue_passed (by simpa using hs) h

def readNumeral (k : Specifier) (text : List UInt8) : ℤ :=
  if text.head? = some (byte '-') then -(readNumber k.radix text.tail : ℤ)
  else readNumber k.radix text

theorem digits_head_ne_minus (k : Specifier) (n : ℕ) : (k.digits n).head? ≠ some (byte '-') := by
  have hchar : ∀ (huge : Bool) (d : Fin 16), digitChar huge d ≠ byte '-' := by decide
  rw [Specifier.digits, digitsText, List.head?_map]
  intro h
  obtain ⟨d, hd, heq⟩ := Option.map_eq_some_iff.mp h
  have hlt := numeral_lt k.isRadix.one_lt (List.mem_of_head? hd)
  have hradix : k.radix ≤ 16 := by
    rcases k.isRadix with hr | hr | hr <;> omega
  exact hchar (decide (k = .X)) ⟨d, by omega⟩ heq

theorem readNumeral_numeral (k : Specifier) (v : ℤ) : readNumeral k (k.numeral v) = v := by
  have hdigits : readNumber k.radix (k.digits v.natAbs) = v.natAbs :=
    readNumber_digitsText _ k.isRadix _
  unfold readNumeral Specifier.numeral
  by_cases hv : v < 0
  · rw [if_pos hv, List.singleton_append, List.head?_cons, if_pos rfl, List.tail_cons, hdigits]
    omega
  · rw [if_neg hv, List.nil_append, if_neg (digits_head_ne_minus k _), hdigits]
    omega

theorem numeral_injective {v w : ℤ} (h : k.numeral v = k.numeral w) : v = w := by
  rw [← readNumeral_numeral k v, h, readNumeral_numeral]

end Values

section Modifiers

variable {strings : Strings} {k : Specifier} {len : LengthSpec} {x y : ℤ}
  {ap ap' ap₂ ap₂' : VaList} {text : List UInt8}

theorem bare_prints_iff (hk : k.isInteger) (h : PassedFor len x ap ap') :
    Prints .lp64 strings (bare k len) ap ap' text ↔
      text = k.numeral (k.convert len.keptBits x) := by
  have hv := integerValue_passed (k := k) h
  generalize k.convert len.keptBits x = v at hv
  have hsign : (bare k len).sign v = if v < 0 then [byte '-'] else [] := by
    have hrange := (integerValue_range hv).1
    by_cases hs : k.isSigned
    · simp [Directive.sign, bare, hs]
    · rw [if_neg (not_lt.mpr (hrange (by simpa using hs)))]
      simp [Directive.sign, bare, hs]
  have hneg : (bare k len).digitsAt (-1) v = k.digits v.natAbs := digitsAt_neg (by decide) v
  have hplain : (bare k len).plainText v = k.numeral v := by
    have hprec : (bare k len).precision.value = -1 := rfl
    rw [Directive.plainText, hsign, hprec, hneg]
    rfl
  have hlen : (k.numeral v).length ≤ MAX_NUMBER_LEN := by
    have hdigits := ((bare k len).digits_bounds hv).2
    have hle := (bare k len).sign_le v
    rw [hsign] at hle
    rw [Specifier.numeral, List.length_append]
    simp only [Directive.digits, bare, MAX_NUMBER_LEN] at *
    omega
  have halt : .alt ∉ (bare k len).flags := List.not_mem_nil
  rw [prints_plain_iff (d := bare k len) hk (.nil _) hv halt rfl le_rfl le_rfl, hplain,
    pad_of_none rfl, and_iff_right hlen]
  apply and_iff_left_of_imp
  rintro rfl
  simp only [MAX_NUMBER_LEN, INT_MAX] at *
  omega

theorem LengthSpec.keptBits_eq (h : len ≠ .h) : len.keptBits = len.bits := by
  cases len <;> first | rfl | contradiction

theorem lengthModifier_iff (hk : k.isInteger) (hx : PassedFor len x ap ap')
    (hy : PassedFor len y ap₂ ap₂') (hxy : x ≡ y [ZMOD 2 ^ len.bits]) :
    (Prints .lp64 strings (bare k len) ap ap' (k.numeral (k.convert len.bits x)) ↔
      (len = .h → k.InShort (k.convert 32 x))) ∧
    ((∀ text, Prints .lp64 strings (bare k len) ap ap' text ↔
      Prints .lp64 strings (bare k len) ap₂ ap₂' text) ↔
      (len = .h → x ≡ y [ZMOD 2 ^ 32])) := by
  constructor
  · rw [bare_prints_iff hk hx]
    by_cases hlen : len = .h
    · subst hlen
      rw [forall_prop_of_true rfl, ← convert_short_iff]
      exact ⟨fun h => (numeral_injective h).symm, fun h => congrArg k.numeral h.symm⟩
    · rw [LengthSpec.keptBits_eq hlen]
      exact iff_of_true rfl (fun h => absurd h hlen)
  · have hsame : (∀ text, Prints .lp64 strings (bare k len) ap ap' text ↔
        Prints .lp64 strings (bare k len) ap₂ ap₂' text) ↔
        x ≡ y [ZMOD 2 ^ len.keptBits] := by
      rw [← k.convert_eq_iff]
      constructor
      · intro h
        have hprints := (h _).mp ((bare_prints_iff hk hx).mpr rfl)
        exact numeral_injective ((bare_prints_iff hk hy).mp hprints)
      · intro h text
        rw [bare_prints_iff hk hx, bare_prints_iff hk hy, h]
    rw [hsame]
    by_cases hlen : len = .h
    · subst hlen
      exact ⟨fun h _ => h, fun h => h rfl⟩
    · rw [LengthSpec.keptBits_eq hlen]
      exact iff_of_true hxy (fun h => absurd h hlen)

end Modifiers

theorem shortArgument : PassedFor .h 65537 (encode 8 65537 ++ []) [] :=
  ⟨.int, .inl rfl, .cons (by decide +kernel) (.nil [])⟩

theorem shortOne : PassedFor .h 1 (encode 8 1 ++ []) [] :=
  ⟨.int, .inl rfl, .cons (by decide +kernel) (.nil [])⟩

theorem lengthModifier_short :
    (Prints .lp64 (fun _ => none) (bare .d .h) (encode 8 65537 ++ []) []
        (Specifier.d.numeral (Specifier.d.convert LengthSpec.h.bits 65537)) ↔
      (LengthSpec.h = .h → Specifier.d.InShort (Specifier.d.convert 32 65537))) ∧
    ((∀ text, Prints .lp64 (fun _ => none) (bare .d .h) (encode 8 65537 ++ []) [] text ↔
      Prints .lp64 (fun _ => none) (bare .d .h) (encode 8 1 ++ []) [] text) ↔
      (LengthSpec.h = .h → (65537 : ℤ) ≡ 1 [ZMOD 2 ^ 32])) :=
  lengthModifier_iff rfl shortArgument shortOne (by decide)

theorem not_lengthModifier : ¬ ∀ (strings : Strings) (k : Specifier) (len : LengthSpec) (x : ℤ)
    (ap ap' : VaList), k.isInteger → PassedFor len x ap ap' →
    Prints .lp64 strings (bare k len) ap ap' (k.numeral (k.convert len.bits x)) := by
  intro h
  have hprints := h (fun _ => none) .d .h 65537 _ _ rfl shortArgument
  rw [bare_prints_iff rfl shortArgument] at hprints
  exact absurd (numeral_injective hprints) (by decide)

end OsdevLibstdc.Vsnprintf
