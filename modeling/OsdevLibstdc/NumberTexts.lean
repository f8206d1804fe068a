import OsdevLibstdc.FormatOutput
import OsdevLibstdc.Numerals
import OsdevLibstdc.Outcomes

/-!
The text that `format_number` builds in its scratch buffers, in closed form, and when it fits.
-/

namespace OsdevLibstdc.Vsnprintf

open Target Outcomes Numerals

def zeros (n : ℕ) : List UInt8 := List.replicate n (byte '0')

@[simp] theorem zeros_length (n : ℕ) : (zeros n).length = n := by simp [zeros]

def digitsText (huge : Bool) (radix n : ℕ) : List UInt8 := (numeral radix n).map (digitChar huge)

def digitValue (c : UInt8) : ℕ :=
  if isdigit (charValue c) then c.toNat - 48 else if c < 97 then c.toNat - 55 else c.toNat - 87

def readNumber (radix : ℕ) (text : List UInt8) : ℕ := valueOf radix (text.map digitValue)

theorem digitValue_digitChar (huge : Bool) {d : ℕ} (hd : d < 16) :
    digitValue (digitChar huge d) = d := by
  have h : ∀ d : Fin 16, digitValue (digitChar huge d) = d := by
    cases huge <;> decide
  exact h ⟨d, hd⟩

theorem readNumber_zeros (radix k : ℕ) (text : List UInt8) :
    readNumber radix (zeros k ++ text) = readNumber radix text := by
  have hz : digitValue (byte '0') = 0 := by decide
  rw [readNumber, List.map_append, zeros, List.map_replicate, hz, valueOf_zeros]
  rfl

def IsRadix (radix : ℕ) : Prop := radix = 8 ∨ radix = 10 ∨ radix = 16

section Digits

variable {radix n : ℕ}

theorem IsRadix.one_lt (h : IsRadix radix) : 1 < radix := by
  rcases h with rfl | rfl | rfl <;> decide

theorem readNumber_digitsText (huge : Bool) (h : IsRadix radix) (n : ℕ) :
    readNumber radix (digitsText huge radix n) = n := by
  have hmap : (digitsText huge radix n).map digitValue = numeral radix n := by
    rw [digitsText, List.map_map]
    apply (List.map_congr_left _).trans (List.map_id _)
    intro d hd
    apply digitValue_digitChar
    have := numeral_lt h.one_lt hd
    rcases h with rfl | rfl | rfl <;> omega
  rw [readNumber, hmap, valueOf_numeral]

theorem digitsText_length (huge : Bool) (radix n : ℕ) :
    (digitsText huge radix n).length = (numeral radix n).length := by simp [digitsText]

theorem digitsText_pos (huge : Bool) (radix n : ℕ) : 0 < (digitsText huge radix n).length := by
  rw [digitsText_length]
  exact List.length_pos_iff.mpr (numeral_ne_nil radix n)

theorem digitsText_zero (huge : Bool) (radix : ℕ) : digitsText huge radix 0 = [byte '0'] := by
  cases huge <;> rfl

theorem digitsText_le (huge : Bool) (h : IsRadix radix) (hn : n < 2 ^ 64) :
    (digitsText huge radix n).length ≤ 22 := by
  rw [digitsText_length]
  apply numeral_length_le h.one_lt (by decide)
  rcases h with rfl | rfl | rfl <;> omega

theorem pushDigits_ok (huge : Bool) (hr : 1 < radix) {room : ℕ}
    (h : (Nat.digits radix n).length ≤ room) :
    pushDigits huge radix room n = .ok ((Nat.digits radix n).map (digitChar huge)) := by
  induction room generalizing n with
  | zero =>
    have hl : (Nat.digits radix n).length = 0 := by omega
    rw [List.length_eq_zero_iff.mp hl, Nat.digits_eq_nil_iff_eq_zero.mp (List.length_eq_zero_iff.mp hl)]
    rfl
  | succ room ih =>
    cases n with
    | zero =>
      rw [Nat.digits_zero]
      rfl
    | succ n =>
      rw [Nat.digits_def' hr (Nat.succ_pos n)] at h ⊢
      rw [List.length_cons, Nat.add_le_add_iff_right] at h
      rw [pushDigits, ih h]
      rfl

theorem pushDigits_bind {β : Type} (huge : Bool) (h : IsRadix radix) (hn : n < 2 ^ 64)
    (f : List UInt8 → Except Fault β) :
    (if n = 0 then pure [byte '0'] >>= f
      else pushDigits huge radix MAX_NUMBER_LEN n >>= f) =
      f (digitsText huge radix n).reverse := by
  split_ifs with h0
  · rw [h0, digitsText_zero]
    rfl
  · have hl := digitsText_le huge h hn
    have hrev : (digitsText huge radix n).reverse = (Nat.digits radix n).map (digitChar huge) := by
      rw [digitsText, numeral, if_neg h0, List.map_reverse, List.reverse_reverse]
    rw [← List.length_reverse, hrev, List.length_map] at hl
    rw [hrev, pushDigits_ok huge h.one_lt (by simp only [MAX_NUMBER_LEN]; omega), ok_bind]

end Digits

section Texts

variable (spec : FormatSpec) (n : ℕ)

def signText : List UInt8 := (signChar spec).toList

def prefixText : List UInt8 := (altPrefix spec n).reverse

def askedDigits : ℤ :=
  if spec.flags.zero then max spec.fieldWidth (-1) - (signText spec ++ prefixText spec n).length
  else spec.precision

def numberDigits : List UInt8 := digitsText spec.flags.huge spec.radix n

def bodyText : List UInt8 :=
  if n = 0 ∧ askedDigits spec n = 0 then []
  else prefixText spec n ++
    (zeros (askedDigits spec n - (numberDigits spec n).length).toNat ++ numberDigits spec n)

def numberText : List UInt8 := signText spec ++ bodyText spec n

def outerWidth : ℤ :=
  if spec.flags.zero ∧ -1 < spec.fieldWidth then 0 else spec.fieldWidth

/-- With `0` the width is what counts; otherwise the precision does, together with sign and
prefix, and it must not be so negative that subtracting the digits wraps. -/
def FitsScratch : Prop :=
  if spec.flags.zero then spec.fieldWidth ≤ 66
  else INT_MIN + (numberDigits spec n).length ≤ spec.precision ∧
    (signText spec ++ prefixText spec n).length + spec.precision ≤ 66

instance : Decidable (FitsScratch spec n) := by
  unfold FitsScratch
  infer_instance

structure Renderable : Prop where
  radix : IsRadix spec.radix
  zero : spec.flags.zero → spec.precision = -1
  width : INT_MIN ≤ spec.fieldWidth ∧ spec.fieldWidth ≤ INT_MAX
  precision : INT_MIN ≤ spec.precision ∧ spec.precision ≤ INT_MAX

variable {spec n}

theorem signText_le : (signText spec).length ≤ 1 := by
  unfold signText
  cases signChar spec <;> simp

theorem prefixText_zero : prefixText spec 0 = [] := by simp [prefixText, altPrefix]

theorem prefixText_le : (prefixText spec n).length ≤ 2 := by
  unfold prefixText altPrefix
  split_ifs <;> simp

theorem reservePrefix_eq (D : DataModel) (p : ℤ) :
    reservePrefix (wrapping D) spec n (wrapInt p) =
      .ok (wrapInt (p - (if spec.flags.zero then (prefixText spec n).length else 0 : ℕ))) := by
  unfold reservePrefix prefixText altPrefix
  by_cases hz : spec.flags.zero <;> by_cases ha : spec.flags.alt <;>
    by_cases hn : 0 < n <;> by_cases h8 : spec.radix = 8 <;>
    by_cases h16 : spec.radix = 16 <;>
    simp_all [wrapInt_sub]

theorem push_push (xs ys zs : List UInt8) :
    (do
      let numStr ← push xs ys
      let numStr ← push numStr zs
      return (numStr.take (min numStr.length (MAX_NUMBER_LEN : ℤ).toNat)).reverse) =
      if (xs ++ ys ++ zs).length ≤ 66 then .ok (xs ++ ys ++ zs).reverse
      else .error .scratchOverflow := by
  unfold push MAX_NUMBER_LEN
  by_cases h : (xs ++ ys ++ zs).length ≤ 66
  · have hxy : (xs ++ ys).length ≤ 66 := by
      rw [List.length_append] at h
      omega
    rw [if_pos h, if_pos hxy, ok_bind, if_pos h, ok_bind, List.take_of_length_le]
    · rfl
    · simp only [Int.toNat_natCast]
      omega
  · rw [if_neg h]
    split_ifs
    · rw [ok_bind, if_neg h]
      rfl
    · rfl

/-- The bound of the loop that adds zeros cuts only what overflows the scratch buffer anyway. -/
theorem push_zeros (asked : ℤ) :
    (do
      let numStr ← push (numberDigits spec n).reverse
        (List.replicate (min asked (MAX_NUMBER_LEN : ℕ)).toNat (byte '0'))
      let numStr ← push numStr (altPrefix spec n)
      return (numStr.take (min numStr.length (MAX_NUMBER_LEN : ℤ).toNat)).reverse) =
      if (prefixText spec n ++ (zeros asked.toNat ++ numberDigits spec n)).length ≤ 66 then
        .ok (prefixText spec n ++ (zeros asked.toNat ++ numberDigits spec n))
      else .error .scratchOverflow := by
  have hpos : 0 < (numberDigits spec n).length := digitsText_pos _ _ _
  rw [push_push]
  by_cases hle : asked ≤ (MAX_NUMBER_LEN : ℕ)
  · have hrev : ((numberDigits spec n).reverse ++
        List.replicate (min asked (MAX_NUMBER_LEN : ℕ)).toNat (byte '0') ++
        altPrefix spec n).reverse =
        prefixText spec n ++ (zeros asked.toNat ++ numberDigits spec n) := by
      rw [min_eq_left hle]
      simp [zeros, prefixText]
    rw [← hrev, List.length_reverse]
  · have hmin : min asked (MAX_NUMBER_LEN : ℕ) = 66 := by
      rw [min_eq_right (by omega)]
      rfl
    rw [hmin, if_neg, if_neg]
    · simp only [List.length_append, zeros_length]
      simp only [MAX_NUMBER_LEN] at hle
      omega
    · simp only [List.length_append, List.length_reverse, List.length_replicate]
      omega

def addedDigits (spec : FormatSpec) (n : ℕ) : ℤ :=
  wrapInt (spec.precision - (numberDigits spec n).length -
    (if spec.flags.zero then (prefixText spec n).length else 0 : ℕ))

theorem numberToString_eq (D : DataModel) (hr : IsRadix spec.radix) (hn : n < 2 ^ 64) :
    numberToString (wrapping D) n spec MAX_NUMBER_LEN =
      if spec.precision = 0 ∧ n = 0 then .ok []
      else if (prefixText spec n ++
          (zeros (addedDigits spec n).toNat ++ numberDigits spec n)).length ≤ 66 then
        .ok (prefixText spec n ++ (zeros (addedDigits spec n).toNat ++ numberDigits spec n))
      else .error .scratchOverflow := by
  unfold numberToString
  by_cases h0 : spec.precision = 0 ∧ n = 0
  · rw [if_pos h0, if_pos h0]
    rfl
  rw [if_neg h0, if_neg h0]
  refine (pushDigits_bind spec.flags.huge hr hn _).trans ?_
  dsimp only
  rw [arith_int_wrapping, ok_bind, List.length_reverse, reservePrefix_eq, ok_bind]
  exact push_zeros (addedDigits spec n)

def emulated (spec : FormatSpec) : FormatSpec :=
  if spec.flags.zero then
    { spec with
      precision := max spec.fieldWidth (-1) - (signText spec).length
      fieldWidth := outerWidth spec }
  else spec

theorem widthToPrecision_eq (h : spec.precision = -1) : widthToPrecision spec = { spec with
    precision := max spec.fieldWidth (-1)
    fieldWidth := if -1 < spec.fieldWidth then 0 else spec.fieldWidth } := by
  unfold widthToPrecision
  rw [h]
  split_ifs with hw
  · rw [max_eq_left (by omega)]
  · rw [max_eq_right (by omega), ← h]

theorem emulateZero_eq (D : DataModel) (h : Renderable spec) :
    emulateZero (wrapping D) spec = .ok (emulated spec) := by
  have hw := h.width.2
  unfold emulateZero emulated
  by_cases hz : spec.flags.zero
  · have houter : outerWidth spec = if -1 < spec.fieldWidth then 0 else spec.fieldWidth := by
      simp [outerWidth, hz]
    rw [if_pos hz, if_pos hz, widthToPrecision_eq (h.zero hz), houter]
    cases hs : signChar spec with
    | none => simp [signText, hs, pure_eq]
    | some c =>
      have hrange : wrapInt (max spec.fieldWidth (-1) - 1) = max spec.fieldWidth (-1) - 1 :=
        wrapInt_eq (by simp only [INT_MIN]; omega) (by simp only [INT_MAX] at hw ⊢; omega)
      simp [signText, hs, pure_eq, hrange]
  · rw [if_neg hz, if_neg hz]
    rfl

theorem emulated_texts (spec : FormatSpec) (n : ℕ) :
    numberDigits (emulated spec) n = numberDigits spec n ∧
    prefixText (emulated spec) n = prefixText spec n ∧
    (emulated spec).flags = spec.flags ∧ (emulated spec).fieldWidth = outerWidth spec := by
  unfold emulated
  split_ifs with hz
  · exact ⟨rfl, rfl, rfl, rfl⟩
  · refine ⟨rfl, rfl, rfl, ?_⟩
    rw [outerWidth, if_neg (fun h => hz h.1)]

theorem numberDigits_bounds (hr : IsRadix spec.radix) (hn : n < 2 ^ 64) :
    0 < (numberDigits spec n).length ∧ (numberDigits spec n).length ≤ 22 :=
  ⟨digitsText_pos _ _ _, digitsText_le _ hr hn⟩

theorem askedDigits_zero (n : ℕ) (hz : spec.flags.zero) : askedDigits spec n =
    max spec.fieldWidth (-1) - ((signText spec).length + (prefixText spec n).length) := by
  simp [askedDigits, hz]

theorem askedDigits_plain (n : ℕ) (hz : ¬ spec.flags.zero) : askedDigits spec n = spec.precision :=
  if_neg hz

theorem addedDigits_emulated (h : Renderable spec) (hn : n < 2 ^ 64)
    (hwrap : spec.flags.zero ∨ INT_MIN + (numberDigits spec n).length ≤ spec.precision) :
    addedDigits (emulated spec) n = askedDigits spec n - (numberDigits spec n).length := by
  obtain ⟨-, hd⟩ := numberDigits_bounds h.radix hn
  obtain ⟨hdigits, hpre, hflags, -⟩ := emulated_texts spec n
  have hs : (signText spec).length ≤ 1 := signText_le
  have hp : (prefixText spec n).length ≤ 2 := prefixText_le
  have hw := h.width.2
  have hprec := h.precision.2
  rw [addedDigits, hdigits, hpre, hflags]
  by_cases hz : spec.flags.zero
  · have hem : (emulated spec).precision = max spec.fieldWidth (-1) - (signText spec).length := by
      simp [emulated, hz]
    rw [hem, askedDigits_zero n hz, if_pos hz, wrapInt_eq] <;> simp only [INT_MIN, INT_MAX] at * <;> omega
  · have hem : (emulated spec).precision = spec.precision := by simp [emulated, hz]
    have hle := hwrap.resolve_left hz
    rw [hem, askedDigits_plain n hz, if_neg hz, wrapInt_eq] <;> simp only [INT_MIN, INT_MAX] at * <;> omega

theorem addedDigits_wraps (h : Renderable spec) (hn : n < 2 ^ 64) (hz : ¬ spec.flags.zero)
    (hlt : spec.precision < INT_MIN + (numberDigits spec n).length) :
    66 < addedDigits (emulated spec) n := by
  obtain ⟨-, hd⟩ := numberDigits_bounds h.radix hn
  have hem : emulated spec = spec := if_neg hz
  have hlow := h.precision.1
  simp only [INT_MIN] at hlt hlow
  rw [hem, addedDigits, if_neg hz, Nat.cast_zero, sub_zero, ← wrapInt_add, wrapInt_eq]
  · omega
  · simp only [INT_MIN]
    omega
  · simp only [INT_MAX]
    omega

theorem fitsScratch_iff (h : Renderable spec) (hn : n < 2 ^ 64) :
    FitsScratch spec n ↔ (signText spec).length + ((prefixText spec n).length +
      ((addedDigits (emulated spec) n).toNat + (numberDigits spec n).length)) ≤ 66 := by
  obtain ⟨hpos, hd⟩ := numberDigits_bounds h.radix hn
  have hs : (signText spec).length ≤ 1 := signText_le
  have hp : (prefixText spec n).length ≤ 2 := prefixText_le
  unfold FitsScratch
  by_cases hz : spec.flags.zero
  · rw [if_pos hz, addedDigits_emulated h hn (.inl hz), askedDigits_zero n hz]
    omega
  · rw [if_neg hz, List.length_append]
    by_cases hwrap : INT_MIN + (numberDigits spec n).length ≤ spec.precision
    · rw [addedDigits_emulated h hn (.inr hwrap), askedDigits_plain n hz]
      omega
    · have := addedDigits_wraps h hn hz (not_le.mp hwrap)
      omega

theorem fitsScratch_empty (h : n = 0 ∧ askedDigits spec n = 0) : FitsScratch spec n := by
  obtain ⟨rfl, h⟩ := h
  have hs : (signText spec).length ≤ 1 := signText_le
  have hdigits : (numberDigits spec 0).length = 1 := by
    rw [numberDigits, digitsText_zero]
    rfl
  rw [askedDigits, prefixText_zero, List.append_nil] at h
  unfold FitsScratch
  rw [prefixText_zero, List.append_nil, hdigits]
  split_ifs at h ⊢
  · omega
  · simp only [INT_MIN]
    omega

theorem numberStr_eq (D : DataModel) (h : Renderable spec) (hn : n < 2 ^ 64) :
    numberStr (wrapping D) spec n =
      if FitsScratch spec n then .ok (emulated spec, numberText spec n)
      else .error .scratchOverflow := by
  obtain ⟨hdigits, hpre, -, -⟩ := emulated_texts spec n
  have hradix : IsRadix (emulated spec).radix := by
    unfold emulated
    split_ifs <;> exact h.radix
  have hempty : (emulated spec).precision = 0 ∧ n = 0 ↔ n = 0 ∧ askedDigits spec n = 0 := by
    rw [and_comm]
    apply and_congr_right
    intro h0
    rw [h0, askedDigits, prefixText_zero, List.append_nil]
    unfold emulated
    split_ifs <;> rfl
  rw [numberStr, emulateZero_eq D h, ok_bind, numberToString_eq D hradix hn, hdigits, hpre,
    numberText, bodyText]
  by_cases h0 : n = 0 ∧ askedDigits spec n = 0
  · have hs : (signText spec ++ []).length ≤ MAX_NUMBER_LEN := by
      have : (signText spec).length ≤ 1 := signText_le
      simp only [List.append_nil, MAX_NUMBER_LEN]
      omega
    rw [if_pos (hempty.mpr h0), if_pos h0, if_pos (fitsScratch_empty h0), ok_bind, push, ← signText,
      if_pos hs]
    rfl
  rw [if_neg (fun he => h0 (hempty.mp he)), if_neg h0]
  have hlen := fitsScratch_iff h hn
  by_cases hf : FitsScratch spec n
  · have hwrap : spec.flags.zero ∨
        INT_MIN + (numberDigits spec n).length ≤ spec.precision := by
      unfold FitsScratch at hf
      split_ifs at hf with hz
      · exact .inl hz
      · exact .inr hf.1
    have hl := hlen.mp hf
    rw [addedDigits_emulated h hn hwrap] at hl ⊢
    rw [if_pos hf, if_pos, ok_bind, push, ← signText, if_pos]
    · rfl
    · simp only [List.length_append, zeros_length, MAX_NUMBER_LEN]
      exact hl
    · simp only [List.length_append, zeros_length]
      omega
  · have hl : ¬ (signText spec ++ (prefixText spec n ++
        (zeros (addedDigits (emulated spec) n).toNat ++ numberDigits spec n))).length ≤
        MAX_NUMBER_LEN := by
      rw [hlen] at hf
      simpa only [List.length_append, zeros_length, MAX_NUMBER_LEN] using hf
    rw [if_neg hf]
    split_ifs
    · rw [ok_bind, push, ← signText, if_neg hl]
      rfl
    · rfl

end Texts

end OsdevLibstdc.Vsnprintf
