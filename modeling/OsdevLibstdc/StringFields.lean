import OsdevLibstdc.StarArguments

/-!
What `%s` and `%c` store: their bytes, cut at the precision and padded to the width.
-/

namespace OsdevLibstdc.Vsnprintf

open Target ByteStores LittleEndian Outcomes

def StoresPadded (D : DataModel) (strings : Strings) (d : Directive) (ap ap' : VaList)
    (shown : List UInt8) : Prop :=
  ∀ size st more, size < INT_MAX → st.At size d more ap →
    st.out.pos + max d.width.value shown.length ≤ size →
    ∃ st', loopStep (wrapping D) strings size st = .ok st' ∧ st'.fmt = more ∧ st'.ap = ap' ∧
      Printed st st' (d.pad shown) ∧ ((d.pad shown).length : ℤ) = max d.width.value shown.length

section StringFields

variable {D : DataModel} {strings : Strings} {d : Directive} {ap ap₁ ap' : VaList}

theorem pad_length (d : Directive) (shown : List UInt8) :
    ((d.pad shown).length : ℤ) = max d.width.value shown.length := by
  rw [Directive.pad, padded_length]
  omega

theorem pad_eq_full {v : ℤ} {shown : List UInt8} (hw : -1 ≤ d.width.value)
    (hshown : d.unpadded strings v = shown) (hlen : ((d.pad shown).length : ℤ) ≤ INT_MAX) :
    d.pad shown = (d.unpaddedBox strings v).full := by
  rw [pad_length] at hlen
  rw [Directive.unpaddedBox, hshown, full_eq_padded, Directive.pad]
  · simp only [INT_MIN, INT_MAX] at hlen ⊢
    omega
  · simp only
    omega

theorem storesPadded_of_prints {v : ℤ} {shown : List UInt8} (hw : -1 ≤ d.width.value)
    (hshown : d.unpadded strings v = shown)
    (h : ∀ text, text = (d.unpaddedBox strings v).full → (text.length : ℤ) < INT_MAX →
      Prints D strings d ap ap' text) : StoresPadded D strings d ap ap' shown := by
  intro size st more hsize hat hfit
  have hlen := pad_length d shown
  have hfull := pad_eq_full hw hshown (by omega)
  obtain ⟨-, hprint⟩ := h (d.pad shown) hfull (by omega)
  obtain ⟨st', hst, hfmt, hap, hprinted⟩ := hprint st size more hat (by omega)
  exact ⟨st', hst, hfmt, hap, hprinted, hlen⟩

theorem string_and_char_fields (hw : -1 ≤ d.width.value)
    (hstars : Passed D d.starArgs ap ap₁) :
    (d.specifier = .s → ∀ ptr s, vaArg D .pointer ap₁ = .ok (ptr, ap') →
      loadString strings ptr = .ok s →
      StoresPadded D strings d ap ap' (cut d.precision.value s)) ∧
    (d.specifier = .c → ∀ v, vaArg D .int ap₁ = .ok (v, ap') →
      StoresPadded D strings d ap ap' [UInt8.ofInt v]) := by
  constructor
  · intro hk ptr s hv hs
    have hvalue : argumentValue D d.specifier d.length ap₁ = .ok (ptr, ap') := by
      rw [hk]
      exact hv
    apply storesPadded_of_prints (v := ptr) hw
    · rw [Directive.unpadded, hk, hs]
    · intro text htext hl
      exact (prints_string_iff hk hstars hvalue).mpr ⟨⟨s, hs⟩, htext, hl⟩
  · intro hk v hv
    have hvalue : argumentValue D d.specifier d.length ap₁ = .ok (v, ap') := by
      rw [hk]
      exact hv
    apply storesPadded_of_prints (v := v) hw
    · rw [Directive.unpadded, hk]
    · intro text htext hl
      exact (prints_char_iff hk hstars hvalue).mpr ⟨htext, hl⟩

def cutString : Directive := ⟨[.minus], .star 5, .star 2, .null, .s⟩

theorem string_and_char_fields_cutString : StoresPadded .lp64 (fun _ => none) cutString
    (encode 8 5 ++ (encode 8 2 ++ encode 8 0)) [] (bytes "(n") :=
  (string_and_char_fields (by decide) (.cons (by decide) (.cons (by decide) (.nil _)))).1 rfl 0
    kNull (by decide) rfl

end StringFields

end OsdevLibstdc.Vsnprintf
