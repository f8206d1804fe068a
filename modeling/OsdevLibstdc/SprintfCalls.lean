import OsdevLibstdc.ConcatenatedOutput

/-!
`sprintf`, which tells `vsnprintf` that every buffer has 1024 bytes, and `snprintf`.
-/

namespace OsdevLibstdc.Vsnprintf

open Target ByteStores Outcomes

def sprintf (T : Machine) (strings : Strings) (fmt : CString) (ap : VaList) :
    Except Fault Result := vsnprintf T strings 1024 fmt ap

def snprintf (T : Machine) (strings : Strings) (size : ℕ) (fmt : CString) (ap : VaList) :
    Except Fault Result := vsnprintf T strings size fmt ap

def CallsAgree (D : DataModel) (strings : Strings) (n : ℕ) (fmt : CString) (ap : VaList)
    (text : List UInt8) : Prop :=
  ∃ r r', sprintf (wrapping D) strings fmt ap = .ok r ∧
    snprintf (wrapping D) strings n fmt ap = .ok r' ∧ Leaves text r ∧ Leaves text r' ∧
    r.value = text.length ∧ r'.value = text.length

section Calls

variable {D : DataModel} {strings : Strings} {n : ℕ} {fmt : CString} {ap rest : VaList}
  {fields : List Field}

theorem callsAgree_iff {text : List UInt8} : CallsAgree D strings n fmt ap text ↔
    Renders D strings 1024 fmt ap text ∧ Renders D strings n fmt ap text := by
  constructor
  · rintro ⟨r, r', hr, hr', hl, hl', hv, hv'⟩
    exact ⟨⟨r, hr, hl, hv⟩, r', hr', hl', hv'⟩
  · rintro ⟨⟨r, hr, hl, hv⟩, r', hr', hl', hv'⟩
    exact ⟨r, r', hr, hr', hl, hl', hv, hv'⟩

theorem sprintf_agrees_iff (hf : FieldsOf (wrapping D) strings fmt ap fields rest)
    (hn : (render fields).length < n) (hmax : (n : ℤ) < INT_MAX) :
    CallsAgree D strings n fmt ap (render fields) ↔
      AllEntire 1023 0 0 fields ∧ EachField (n - 1) (Field.NilFits (n - 1)) 0 0 fields := by
  rw [callsAgree_iff]
  apply and_congr
  · exact renders_iff hf (by omega) (by decide) (by omega)
  · exact ⟨nilFits_of_renders hf hmax hn, renders_of_nilFits hf hmax hn⟩

end Calls

theorem sprintf_agrees_iff_wideNumber :
    CallsAgree .lp64 (fun _ => none) 20 wideNumber seven (render [.padded ⟨false, 10, [55]⟩]) ↔
      AllEntire 1023 0 0 [.padded ⟨false, 10, [55]⟩] ∧
        EachField ((20 : ℕ) - 1) (Field.NilFits ((20 : ℕ) - 1)) 0 0 [.padded ⟨false, 10, [55]⟩] :=
  sprintf_agrees_iff wideNumber_fields (by decide) (by decide)

def widerNumber : CString := ⟨bytes "%1024d", by decide⟩

theorem widerNumber_fields : FieldsOf (wrapping .lp64) (fun _ => none) widerNumber seven
    [.padded ⟨false, 1024, [55]⟩] [] :=
  .field (by decide) rfl (.done _ _)

theorem sprintf_not_agrees :
    ¬ ∀ (D : DataModel) (strings : Strings) (n : ℕ) (fmt : CString) (ap rest : VaList)
      (fields : List Field), FieldsOf (wrapping D) strings fmt ap fields rest →
      (render fields).length < n → (n : ℤ) < INT_MAX →
      CallsAgree D strings n fmt ap (render fields) := by
  intro h
  have hlength : (render [.padded ⟨false, 1024, [55]⟩]).length = 1024 := by
    rw [render_cons, List.length_append, Field.full_length]
    rfl
  obtain ⟨r, -, hr, -, hleaves, -⟩ := h .lp64 (fun _ => none) 2000 widerNumber seven [] _
    widerNumber_fields (by rw [hlength]; decide) (by decide)
  have hrun : sprintf (wrapping .lp64) (fun _ => none) widerNumber seven =
      .ok ⟨1024, 1024, [⟨1023, [0]⟩, ⟨1023, []⟩, ⟨0, Box.spaces 1023⟩], [], [0]⟩ := rfl
  rw [hrun] at hr
  obtain rfl := Except.ok.inj hr
  -- the byte behind the stores keeps its value
  have hnul := hleaves.nul fun _ => 1
  rw [hlength] at hnul
  revert hnul
  simp only [Result.memory, replay]
  rw [write_above (by simp only [List.length_singleton]; omega), write_nil,
    write_above (by simp only [Box.spaces_length]; omega)]
  decide

end OsdevLibstdc.Vsnprintf
