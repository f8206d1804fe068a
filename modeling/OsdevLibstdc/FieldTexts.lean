import OsdevLibstdc.FieldRooms
import OsdevLibstdc.FormatCursor

/-! No field holds a NUL, except that of a `%c` whose argument is one. -/

namespace OsdevLibstdc.Vsnprintf

open Target ByteStores Outcomes

theorem push_eq_ok {xs ys zs : List UInt8} (h : push xs ys = .ok zs) : zs = xs ++ ys := by
  unfold push at h
  split_ifs at h
  exact (Except.ok.inj h).symm

theorem digitChar_ne_zero (huge : Bool) (n : ℕ) : digitChar huge n ≠ 0 := by
  have hd : 0 ∉ bytes (if huge then "0123456789ABCDEF" else "0123456789abcdef") := by
    cases huge <;> decide
  unfold digitChar
  cases h : (bytes (if huge then "0123456789ABCDEF" else "0123456789abcdef"))[n]? with
  | none => decide
  | some b => exact ne_of_mem_of_not_mem (List.mem_of_getElem? h) hd

theorem pushDigits_nonzero {huge : Bool} {radix room n : ℕ} {ds : List UInt8}
    (h : pushDigits huge radix room n = .ok ds) : 0 ∉ ds := by
  induction room generalizing n ds with
  | zero =>
    cases n with
    | zero => cases h; exact List.not_mem_nil
    | succ n => cases h
  | succ room ih =>
    cases n with
    | zero => cases h; exact List.not_mem_nil
    | succ n =>
      obtain ⟨rest, hrest, h⟩ := bind_eq_ok.mp h
      obtain rfl := Except.ok.inj h
      rw [List.mem_cons, not_or]
      exact ⟨(digitChar_ne_zero huge _).symm, ih hrest⟩

theorem numberToString_nonzero {T : Machine} {n : ℕ} {spec : FormatSpec} {size : ℤ}
    {text : List UInt8} (h : numberToString T n spec size = .ok text) : 0 ∉ text := by
  unfold numberToString at h
  split_ifs at h
  · cases h
    exact List.not_mem_nil
  all_goals
    obtain ⟨digits, hdigits, h⟩ := bind_eq_ok.mp h
    obtain ⟨p, -, h⟩ := bind_eq_ok.mp h
    obtain ⟨p', -, h⟩ := bind_eq_ok.mp h
    obtain ⟨zeros, hzeros, h⟩ := bind_eq_ok.mp h
    obtain ⟨all, hall, h⟩ := bind_eq_ok.mp h
    have hz : 0 ∉ List.replicate (min p' size).toNat (byte '0') := by
      intro hm
      have := (List.mem_replicate.mp hm).2
      revert this
      decide
    have hp : 0 ∉ altPrefix spec n := by
      unfold altPrefix
      split_ifs <;> decide
    have hd : 0 ∉ digits := by
      first
        | (cases hdigits; decide)
        | exact pushDigits_nonzero hdigits
    rw [push_eq_ok hzeros] at hall
    rw [push_eq_ok hall] at h
    obtain rfl := Except.ok.inj h
    intro hm
    have := List.mem_of_mem_take (List.mem_reverse.mp hm)
    simp only [List.mem_append] at this
    tauto

theorem numberStr_nonzero {T : Machine} {spec spec' : FormatSpec} {n : ℕ} {text : List UInt8}
    (h : numberStr T spec n = .ok (spec', text)) : 0 ∉ text := by
  obtain ⟨s, -, h⟩ := bind_eq_ok.mp h
  obtain ⟨digits, hdigits, h⟩ := bind_eq_ok.mp h
  obtain ⟨t, ht, h⟩ := bind_eq_ok.mp h
  obtain ⟨-, rfl⟩ := Prod.mk.inj (Except.ok.inj h)
  rw [push_eq_ok ht, List.mem_append, not_or]
  refine ⟨?_, numberToString_nonzero hdigits⟩
  unfold signChar
  split_ifs <;> decide

theorem conversion_literal {T : Machine} {c c' : UInt8} {spec : FormatSpec} {ap ap' : VaList}
    (h : conversion T c spec ap = .ok (.literal c', ap')) : c' = c := by
  unfold conversion at h
  split at h
  case h_11 | h_12 => exact (Conversion.literal.inj (Prod.mk.inj (Except.ok.inj h)).1).symm
  case h_7 =>
    obtain ⟨⟨v, ap''⟩, -, h⟩ := bind_eq_ok.mp h
    simp only at h
    split_ifs at h <;> cases h
  all_goals
    obtain ⟨_, -, h⟩ := bind_eq_ok.mp h
    cases h

theorem nextConversion_literal {T : Machine} {spec : FormatSpec} {fmt fmt' : Cursor}
    {ap ap' : VaList} {c : UInt8}
    (h : nextConversion T spec fmt ap = .ok (.literal c, ap', fmt')) : c ∈ fmt := by
  obtain ⟨d, hd, h⟩ := bind_eq_ok.mp h
  have hfmt := deref_eq_ok hd
  split_ifs at h
  · obtain ⟨p, hp, h⟩ := bind_eq_ok.mp h
    obtain ⟨r, hr, h⟩ := bind_eq_ok.mp h
    obtain ⟨c', hc', h⟩ := bind_eq_ok.mp h
    obtain ⟨q, hq, h⟩ := bind_eq_ok.mp h
    have hlit : q = (.literal c, q.2) := Prod.ext (Prod.mk.inj (Except.ok.inj h)).1 rfl
    rw [hlit] at hq
    rw [conversion_literal hq]
    have hsuffix := (parseSizeSpecifier_suffix hr).trans (parseFlagsFwPrecision_suffix hp)
    have hmem : c' ∈ r.2 := by
      rw [deref_eq_ok hc']
      exact List.mem_cons_self
    rw [hfmt]
    exact List.mem_cons_of_mem d (hsuffix.subset hmem)
  · rw [← Conversion.literal.inj (Prod.mk.inj (Except.ok.inj h)).1, hfmt]
    exact List.mem_cons_self

theorem zero_notMem_spaces (n : ℕ) : 0 ∉ Box.spaces n := by
  intro h
  have := (List.mem_replicate.mp h).2
  revert this
  decide

theorem zero_notMem_full {f : Field} (h : 0 ∉ f.whole.text) : 0 ∉ f.full := by
  unfold Field.full Box.full
  split_ifs <;> rw [List.mem_append, not_or]
  · exact ⟨h, zero_notMem_spaces _⟩
  · exact ⟨zero_notMem_spaces _, h⟩

theorem zero_notMem_cut {precision : ℤ} {s : List UInt8} (h : 0 ∉ s) : 0 ∉ cut precision s := by
  unfold cut
  split_ifs
  · intro hm
    exact h (List.mem_of_mem_take hm)
  · exact h

theorem loadString_nonzero {strings : Strings} {ptr : ℤ} {s : List UInt8}
    (h : loadString strings ptr = .ok s) : 0 ∉ s := by
  unfold loadString at h
  split_ifs at h
  · rw [← Except.ok.inj h]
    decide
  · cases hs : strings ptr.toNat with
    | none => rw [hs] at h; cases h
    | some s' =>
      rw [hs] at h
      rw [← Except.ok.inj h]
      exact s'.property

theorem nextField_nonzero {T : Machine} {strings : Strings} {fmt fmt' : Cursor} {ap ap' : VaList}
    {f : Field} (h : nextField T strings fmt ap = .ok (f, ap', fmt')) (hfmt : 0 ∉ fmt)
    (hc : ∀ minus width, f ≠ .padded ⟨minus, width, [0]⟩) : 0 ∉ f.full := by
  apply zero_notMem_full
  obtain ⟨⟨conv, ap'', fmt''⟩, hconv, h⟩ := bind_eq_ok.mp h
  obtain ⟨g, hg, h⟩ := bind_eq_ok.mp h
  obtain rfl : g = f := (Prod.mk.inj (Except.ok.inj h)).1
  cases conv with
  | literal c =>
    obtain rfl := Except.ok.inj hg
    have := ne_of_mem_of_not_mem (nextConversion_literal hconv) hfmt
    simpa [Field.whole] using this.symm
  | number spec n =>
    obtain ⟨r, hr, hg⟩ := bind_eq_ok.mp hg
    obtain rfl := Except.ok.inj hg
    exact numberStr_nonzero hr
  | char spec c =>
    obtain rfl := Except.ok.inj hg
    intro hm
    have hc0 : c = 0 := (List.mem_singleton.mp hm).symm
    exact hc _ _ (by rw [hc0])
  | string spec ptr =>
    obtain ⟨s, hs, hg⟩ := bind_eq_ok.mp hg
    obtain rfl := Except.ok.inj hg
    exact zero_notMem_cut (loadString_nonzero hs)
  | nil spec =>
    obtain rfl := Except.ok.inj hg
    apply zero_notMem_cut
    decide
  | count ptr =>
    obtain rfl := Except.ok.inj hg
    exact List.not_mem_nil

theorem Reads.nonzero {T : Machine} {strings : Strings} {fmt fmt' : Cursor} {ap rest : VaList}
    {fields : List Field} (h : Reads T strings fmt ap fields fmt' rest) (hfmt : 0 ∉ fmt)
    (hc : ∀ minus width, Field.padded ⟨minus, width, [0]⟩ ∉ fields) : ∀ f ∈ fields, 0 ∉ f.full := by
  induction h with
  | done fmt ap => exact fun f hf => absurd hf List.not_mem_nil
  | @field c fmt fmt' fmt'' ap ap' rest f fields _ hf _ ih =>
    intro g hg
    rcases List.mem_cons.mp hg with rfl | hg
    · apply nextField_nonzero hf hfmt
      rintro minus width rfl
      exact hc minus width List.mem_cons_self
    · apply ih _ _ g hg
      · intro hm
        exact hfmt ((nextField_suffix hf).subset hm)
      · intro minus width hm
        exact hc minus width (List.mem_cons_of_mem _ hm)

end OsdevLibstdc.Vsnprintf
