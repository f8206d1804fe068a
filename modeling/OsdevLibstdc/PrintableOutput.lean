import OsdevLibstdc.CharacterCase
import OsdevLibstdc.FieldTexts
import OsdevLibstdc.PrintfMemory

/-!
Which characters `vsnprintf` stores: those of its format, its strings and its `%c` arguments, and
those with which it shows numbers, pads and names the null pointer.
-/

namespace OsdevLibstdc.Vsnprintf

open Target ByteStores Outcomes

/-- The characters that the code itself brings in. -/
def emitted : List UInt8 := bytes "0123456789abcdefABCDEFxX+- (nil)(null)"

section Numbers

theorem digitChar_emitted (hu : Bool) (n : ℕ) : digitChar hu n ∈ emitted := by
  have hdigits : ∀ b ∈ bytes (if hu then "0123456789ABCDEF" else "0123456789abcdef"),
      b ∈ emitted := by
    cases hu <;> decide +kernel
  unfold digitChar
  cases h : (bytes (if hu then "0123456789ABCDEF" else "0123456789abcdef"))[n]? with
  | none => exact hdigits (byte '0') (by cases hu <;> decide +kernel)
  | some b => exact hdigits b (List.mem_of_getElem? h)

theorem pushDigits_emitted {hu : Bool} {radix room n : ℕ} {ds : List UInt8}
    (h : pushDigits hu radix room n = .ok ds) : ds ⊆ emitted := by
  induction room generalizing n ds with
  | zero =>
    cases n with
    | zero => cases h; exact List.nil_subset _
    | succ n => cases h
  | succ room ih =>
    cases n with
    | zero => cases h; exact List.nil_subset _
    | succ n =>
      obtain ⟨rest, hrest, h⟩ := bind_eq_ok.mp h
      obtain rfl := Except.ok.inj h
      exact List.cons_subset.mpr ⟨digitChar_emitted hu _, ih hrest⟩

theorem altPrefix_emitted (spec : FormatSpec) (n : ℕ) : altPrefix spec n ⊆ emitted := by
  unfold altPrefix
  split_ifs <;> decide +kernel

theorem signChar_emitted (spec : FormatSpec) : (signChar spec).toList ⊆ emitted := by
  unfold signChar
  split_ifs <;> decide +kernel

theorem numberToString_emitted {T : Machine} {n : ℕ} {spec : FormatSpec} {size : ℤ}
    {text : List UInt8} (h : numberToString T n spec size = .ok text) : text ⊆ emitted := by
  unfold numberToString at h
  split_ifs at h with h0 hn
  · cases h
    exact List.nil_subset _
  all_goals
    obtain ⟨digits, hdigits, h⟩ := bind_eq_ok.mp h
    obtain ⟨p, -, h⟩ := bind_eq_ok.mp h
    obtain ⟨p', -, h⟩ := bind_eq_ok.mp h
    obtain ⟨zeros, hzeros, h⟩ := bind_eq_ok.mp h
    obtain ⟨all, hall, h⟩ := bind_eq_ok.mp h
    have hd : digits ⊆ emitted := by
      first
        | (cases hdigits; decide +kernel)
        | exact pushDigits_emitted hdigits
    have hz : List.replicate (min p' size).toNat (byte '0') ⊆ emitted := by
      intro b hb
      rw [List.eq_of_mem_replicate hb]
      decide +kernel
    rw [push_eq_ok hzeros] at hall
    rw [push_eq_ok hall] at h
    obtain rfl := Except.ok.inj h
    intro b hb
    have hmem := List.mem_of_mem_take (List.mem_reverse.mp hb)
    exact List.append_subset.mpr ⟨List.append_subset.mpr ⟨hd, hz⟩, altPrefix_emitted _ _⟩ hmem

theorem numberStr_emitted {T : Machine} {spec spec' : FormatSpec} {n : ℕ} {text : List UInt8}
    (h : numberStr T spec n = .ok (spec', text)) : text ⊆ emitted := by
  obtain ⟨s, -, h⟩ := bind_eq_ok.mp h
  obtain ⟨digits, hdigits, h⟩ := bind_eq_ok.mp h
  obtain ⟨t, ht, h⟩ := bind_eq_ok.mp h
  obtain ⟨-, rfl⟩ := Prod.mk.inj (Except.ok.inj h)
  rw [push_eq_ok ht]
  exact List.append_subset.mpr ⟨signChar_emitted spec, numberToString_emitted hdigits⟩

end Numbers

section Fields

variable {T : Machine} {strings : Strings} {fmt fmt' : Cursor} {ap ap' rest : VaList} {f : Field}
  {fields : List Field} {P : UInt8 → Prop}

structure Brings (P : UInt8 → Prop) (strings : Strings) (fmt : Cursor) (fields : List Field) :
    Prop where
  format : ∀ c ∈ fmt, P c
  strings : ∀ p s, strings p = some s → ∀ c ∈ s.val, P c
  chars : ∀ minus width c, Field.padded ⟨minus, width, [c]⟩ ∈ fields → P c

theorem loadString_all (hP : ∀ c ∈ emitted, P c)
    (hstrings : ∀ p s, strings p = some s → ∀ c ∈ s.val, P c) {ptr : ℤ} {s : List UInt8}
    (h : loadString strings ptr = .ok s) : ∀ c ∈ s, P c := by
  unfold loadString at h
  split_ifs at h
  · obtain rfl := Except.ok.inj h
    have hnull : kNull ⊆ emitted := by decide +kernel
    exact fun c hc => hP c (hnull hc)
  · cases hs : strings ptr.toNat with
    | none =>
      rw [hs] at h
      cases h
    | some s' =>
      rw [hs] at h
      obtain rfl := Except.ok.inj h
      exact hstrings _ _ hs

theorem mem_cut {precision : ℤ} {s : List UInt8} {c : UInt8} (h : c ∈ cut precision s) : c ∈ s := by
  unfold cut at h
  split_ifs at h
  · exact List.mem_of_mem_take h
  · exact h

theorem nextField_all (hP : ∀ c ∈ emitted, P c) (hfmt : ∀ c ∈ fmt, P c)
    (hstrings : ∀ p s, strings p = some s → ∀ c ∈ s.val, P c)
    (hchar : ∀ minus width c, f = .padded ⟨minus, width, [c]⟩ → P c)
    (h : nextField T strings fmt ap = .ok (f, ap', fmt')) : ∀ c ∈ f.whole.text, P c := by
  obtain ⟨⟨conv, ap'', fmt''⟩, hconv, h⟩ := bind_eq_ok.mp h
  obtain ⟨g, hg, h⟩ := bind_eq_ok.mp h
  obtain rfl : g = f := (Prod.mk.inj (Except.ok.inj h)).1
  have hnil : kNil ⊆ emitted := by decide +kernel
  cases conv with
  | literal c =>
    obtain rfl := Except.ok.inj hg
    intro c' hc'
    rw [List.mem_singleton.mp hc']
    exact hfmt c (nextConversion_literal hconv)
  | number spec n =>
    obtain ⟨r, hr, hg⟩ := bind_eq_ok.mp hg
    obtain rfl := Except.ok.inj hg
    exact fun c hc => hP c (numberStr_emitted hr hc)
  | char spec c =>
    obtain rfl := Except.ok.inj hg
    intro c' hc'
    rw [List.mem_singleton.mp hc']
    exact hchar _ _ c rfl
  | string spec ptr =>
    obtain ⟨s, hs, hg⟩ := bind_eq_ok.mp hg
    obtain rfl := Except.ok.inj hg
    exact fun c hc => loadString_all hP hstrings hs c (mem_cut hc)
  | nil spec =>
    obtain rfl := Except.ok.inj hg
    exact fun c hc => hP c (hnil (mem_cut hc))
  | count ptr =>
    obtain rfl := Except.ok.inj hg
    exact fun c hc => absurd hc List.not_mem_nil

theorem Reads.all (hP : ∀ c ∈ emitted, P c) (h : Reads T strings fmt ap fields fmt' rest)
    (hb : Brings P strings fmt fields) : ∀ f ∈ fields, ∀ c ∈ f.whole.text, P c := by
  induction h with
  | done => exact fun f hf => absurd hf List.not_mem_nil
  | @field c fmt fmt' fmt'' ap ap' rest f fields _ hf _ ih =>
    obtain ⟨hformat, hstrings, hchars⟩ := hb
    intro g hg
    rcases List.mem_cons.mp hg with rfl | hg
    · apply nextField_all hP hformat hstrings _ hf
      rintro minus width c rfl
      exact hchars minus width c List.mem_cons_self
    · refine ih ⟨?_, hstrings, ?_⟩ g hg
      · exact fun c hc => hformat c ((nextField_suffix hf).subset hc)
      · exact fun minus width c hc => hchars minus width c (List.mem_cons_of_mem _ hc)

end Fields

section Stores

variable {size i : ℤ} {fields left : List Field} {p q : Progress} {f : Field} {P : UInt8 → Prop}

def AllStored (P : UInt8 → Prop) (p : Progress) : Prop := ∀ s ∈ p.stores, ∀ c ∈ s.bytes, P c

theorem Box.stores_all {b : Box} {pos room : ℕ} (hspace : P (byte ' ')) (hb : ∀ c ∈ b.text, P c) :
    ∀ s ∈ b.stores pos room, ∀ c ∈ s.bytes, P c := by
  have hpad (n : ℕ) : ∀ c ∈ spaces n, P c := by
    intro c hc
    rwa [List.eq_of_mem_replicate hc]
  have htext (n : ℕ) : ∀ c ∈ b.text.take n, P c := fun c hc => hb c (List.mem_of_mem_take hc)
  unfold Box.stores
  split_ifs
  · exact List.forall_mem_cons.mpr ⟨hpad _, List.forall_mem_singleton.mpr (htext _)⟩
  · exact List.forall_mem_cons.mpr ⟨htext _, List.forall_mem_singleton.mpr (hpad _)⟩

theorem Field.box_all {room : ℕ} (hf : ∀ c ∈ f.whole.text, P c) : ∀ c ∈ (f.box room).text, P c := by
  unfold Field.box
  split_ifs
  · exact fun c hc => hf c (List.mem_of_mem_take hc)
  · exact hf

theorem put_all_stored (hP : ∀ c ∈ emitted, P c) (hf : ∀ c ∈ f.whole.text, P c)
    (hp : AllStored P p) (h : f.put size i p = .ok q) : AllStored P q := by
  have hspace : P (byte ' ') := hP _ (by decide +kernel)
  have hput {b : Box} {room : ℕ} (hb : ∀ c ∈ b.text, P c) : AllStored P (p.put b room) :=
    List.forall_mem_append.mpr ⟨b.stores_all hspace hb, hp⟩
  cases f with
  | literal c =>
    obtain rfl := Except.ok.inj h
    exact List.forall_mem_cons.mpr ⟨hf, hp⟩
  | count ptr =>
    obtain rfl := Except.ok.inj h
    unfold AllStored
    split_ifs <;> exact hp
  | padded b =>
    obtain rfl := Except.ok.inj h
    exact hput hf
  | string minus width precision s =>
    obtain rfl := Except.ok.inj h
    exact hput (Field.box_all hf)
  | nil minus width precision =>
    simp only [Field.put] at h
    split_ifs at h
    obtain rfl := Except.ok.inj h
    exact hput (Field.box_all hf)

theorem putRun_all_stored (hP : ∀ c ∈ emitted, P c) (h : PutRun size i fields p q left)
    (hf : ∀ f ∈ fields, ∀ c ∈ f.whole.text, P c) (hp : AllStored P p) : AllStored P q := by
  induction h with
  | done | stop => exact hp
  | put _ _ hput _ _ ih =>
    obtain ⟨hfirst, hrest⟩ := List.forall_mem_cons.mp hf
    exact ih hrest (put_all_stored hP hfirst hp hput)

end Stores

theorem vsnprintf_stores_all {D : DataModel} {strings : Strings} {maxSize : ℕ} {fmt : CString}
    {ap rest : VaList} {fields : List Field} {res : Result} {P : UInt8 → Prop}
    (hP : ∀ c ∈ emitted, P c) (hf : FieldsOf (wrapping D) strings fmt ap fields rest)
    (hb : Brings P strings fmt.val fields) (h1 : 1 ≤ maxSize) (hmax : (maxSize : ℤ) < INT_MAX)
    (hres : vsnprintf (wrapping D) strings maxSize fmt ap = .ok res) :
    ∃ pos stores, res.stores = ⟨pos, [0]⟩ :: stores ∧ ∀ s ∈ stores, ∀ c ∈ s.bytes, P c := by
  obtain ⟨q, left, fmt', hput, rfl⟩ := put_of_vsnprintf hf h1 hmax hres
  refine ⟨q.pos, q.stores, rfl, ?_⟩
  apply putRun_all_stored hP (putRun_of_ok hput) (hf.all hP hb)
  exact fun s hs => absurd hs List.not_mem_nil

theorem emitted_isprint : ∀ c ∈ emitted, Cctype.isprint (charValue c) := by
  decide +kernel

def charThenNull : CString := ⟨byte '%' :: (bytes "c" ++ byte '%' :: bytes "s"), by decide⟩

theorem vsnprintf_stores_all_charThenNull : ∃ res pos stores,
    vsnprintf (wrapping .lp64) (fun _ => none) 5 charThenNull
      (LittleEndian.encode 8 33 ++ LittleEndian.encode 8 0) = .ok res ∧
    res.stores = ⟨pos, [0]⟩ :: stores ∧ ∀ s ∈ stores, ∀ c ∈ s.bytes, Cctype.isprint (charValue c) := by
  have hchar : nextField (wrapping .lp64) (fun _ => none) charThenNull.val
      (LittleEndian.encode 8 33 ++ LittleEndian.encode 8 0) =
        .ok (.padded ⟨false, -1, [33]⟩, LittleEndian.encode 8 0, byte '%' :: bytes "s") := by
    decide +kernel
  have hnull : nextField (wrapping .lp64) (fun _ => none) (byte '%' :: bytes "s")
      (LittleEndian.encode 8 0) = .ok (.string false (-1) (-1) kNull, [], []) := by
    decide +kernel
  have hf : FieldsOf (wrapping .lp64) (fun _ => none) charThenNull _ _ [] :=
    .field (by decide) hchar (.field (by decide) hnull (.done _ _))
  have hb : Brings (fun c => Cctype.isprint (charValue c)) (fun _ => none) charThenNull.val
      [.padded ⟨false, -1, [33]⟩, .string false (-1) (-1) kNull] := by
    refine ⟨by decide +kernel, fun p s h => (by cases h), ?_⟩
    intro minus width c h
    simp only [List.mem_cons, Field.padded.injEq, Box.mk.injEq, List.not_mem_nil, or_false,
      reduceCtorEq, List.cons.injEq, and_true] at h
    rw [h.2.2]
    decide
  obtain ⟨q, left, hput⟩ : ∃ q left, putFields (((5 : ℕ) : ℤ) - 1) 0
      [.padded ⟨false, -1, [33]⟩, .string false (-1) (-1) kNull] {} = .ok (q, left) :=
    ⟨_, _, rfl⟩
  obtain ⟨fmt', -, hres, -⟩ := vsnprintf_put hf (by decide) (by decide) hput
  obtain ⟨pos, stores, h⟩ := vsnprintf_stores_all emitted_isprint hf hb (by decide) (by decide) hres
  exact ⟨_, pos, stores, hres, h⟩

end OsdevLibstdc.Vsnprintf
