import OsdevLibstdc.BoundedScans
import OsdevLibstdc.BoundedStrings
import OsdevLibstdc.SprintfCalls
import OsdevLibstdc.StoreLogs
import OsdevLibstdc.WrittenCounts

/-!
`snprintf` in the memory of the string functions: its format and the strings of its arguments lie
there, and its stores are made there.
-/

namespace OsdevLibstdc.Printf

open ByteMemory ByteStores Target Outcomes Vsnprintf

/-- The strings that have no byte in the buffer. Of a call that reads what it has printed nothing
is said. -/
def stringsOutside (m : Ram) (buffer size : ℕ) : Strings :=
  Cstring.stringsIn (m.only fun a => !Ram.inBlock buffer size a)

/-- The stores of `%n`, which go elsewhere, are made at the end. -/
def snprintfAt (T : Machine) (m : Ram) (buffer size fmt : ℕ) (ap : VaList) :
    Except (Fault ⊕ AccessFault) (ℤ × Ram) :=
  let strings := stringsOutside m buffer size
  match strings fmt with
  | none => .error (.inl .badPointer)
  | some fmt => do
    let r ← (snprintf T strings size fmt ap).mapError .inl
    let m ← (m.storeAll buffer r.stores).mapError .inr
    let m ← (m.storeAll 0 (r.counts.map fun c => countStore T.model c.1 c.2)).mapError .inr
    return (r.value, m)

section Strings

variable {m : Ram} {buffer size p : ℕ} {s : List UInt8}

theorem string_outside (h : m.IsString p s) (hd : p + s.length < buffer ∨ buffer + size ≤ p) :
    (m.only fun a => !Ram.inBlock buffer size a).IsString p s := by
  apply h.only
  intro j hj
  have hout : Ram.inBlock buffer size (p + j) = false := by
    apply decide_eq_false
    omega
  rw [hout]
  rfl

theorem stringsOutside_string (h : m.IsString p s)
    (hd : p + s.length < buffer ∨ buffer + size ≤ p) :
    stringsOutside m buffer size p = some ⟨s, h.no_nul⟩ :=
  Cstring.stringsIn_string (string_outside h hd)

theorem loadString_outside (h : m.IsString p s) (hp : p ≠ 0)
    (hd : p + s.length < buffer ∨ buffer + size ≤ p) :
    loadString (stringsOutside m buffer size) p = .ok s :=
  Cstring.loadString_stringsIn (string_outside h hd) hp

end Strings

section Stores

variable {size i : ℤ} {fields left : List Field} {p q : Progress}

theorem within_cursor (h : PutRun size i fields p q left)
    (hp : ∀ s ∈ p.stores, s.Within p.pos) : ∀ s ∈ q.stores, s.Within q.pos := by
  induction h with
  | done | stop => exact hp
  | @put i f fields left p p' q _ _ _ hputs _ ih =>
    have himage : (f.image size i p.pos).length ≤ f.advance size i p.pos :=
      Field.image_length_le p.pos f
    have hpos := hputs.pos
    apply ih
    apply hputs.within _ (by omega)
    intro s hs j hj
    have := hp s hs j hj
    omega

theorem put_counts {f : Field} (hf : ∀ ptr, f ≠ .count ptr) (h : f.put size i p = .ok q) :
    q.counts = p.counts := by
  cases f with
  | count ptr => exact absurd rfl (hf ptr)
  | nil minus width precision =>
    simp only [Field.put] at h
    split_ifs at h
    rw [← Except.ok.inj h]
    rfl
  | literal | padded | string => exact Except.ok.inj h ▸ rfl

end Stores

section Call

variable {D : DataModel} {m : Ram} {buffer size fmt : ℕ} {format : CString} {ap rest : VaList}
  {fields left : List Field} {q : Progress} {text : List UInt8}

theorem storeAll_leaves (happ : Appends text {} q) (hin : ∀ s ∈ q.stores, s.Within q.pos)
    (h0 : 0 ∉ text) (hm : m.Mapped buffer (text.length + 1)) (fmt' : Cursor) :
    ∃ m', m.storeAll buffer (q.result fmt').stores = .ok m' ∧
      Cstring.Leaves m m' buffer buffer text := by
  have hpos : q.pos = text.length := by rw [happ.pos, Nat.zero_add]
  have hwithin : ∀ s ∈ (q.result fmt').stores, s.Within (text.length + 1) := by
    intro s hs
    rcases List.mem_cons.mp hs with rfl | hs
    · apply within_of_le
      rw [hpos, List.length_singleton]
    · intro j hj
      have := hin s hs j hj
      omega
  obtain ⟨view, hview⟩ := hm.shows
  obtain ⟨m', hrun, hshows, hst⟩ := hview.storeAll hwithin
  have hleaves := leaves_of_appends happ fmt'
  refine ⟨m', hrun, ?_, hst⟩
  apply Ram.IsString.of_holds (hshows.holds (Nat.le_succ _) (hleaves.bytes view)) h0
  rw [hshows _ (Nat.lt_succ_self _)]
  exact congrArg some (hleaves.nul view)

theorem snprintfAt_leaves (hfmt : stringsOutside m buffer size fmt = some format)
    (hf : FieldsOf (wrapping D) (stringsOutside m buffer size) format ap fields rest)
    (h1 : 1 ≤ size) (hmax : (size : ℤ) < INT_MAX)
    (hput : putFields (size - 1) 0 fields {} = .ok (q, left)) (happ : Appends text {} q)
    (hcounts : q.counts = []) (h0 : 0 ∉ text) (hm : m.Mapped buffer (text.length + 1)) :
    ∃ m', snprintfAt (wrapping D) m buffer size fmt ap = .ok (wrapInt q.total, m') ∧
      Cstring.Leaves m m' buffer buffer text := by
  obtain ⟨fmt', _, hres, -⟩ := vsnprintf_put hf h1 hmax hput
  have hin := within_cursor (putRun_of_ok hput) fun s hs => absurd hs List.not_mem_nil
  obtain ⟨m', hrun, hleaves⟩ := storeAll_leaves happ hin h0 hm fmt'
  refine ⟨m', ?_, hleaves⟩
  have hcall : snprintf (wrapping D) (stringsOutside m buffer size) size format ap =
      .ok (q.result fmt') := hres
  have hnone : (q.result fmt').counts = [] := hcounts
  simp only [snprintfAt, hfmt, hcall, Except.mapError, ok_bind, hrun, hnone, List.map_nil,
    Ram.storeAll]
  rfl

end Call

end OsdevLibstdc.Printf
