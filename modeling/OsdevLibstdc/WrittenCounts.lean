import OsdevLibstdc.ConcatenatedOutput
import OsdevLibstdc.PrintedFields

/-!
`%n`, which stores the bytes written so far as a `size_t`. The directive itself puts nothing, but
the null pointers behind it have one directive more in front of them.
-/

namespace OsdevLibstdc.Vsnprintf

open Target ByteStores LittleEndian Outcomes

/-- `*ptr = written` for `size_t *ptr` -/
def countStore (D : DataModel) (ptr k : ℕ) : Store := ⟨ptr, encode (CType.size.sizeof D) k⟩

def StoresInt (D : DataModel) (ptr k : ℕ) (value : ℤ) : Prop :=
  ∀ m, (∀ a, a < ptr ∨ ptr + 4 ≤ a → (countStore D ptr k).write m a = m a) ∧
    CType.int.convert D (decode (read ((countStore D ptr k).write m) ptr 4)) = value

def percentN : CString := ⟨bytes "%n", by decide⟩

structure Result.Reports (D : DataModel) (ptr : ℕ) (r without front : Result) : Prop where
  counts : ∃ later k, r.counts = later ++ (ptr, k) :: front.counts ∧
    without.counts = later ++ front.counts ∧ StoresInt D ptr k front.value
  memory : ∀ init, r.memory init = without.memory init
  value : r.value = without.value

def CountReported (D : DataModel) (strings : Strings) (maxSize : ℕ) (f g : CString)
    (apf app apg : VaList) (ptr : ℕ) : Prop :=
  ∃ r without front,
    vsnprintf (wrapping D) strings maxSize (concat f (concat percentN g)) (apf ++ (app ++ apg)) =
      .ok r ∧
    vsnprintf (wrapping D) strings maxSize (concat f g) (apf ++ apg) = .ok without ∧
    vsnprintf (wrapping D) strings maxSize f apf = .ok front ∧ r.Reports D ptr without front

def Field.Counted (size i : ℤ) (o : ℕ) (f : Field) : Prop :=
  f.isNil = true → 0 ≤ f.room size i o ∧ f.advance size i o = f.request size i o

section Stores

end Stores

section Runs

variable {size i : ℤ} {fs gs : List Field} {p q : Progress} {left : List Field}

theorem put_counts {f : Field} (hput : f.put size i p = .ok q) :
    ∃ later, q.counts = later ++ p.counts := by
  cases f with
  | literal c =>
    cases hput
    exact ⟨[], rfl⟩
  | padded b =>
    cases hput
    exact ⟨[], rfl⟩
  | string minus width precision s =>
    cases hput
    exact ⟨[], rfl⟩
  | count ptr =>
    cases hput
    split_ifs
    · exact ⟨[], rfl⟩
    · exact ⟨[_], rfl⟩
  | nil minus width precision =>
    rw [Field.put] at hput
    split_ifs at hput
    cases hput
    exact ⟨[], rfl⟩

theorem PutRun.counts (h : PutRun size i fs p q left) :
    ∃ later, q.counts = later ++ p.counts := by
  induction h with
  | done | stop => exact ⟨[], rfl⟩
  | put _ _ hput _ _ ih =>
    obtain ⟨later, hcounts⟩ := put_counts hput
    obtain ⟨later', hcounts'⟩ := ih
    refine ⟨later' ++ later, ?_⟩
    rw [hcounts', hcounts, List.append_assoc]

end Runs

section Call

variable {D : DataModel} {strings : Strings} {maxSize : ℕ} {f g : CString}
  {apf app apg rest : VaList} {fs gs : List Field} {v : ℤ}

end Call

section Items

variable {D : DataModel} {strings : Strings} {maxSize : ℕ} {f g : List Item}
  {apf app apg : VaList} {fs gs : List Field} {v : ℤ}

theorem CountReported.matched {h : CString} {ptr : ℕ} (hapf : Passed D (args f) apf [])
    (h1 : 1 ≤ maxSize) (hmax : (maxSize : ℤ) < INT_MAX)
    (hcount : CountReported D strings maxSize (format f) h apf app apg ptr) : Matched D f := by
  obtain ⟨r, without, front, hr, -, hfront, ⟨later, k, hcounts, -, -⟩, -, -⟩ := hcount
  obtain ⟨fields, p, c, fmt, rest, hreads, hput, rfl, hend⟩ := reads_of_vsnprintf h1 hmax hfront
  obtain ⟨pre, post, hitems, hfmt, -, hany⟩ := hreads.items
  cases post with
  | nil =>
    rw [hfmt] at hreads
    exact matched_of_reads hapf hreads
  | cons item post =>
    obtain ⟨c', cs, htext, h0⟩ := item.exists_text
    have hc : c = c' := by
      simp only [text, List.flatMap_cons, htext, List.cons_append] at hfmt
      exact (List.cons.inj hfmt).1
    have hfull := hend.resolve_left (hc ▸ h0)
    have hread := Reads.append ((concat percentN h).val ++ [0]) (app ++ apg)
      (hany (text (item :: post)))
    rw [← text_append, ← hitems] at hread
    have hcursor : text f ++ ((concat percentN h).val ++ [0]) =
        cursor (concat (format f) (concat percentN h)) := (List.append_assoc _ _ _).symm
    rw [hcursor, text_cons htext] at hread
    rw [vsnprintf_of_reads h1 hmax hread hput (.inr hfull)] at hr
    have hlen := congrArg List.length hcounts
    rw [← Except.ok.inj hr] at hlen
    simp only [Progress.result, List.length_append, List.length_cons] at hlen
    omega

end Items

end OsdevLibstdc.Vsnprintf
