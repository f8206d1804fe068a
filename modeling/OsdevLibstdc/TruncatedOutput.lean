import OsdevLibstdc.FieldLayout
import OsdevLibstdc.FieldTexts

/-!
The same call with a smaller and a larger buffer. The padding of a string is computed from its
already cut length, which makes what is left of the string a matter of the room.
-/

namespace OsdevLibstdc.Vsnprintf

open Target ByteStores Outcomes

section Nonzero

theorem nonzero_write {s : Store} {m : Memory} (hs : 0 ∉ s.bytes) (hm : ∀ a, m a ≠ 0) (a : ℕ) :
    s.write m a ≠ 0 := by
  unfold Store.write
  split_ifs
  · cases hb : s.bytes[a - s.offset]? with
    | none => exact hm a
    | some b => exact ne_of_mem_of_not_mem (List.mem_of_getElem? hb) hs
  · exact hm a

theorem zero_notMem_whole {f : Field} (h : 0 ∉ f.full) : 0 ∉ f.whole.text := by
  unfold Field.full Box.full at h
  split_ifs at h
  · intro hm
    exact h (List.mem_append_left _ hm)
  · intro hm
    exact h (List.mem_append_right _ hm)

theorem zero_notMem_image {room : ℕ} {f : Field} (h : 0 ∉ f.full) :
    0 ∉ (f.box room).image room := by
  have htext : 0 ∉ (f.box room).text := by
    unfold Field.box
    split_ifs
    · intro hm
      exact zero_notMem_whole h (List.mem_of_mem_take hm)
    · exact zero_notMem_whole h
  unfold Box.image
  split_ifs
  · rw [List.mem_append, not_or]
    exact ⟨fun hm => htext (List.mem_of_mem_take hm), zero_notMem_spaces _⟩
  · rw [List.mem_append, not_or]
    exact ⟨zero_notMem_spaces _, fun hm => htext (List.mem_of_mem_take hm)⟩

theorem PutRun.nonzero {size i : ℤ} {fields left : List Field} {p q : Progress}
    (h : PutRun size i fields p q left) (hf : ∀ f ∈ fields, 0 ∉ f.full) {m : Memory}
    (hm : ∀ a, replay p.stores m a ≠ 0) (a : ℕ) : replay q.stores m a ≠ 0 := by
  induction h with
  | done | stop => exact hm a
  | @put i f fields left p p' q _ _ _ hputs _ ih =>
    apply ih fun g hg => hf g (List.mem_cons_of_mem f hg)
    intro b
    rw [hputs.memory]
    exact nonzero_write (zero_notMem_image (hf f List.mem_cons_self)) hm b

end Nonzero

section Call

variable {D : DataModel} {strings : Strings} {fmt : CString} {ap rest : VaList}
  {fields : List Field}

end Call

def letters : Strings :=
  fun ptr => if ptr = 4096 then some ⟨bytes "abcdefgh", by decide⟩ else none

end OsdevLibstdc.Vsnprintf
