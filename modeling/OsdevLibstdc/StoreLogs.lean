import OsdevLibstdc.ByteMemory
import OsdevLibstdc.ByteStores

/-!
Logs of block stores made in a finite memory. The log of a function that writes into a buffer has
offsets from the buffer, so that it can be replayed wherever the buffer lies.
-/

namespace OsdevLibstdc.ByteMemory.Ram

open ByteStores Outcomes

def storeAll (m : Ram) (p : ℕ) : List Store → Except AccessFault Ram
  | [] => .ok m
  | s :: log => do
    let m ← m.storeAll p log
    m.writeBlock (p + s.offset) s.bytes

def Shows (m : Ram) (p n : ℕ) (view : Memory) : Prop := ∀ j < n, m.byteAt (p + j) = some (view j)

section Shows

variable {m : Ram} {p n : ℕ} {view : Memory}

theorem Mapped.shows (h : m.Mapped p n) : ∃ view, m.Shows p n view := by
  obtain ⟨bs, hl, hbs⟩ := h.holds
  refine ⟨fun j => (bs[j]?).getD 0, fun j hj => ?_⟩
  have hlt : j < bs.length := by omega
  rw [hbs j hlt]
  simp [hlt]

theorem Shows.write {s : Store} (h : m.Shows p n view) (hs : s.Within n) :
    ∃ m', m.writeBlock (p + s.offset) s.bytes = .ok m' ∧ m'.Shows p n (s.write view) ∧
      m.StoredIn m' p (p + n) := by
  obtain ⟨o, bs⟩ := s
  by_cases hbs : bs = []
  · subst hbs
    refine ⟨m, rfl, ?_, .refl m _ _⟩
    rw [write_nil]
    exact h
  have hle := hs.le hbs
  have hmapped : m.Mapped (p + o) bs.length := by
    intro j hj
    have := h (o + j) (by omega)
    rw [← Nat.add_assoc] at this
    rw [this]
    rfl
  obtain ⟨m', hwrite, hholds, hin⟩ := writeBlock_ok hmapped
  refine ⟨m', hwrite, ?_, hin.mono (by omega) (by omega)⟩
  intro j hj
  rcases Nat.lt_or_ge j o with hlt | hge
  · rw [hin.kept _ (by omega), write_below hlt, h j hj]
  obtain ⟨k, rfl⟩ := Nat.exists_eq_add_of_le hge
  rw [write_at]
  rcases Nat.lt_or_ge k bs.length with hk | hk
  · rw [← Nat.add_assoc, hholds k hk, List.getElem?_eq_getElem hk]
    rfl
  · rw [hin.kept _ (by omega), List.getElem?_eq_none hk, h _ hj]
    rfl

theorem Shows.storeAll {log : List Store} (h : m.Shows p n view) (hs : ∀ s ∈ log, s.Within n) :
    ∃ m', m.storeAll p log = .ok m' ∧ m'.Shows p n (replay log view) ∧ m.StoredIn m' p (p + n) := by
  induction log with
  | nil => exact ⟨m, rfl, h, .refl m _ _⟩
  | cons s log ih =>
    obtain ⟨m₁, hrun, hshows, hin⟩ := ih fun s' hs' => hs s' (List.mem_cons_of_mem s hs')
    obtain ⟨m', hwrite, hshows', hin'⟩ := hshows.write (hs s List.mem_cons_self)
    refine ⟨m', ?_, hshows', hin.trans hin'⟩
    rw [Ram.storeAll, hrun, ok_bind, hwrite]

theorem Shows.holds {bs : List UInt8} (h : m.Shows p n view) (hl : bs.length ≤ n)
    (hview : read view 0 bs.length = bs) : m.Holds p bs := by
  intro j hj
  have hbyte := read_eq_iff.mp hview j hj
  rw [Nat.zero_add] at hbyte
  rw [h j (by omega), hbyte, List.getElem?_eq_getElem hj]

end Shows

end OsdevLibstdc.ByteMemory.Ram
