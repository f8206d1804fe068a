import OsdevLibstdc.BoundedOutput
import OsdevLibstdc.CleanOutput

/-!
The bytes that fields leave when their paddings fit, and what a smaller room changes in them: a
string that it cuts is padded as the string that is left.
-/

namespace OsdevLibstdc.Vsnprintf

open Target ByteStores Outcomes

def Box.StoredWhole (b : Box) (room : ℕ) : Prop :=
  if b.minus then b.text.length ≤ room ∧ b.padding ≤ room
  else b.padding + b.text.length ≤ room

namespace Box

theorem StoredWhole.text_le {b : Box} {room : ℕ} (h : b.StoredWhole room) :
    b.text.length ≤ room := by
  unfold StoredWhole at h
  split_ifs at h <;> omega

theorem StoredWhole.image_eq {b : Box} {room : ℕ} (h : b.StoredWhole room) :
    b.image room = b.full := by
  have ht := h.text_le
  unfold StoredWhole at h
  unfold image full
  split_ifs at h ⊢
  · rw [List.take_of_length_le ht, Nat.min_eq_left h.2]
  · rw [Nat.min_eq_left (by omega), List.take_of_length_le (by omega)]

theorem StoredWhole.advance_eq {b : Box} {room : ℕ} (h : b.StoredWhole room) :
    b.advance room = b.full.length := by
  have ht := h.text_le
  rw [full_length]
  unfold StoredWhole at h
  unfold advance
  split_ifs at h ⊢ <;> omega

end Box

namespace Field

theorem clean_of_storedWhole {size i : ℤ} {o : ℕ} {f : Field} (hr : 0 ≤ f.room size i o)
    (hl : f.full.length ≤ (size - o).toNat) (hw : f.whole.StoredWhole (f.room size i o).toNat) :
    f.Clean size i o := by
  have hb := box_of_le hw.text_le
  constructor
  · exact hr
  · rw [image, hb, hw.image_eq, List.take_of_length_le hl]
    rfl
  · rw [advance, hb, hw.advance_eq, Nat.min_eq_left hl]
    rfl

end Field

namespace Box

theorem spaces_append (n k : ℕ) : spaces n ++ spaces k = spaces (n + k) :=
  List.replicate_append_replicate

theorem eq_spaces_iff {xs : List UInt8} : xs = spaces xs.length ↔ ∀ c ∈ xs, c = byte ' ' := by
  rw [spaces, List.eq_replicate_iff]
  simp only [true_and]

end Box

namespace Field

end Field

def Field.Placed (size i : ℤ) (o : ℕ) (f : Field) : Prop :=
  f.room size i o = size - o ∨ 0 ≤ f.room size i o ∧ f.full.length ≤ (size - o).toNat ∧
    f.whole.StoredWhole (f.room size i o).toNat

section Layout

variable {size size' i : ℤ}

namespace Field

theorem Placed.clean {o : ℕ} {f : Field} (h : f.Placed size i o) (ho : (o : ℤ) < size)
    (hl : f.full.length ≤ (size - o).toNat) : f.Clean size i o := by
  rcases h with hr | ⟨hr, -, hw⟩
  · apply clean_of_le ho hr
    omega
  · exact clean_of_storedWhole hr hl hw

theorem PaddingFits.box {o : ℕ} {f : Field} (h : f.PaddingFits size i o) (ho : (o : ℤ) < size)
    (hr : f.room size i o = size - o) :
    (f.box (size - o).toNat).PaddingFits (size - o).toNat := by
  obtain ⟨-, hadv⟩ := (paddingFits_iff ho).mp h
  rw [advance, hr] at hadv
  apply (Box.advance_le_iff _ _).mp
  omega

end Field

namespace Field

end Field

end Layout

end OsdevLibstdc.Vsnprintf
