import OsdevLibstdc.FieldRooms
import OsdevLibstdc.LoopRuns

/-!
Where the stores of `vsnprintf` land. The cursor passes padding before the room is known to hold
it, so everything depends on whether the paddings fit.
-/

namespace OsdevLibstdc.Vsnprintf

open Target ByteStores Outcomes

/-- The padding of a field of index `i` at offset `o` fits the room left for it. The null pointer's
field has another room, which must not be negative, and what it puts there must fit. -/
def Field.PaddingFits (size i : ℤ) (o : ℕ) (f : Field) : Prop :=
  if f.isNil then 0 ≤ f.room size i o ∧ (o + f.advance size i o : ℤ) ≤ size
  else (f.box (size - o).toNat).PaddingFits (size - o).toNat

section Fits

variable {size i : ℤ}

theorem Field.paddingFits_iff {o : ℕ} {f : Field} (ho : (o : ℤ) < size) :
    f.PaddingFits size i o ↔ 0 ≤ f.room size i o ∧ (o + f.advance size i o : ℤ) ≤ size := by
  unfold PaddingFits
  by_cases hn : f.isNil = true
  · rw [if_pos hn]
  · have hroom : f.room size i o = size - o := room_eq (by simpa using hn)
    have h := Box.advance_le_iff (f.box (size - (o : ℤ)).toNat) (size - (o : ℤ)).toNat
    rw [if_neg hn, ← h, advance, hroom]
    omega

theorem Field.image_length_le (o : ℕ) (f : Field) :
    (f.image size i o).length ≤ f.advance size i o := Box.image_length_le _ _

end Fits

def wideNumber : CString := ⟨bytes "%10d", by decide⟩

def seven : VaList := LittleEndian.encode 8 7

theorem wideNumber_fields :
    FieldsOf (wrapping .lp64) (fun _ => none) wideNumber seven [.padded ⟨false, 10, [55]⟩] [] :=
  .field (by decide) rfl (.done _ _)

end OsdevLibstdc.Vsnprintf
