import OsdevLibstdc.FieldRooms
import OsdevLibstdc.LoopRuns

/-!
Calls that leave the beginning of the rendered format behind. Such a call puts every field as its
own beginning, and the cursor follows what is stored.
-/

namespace OsdevLibstdc.Vsnprintf

open Target ByteStores Outcomes

/-- A condition on index, offset and field, for each field that begins before the room is used
up in a buffer that has stored all fields before it whole. -/
def EachField (size : ℤ) (P : ℤ → ℕ → Field → Prop) : ℤ → ℕ → List Field → Prop
  | _, _, [] => True
  | i, o, f :: fields => (o : ℤ) < size →
    P i o f ∧ EachField size P (wrapInt (i + 1)) (o + f.full.length) fields

theorem eachField_stop {size i : ℤ} {P : ℤ → ℕ → Field → Prop} {o : ℕ} (fields : List Field)
    (ho : ¬ (o : ℤ) < size) : EachField size P i o fields := by
  cases fields with
  | nil => trivial
  | cons f fields => exact fun h => absurd h ho

theorem EachField.mono {size i : ℤ} {P Q : ℤ → ℕ → Field → Prop} {o : ℕ} {fields : List Field}
    (h : EachField size P i o fields)
    (hPQ : ∀ (i : ℤ) (o : ℕ), ∀ f ∈ fields, (o : ℤ) < size → P i o f → Q i o f) :
    EachField size Q i o fields := by
  induction fields generalizing i o with
  | nil => trivial
  | cons f fields ih =>
    intro ho
    obtain ⟨hf, hrest⟩ := h ho
    refine ⟨hPQ i o f List.mem_cons_self ho hf, ih hrest ?_⟩
    intro i o g hg
    exact hPQ i o g (List.mem_cons_of_mem f hg)

structure Field.Clean (size i : ℤ) (o : ℕ) (f : Field) : Prop where
  room : 0 ≤ f.room size i o
  image : f.image size i o = f.full.take (size - o).toNat
  advance : f.advance size i o = min f.full.length (size - o).toNat

structure Appends (text : List UInt8) (p q : Progress) : Prop where
  pos : q.pos = p.pos + text.length
  memory : ∀ m, replay q.stores m = (Store.mk p.pos text).write (replay p.stores m)
  volume : volume q.stores = volume p.stores + text.length

theorem Appends.refl (p : Progress) : Appends [] p p :=
  ⟨rfl, fun _ => (write_nil p.pos _).symm, rfl⟩

theorem Appends.trans {xs ys : List UInt8} {p q r : Progress} (h : Appends xs p q)
    (h' : Appends ys q r) : Appends (xs ++ ys) p r := by
  constructor
  · rw [h'.pos, h.pos, List.length_append, Nat.add_assoc]
  · intro m
    rw [h'.memory, h.memory, h.pos, write_write_append]
  · rw [h'.volume, h.volume, List.length_append, Nat.add_assoc]

theorem Field.Puts.appends {size i : ℤ} {f : Field} {p q : Progress} (hq : f.Puts size i p q)
    (hf : f.Clean size i p.pos) : Appends (f.full.take (size - p.pos).toNat) p q := by
  constructor
  · rw [hq.pos, hf.advance, List.length_take, Nat.min_comm]
  · intro m
    rw [hq.memory, hf.image]
  · rw [hq.volume, hf.image]

theorem putFields_clean {size i : ℤ} {fields : List Field} {p : Progress}
    (hf : EachField size (Field.Clean size) i p.pos fields) :
    ∃ q left, putFields size i fields p = .ok (q, left) ∧
      Appends ((render fields).take (size - p.pos).toNat) p q := by
  induction fields generalizing i p with
  | nil =>
    refine ⟨p, [], rfl, ?_⟩
    rw [render, List.flatMap_nil, List.take_nil]
    exact .refl p
  | cons f fields ih =>
    by_cases hlt : (p.pos : ℤ) < size
    · obtain ⟨hclean, hrest⟩ := hf hlt
      obtain ⟨p', hp', hputs⟩ := Field.put_ok hlt hclean.room
      have happ := hputs.appends hclean
      have hpos := happ.pos
      rw [List.length_take] at hpos
      have hrest' : EachField size (Field.Clean size) (wrapInt (i + 1)) p'.pos fields := by
        by_cases hl : (f.full.length : ℤ) < size - p.pos
        · have : p'.pos = p.pos + f.full.length := by omega
          rw [this]
          exact hrest
        · apply eachField_stop fields
          omega
      obtain ⟨q, left, hput, hq⟩ := ih hrest'
      refine ⟨q, left, ?_, ?_⟩
      · rw [putFields, if_pos hlt, hp', ok_bind, hput]
      · have hroom : (size - (p'.pos : ℤ)).toNat = (size - (p.pos : ℤ)).toNat - f.full.length := by
          omega
        have h := happ.trans hq
        rw [hroom, ← List.take_append] at h
        exact h
    · have hroom : (size - (p.pos : ℤ)).toNat = 0 := by omega
      refine ⟨p, _, putFields_stop _ hlt, ?_⟩
      rw [hroom, List.take_zero]
      exact .refl p

namespace Field

theorem full_length (f : Field) : f.full.length = f.whole.padding + f.whole.text.length :=
  Box.full_length _

theorem box_of_le {f : Field} {room : ℕ} (h : f.whole.text.length ≤ room) :
    f.box room = f.whole := by
  unfold box
  split_ifs
  · rw [List.take_of_length_le h]
  · rfl

theorem clean_of_fits {size i : ℤ} {o : ℕ} {f : Field} (ho : (o : ℤ) < size)
    (hr : f.room size i o = size - o) (hb : f.box (size - o).toNat = f.whole)
    (hf : f.whole.PaddingFits (size - o).toNat) : f.Clean size i o := by
  constructor
  · omega
  · rw [image, hr, hb, Box.image_of_fits hf]
    rfl
  · rw [advance, hr, hb, Box.advance_of_fits hf]
    rfl

theorem clean_of_le {size i : ℤ} {o : ℕ} {f : Field} (ho : (o : ℤ) < size)
    (hr : f.room size i o = size - o) (hf : (o + f.full.length : ℤ) ≤ size) :
    f.Clean size i o := by
  have hl := f.full_length
  exact clean_of_fits ho hr (box_of_le (by omega)) (Box.fits_of_full_le (by
    have : f.whole.full.length = f.full.length := rfl
    omega))

end Field

structure Leaves (text : List UInt8) (res : Result) : Prop where
  bytes : ∀ init, read (res.memory init) 0 text.length = text
  nul : ∀ init, res.memory init text.length = 0

theorem leaves_of_appends {text : List UInt8} {q : Progress} (h : Appends text {} q)
    (fmt : Cursor) : Leaves text (q.result fmt) := by
  have hpos : q.pos = text.length := by rw [h.pos, Nat.zero_add]
  have hmem (init : Memory) : (q.result fmt).memory init =
      (Store.mk text.length [0]).write ((Store.mk 0 text).write init) := by
    rw [← hpos]
    exact congrArg (Store.mk q.pos [0]).write (h.memory init)
  constructor
  · intro init
    have h0 : read init 0 ([] : List UInt8).length = [] := rfl
    have htext : read ((Store.mk 0 text).write init) 0 text.length = text := by
      have h := @read_write_append init [] text h0
      rwa [List.length_nil, Nat.zero_add, List.nil_append] at h
    rw [hmem, read_write_above le_rfl, htext]
  · intro init
    rw [hmem]
    apply write_inside (s := Store.mk text.length [0]) (j := 0)
    simp

end OsdevLibstdc.Vsnprintf
