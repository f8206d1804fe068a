import OsdevLibstdc.FormatFields

/-!
The room a field is put in, the bytes it stores there and the way it moves the cursor.
-/

namespace OsdevLibstdc.Vsnprintf

open Target ByteStores Outcomes

namespace Box

@[simp] theorem spaces_length (n : ℕ) : (spaces n).length = n := by simp [spaces]

@[simp] theorem spaces_zero : spaces 0 = [] := rfl

theorem spaces_take (n k : ℕ) : (spaces n).take k = spaces (min k n) := by simp [spaces]

def image (b : Box) (room : ℕ) : List UInt8 :=
  if b.minus then b.text.take room ++ spaces (min b.padding room)
  else spaces (min b.padding room) ++ b.text.take (room - b.padding)

theorem full_length (b : Box) : b.full.length = b.padding + b.text.length := by
  unfold full
  split_ifs <;> simp [add_comm]

theorem replay_stores (b : Box) (pos room : ℕ) (m : Memory) :
    replay (b.stores pos room) m = (Store.mk pos (b.image room)).write m := by
  unfold stores image
  split_ifs
  · have h := write_write_append pos (b.text.take room) (spaces (min b.padding room)) m
    rw [List.length_take, Nat.min_comm] at h
    exact h
  · simp only [replay]
    by_cases hp : b.padding ≤ room
    · have h := write_write_append pos (spaces (min b.padding room)) (b.text.take (room - b.padding)) m
      rw [spaces_length, Nat.min_eq_left hp] at h
      rw [Nat.min_eq_left hp]
      exact h
    · have hr : room - b.padding = 0 := by omega
      rw [hr, List.take_zero, List.append_nil, write_nil]

theorem image_length (b : Box) (room : ℕ) :
    (b.image room).length = if b.minus then min b.text.length room + min b.padding room
      else min b.padding room + min b.text.length (room - b.padding) := by
  unfold image
  split_ifs <;> simp [Nat.min_comm]

theorem stores_within (b : Box) {pos room n : ℕ} (hn : pos + (b.image room).length ≤ n) :
    ∀ s ∈ b.stores pos room, s.Within n := by
  rw [image_length] at hn
  unfold stores
  split_ifs at hn ⊢
  all_goals
    intro s hs
    simp only [List.mem_cons, List.not_mem_nil, or_false] at hs
  · rcases hs with rfl | rfl
    · apply within_of_le
      rw [spaces_length, Nat.min_comm b.text.length]
      omega
    · apply within_of_le
      rw [List.length_take]
      omega
  · rcases hs with rfl | rfl
    · by_cases hp : b.padding ≤ room
      · apply within_of_le
        rw [List.length_take]
        omega
      · have hr : room - b.padding = 0 := by omega
        rw [hr, List.take_zero]
        exact within_nil _ _
    · apply within_of_le
      rw [spaces_length]
      omega

theorem volume_stores (b : Box) (pos room : ℕ) :
    volume (b.stores pos room) = (b.image room).length := by
  unfold stores image
  split_ifs <;> simp [volume, Nat.add_comm]

theorem image_length_le (b : Box) (room : ℕ) : (b.image room).length ≤ b.advance room := by
  rw [image_length]
  unfold advance
  split_ifs <;> omega

def PaddingFits (b : Box) (room : ℕ) : Prop :=
  if b.minus then min b.text.length room + b.padding ≤ room else b.padding ≤ room

instance (b : Box) (room : ℕ) : Decidable (b.PaddingFits room) := by
  unfold PaddingFits
  infer_instance

theorem advance_le_iff (b : Box) (room : ℕ) : b.advance room ≤ room ↔ b.PaddingFits room := by
  unfold advance PaddingFits
  split_ifs <;> omega

theorem advance_of_fits {b : Box} {room : ℕ} (h : b.PaddingFits room) :
    b.advance room = min b.full.length room := by
  rw [full_length]
  unfold PaddingFits at h
  unfold advance
  split_ifs at h ⊢ <;> omega

theorem image_of_fits {b : Box} {room : ℕ} (h : b.PaddingFits room) :
    b.image room = b.full.take room := by
  unfold PaddingFits at h
  unfold image full
  split_ifs at h ⊢
  · rw [List.take_append, spaces_take]
    congr 2
    omega
  · rw [List.take_append, spaces_take, spaces_length, Nat.min_comm]

theorem fits_of_full_le {b : Box} {room : ℕ} (h : b.full.length ≤ room) : b.PaddingFits room := by
  rw [full_length] at h
  unfold PaddingFits
  split_ifs <;> omega

end Box

namespace Field

def room (size i : ℤ) (o : ℕ) : Field → ℤ
  | nil .. => wrapInt (size - i)
  | _ => size - o

def image (size i : ℤ) (o : ℕ) (f : Field) : List UInt8 :=
  (f.box (f.room size i o).toNat).image (f.room size i o).toNat

def advance (size i : ℤ) (o : ℕ) (f : Field) : ℕ :=
  (f.box (f.room size i o).toNat).advance (f.room size i o).toNat

def request (size i : ℤ) (o : ℕ) (f : Field) : ℕ :=
  (f.box (f.room size i o).toNat).full.length

structure Puts (size i : ℤ) (f : Field) (p q : Progress) : Prop where
  pos : q.pos = p.pos + f.advance size i p.pos
  total : q.total = p.total + f.request size i p.pos
  memory : ∀ m, replay q.stores m =
    (Store.mk p.pos (f.image size i p.pos)).write (replay p.stores m)
  within : ∀ n, p.pos + (f.image size i p.pos).length ≤ n →
    (∀ s ∈ p.stores, s.Within n) → ∀ s ∈ q.stores, s.Within n
  volume : volume q.stores = volume p.stores + (f.image size i p.pos).length

theorem puts_box {size i : ℤ} {f : Field} {p : Progress} {room : ℕ}
    (hr : (f.room size i p.pos).toNat = room) : Puts size i f p (p.put (f.box room) room) := by
  subst hr
  constructor
  · rfl
  · simp only [Progress.put, request, Box.full_length]
    push_cast
    rfl
  · intro m
    rw [Progress.put, replay_append, Box.replay_stores]
    rfl
  · intro n hn hs s hmem
    rcases List.mem_append.mp hmem with h | h
    · exact Box.stores_within _ hn s h
    · exact hs s h
  · rw [Progress.put, volume_append, Box.volume_stores, Nat.add_comm]
    rfl

theorem put_ok {size i : ℤ} {f : Field} {p : Progress} (hp : (p.pos : ℤ) < size)
    (hr : 0 ≤ f.room size i p.pos) : ∃ q, f.put size i p = .ok q ∧ Puts size i f p q := by
  have hpad : Box.padding ⟨false, -1, ([] : List UInt8)⟩ = 0 := rfl
  have hpad1 (c : UInt8) : Box.padding ⟨false, -1, [c]⟩ = 0 := rfl
  cases f with
  | literal c =>
    obtain ⟨r, hr⟩ : ∃ r, (size - (p.pos : ℤ)).toNat = r + 1 :=
      ⟨(size - (p.pos : ℤ)).toNat - 1, by omega⟩
    have himage : (literal c).image size i p.pos = [c] := by
      simp [image, room, box, whole, isString, Box.image, hpad1, hr]
    refine ⟨_, rfl, ?_, ?_, ?_, ?_, ?_⟩
    · simp [advance, room, box, whole, isString, Box.advance, hpad1, hr]
    · simp [request, box, whole, isString, Box.full_length, hpad1]
    · intro m
      rw [himage]
      rfl
    · intro n hn hs s hmem
      rw [himage] at hn
      rcases List.mem_cons.mp hmem with rfl | h
      · exact within_of_le hn
      · exact hs s h
    · rw [himage]
      simp [ByteStores.volume, Nat.add_comm]
  | count ptr =>
    have himage : (count ptr).image size i p.pos = [] := by
      simp [image, room, box, whole, isString, Box.image, hpad]
    refine ⟨_, rfl, ?_, ?_, ?_, ?_, ?_⟩
    · split_ifs <;> simp [advance, room, box, whole, isString, Box.advance, hpad]
    · split_ifs <;> simp [request, box, whole, isString, Box.full_length, hpad]
    · intro m
      rw [himage, write_nil]
      split_ifs <;> rfl
    · intro n _ hs s hmem
      split_ifs at hmem <;> exact hs s hmem
    · rw [himage]
      split_ifs <;> rfl
  | nil minus width precision =>
    have hneg : ¬ wrapInt (size - i) < 0 := not_lt.mpr hr
    refine ⟨_, ?_, puts_box rfl⟩
    simp only [put, hneg, ↓reduceIte]
    rfl
  | padded b => exact ⟨_, rfl, puts_box rfl⟩
  | string minus width precision s => exact ⟨_, rfl, puts_box rfl⟩

theorem put_error {size i : ℤ} {f : Field} {p : Progress} (hp : (p.pos : ℤ) < size)
    (hr : f.room size i p.pos < 0) : f.put size i p = .error .hugeBlock := by
  cases f with
  | nil minus width precision =>
    have hneg : wrapInt (size - i) < 0 := hr
    simp [put, hneg]
  | literal | count | padded | string =>
    simp only [room] at hr
    omega

theorem puts_of_ok {size i : ℤ} {f : Field} {p q : Progress} (hp : (p.pos : ℤ) < size)
    (h : f.put size i p = .ok q) : 0 ≤ f.room size i p.pos ∧ Puts size i f p q := by
  by_cases hr : 0 ≤ f.room size i p.pos
  · obtain ⟨q', hq, hputs⟩ := put_ok hp hr
    rw [hq] at h
    exact ⟨hr, Except.ok.inj h ▸ hputs⟩
  · rw [put_error hp (not_le.mp hr)] at h
    cases h

theorem room_eq {size i : ℤ} {o : ℕ} {f : Field} (h : f.isNil = false) :
    f.room size i o = size - o := by
  cases f with
  | nil => cases h
  | _ => rfl

end Field

theorem putFields_stop {size i : ℤ} {p : Progress} (fields : List Field)
    (hp : ¬ (p.pos : ℤ) < size) : putFields size i fields p = .ok (p, fields) := by
  cases fields with
  | nil => rfl
  | cons f fields => rw [putFields, if_neg hp]

theorem putFields_cons {size i : ℤ} {f : Field} {fields left : List Field} {p q : Progress}
    (hp : (p.pos : ℤ) < size) :
    putFields size i (f :: fields) p = .ok (q, left) ↔ 0 ≤ f.room size i p.pos ∧
      ∃ p', f.put size i p = .ok p' ∧ Field.Puts size i f p p' ∧
        putFields size (wrapInt (i + 1)) fields p' = .ok (q, left) := by
  rw [putFields, if_pos hp, bind_eq_ok]
  constructor
  · rintro ⟨p', hp', hput⟩
    obtain ⟨hr, hputs⟩ := Field.puts_of_ok hp hp'
    exact ⟨hr, p', hp', hputs, hput⟩
  · rintro ⟨-, p', hp', -, hput⟩
    exact ⟨p', hp', hput⟩

inductive PutRun (size : ℤ) : ℤ → List Field → Progress → Progress → List Field → Prop
  | done (i : ℤ) (p : Progress) : PutRun size i [] p p []
  | stop (i : ℤ) (f : Field) (fields : List Field) (p : Progress) :
      ¬ (p.pos : ℤ) < size → PutRun size i (f :: fields) p p (f :: fields)
  | put {i : ℤ} {f : Field} {fields left : List Field} {p p' q : Progress} :
      (p.pos : ℤ) < size → 0 ≤ f.room size i p.pos → f.put size i p = .ok p' →
      Field.Puts size i f p p' → PutRun size (wrapInt (i + 1)) fields p' q left →
      PutRun size i (f :: fields) p q left

theorem putRun_of_ok {size i : ℤ} {fields left : List Field} {p q : Progress}
    (h : putFields size i fields p = .ok (q, left)) : PutRun size i fields p q left := by
  induction fields generalizing i p with
  | nil =>
    obtain ⟨rfl, rfl⟩ := Prod.mk.inj (Except.ok.inj h)
    exact .done i p
  | cons f fields ih =>
    by_cases hlt : (p.pos : ℤ) < size
    · obtain ⟨hroom, p', hput, hputs, hrest⟩ := (putFields_cons hlt).mp h
      exact .put hlt hroom hput hputs (ih hrest)
    · rw [putFields_stop _ hlt] at h
      obtain ⟨rfl, rfl⟩ := Prod.mk.inj (Except.ok.inj h)
      exact .stop i f fields p hlt

theorem PutRun.pos_le {size i : ℤ} {fields left : List Field} {p q : Progress}
    (h : PutRun size i fields p q left) : p.pos ≤ q.pos := by
  induction h with
  | done | stop => exact le_rfl
  | put _ _ _ hputs _ ih =>
    have hpos := hputs.pos
    omega

end OsdevLibstdc.Vsnprintf
