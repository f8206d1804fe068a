import Mathlib.Data.Int.ModEq
import OsdevLibstdc.Target

/-! Lists of typed arguments as the calling convention lays them out, in whole slots each. -/

namespace OsdevLibstdc.Target

open LittleEndian

structure Argument where
  ty : CType
  value : ℤ
deriving Repr, DecidableEq

/-- The bytes of one argument. Behind those of its value a slot may hold anything. -/
def Argument.Occupies (D : DataModel) (a : Argument) (bs : List UInt8) : Prop :=
  bs.length = a.ty.slot D ∧ a.ty.convert D (decode (bs.take (a.ty.sizeof D))) = a.value

instance (D : DataModel) (a : Argument) (bs : List UInt8) : Decidable (a.Occupies D bs) :=
  inferInstanceAs (Decidable (_ ∧ _))

inductive Passed (D : DataModel) : List Argument → VaList → VaList → Prop
  | nil (ap : VaList) : Passed D [] ap ap
  | cons {a : Argument} {args : List Argument} {bs : List UInt8} {ap rest : VaList} :
      a.Occupies D bs → Passed D args ap rest → Passed D (a :: args) (bs ++ ap) rest

section Convert

variable {D : DataModel} {ty ty' : CType}

theorem convert_congr {x y : ℤ} (h : x ≡ y [ZMOD 256 ^ ty.sizeof D]) :
    ty.convert D x = ty.convert D y := by
  have hmod : x % ((256 ^ ty.sizeof D : ℕ) : ℤ) = y % ((256 ^ ty.sizeof D : ℕ) : ℤ) := by
    push_cast
    exact h
  unfold CType.convert
  split_ifs
  · rw [← Int.emod_bmod x, hmod, Int.emod_bmod]
  · exact hmod

theorem convert_modEq (x : ℤ) : ty.convert D x ≡ x [ZMOD 256 ^ ty.sizeof D] := by
  unfold CType.convert
  split_ifs
  · have hbmod : x.bmod (256 ^ ty.sizeof D) % ((256 ^ ty.sizeof D : ℕ) : ℤ) =
        x % ((256 ^ ty.sizeof D : ℕ) : ℤ) := Int.bmod_emod
    push_cast at hbmod
    exact hbmod
  · push_cast
    exact Int.mod_modEq x _

theorem convert_convert (h : ty'.sizeof D ≤ ty.sizeof D) (x : ℤ) :
    ty'.convert D (ty.convert D x) = ty'.convert D x :=
  convert_congr ((convert_modEq x).of_dvd (pow_dvd_pow 256 h))

theorem convert_take {j : ℕ} (h : ty.sizeof D ≤ j) (bs : List UInt8) :
    ty.convert D (decode (bs.take (ty.sizeof D))) = ty.convert D (decode (bs.take j)) := by
  apply convert_congr
  rw [← Nat.min_eq_left h, ← List.take_take, decode_take _ (bs.take j), Nat.min_eq_left h]
  push_cast
  exact Int.mod_modEq _ _

end Convert

section Passed

variable {D : DataModel} {args args' : List Argument} {ap rest : VaList}

theorem Passed.vaArg {a : Argument} (h : Passed D (a :: args) ap rest) :
    ∃ ap', Target.vaArg D a.ty ap = .ok (a.value, ap') ∧ Passed D args ap' rest := by
  cases h with
  | @cons _ _ bs ap rest ha h =>
    refine ⟨ap, ?_, h⟩
    obtain ⟨hl, hv⟩ := ha
    have hs := sizeof_le_slot D a.ty
    rw [Target.vaArg, if_neg (by simp only [List.length_append]; omega),
      List.take_append_of_le_length (by omega), hv, ← hl, List.drop_left]

theorem Passed.vaArg_as {ty : CType} {a : Argument} (hslot : ty.slot D = a.ty.slot D)
    (hsize : ty.sizeof D ≤ a.ty.sizeof D) (h : Passed D (a :: args) ap rest) :
    ∃ ap', Target.vaArg D ty ap = .ok (ty.convert D a.value, ap') ∧ Passed D args ap' rest := by
  cases h with
  | @cons _ _ bs ap rest ha h =>
    obtain ⟨hl, hv⟩ := ha
    have hs := sizeof_le_slot D a.ty
    refine ⟨ap, ?_, h⟩
    rw [Target.vaArg, if_neg (by simp only [List.length_append]; omega), hslot, ← hl, List.drop_left,
      List.take_append_of_le_length (by omega), convert_take hsize, ← hv, convert_convert hsize]

theorem passed_of_vaArg {ty : CType} {v : ℤ} (h : Target.vaArg D ty ap = .ok (v, rest)) :
    Passed D [⟨ty, v⟩] ap rest := by
  unfold Target.vaArg at h
  split_ifs at h with hlen
  obtain ⟨hv, hap⟩ := Prod.mk.inj (Except.ok.inj h)
  have hocc : Argument.Occupies D ⟨ty, v⟩ (ap.take (ty.slot D)) := by
    constructor
    · exact List.length_take_of_le (not_lt.mp hlen)
    · rw [List.take_take, Nat.min_eq_left (sizeof_le_slot D ty)]
      exact hv
  have hpassed := Passed.cons hocc (.nil (ap.drop (ty.slot D)))
  rwa [List.take_append_drop, hap] at hpassed

theorem passed_append :
    Passed D (args ++ args') ap rest ↔ ∃ ap', Passed D args ap ap' ∧ Passed D args' ap' rest := by
  induction args generalizing ap with
  | nil =>
    constructor
    · intro h
      exact ⟨ap, .nil ap, h⟩
    · rintro ⟨ap', h, h'⟩
      cases h
      exact h'
  | cons a args ih =>
    constructor
    · intro h
      cases h with
      | cons ha h =>
        obtain ⟨ap', h1, h2⟩ := ih.mp h
        exact ⟨ap', .cons ha h1, h2⟩
    · rintro ⟨ap', h1, h2⟩
      cases h1 with
      | cons ha h1 => exact .cons ha (ih.mpr ⟨ap', h1, h2⟩)

theorem Passed.append (h : Passed D args ap rest) (more : VaList) :
    Passed D args (ap ++ more) (rest ++ more) := by
  induction h with
  | nil ap => exact .nil _
  | cons ha _ ih =>
    rw [List.append_assoc]
    exact .cons ha ih

def slots (D : DataModel) (args : List Argument) : ℕ := (args.map (fun a => a.ty.slot D)).sum

theorem slots_append (D : DataModel) (args args' : List Argument) :
    slots D (args ++ args') = slots D args + slots D args' := by
  rw [slots, List.map_append, List.sum_append]
  rfl

theorem Passed.length (h : Passed D args ap rest) : ap.length = slots D args + rest.length := by
  induction h with
  | nil ap => simp [slots]
  | cons ha _ ih => simp [slots, ha.1, ih, Nat.add_assoc]

theorem Argument.occupies_encode (D : DataModel) (ty : CType) (v : ℕ) :
    Argument.Occupies D ⟨ty, ty.convert D v⟩ (encode (ty.slot D) v) := by
  constructor
  · exact encode_length _ _
  · rw [take_encode (sizeof_le_slot D ty), decode_encode]
    unfold CType.convert
    split_ifs
    · push_cast
      exact Int.emod_bmod v (256 ^ ty.sizeof D)
    · push_cast
      exact Int.emod_emod_of_dvd _ dvd_rfl

theorem passed_encode (D : DataModel) (args : List (CType × ℕ)) (rest : VaList) :
    Passed D (args.map fun a => ⟨a.1, a.1.convert D a.2⟩)
      (args.flatMap (fun a => encode (a.1.slot D) a.2) ++ rest) rest := by
  induction args with
  | nil => exact .nil rest
  | cons a args ih =>
    rw [List.map_cons, List.flatMap_cons, List.append_assoc]
    exact .cons (Argument.occupies_encode D a.1 a.2) ih

end Passed

end OsdevLibstdc.Target
