import Mathlib.Tactic.Ring
import Mathlib.Tactic.Linarith

/-! Naturals as little-endian byte lists of a fixed width. -/

namespace OsdevLibstdc.LittleEndian

def encode : ℕ → ℕ → List UInt8
  | 0, _ => []
  | k + 1, v => UInt8.ofNat v :: encode k (v / 256)

def decode : List UInt8 → ℕ
  | [] => 0
  | b :: bs => b.toNat + 256 * decode bs

@[simp] theorem encode_length (k v : ℕ) : (encode k v).length = k := by
  induction k generalizing v with
  | zero => rfl
  | succ k ih => simp [encode, ih]

theorem decode_encode (k v : ℕ) : decode (encode k v) = v % 256 ^ k := by
  induction k generalizing v with
  | zero => simp [encode, decode, Nat.mod_one]
  | succ k ih =>
    have hb : (UInt8.ofNat v).toNat = v % 256 := by simp
    have hp : 256 ^ (k + 1) = 256 * 256 ^ k := by ring
    simp only [encode, decode, ih, hb, hp, Nat.mod_mul]

theorem take_encode {j k : ℕ} (h : j ≤ k) (v : ℕ) : (encode k v).take j = encode j v := by
  induction j generalizing k v with
  | zero => rfl
  | succ j ih =>
    obtain ⟨k, rfl⟩ := Nat.exists_eq_add_of_le' (Nat.zero_lt_of_lt h)
    rw [encode, encode, List.take_succ_cons, ih (by omega)]

theorem decode_take (j : ℕ) (bs : List UInt8) : decode (bs.take j) = decode bs % 256 ^ j := by
  induction j generalizing bs with
  | zero => simp [decode, Nat.mod_one]
  | succ j ih =>
    cases bs with
    | nil => simp [decode]
    | cons b bs =>
      have hp : 256 ^ (j + 1) = 256 * 256 ^ j := by ring
      have hb : b.toNat < 256 := b.toNat_lt
      have hmod : (b.toNat + 256 * decode bs) % 256 = b.toNat := by omega
      have hdiv : (b.toNat + 256 * decode bs) / 256 = decode bs := by omega
      rw [List.take_succ_cons, decode, decode, ih, hp, Nat.mod_mul, hmod, hdiv]

end OsdevLibstdc.LittleEndian
