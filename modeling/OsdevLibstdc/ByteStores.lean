import Mathlib.Data.List.Basic
import Mathlib.Tactic.Linarith

/-!
Byte memory as a function from addresses, and logs of block stores replayed over it.
A log is kept newest first, so that one more store is one more `cons`.
-/

namespace OsdevLibstdc.ByteStores

abbrev Memory := ℕ → UInt8

structure Store where
  offset : ℕ
  bytes : List UInt8
deriving Repr, DecidableEq

def Store.Within (n : ℕ) (s : Store) : Prop := ∀ j < s.bytes.length, s.offset + j < n

def Store.write (s : Store) (m : Memory) : Memory :=
  fun a => if s.offset ≤ a then (s.bytes[a - s.offset]?).getD (m a) else m a

def replay : List Store → Memory → Memory
  | [], m => m
  | s :: log, m => s.write (replay log m)

def volume (log : List Store) : ℕ := (log.map (fun s => s.bytes.length)).sum

theorem volume_append (log log' : List Store) : volume (log ++ log') = volume log + volume log' := by
  simp [volume]

def read (m : Memory) (a n : ℕ) : List UInt8 := (List.range n).map (fun j => m (a + j))

theorem within_nil (n o : ℕ) : (Store.mk o []).Within n := by simp [Store.Within]

theorem within_of_le {n o : ℕ} {bs : List UInt8} (h : o + bs.length ≤ n) :
    (Store.mk o bs).Within n := by
  intro j hj
  simp only at hj ⊢
  omega

theorem Store.Within.le {n o : ℕ} {bs : List UInt8} (h : (Store.mk o bs).Within n)
    (hb : bs ≠ []) : o + bs.length ≤ n := by
  have hp : 0 < bs.length := List.length_pos_iff.mpr hb
  have := h (bs.length - 1) (by simp only; omega)
  simp only at this
  omega

theorem write_below {s : Store} {m : Memory} {a : ℕ} (h : a < s.offset) : s.write m a = m a := by
  simp [Store.write, Nat.not_le.mpr h]

theorem write_above {s : Store} {m : Memory} {a : ℕ} (h : s.offset + s.bytes.length ≤ a) :
    s.write m a = m a := by
  have hn : s.bytes[a - s.offset]? = none := List.getElem?_eq_none_iff.mpr (by omega)
  simp [Store.write, hn]

theorem write_at (o j : ℕ) (bs : List UInt8) (m : Memory) :
    (Store.mk o bs).write m (o + j) = (bs[j]?).getD (m (o + j)) := by
  simp [Store.write]

theorem write_inside {s : Store} {m : Memory} {j : ℕ} (h : j < s.bytes.length) :
    s.write m (s.offset + j) = s.bytes[j] := by
  simp [Store.write, h]

theorem bytes_eq_of_write {o : ℕ} {bs cs : List UInt8} {m : Memory} (hle : bs.length ≤ cs.length)
    (hfresh : ∀ j (h : j < cs.length), m (o + j) ≠ cs[j])
    (hwrite : ∀ j (h : j < cs.length), (Store.mk o bs).write m (o + j) = cs[j]) : bs = cs := by
  have hlen : bs.length = cs.length := by
    by_contra hne
    have hlt : bs.length < cs.length := by omega
    have hpast : (Store.mk o bs).write m (o + bs.length) = m (o + bs.length) := write_above le_rfl
    exact hfresh _ hlt (hpast.symm.trans (hwrite _ hlt))
  apply List.ext_getElem hlen
  intro j hj hj'
  rw [← hwrite j hj', write_at, List.getElem?_eq_getElem hj]
  rfl

theorem write_nil (o : ℕ) (m : Memory) : (Store.mk o []).write m = m := by
  funext a
  simp [Store.write]

theorem write_write_append (o : ℕ) (xs ys : List UInt8) (m : Memory) :
    (Store.mk (o + xs.length) ys).write ((Store.mk o xs).write m) =
      (Store.mk o (xs ++ ys)).write m := by
  funext a
  by_cases hx : a < o + xs.length
  · rw [write_below hx]
    by_cases ho : o ≤ a
    · have hj : a - o < xs.length := by omega
      simp [Store.write, ho, List.getElem?_append_left hj]
    · simp [Store.write, ho]
  · have ho : o ≤ a := by omega
    have hj : xs.length ≤ a - o := by omega
    rw [Store.write, if_pos (by simp only; omega), write_above (by simp only; omega)]
    simp [Store.write, ho, List.getElem?_append_right hj, Nat.sub_sub]

theorem replay_append (log log' : List Store) (m : Memory) :
    replay (log ++ log') m = replay log (replay log' m) := by
  induction log with
  | nil => rfl
  | cons s log ih => simp only [List.cons_append, replay, ih]

@[simp] theorem read_length (m : Memory) (a n : ℕ) : (read m a n).length = n := by simp [read]

theorem read_eq_iff {m : Memory} {a : ℕ} {bs : List UInt8} :
    read m a bs.length = bs ↔ ∀ j (h : j < bs.length), m (a + j) = bs[j] := by
  constructor
  · intro h j hj
    have hg : (read m a bs.length)[j]? = some (m (a + j)) := by simp [read, hj]
    rw [h, List.getElem?_eq_getElem hj] at hg
    exact (Option.some.inj hg).symm
  · intro h
    apply List.ext_getElem (by simp)
    intro j hj hj'
    simpa [read] using h j hj'

theorem read_congr {m m' : Memory} {a n : ℕ} (h : ∀ j < n, m (a + j) = m' (a + j)) :
    read m a n = read m' a n := by
  apply List.map_congr_left
  intro j hj
  exact h j (List.mem_range.mp hj)

theorem read_append (m : Memory) (a n k : ℕ) : read m a (n + k) = read m a n ++ read m (a + n) k := by
  simp [read, List.range_add, Nat.add_assoc, Function.comp_def]

theorem read_write_append {m : Memory} {xs bs : List UInt8} (h : read m 0 xs.length = xs) :
    read ((Store.mk xs.length bs).write m) 0 (xs.length + bs.length) = xs ++ bs := by
  rw [read_append]
  congr 1
  · rw [← h, read_length]
    apply read_congr
    intro j hj
    exact write_below (by simpa using hj)
  · apply read_eq_iff.mpr
    intro j hj
    simpa using write_inside (s := Store.mk xs.length bs) (m := m) hj

theorem read_write_above {m : Memory} {n o : ℕ} {bs : List UInt8} (h : n ≤ o) :
    read ((Store.mk o bs).write m) 0 n = read m 0 n := by
  apply read_congr
  intro j hj
  exact write_below (by simp only; omega)

end OsdevLibstdc.ByteStores
