import OsdevLibstdc.FueledLoops
import OsdevLibstdc.StringScans

/-!
`strrev`, which swaps the ends of a string until its two indices meet.
-/

namespace OsdevLibstdc.Cstring

open ByteMemory FueledLoops Outcomes Target

structure Reversal where
  i : ℕ
  j : ℕ
  ram : Ram
deriving Repr, DecidableEq

def strrevBody (D : DataModel) (str : ℕ) (s : Reversal) :
    Except AccessFault (Next Reversal Ram) := do
  if s.i < s.j then
    let c ← s.ram.load (str + s.i)
    let m ← s.ram.store (str + s.i) (← s.ram.load (str + s.j))
    let m ← m.store (str + s.j) c
    return .again ⟨s.i + 1, sizePred D s.j, m⟩
  else return .stop s.ram

def strrev (D : DataModel) (m : Ram) (str : Option ℕ) : Except AccessFault (Option ℕ × Ram) :=
  match str with
  | none => return (none, m)
  | some p => do
    let len ← strlen m p
    if len > 0 then
      let m ← run .runaway (strrevBody D p) (m.size + 1) ⟨0, len - 1, m⟩
      return (str, m)
    else return (str, m)

structure Reversed (m m' : Ram) (p len : ℕ) : Prop where
  bytes : ∀ k < len, m'.byteAt (p + k) = m.byteAt (p + (len - 1 - k))
  stored : m.StoredIn m' p (p + len)

structure Swapping (m : Ram) (p len : ℕ) (s : Reversal) : Prop where
  indices : s.i + s.j + 1 = len
  crossed : s.i ≤ s.j + 1
  bytes : ∀ k < len, s.ram.byteAt (p + k) =
    m.byteAt (p + if s.i ≤ k ∧ k ≤ s.j then k else len - 1 - k)
  stored : m.StoredIn s.ram p (p + len)

section Loop

variable {D : DataModel} {m : Ram} {p len : ℕ} {s : Reversal}

theorem swapping_start (m : Ram) (p : ℕ) (h : 0 < len) : Swapping m p len ⟨0, len - 1, m⟩ := by
  refine ⟨by simp only; omega, Nat.zero_le _, ?_, .refl m _ _⟩
  intro k hk
  rw [if_pos ⟨Nat.zero_le k, by simp only; omega⟩]

theorem Swapping.round (h : Swapping m p len s) (hm : m.Mapped p len) (hlt : s.i < s.j) :
    ∃ t, strrevBody D p s = .ok (.again t) ∧ Swapping m p len t ∧ t.i = s.i + 1 ∧
      t.j + 1 = s.j := by
  have hsum := h.indices
  obtain ⟨j, hj⟩ : ∃ j, s.j = j + 1 := ⟨s.j - 1, by omega⟩
  have hmapped := h.stored.mapped_range hm
  obtain ⟨c, hc⟩ := Option.isSome_iff_exists.mp (hmapped s.i (by omega))
  obtain ⟨d, hd⟩ := Option.isSome_iff_exists.mp (hmapped s.j (by omega))
  obtain ⟨m₁, hst₁, hbyte₁, hin₁⟩ := Ram.store_ok d (hmapped s.i (by omega))
  obtain ⟨m₂, hst₂, hbyte₂, hin₂⟩ :=
    Ram.store_ok c (hin₁.mapped_range hmapped s.j (by omega))
  refine ⟨⟨s.i + 1, j, m₂⟩, ?_, ⟨?_, ?_, ?_, ?_⟩, rfl, hj.symm⟩
  · rw [strrevBody, if_pos hlt, Ram.load_eq_ok.mpr hc, ok_bind, Ram.load_eq_ok.mpr hd, ok_bind,
      hst₁, ok_bind, hst₂, ok_bind, hj, sizePred_succ]
    rfl
  · simp only
    omega
  · simp only
    omega
  · intro k hk
    have hi := h.bytes s.i (by omega)
    have hj' := h.bytes s.j (by omega)
    rw [if_pos (by omega)] at hi hj'
    simp only
    by_cases hkj : k = s.j
    · rw [hkj, hbyte₂, ← hc, hi, if_neg (by omega)]
      congr 2
      omega
    · rw [hin₂.kept _ (by omega)]
      by_cases hki : k = s.i
      · rw [hki, hbyte₁, ← hd, hj', if_neg (by omega)]
        congr 2
        omega
      · rw [hin₁.kept _ (by omega), h.bytes k hk]
        by_cases hold : s.i ≤ k ∧ k ≤ s.j
        · rw [if_pos hold, if_pos (by omega)]
        · rw [if_neg hold, if_neg (by omega)]
  · have h₁ : s.ram.StoredIn m₁ p (p + len) := hin₁.mono (by omega) (by omega)
    have h₂ : m₁.StoredIn m₂ p (p + len) := hin₂.mono (by omega) (by omega)
    exact h.stored.trans (h₁.trans h₂)

theorem Swapping.reversed (h : Swapping m p len s) (hge : ¬ s.i < s.j) :
    Reversed m s.ram p len := by
  refine ⟨?_, h.stored⟩
  intro k hk
  have hsum := h.indices
  have hcrossed := h.crossed
  rw [h.bytes k hk]
  split_ifs with hmiddle
  · congr 2
    omega
  · rfl

theorem strrevBody_stop (hge : ¬ s.i < s.j) : strrevBody D p s = .ok (.stop s.ram) := by
  rw [strrevBody, if_neg hge]
  rfl

theorem strrev_loop (D : DataModel) (fuel : ℕ) (hm : m.Mapped p len) (hlen : 0 < len)
    (hf : len ≤ fuel) :
    ∃ m', run .runaway (strrevBody D p) fuel ⟨0, len - 1, m⟩ = .ok m' ∧ Reversed m m' p len := by
  apply run_ok (I := Swapping m p len) fun s => s.j - s.i
  · intro s hs
    by_cases hlt : s.i < s.j
    · obtain ⟨t, hbody, ht, hi, hj⟩ := hs.round hm hlt
      exact .inl ⟨t, hbody, ht, by omega⟩
    · exact .inr ⟨s.ram, strrevBody_stop hlt, hs.reversed hlt⟩
  · exact swapping_start m p hlen
  · simp only
    omega

theorem strrev_indices (hm : m.Mapped p len) (hlen : 0 < len) {n : ℕ} {t : Reversal}
    (h : After (strrevBody D p) n ⟨0, len - 1, m⟩ t) : t.i = n ∧ t.j + n + 1 = len := by
  have hinv : Swapping m p len t ∧ t.i = n := by
    apply h.invariant (I := fun n t => Swapping m p len t ∧ t.i = n)
    · exact ⟨swapping_start m p hlen, rfl⟩
    · rintro n t u ⟨ht, hn⟩ hbody
      by_cases hlt : t.i < t.j
      · obtain ⟨u', hbody', hu, hi, -⟩ := ht.round hm hlt
        rw [hbody'] at hbody
        obtain rfl : u' = u := Next.again.inj (Except.ok.inj hbody)
        exact ⟨hu, by omega⟩
      · rw [strrevBody_stop hlt] at hbody
        cases hbody
  have hsum := hinv.1.indices
  omega

end Loop

section Reversed

variable {m m' m'' : Ram} {p : ℕ} {s : List UInt8}

theorem Reversed.string (h : Reversed m m' p s.length) (hs : m.IsString p s) :
    m'.IsString p s.reverse := by
  have hholds := (Ram.holds_append.mp hs.holds).1
  apply Ram.IsString.of_holds
  · intro k hk
    rw [List.length_reverse] at hk
    rw [h.bytes k hk, hholds _ (by omega), List.getElem?_reverse hk]
  · rw [List.mem_reverse]
    exact hs.no_nul
  · rw [List.length_reverse, h.stored.kept _ (.inr le_rfl)]
    exact hs.terminator

theorem Reversed.twice {len : ℕ} (h : Reversed m m' p len) (h' : Reversed m' m'' p len) :
    m''.cells = m.cells := by
  apply Ram.cells_ext
  · rw [h'.stored.size, h.stored.size]
  · intro a
    by_cases ha : p ≤ a ∧ a < p + len
    · obtain ⟨k, rfl⟩ := Nat.exists_eq_add_of_le ha.1
      rw [h'.bytes k (by omega), h.bytes _ (by omega)]
      congr 1
      omega
    · rw [h'.stored.kept a (by omega), h.stored.kept a (by omega)]

theorem strrev_ok (D : DataModel) (hs : m.IsString p s) :
    ∃ m', strrev D m (some p) = .ok (some p, m') ∧ Reversed m m' p s.length := by
  have hmapped := (Ram.holds_append.mp hs.holds).1.mapped
  have hsize := hs.lt_size
  rw [strrev, strlen_ok hs, ok_bind]
  by_cases hlen : s.length > 0
  · obtain ⟨m', hrun, hrev⟩ := strrev_loop D (m.size + 1) hmapped hlen (by omega)
    refine ⟨m', ?_, hrev⟩
    rw [if_pos hlen, hrun]
    rfl
  · refine ⟨m, ?_, ?_, .refl m _ _⟩
    · rw [if_neg hlen]
      rfl
    · intro k hk
      exact absurd hk (by omega)

structure ReversesInPlace (D : DataModel) (m : Ram) (p : ℕ) (s : List UInt8) : Prop where
  reverses : ∃ m' m'', strrev D m (some p) = .ok (some p, m') ∧
    (∀ k < s.length, m'.byteAt (p + k) = m.byteAt (p + (s.length - 1 - k))) ∧
    (∀ a, a < p ∨ p + s.length ≤ a → m'.byteAt a = m.byteAt a) ∧
    strrev D m' (some p) = .ok (some p, m'') ∧ m''.cells = m.cells
  indices : s ≠ [] → ∀ n t, After (strrevBody D p) n ⟨0, s.length - 1, m⟩ t →
    t.i = n ∧ t.j + n + 1 = s.length

theorem strrev_in_place (D : DataModel) (hs : m.IsString p s) : ReversesInPlace D m p s := by
  constructor
  · obtain ⟨m', hrev, h⟩ := strrev_ok D hs
    obtain ⟨m'', hrev', h'⟩ := strrev_ok D (h.string hs)
    rw [List.length_reverse] at h'
    exact ⟨m', m'', hrev, h.bytes, h.stored.kept, hrev', h.twice h'⟩
  · intro hne n t ht
    exact strrev_indices (Ram.holds_append.mp hs.holds).1.mapped
      (List.length_pos_of_ne_nil hne) ht

theorem strrev_in_place_abc :
    ReversesInPlace .lp64 ⟨[some 97, some 98, some 99, some 0, some 120], []⟩ 0 [97, 98, 99] :=
  strrev_in_place .lp64 (by decide)

end Reversed

end OsdevLibstdc.Cstring
