import Mathlib.Data.List.Induction
import OsdevLibstdc.MemoryCopies
import OsdevLibstdc.StringReversal
import OsdevLibstdc.TextPositions

/-!
`memchr`, `memrchr` and `memccpy`, which look for a byte in a block.
-/

namespace OsdevLibstdc.Cstring

open ByteMemory Outcomes Target TextPositions

def memchrLoop (m : Ram) (needle : ℤ) : ℕ → ℕ → Except AccessFault (Option ℕ)
  | 0, _ => return none
  | count + 1, p => do
    let c ← m.load p
    let p := p + 1
    if c = UInt8.ofInt needle then return some (p - 1)
    memchrLoop m needle count p

def memchr (m : Ram) (memory : ℕ) (needle : ℤ) (count : ℕ) : Except AccessFault (Option ℕ) :=
  memchrLoop m needle count memory

/-- `s` ends in front of the block, and so it is an integer. -/
def memrchrLoop (m : Ram) (needle : ℤ) : ℕ → ℤ → Except AccessFault (Option ℕ)
  | 0, _ => return none
  | count + 1, s => do
    let c ← m.load s.toNat
    let s := s - 1
    if c = UInt8.ofInt needle then return some (s + 1).toNat
    memrchrLoop m needle count s

def memrchr (m : Ram) (mem : ℕ) (needle : ℤ) (count : ℕ) : Except AccessFault (Option ℕ) :=
  memrchrLoop m needle count (mem + count - 1)

def memccpyLoop (d s : ℕ) (c : ℤ) : ℕ → Ram → ℕ → Except AccessFault (Option ℕ × Ram)
  | 0, m, _ => return (none, m)
  | n + 1, m, i => do
    let m ← m.store (d + i) (← m.load (s + i))
    if ((← m.load (s + i)).toNat : ℤ) = c then return (some (d + i + 1), m)
    memccpyLoop d s c n m (i + 1)

def memccpy (m : Ram) (dest src : ℕ) (c : ℤ) (n : ℕ) : Except AccessFault (Option ℕ × Ram) :=
  if n > 0 then memccpyLoop dest src c n m 0 else return (none, m)

section Search

variable {m : Ram} {p : ℕ} {bs : List UInt8}

theorem memchr_ok (needle : ℤ) (h : m.Holds p bs) :
    ∃ r, memchr m p needle bs.length = .ok (r.map (p + ·)) ∧
      First (positions (UInt8.ofInt needle) bs) r := by
  unfold memchr
  induction bs generalizing p with
  | nil => exact ⟨none, rfl, .missing (positions_nil _)⟩
  | cons b bs ih =>
    obtain ⟨hb, hbs⟩ := Ram.holds_cons.mp h
    by_cases hne : b = UInt8.ofInt needle
    · refine ⟨some 0, ?_, ?_⟩
      · rw [List.length_cons, memchrLoop, Ram.load_eq_ok.mpr hb, ok_bind, if_pos hne]
        rfl
      · rw [hne]
        exact first_cons_self _ _
    · obtain ⟨r, hr, hfirst⟩ := ih hbs
      refine ⟨r.map (· + 1), ?_, first_cons hne hfirst⟩
      rw [List.length_cons, memchrLoop, Ram.load_eq_ok.mpr hb, ok_bind, if_neg hne, hr,
        Option.map_map]
      congr 2
      funext i
      simp only [Function.comp_apply]
      omega

theorem memrchr_ok (needle : ℤ) (h : m.Holds p bs) :
    ∃ r, memrchr m p needle bs.length = .ok (r.map (p + ·)) ∧
      Last (positions (UInt8.ofInt needle) bs) r := by
  unfold memrchr
  induction bs using List.reverseRecOn with
  | nil => exact ⟨none, rfl, .missing (positions_nil _)⟩
  | append_singleton bs b ih =>
    obtain ⟨hbs, hb⟩ := Ram.holds_append.mp h
    have hload : m.load ((p : ℤ) + (bs.length + 1 : ℕ) - 1).toNat = .ok b := by
      have he : ((p : ℤ) + (bs.length + 1 : ℕ) - 1).toNat = p + bs.length := by omega
      rw [he]
      exact Ram.load_eq_ok.mpr (Ram.holds_cons.mp hb).1
    rw [List.length_append, List.length_singleton]
    by_cases hne : b = UInt8.ofInt needle
    · refine ⟨some bs.length, ?_, ?_⟩
      · rw [memrchrLoop, hload, ok_bind, if_pos hne, pure_eq, Option.map_some]
        congr 2
        omega
      · rw [hne]
        exact last_concat_self _ _
    · obtain ⟨r, hr, hlast⟩ := ih hbs
      refine ⟨r, ?_, last_concat hne hlast⟩
      have he : (p : ℤ) + (bs.length + 1 : ℕ) - 1 - 1 = p + bs.length - 1 := by omega
      rw [memrchrLoop, hload, ok_bind, if_neg hne, he, hr]

def SearchesBlock (m : Ram) (p : ℕ) (bs : List UInt8) (needle : ℤ) : Prop :=
  ∃ r r', First (positions (UInt8.ofInt needle) bs) r ∧
    Last (positions (UInt8.ofInt needle) bs) r' ∧
    m.ReturnsWithin (Ram.inBlock p bs.length) (fun m => memchr m p needle bs.length)
      (r.map (p + ·)) ∧
    m.ReturnsWithin (Ram.inBlock p bs.length) (fun m => memrchr m p needle bs.length)
      (r'.map (p + ·)) ∧
    (r = none ↔ UInt8.ofInt needle ∉ bs) ∧ (r' = none ↔ UInt8.ofInt needle ∉ bs)

theorem searchesBlock (needle : ℤ) (h : m.Holds p bs) : SearchesBlock m p bs needle := by
  have honly : (m.only (Ram.inBlock p bs.length)).Holds p bs := h.only fun j => Ram.inBlock_add
  obtain ⟨r, hr, hfirst⟩ := memchr_ok needle h
  obtain ⟨r', hr', hlast⟩ := memrchr_ok needle h
  obtain ⟨r₁, hr₁, hfirst₁⟩ := memchr_ok needle honly
  obtain ⟨r₁', hr₁', hlast₁⟩ := memrchr_ok needle honly
  obtain rfl := hfirst.unique hfirst₁
  obtain rfl := hlast.unique hlast₁
  refine ⟨r, r', hfirst, hlast, ⟨hr, hr₁⟩, ⟨hr', hr₁'⟩, ?_, ?_⟩
  · rw [hfirst.eq_none_iff, positions_eq_empty]
  · rw [hlast.eq_none_iff, positions_eq_empty]

def ExchangedByReversal (D : DataModel) (m : Ram) (p : ℕ) (s : List UInt8) (needle : ℤ) : Prop :=
  ∃ (m' : Ram) (r r' : Option ℕ), strrev D m (some p) = .ok (some p, m') ∧
    (∀ i ∈ r, i < s.length) ∧ (∀ i ∈ r', i < s.length) ∧
    memrchr m p needle s.length = .ok (r.map (p + ·)) ∧
    memchr m' p needle s.length = .ok (r.map fun i => p + (s.length - 1 - i)) ∧
    memchr m p needle s.length = .ok (r'.map (p + ·)) ∧
    memrchr m' p needle s.length = .ok (r'.map fun i => p + (s.length - 1 - i))

theorem exchangedByReversal (D : DataModel) {s : List UInt8} (needle : ℤ) (hs : m.IsString p s) :
    ExchangedByReversal D m p s needle := by
  obtain ⟨m', hrev, hreversed⟩ := strrev_ok D hs
  have hholds := (Ram.holds_append.mp hs.holds).1
  have hholds' := (Ram.holds_append.mp (hreversed.string hs).holds).1
  obtain ⟨r, hr, hlast⟩ := memrchr_ok needle hholds
  obtain ⟨r', hr', hfirst⟩ := memchr_ok needle hholds
  obtain ⟨q, hq, hqfirst⟩ := memchr_ok needle hholds'
  obtain ⟨q', hq', hqlast⟩ := memrchr_ok needle hholds'
  obtain rfl := hqfirst.unique (first_reverse hlast)
  obtain rfl := hqlast.unique (last_reverse hfirst)
  rw [List.length_reverse, Option.map_map] at hq hq'
  refine ⟨m', r, r', hrev, ?_, ?_, hr, hq, hr', hq'⟩
  · rintro i rfl
    cases hlast with
    | found hi => exact lt_of_mem_positions hi.1
  · rintro i rfl
    cases hfirst with
    | found hi => exact lt_of_mem_positions hi.1

theorem memchr_memrchr (D : DataModel) (needle : ℤ) :
    (∀ (m : Ram) (p : ℕ) (bs : List UInt8), m.Holds p bs → SearchesBlock m p bs needle) ∧
    ∀ (m : Ram) (p : ℕ) (s : List UInt8), m.IsString p s → ExchangedByReversal D m p s needle :=
  ⟨fun _ _ _ h => searchesBlock needle h, fun _ _ _ h => exchangedByReversal D needle h⟩

theorem memchr_memrchr_aba :
    SearchesBlock ⟨[some 97, some 98, some 97, some 0], []⟩ 0 [97, 98, 97] 97 ∧
      ExchangedByReversal .lp64 ⟨[some 97, some 98, some 97, some 0], []⟩ 0 [97, 98, 97] 97 :=
  ⟨(memchr_memrchr .lp64 97).1 _ _ _ (by decide), (memchr_memrchr .lp64 97).2 _ _ _ (by decide)⟩

end Search

section Copies

variable {m : Ram} {dest src n : ℕ} {c : ℤ} {bs : List UInt8}

def values (bs : List UInt8) : List ℤ := bs.map fun b => (b.toNat : ℤ)

theorem toNat_ofInt_eq_iff : ((UInt8.ofInt c).toNat : ℤ) = c ↔ 0 ≤ c ∧ c ≤ 255 := by
  have hlt := (UInt8.ofInt c).toNat_lt
  constructor
  · intro h
    omega
  · intro h
    have hmod : c % 2 ^ 8 = c := Int.emod_eq_of_lt h.1 (by omega)
    rw [UInt8.ofInt, hmod, UInt8.toNat_ofNat_of_lt' (by change c.toNat < 256; omega)]
    omega

theorem ofInt_toNat : Function.LeftInverse UInt8.ofInt fun b : UInt8 => (b.toNat : ℤ) := by
  intro b
  have hlt := b.toNat_lt
  change UInt8.ofInt (b.toNat : ℤ) = b
  apply UInt8.toNat_inj.mp
  exact Int.natCast_inj.mp (toNat_ofInt_eq_iff.mpr ⟨Int.natCast_nonneg b.toNat, by omega⟩)

theorem memccpyLoop_ok {i : ℕ} (hs : m.Holds (src + i) bs) (hd : m.Mapped (dest + i) bs.length)
    (hdis : src + i + bs.length ≤ dest + i ∨ dest + i + bs.length ≤ src + i) :
    ∃ r m', memccpyLoop dest src c bs.length m i = .ok (r.map (dest + i + · + 1), m') ∧
      First (positions c (values bs)) r ∧
      Copied m m' (src + i) (dest + i) (r.elim bs.length (· + 1)) := by
  induction bs generalizing m i with
  | nil => exact ⟨none, m, rfl, .missing (positions_nil c), by simp, .refl m _ _⟩
  | cons b bs ih =>
    rw [List.length_cons] at hd hdis
    obtain ⟨m₁, hst, hbyte, hin⟩ := Ram.store_ok b (hd 0 (Nat.succ_pos _))
    have hb := (Ram.holds_cons.mp hs).1
    obtain ⟨hb₁, hbs₁⟩ := Ram.holds_cons.mp (hin.holds hs (by
      rw [List.length_cons]
      omega))
    have hrun : memccpyLoop dest src c (bs.length + 1) m i =
        if (b.toNat : ℤ) = c then .ok (some (dest + i + 1), m₁)
        else memccpyLoop dest src c bs.length m₁ (i + 1) := by
      have hstore : m.store (dest + i) b = .ok m₁ := hst
      rw [memccpyLoop, Ram.load_eq_ok.mpr hb, ok_bind, hstore, ok_bind, Ram.load_eq_ok.mpr hb₁,
        ok_bind]
      rfl
    rw [List.length_cons, hrun, values, List.map_cons]
    by_cases hc : (b.toNat : ℤ) = c
    · refine ⟨some 0, m₁, ?_, .zero (congrArg some hc), ?_, hin⟩
      · rw [if_pos hc]
        rfl
      · intro j hj
        obtain rfl : j = 0 := Nat.lt_one_iff.mp hj
        exact hbyte.trans hb.symm
    · obtain ⟨r, m', hr, hfirst, hcopied⟩ := ih (i := i + 1) hbs₁
        (hin.mapped_range (hd.drop 1)) (by omega)
      have hlen : (r.map (· + 1)).elim (bs.length + 1) (· + 1) = r.elim bs.length (· + 1) + 1 := by
        cases r <;> rfl
      have hle : r.elim bs.length (· + 1) ≤ bs.length := by
        cases hfirst with
        | missing => exact le_rfl
        | found hk =>
          have hlt := lt_of_mem_positions hk.1
          rwa [values, List.length_map] at hlt
      refine ⟨r.map (· + 1), m', ?_, first_cons hc hfirst, ?_⟩
      · rw [if_neg hc, hr, Option.map_map]
        congr 3
        funext k
        simp only [Function.comp_apply]
        omega
      · have hapart : dest + i ≤ src + i ∨ src + i + r.elim bs.length (· + 1) < dest + i := by
          omega
        rw [hlen]
        exact hcopied.cons hb hbyte hin hapart

theorem memccpy_ok (hs : m.Holds src bs) (hd : m.Mapped dest bs.length)
    (hdis : Ram.Apart src bs.length dest bs.length) :
    ∃ r m', memccpy m dest src c bs.length = .ok (r.map (dest + · + 1), m') ∧
      First (positions c (values bs)) r ∧
      Copied m m' src dest (r.elim bs.length (· + 1)) := by
  have hcases : src + bs.length ≤ dest ∨ dest + bs.length ≤ src := by
    rcases Nat.eq_zero_or_pos bs.length with h0 | hpos
    · omega
    · exact hdis.cases hpos hpos
  obtain ⟨r, m', hr, hfirst, hcopied⟩ := memccpyLoop_ok (c := c) (i := 0) hs hd (by omega)
  refine ⟨r, m', ?_, hfirst, hcopied⟩
  unfold memccpy
  split_ifs with hn
  · exact hr
  · have h0 : bs.length = 0 := by omega
    rw [h0] at hr
    exact hr

def MemccpyAgrees (m : Ram) (dest src : ℕ) (c : ℤ) (bs : List UInt8) : Prop :=
  ∃ r m', First (positions (UInt8.ofInt c) bs) r ∧
    memchr m src c bs.length = .ok (r.map (src + ·)) ∧
    memccpy m dest src c bs.length = .ok (r.map (dest + · + 1), m') ∧
    Copied m m' src dest (r.elim bs.length (· + 1))

theorem memccpy_agrees_iff (hs : m.Holds src bs) (hd : m.Mapped dest bs.length)
    (hdis : Ram.Apart src bs.length dest bs.length) :
    MemccpyAgrees m dest src c bs ↔ (0 ≤ c ∧ c ≤ 255) ∨ UInt8.ofInt c ∉ bs := by
  obtain ⟨r, m', hr, hstops, hcopied⟩ := memccpy_ok (c := c) hs hd hdis
  obtain ⟨q, hq, hfirst⟩ := memchr_ok c hs
  constructor
  · rintro ⟨q', m'', hfirst', -, hr', -⟩
    by_cases hc : 0 ≤ c ∧ c ≤ 255
    · exact .inl hc
    · right
      rw [hr] at hr'
      have hmiss : r = none :=
        hstops.eq_none_iff.mpr (positions_map_eq_empty ofInt_toNat (mt toNat_ofInt_eq_iff.mp hc) bs)
      have hnone : q' = none := by
        rw [hmiss] at hr'
        exact Option.map_eq_none_iff.mp (Prod.mk.inj (Except.ok.inj hr')).1.symm
      exact positions_eq_empty.mp (hfirst'.eq_none_iff.mp hnone)
  · intro h
    have hsame : positions c (values bs) = positions (UInt8.ofInt c) bs :=
      positions_map_eq ofInt_toNat (h.imp_left toNat_ofInt_eq_iff.mpr)
    rw [hsame] at hstops
    obtain rfl := hfirst.unique hstops
    exact ⟨q, m', hfirst, hq, hr, hcopied⟩

theorem memccpy_agrees_found :
    MemccpyAgrees ⟨[some 97, some 98, some 99, some 0, some 0, some 0], []⟩ 3 0 98 [97, 98, 99] :=
  (memccpy_agrees_iff (by decide) (by decide) (.of_le (by decide))).mpr
    (.inl ⟨by decide, by decide⟩)

theorem memccpy_not_agrees : ¬ ∀ (m : Ram) (dest src : ℕ) (c : ℤ) (bs : List UInt8),
    m.Holds src bs → m.Mapped dest bs.length → Ram.Apart src bs.length dest bs.length →
      MemccpyAgrees m dest src c bs := by
  intro h
  have hagrees := h ⟨[some 255, some 0], []⟩ 1 0 (-1) [255] (by decide) (by decide)
    (.of_le (by decide))
  obtain ⟨r, m', -, hchr, hccpy, -⟩ := hagrees
  cases r with
  | none => cases hchr
  | some i => cases hccpy

end Copies

end OsdevLibstdc.Cstring
