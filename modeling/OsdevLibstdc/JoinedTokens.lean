import OsdevLibstdc.PrintedStrings
import OsdevLibstdc.TokenExhaustion

/-!
Strings that are printed with a delimiter between each two, and taken apart by `strtok_r`.
-/

namespace OsdevLibstdc.Printf

open ByteMemory Target Outcomes Vsnprintf TokenSpans

def joinedParts (c : UInt8) : Piece → List Piece → List Part
  | x, [] => x.parts
  | x, y :: pieces => x.parts ++ .char c :: joinedParts c y pieces

def joinedText (c : UInt8) (x : Piece) (pieces : List Piece) : List UInt8 :=
  joined c x.text (pieces.map Piece.text)

section Joined

variable {m : Ram} {buffer size : ℕ} {c : UInt8} {x : Piece} {pieces : List Piece}

theorem shows_joined (hc : c ≠ 0) (h : ∀ y ∈ x :: pieces, y.Outside m buffer size) :
    Shows (stringsOutside m buffer size) (joinedParts c x pieces) (joinedText c x pieces) := by
  induction pieces generalizing x with
  | nil => exact (h x List.mem_cons_self).shows
  | cons y pieces ih =>
    obtain ⟨hx, hrest⟩ := List.forall_mem_cons.mp h
    exact hx.shows.append (.char hc (ih hrest))

theorem run_joined {q delim : ℕ} {str save : Option ℕ} {d t : List UInt8} {ts : List (List UInt8)}
    (hwords : ∀ w ∈ t :: ts, w ≠ [] ∧ ∀ b ∈ w, b ∉ d) (hc : c ∈ d) (hq : str.or save = some q)
    (hs : m.IsString q (joined c t ts)) (hd : m.IsString delim d)
    (hapart : delim + d.length < q ∨ q + (joined c t ts).length < delim) :
    ∃ results m' e, Cstring.run Cstring.strtokSaved m save
        (⟨str, delim⟩ :: Cstring.nullCalls (List.replicate ts.length delim)) =
          .ok (results, m', some e) ∧
      List.Forall₂ (Option.Rel m'.IsString) results ((t :: ts).map some) ∧
      m.StoredIn m' q (q + (joined c t ts).length) ∧ m'.byteAt e = some 0 := by
  have hisIn : Cstring.isIn d c = true := decide_eq_true hc
  have hsplit (w : List UInt8) (hw : w ≠ [] ∧ ∀ b ∈ w, b ∉ d) :
      ∀ b ∈ w, Cstring.isIn d b = false := fun b hb => decide_eq_false (hw.2 b hb)
  have hstart (str save : Option ℕ) (q : ℕ) (hq : str.or save = some q) :
      str.or (some save).join = some q := hq
  induction ts generalizing t m q str save with
  | nil =>
    obtain ⟨hword, -⟩ := List.forall_mem_cons.mp hwords
    obtain ⟨m', e, hcall, hcut, htok, hend, -⟩ := Cstring.strtokR_token (hstart _ _ _ hq) hs hd
      (splits_alone hword.1 (hsplit t hword) c)
    refine ⟨[some (q + 0)], m', e, ?_, .cons (.some htok) .nil, ?_, hend.terminator⟩
    · rw [Cstring.run, Cstring.strtokSaved, hcall]
      rfl
    · exact hcut.storedIn.mono (by simp) le_rfl
  | cons next ts ih =>
    obtain ⟨hword, hrest⟩ := List.forall_mem_cons.mp hwords
    obtain ⟨m₁, q', hcall, hcut, htok, hnext, hq', hlen⟩ :=
      Cstring.strtokR_token (hstart _ _ _ hq) hs hd
        (splits_joined hisIn hword.1 (hsplit t hword) next ts)
    have hlength : (joined c t (next :: ts)).length = t.length + 1 + (joined c next ts).length := by
      rw [joined, List.length_append, List.length_cons]
      omega
    rw [List.tail_cons] at hnext hlen
    simp only [List.length_nil, Nat.add_zero] at hcut htok hq' hcall
    have hstored := hcut.storedIn
    have hdelim := hd.stored hstored (by omega)
    obtain ⟨results, m', e, hrun, hfound, hstored', hend⟩ :=
      @ih m₁ q' none (some q') next hrest rfl hnext hdelim (by omega)
    refine ⟨some q :: results, m', e, ?_, ?_, ?_, hend⟩
    · rw [List.length_cons, List.replicate_succ, Cstring.nullCalls, List.map_cons, Cstring.run,
        Cstring.strtokSaved, hcall]
      simp only [ok_bind, pure_eq, Option.map_some, Option.join_some]
      rw [← Cstring.nullCalls, hrun]
      rfl
    · exact .cons (.some (htok.stored hstored' (by omega))) hfound
    · exact (hstored.mono (by omega) le_rfl).trans (hstored'.mono (by omega) (by omega))

end Joined

theorem strtok_r_joined {D : DataModel} {m : Ram} {buffer size fmt delim : ℕ} {ap rest : VaList}
    {c : UInt8} {d : List UInt8} {x : Piece} {pieces : List Piece} (hmax : (size : ℤ) < INT_MAX)
    (hlen : (joinedText c x pieces).length < size) (hm : m.Mapped buffer size)
    (hpieces : ∀ y ∈ x :: pieces, y.Outside m buffer size)
    (hwords : ∀ y ∈ x :: pieces, y.text ≠ [] ∧ ∀ b ∈ y.text, b ∉ d) (hc : c ∈ d)
    (hdelim : m.IsString delim d)
    (hdapart : delim + d.length < buffer ∨ buffer + size ≤ delim)
    (hfmt : m.IsString fmt (formatOf (joinedParts c x pieces)))
    (hapart : fmt + (formatOf (joinedParts c x pieces)).length < buffer ∨ buffer + size ≤ fmt)
    (hap : Passed D (argsOf (joinedParts c x pieces)) ap rest) (save : Option ℕ) :
    ∃ m₁ m₂ results save', snprintfAt (wrapping D) m buffer size fmt ap =
        .ok (((joinedText c x pieces).length : ℤ), m₁) ∧
      m₁.IsString buffer (joinedText c x pieces) ∧
      Cstring.run Cstring.strtokSaved m₁ save
        (⟨some buffer, delim⟩ :: Cstring.nullCalls (List.replicate pieces.length delim)) =
          .ok (results, m₂, save') ∧
      List.Forall₂ (Option.Rel m₂.IsString) results
        ((x :: pieces).map fun y : Piece => some y.text) ∧
      Cstring.Exhausted Cstring.strtokSaved m₂ save' := by
  have hc0 : c ≠ 0 := ne_of_mem_of_not_mem hc hdelim.no_nul
  obtain ⟨m₁, hrun, hleaves⟩ := snprintfAt_shows hfmt hapart (shows_joined hc0 hpieces) hap
    (by omega) hmax (hm.mono (Nat.min_le_left _ _)) fun _ _ => hlen
  rw [List.take_of_length_le (by omega)] at hrun hleaves
  have hd₁ := hdelim.stored hleaves.stored (by omega)
  have htexts : ∀ w ∈ x.text :: pieces.map Piece.text, w ≠ [] ∧ ∀ b ∈ w, b ∉ d := by
    intro w hw
    have hword : w ∈ (x :: pieces).map Piece.text := hw
    obtain ⟨y, hy, rfl⟩ := List.mem_map.mp hword
    exact hwords y hy
  have hstart : (some buffer).or save = some buffer := rfl
  obtain ⟨results, m₂, e, hcalls, hfound, -, hend⟩ := run_joined htexts hc hstart hleaves.string hd₁
    (by unfold joinedText at hlen; omega)
  rw [List.length_map] at hcalls
  refine ⟨m₁, m₂, results, some e, hrun, hleaves.string, hcalls, ?_, ?_⟩
  · rw [← List.map_cons, List.map_map] at hfound
    exact hfound
  · apply Cstring.exhausted_of_end
    intro p hp
    rw [← Option.some.inj hp]
    exact hend

def commaFormat : Ram :=
  { cells := (255 :: bytes "ab" ++ 0 :: List.replicate 6 255 ++ bytes "%s,ab" ++ 0 :: bytes ",;" ++
      [0]).map some }

theorem strtok_r_joined_comma : ∃ m₁ m₂ results save',
    snprintfAt (wrapping .lp64) commaFormat 4 6 10 (LittleEndian.encode 8 1 ++ []) =
        .ok (5, m₁) ∧ m₁.IsString 4 (bytes "ab,ab") ∧
      Cstring.run Cstring.strtokSaved m₁ none [⟨some 4, 16⟩, ⟨none, 16⟩] =
        .ok (results, m₂, save') ∧
      List.Forall₂ (Option.Rel m₂.IsString) results [some (bytes "ab"), some (bytes "ab")] ∧
      Cstring.Exhausted Cstring.strtokSaved m₂ save' := by
  have hstring : commaFormat.IsString 1 (bytes "ab") := by decide
  have houtside (inlined : Bool) : Piece.Outside commaFormat 4 6 ⟨inlined, 1, bytes "ab"⟩ :=
    ⟨hstring, .inl (Nat.le_refl 4), Nat.one_ne_zero⟩
  have hword : bytes "ab" ≠ [] ∧ ∀ b ∈ bytes "ab", b ∉ bytes ",;" := by decide +kernel
  have hboth {P : Piece → Prop} (h : ∀ inlined, P ⟨inlined, 1, bytes "ab"⟩) :
      ∀ y ∈ [⟨false, 1, bytes "ab"⟩, ⟨true, 1, bytes "ab"⟩], P y := by
    intro y hy
    simp only [List.mem_cons, List.not_mem_nil, or_false] at hy
    rcases hy with rfl | rfl <;> exact h _
  exact strtok_r_joined (c := byte ',') (d := bytes ",;") (x := ⟨false, 1, bytes "ab"⟩)
    (by decide) (by decide) (by decide) (hboth houtside)
    (hboth fun _ => hword) (by decide) (by decide) (by decide) (by decide)
    (by decide) (.cons (by decide) (.nil [])) none

end OsdevLibstdc.Printf
