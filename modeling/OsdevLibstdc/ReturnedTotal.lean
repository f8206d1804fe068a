import OsdevLibstdc.CleanOutput

/-!
What the returned total says about the output. The total counts what the fields ask for, the
cursor what they get, and the two agree as long as room remains.
-/

namespace OsdevLibstdc.Vsnprintf

open Target ByteStores Outcomes

structure Complete (fields : List Field) (res : Result) : Prop where
  consumed : res.fmt = [0]
  total : res.total = (render fields).length
  value : res.value = res.total
  bytes : ∀ init, read (res.memory init) 0 res.total.toNat = render fields
  nul : ∀ init, res.memory init res.total.toNat = 0
  stored : ∃ log, res.stores = ⟨res.total.toNat, [0]⟩ :: log ∧ volume log = res.total.toNat

theorem PutRun.total_le {size i : ℤ} {fields left : List Field} {p q : Progress}
    (h : PutRun size i fields p q left) : p.total ≤ q.total := by
  induction h with
  | done | stop => exact le_rfl
  | put _ _ _ hputs _ ih =>
    have htotal := hputs.total
    omega

theorem putFields_returns {size i : ℤ} {fields : List Field} {p : Progress}
    (hn : ∀ f ∈ fields, f.isNil = false) :
    ∃ q left, putFields size i fields p = .ok (q, left) := by
  induction fields generalizing i p with
  | nil => exact ⟨p, [], rfl⟩
  | cons f fields ih =>
    by_cases hlt : (p.pos : ℤ) < size
    · have hr : 0 ≤ f.room size i p.pos := by
        rw [Field.room_eq (hn f List.mem_cons_self)]
        omega
      obtain ⟨p', hp', -⟩ := Field.put_ok hlt hr
      rw [putFields, if_pos hlt, hp', ok_bind]
      exact ih fun g hg => hn g (List.mem_cons_of_mem f hg)
    · exact ⟨p, _, putFields_stop _ hlt⟩

theorem Field.request_eq {size i : ℤ} {o : ℕ} {f : Field} (hr : f.room size i o = size - o)
    (hf : (o + f.request size i o : ℤ) < size) : f.request size i o = f.full.length := by
  have hbox : f.box (size - (o : ℤ)).toNat = f.whole := by
    rw [request, hr, Box.full_length] at hf
    unfold box at hf ⊢
    split_ifs at hf ⊢
    · simp only [List.length_take] at hf
      rw [List.take_of_length_le (by omega)]
    · rfl
  rw [request, hr, hbox]
  rfl

theorem PutRun.total {size i : ℤ} {fields left : List Field} {p q : Progress}
    (h : PutRun size i fields p q left) (hn : ∀ f ∈ fields, f.isNil = false)
    (hp : p.total = p.pos) (hq : q.total < size) :
    left = [] ∧ q.total = p.pos + (render fields).length := by
  induction h with
  | done i p => exact ⟨rfl, hp⟩
  | stop i f fields p hstop => omega
  | @put i f fields left p p' q hlt _ _ hputs hrest ih =>
    have hle := hrest.total_le
    have hr : f.room size i p.pos = size - p.pos := Field.room_eq (hn f List.mem_cons_self)
    have htotal := hputs.total
    have hreq := Field.request_eq hr (by omega)
    rw [hreq] at htotal
    have hclean := Field.clean_of_le hlt hr (by omega)
    have hpos := hputs.pos
    rw [hclean.advance] at hpos
    obtain ⟨hleft, hlast⟩ := ih (fun g hg => hn g (List.mem_cons_of_mem f hg)) (by omega) hq
    refine ⟨hleft, ?_⟩
    rw [hlast, hpos, render, render, List.flatMap_cons, List.length_append]
    omega

theorem eachField_clean {size i : ℤ} {o : ℕ} {fields : List Field}
    (hn : ∀ f ∈ fields, f.isNil = false) (ho : (o + (render fields).length : ℤ) ≤ size) :
    EachField size (Field.Clean size) i o fields := by
  induction fields generalizing i o with
  | nil => trivial
  | cons f fields ih =>
    intro hlt
    rw [render, List.flatMap_cons, List.length_append] at ho
    refine ⟨Field.clean_of_le hlt (Field.room_eq (hn f List.mem_cons_self)) (by omega), ?_⟩
    apply ih fun g hg => hn g (List.mem_cons_of_mem f hg)
    rw [render]
    push_cast at ho ⊢
    omega

theorem vsnprintf_total {D : DataModel} {strings : Strings} {maxSize : ℕ} {fmt : CString}
    {ap rest : VaList} {fields : List Field} (hf : FieldsOf (wrapping D) strings fmt ap fields rest)
    (hn : ∀ f ∈ fields, f.isNil = false) (h1 : 1 ≤ maxSize) (hmax : (maxSize : ℤ) < INT_MAX) :
    ∃ res, vsnprintf (wrapping D) strings maxSize fmt ap = .ok res ∧
      (res.total < maxSize - 1 → Complete fields res) ∧
      (¬ Complete fields res → (maxSize - 1 : ℤ) ≤ res.total) := by
  obtain ⟨q, left, hput⟩ : ∃ q left, putFields (maxSize - 1) 0 fields {} = .ok (q, left) :=
    putFields_returns hn
  obtain ⟨fmt', ap', hres, hr⟩ := vsnprintf_put hf h1 hmax hput
  have hcomplete : (q.result fmt').total < maxSize - 1 → Complete fields (q.result fmt') := by
    intro hlt
    obtain ⟨rfl, htotal⟩ := (putRun_of_ok hput).total hn rfl hlt
    have hlen : q.total = (render fields).length := by simpa using htotal
    have hlt' : q.total < maxSize - 1 := hlt
    have hc : EachField (maxSize - 1) (Field.Clean (maxSize - 1)) 0 0 fields :=
      eachField_clean hn (by omega)
    obtain ⟨q', left', hput', happ⟩ := putFields_clean (p := {}) hc
    rw [hput] at hput'
    obtain ⟨rfl, -⟩ := Prod.mk.inj (Except.ok.inj hput')
    rw [List.take_of_length_le (by simp only; omega)] at happ
    have hleaves := leaves_of_appends happ fmt'
    have htoNat : (q.result fmt').total.toNat = (render fields).length := by
      have : (q.result fmt').total = q.total := rfl
      omega
    constructor
    · generalize hfmt : fmt' = g at hr
      cases hr
      rfl
    · exact hlen
    · exact wrapInt_eq (by simp only [INT_MIN]; omega) (by omega)
    · rw [htoNat]
      exact hleaves.bytes
    · rw [htoNat]
      exact hleaves.nul
    · rw [htoNat]
      refine ⟨q.stores, ?_, ?_⟩
      · have hpos : q.pos = (render fields).length := by rw [happ.pos, Nat.zero_add]
        rw [← hpos]
        rfl
      · rw [happ.volume]
        exact Nat.zero_add _
  refine ⟨_, hres, hcomplete, ?_⟩
  intro h
  by_contra hlt
  exact h (hcomplete (by omega))

def plainNumber : CString := ⟨bytes "n=%d", by decide⟩

theorem plainNumber_fields : FieldsOf (wrapping .lp64) (fun _ => none) plainNumber
    (LittleEndian.encode 8 42)
    [.literal (byte 'n'), .literal (byte '='), .padded ⟨false, -1, bytes "42"⟩] [] :=
  .field (by decide) rfl (.field (by decide) rfl (.field (by decide) rfl (.done _ _)))

theorem vsnprintf_total_plainNumber :
    ∃ res, vsnprintf (wrapping .lp64) (fun _ => none) 4 plainNumber (LittleEndian.encode 8 42) =
        .ok res ∧
      (res.total < (4 : ℕ) - 1 → Complete
        [.literal (byte 'n'), .literal (byte '='), .padded ⟨false, -1, bytes "42"⟩] res) ∧
      (¬ Complete [.literal (byte 'n'), .literal (byte '='), .padded ⟨false, -1, bytes "42"⟩] res →
        ((4 : ℕ) - 1 : ℤ) ≤ res.total) :=
  vsnprintf_total plainNumber_fields (by decide) (by decide) (by decide)

end OsdevLibstdc.Vsnprintf
