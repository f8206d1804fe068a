import OsdevLibstdc.OverflowRuns
import OsdevLibstdc.ReturnedTotal

/-!
Calls of `vsnprintf` without signed overflow, for any format, arguments and buffer size.
-/

namespace OsdevLibstdc.Vsnprintf

open Target ByteStores Outcomes

structure NoOverflow (D : DataModel) (strings : Strings) (maxSize : ℕ) (fmt : CString)
    (ap : VaList) : Prop where
  steps : ∀ n st, Iterates (trapping D) strings (maxSize - 1) n (startState fmt ap) st →
    loopGuard (maxSize - 1) st = .ok true →
      loopStep (trapping D) strings (maxSize - 1) st ≠ .error .signedOverflow
  totals : ∀ n st, Iterates (trapping D) strings (maxSize - 1) n (startState fmt ap) st →
    0 ≤ st.out.spec.total ∧ st.out.spec.total ≤ INT_MAX
  returned : ∀ T : Machine, T.model = D → ∀ r, vsnprintf T strings maxSize fmt ap = .ok r →
    0 ≤ r.value

section Calls

variable {D : DataModel} {strings : Strings} {maxSize : ℕ} {fmt : CString} {ap : VaList}

theorem startState_counted (fmt : CString) (ap : VaList) : (startState fmt ap).Counted := by
  have hzero : (0 : ℤ) ≤ INT_MAX := by decide
  exact ⟨⟨le_rfl, hzero⟩, ⟨le_rfl, hzero⟩⟩

theorem machine_cases {T : Machine} (h : T.model = D) : T = wrapping D ∨ T = trapping D := by
  obtain ⟨model, overflow⟩ := T
  cases h
  cases overflow
  · exact .inl rfl
  · exact .inr rfl

theorem noOverflow_of_runInRange (hmax : (maxSize : ℤ) < INT_MAX)
    (h : RunInRange D strings (maxSize - 1) (startState fmt ap)) :
    NoOverflow D strings maxSize fmt ap := by
  have hm : (maxSize - 1 : ℤ) ≤ INT_MAX := by omega
  have hreach {T : Machine} (hT : T = wrapping D ∨ T = trapping D) {n : ℕ} {st : LoopState}
      (hit : Iterates T strings (maxSize - 1) n (startState fmt ap) st) :=
    iterates_inRange hT hm h (startState_counted fmt ap) hit
  constructor
  · intro n st hit hg
    obtain ⟨hwrap, hst⟩ := hreach (.inr rfl) hit
    obtain ⟨hsame, hclean⟩ := loopStep_inRange hst hm hg (h n st hwrap hg)
    rw [hsame]
    exact hclean
  · intro n st hit
    exact (hreach (.inr rfl) hit).2.total
  · intro T hT r hr
    by_cases h0 : maxSize = 0
    · rw [vsnprintf, if_pos h0] at hr
      cases hr
      exact le_rfl
    · rw [vsnprintf_eq T (by omega) hmax] at hr
      obtain ⟨st, hloop, hr⟩ := bind_eq_ok.mp hr
      obtain ⟨n, hit, -⟩ := loop_reaches hloop
      have htotal := (hreach (machine_cases hT) hit).2.total
      rw [arith_int_eq T (le_trans (by decide) htotal.1) htotal.2, ok_bind] at hr
      cases hr
      exact htotal.1

theorem runInRange_of_noOverflow (hmax : (maxSize : ℤ) < INT_MAX) {r : Result}
    (hr : vsnprintf (wrapping D) strings maxSize fmt ap = .ok r)
    (h : NoOverflow D strings maxSize fmt ap) :
    RunInRange D strings (maxSize - 1) (startState fmt ap) := by
  have hm : (maxSize - 1 : ℤ) ≤ INT_MAX := by omega
  intro n st hit hg
  refine inRange_of_iterates hm (startState_counted fmt ap) h.steps
    (fun n st hit => (h.totals n st hit).2) ?_ hit hg
  intro k t ht hguard
  have h1 : 1 ≤ maxSize := by
    obtain ⟨_, _, -, -, hlt⟩ := loopGuard_eq_true.mp hguard
    omega
  cases hstep : loopStep (wrapping D) strings (maxSize - 1) t with
  | ok t' => exact ⟨t', rfl⟩
  | error e =>
    rw [vsnprintf_eq _ h1 hmax, loop_from_start hmax ht, loop_step_error hguard hstep] at hr
    cases hr

theorem vsnprintf_noOverflow (hmax : (maxSize : ℤ) < INT_MAX) :
    (RunInRange D strings (maxSize - 1) (startState fmt ap) →
      NoOverflow D strings maxSize fmt ap) ∧
    ∀ r, vsnprintf (wrapping D) strings maxSize fmt ap = .ok r →
      (NoOverflow D strings maxSize fmt ap ↔
        RunInRange D strings (maxSize - 1) (startState fmt ap)) := by
  refine ⟨noOverflow_of_runInRange hmax, ?_⟩
  intro r hr
  constructor
  · exact runInRange_of_noOverflow hmax hr
  · exact noOverflow_of_runInRange hmax

end Calls

theorem vsnprintf_noOverflow_plainNumber :
    (RunInRange .lp64 (fun _ => none) ((10 : ℕ) - 1)
        (startState plainNumber (LittleEndian.encode 8 42)) →
      NoOverflow .lp64 (fun _ => none) 10 plainNumber (LittleEndian.encode 8 42)) ∧
    ∀ r, vsnprintf (wrapping .lp64) (fun _ => none) 10 plainNumber (LittleEndian.encode 8 42) =
        .ok r →
      (NoOverflow .lp64 (fun _ => none) 10 plainNumber (LittleEndian.encode 8 42) ↔
        RunInRange .lp64 (fun _ => none) ((10 : ℕ) - 1)
          (startState plainNumber (LittleEndian.encode 8 42))) :=
  vsnprintf_noOverflow (by decide)

def longLongNumber : CString := ⟨bytes "%lld", by decide⟩

theorem vsnprintf_not_noOverflow :
    ¬ ∀ (D : DataModel) (strings : Strings) (maxSize : ℕ) (fmt : CString) (ap : VaList),
      (maxSize : ℤ) < INT_MAX → NoOverflow D strings maxSize fmt ap := by
  intro h
  have hstep := (h .lp64 (fun _ => none) 30 longLongNumber (LittleEndian.encode 8 (2 ^ 63))
    (by decide)).steps 0 _ (.refl _) rfl
  revert hstep
  decide +kernel

end OsdevLibstdc.Vsnprintf
