import Vfi.Lib.Transition
import Mathlib.Algebra.BigOperators.Group.Finset.Basic
import Mathlib.Algebra.Ring.Nat

/-!
# Potentials of runs

A step that pays takes one off the potential, and what adds to the potential is
charged to a budget. So a run has no more paying steps than its budget allows,
and one of paying steps alone comes to an end.
-/

namespace Transition

variable {σ α : Type*} {R : σ → α → σ → Prop} {step : σ → α → Option σ} {s t : σ}
  {tr : List (α × σ)}

theorem Each.countP_add_le (Φ budget : σ → Nat) (pays : α → Bool) (Inv : σ → Prop) (hs : Inv s)
    (hstep : ∀ s a t, Inv s → R s a t →
      Inv t ∧ Φ t + (pays a).toNat + budget s ≤ Φ s + budget t)
    (hr : Each R s tr) :
    tr.countP (fun entry => pays entry.1) + Φ (Transition.final s tr) + budget s ≤
      Φ s + budget (Transition.final s tr) := by
  induction tr generalizing s with
  | nil => simp [Transition.final]
  | cons entry rest ih =>
    obtain ⟨a, t⟩ := entry
    obtain ⟨ht, hpay⟩ := hstep s a t hs hr.1
    have hrest := ih ht hr.2
    rw [List.countP_cons]
    simp only [Transition.final]
    cases hp : pays a with
    | true =>
      rw [hp, Bool.toNat_true] at hpay
      simp only [if_true]
      omega
    | false =>
      rw [hp, Bool.toNat_false] at hpay
      simp only [Bool.false_eq_true, if_false]
      omega

/-- Paying steps can be taken until none is possible. -/
theorem exists_run_settled (Φ : σ → Nat) (pays : α → Bool) (Inv : σ → Prop) (hs : Inv s)
    (hstep : ∀ s a t, Inv s → step s a = some t → pays a = true → Inv t ∧ Φ t < Φ s) :
    ∃ tr, IsRun step s tr ∧ (∀ entry ∈ tr, pays entry.1 = true) ∧
      ∀ a t, step (final s tr) a = some t → pays a = false := by
  induction hn : Φ s using Nat.strong_induction_on generalizing s with
  | _ n ih =>
    by_cases hnext : ∃ a t, step s a = some t ∧ pays a = true
    · obtain ⟨a, t, ha, hp⟩ := hnext
      obtain ⟨ht, hlt⟩ := hstep s a t hs ha hp
      obtain ⟨tr, hrun, hpays, hend⟩ := ih _ (hn ▸ hlt) ht rfl
      refine ⟨(a, t) :: tr, ⟨ha, hrun⟩, ?_, hend⟩
      rintro entry (_ | ⟨_, hmem⟩)
      · exact hp
      · exact hpays entry hmem
    · refine ⟨[], trivial, by simp, fun a t ha => ?_⟩
      cases hp : pays a with
      | false => rfl
      | true => exact absurd ⟨a, t, ha, hp⟩ hnext

end Transition

/-- The change of a sum of which one term has changed. -/
theorem Finset.sum_add_le_of_one {κ : Type*} [DecidableEq κ] {S : Finset κ} {f g : κ → Nat} {k : κ}
    {m n : Nat} (hk : k ∈ S) (hothers : ∀ j ∈ S, j ≠ k → f j = g j) (h : f k + m ≤ g k + n) :
    ∑ j ∈ S, f j + m ≤ ∑ j ∈ S, g j + n := by
  rw [← Finset.add_sum_erase S f hk, ← Finset.add_sum_erase S g hk]
  have hrest : ∑ j ∈ S.erase k, f j = ∑ j ∈ S.erase k, g j :=
    Finset.sum_congr rfl fun j hj =>
      hothers j (Finset.mem_of_mem_erase hj) (Finset.ne_of_mem_erase hj)
  omega
