import Mathlib.Logic.Basic

/-!
# Runs of partial transition functions

A run lists the actions taken, each with the state it led to. Statements about
runs quantify over their steps (`Each`), and the induction rules below lift a
step lemma under an invariant to whole runs.
-/

namespace Transition

variable {σ α : Type*} {R S : σ → α → σ → Prop} {step : σ → α → Option σ} {s t : σ}
  {tr : List (α × σ)}

/-- `R` relates the two states and the action of every step of the run. -/
def Each (R : σ → α → σ → Prop) : σ → List (α × σ) → Prop
  | _, [] => True
  | s, (a, t) :: rest => R s a t ∧ Each R t rest

@[simp] theorem each_nil : Each R s [] := trivial

@[simp] theorem each_cons : Each R s ((a, t) :: tr) ↔ R s a t ∧ Each R t tr := Iff.rfl

instance decidableEach [∀ s a t, Decidable (R s a t)] :
    (s : σ) → (tr : List (α × σ)) → Decidable (Each R s tr)
  | _, [] => isTrue trivial
  | s, (a, t) :: rest =>
    have := decidableEach t rest
    inferInstanceAs (Decidable (R s a t ∧ Each R t rest))

/-- Every action of the run is enabled where it is taken. -/
abbrev IsRun (step : σ → α → Option σ) : σ → List (α × σ) → Prop :=
  Each fun s a t => step s a = some t

/-- The run that takes the given actions, skipping those that are not enabled. -/
def follow (step : σ → α → Option σ) : σ → List α → List (α × σ)
  | _, [] => []
  | s, a :: rest =>
    match step s a with
    | some t => (a, t) :: follow step t rest
    | none => follow step s rest

theorem isRun_follow (step : σ → α → Option σ) (s : σ) (acts : List α) :
    IsRun step s (follow step s acts) := by
  induction acts generalizing s with
  | nil => trivial
  | cons a rest ih =>
    unfold follow
    split
    · next t h => exact ⟨h, ih t⟩
    · exact ih s

theorem mem_follow {acts : List α} {entry : α × σ} (h : entry ∈ follow step s acts) :
    entry.1 ∈ acts := by
  induction acts generalizing s with
  | nil => cases h
  | cons a rest ih =>
    unfold follow at h
    split at h
    · rcases List.mem_cons.mp h with rfl | h
      · exact List.mem_cons_self
      · exact List.mem_cons_of_mem _ (ih h)
    · exact List.mem_cons_of_mem _ (ih h)

/-- The state a run ends in. -/
def final : σ → List (α × σ) → σ
  | s, [] => s
  | _, (_, t) :: rest => final t rest

@[simp] theorem final_append {tr' : List (α × σ)} :
    final s (tr ++ tr') = final (final s tr) tr' := by
  induction tr generalizing s with
  | nil => rfl
  | cons entry rest ih => exact ih

theorem each_append {tr' : List (α × σ)} :
    Each R s (tr ++ tr') ↔ Each R s tr ∧ Each R (final s tr) tr' := by
  induction tr generalizing s with
  | nil => simp [final]
  | cons entry rest ih =>
    obtain ⟨a, t⟩ := entry
    simp only [List.cons_append, each_cons, final, ih, and_assoc]

theorem Each.mono (h : ∀ s a t, R s a t → S s a t) (hr : Each R s tr) : Each S s tr := by
  induction tr generalizing s with
  | nil => trivial
  | cons entry rest ih => exact ⟨h _ _ _ hr.1, ih hr.2⟩

/-- What is true of every step with such an action is true of the steps of a run of them. -/
theorem each_of_forall {ok : α → Prop} (h : ∀ s a t, ok a → R s a t) :
    ∀ (s : σ) (tr : List (α × σ)), (∀ entry ∈ tr, ok entry.1) → Each R s tr
  | _, [], _ => trivial
  | s, (a, t) :: rest, hok => ⟨h s a t (hok _ List.mem_cons_self),
      each_of_forall h t rest fun entry hmem => hok entry (List.mem_cons_of_mem _ hmem)⟩

theorem each_and :
    Each (fun s a t => R s a t ∧ S s a t) s tr ↔ Each R s tr ∧ Each S s tr := by
  induction tr generalizing s with
  | nil => simp
  | cons entry rest ih =>
    obtain ⟨a, t⟩ := entry
    simp only [each_cons, ih]
    exact and_and_and_comm

/-- A step lemma lifts to runs: if `R` keeps the invariant, it holds before and
after every step. -/
theorem Each.invariant (Inv : σ → Prop) (hs : Inv s)
    (hstep : ∀ s a t, Inv s → R s a t → Inv t) (hr : Each R s tr) :
    Each (fun s a t => Inv s ∧ R s a t ∧ Inv t) s tr := by
  induction tr generalizing s with
  | nil => trivial
  | cons entry rest ih =>
    have ht := hstep _ _ _ hs hr.1
    exact ⟨⟨hs, hr.1, ht⟩, ih ht hr.2⟩

/-- An invariant that every step keeps holds where the run ends. -/
theorem Each.final (Inv : σ → Prop) (hs : Inv s)
    (hstep : ∀ s a t, Inv s → R s a t → Inv t) (hr : Each R s tr) : Inv (final s tr) := by
  induction tr generalizing s with
  | nil => exact hs
  | cons entry rest ih => exact ih (hstep _ _ _ hs hr.1) hr.2

/-- What one step gives under the invariant holds of every step of a run. -/
theorem Each.of_invariant (Inv : σ → Prop) (hs : Inv s)
    (hstep : ∀ s a t, Inv s → R s a t → Inv t ∧ S s a t) (hr : Each R s tr) :
    Each S s tr :=
  (hr.invariant Inv hs fun s a t hi h => (hstep s a t hi h).1).mono
    fun s a t h => (hstep s a t h.1 h.2.1).2

/-- Where each step meets `S` exactly under `ok`, and `S` keeps the invariant
that says so, a whole run meets `S` exactly when each of its steps is `ok`. -/
theorem Each.iff_of_invariant (Inv : σ → Prop) {ok : σ → α → σ → Prop} (hs : Inv s)
    (hstep : ∀ s a t, Inv s → R s a t → (S s a t ↔ ok s a t))
    (hkeep : ∀ s a t, Inv s → R s a t → ok s a t → Inv t) (hr : Each R s tr) :
    Each S s tr ↔ Each ok s tr := by
  induction tr generalizing s with
  | nil => simp
  | cons entry rest ih =>
    obtain ⟨a, t⟩ := entry
    simp only [each_cons, hstep _ _ _ hs hr.1]
    exact and_congr_right fun hok => ih (hkeep _ _ _ hs hr.1 hok) hr.2

end Transition
