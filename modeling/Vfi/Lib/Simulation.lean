import Mathlib.Data.List.Induction

/-!
# Machines that answer

A machine takes an input, moves to a next state and gives an answer. Two machines
whose states can be related so that each step gives the same answer and keeps the
relation give the same answers to every list of inputs.
-/

namespace Machine

variable {σ τ ι ο : Type*}

/-- The state after the inputs, with the answers in order. -/
def run (step : σ → ι → σ × ο) : σ → List ι → σ × List ο
  | s, [] => (s, [])
  | s, i :: rest =>
    let moved := step s i
    let later := run step moved.1 rest
    (later.1, moved.2 :: later.2)

theorem run_snoc (step : σ → ι → σ × ο) (s : σ) (inputs : List ι) (i : ι) :
    run step s (inputs ++ [i]) =
      ((step (run step s inputs).1 i).1,
        (run step s inputs).2 ++ [(step (run step s inputs).1 i).2]) := by
  induction inputs generalizing s with
  | nil => rfl
  | cons j rest ih => simp only [List.cons_append, run, ih]

/-- What relates the inputs so far, the state and the answers, and is kept by every
step, holds of every run. -/
theorem run_history {step : σ → ι → σ × ο} {s : σ} (Inv : List ι → σ → List ο → Prop)
    (hinit : Inv [] s [])
    (hstep : ∀ inputs t answers i, Inv inputs t answers →
      Inv (inputs ++ [i]) (step t i).1 (answers ++ [(step t i).2])) (inputs : List ι) :
    Inv inputs (run step s inputs).1 (run step s inputs).2 := by
  induction inputs using List.reverseRecOn with
  | nil => exact hinit
  | append_singleton inputs i ih =>
    rw [run_snoc]
    exact hstep inputs _ _ i ih

/-- The step of the one machine is matched by the step of the other. -/
def Matches (Rel : σ → τ → Prop) (stepS : σ → ι → σ × ο) (stepT : τ → ι → τ × ο) : Prop :=
  ∀ s t i, Rel s t → (stepS s i).2 = (stepT t i).2 ∧ Rel (stepS s i).1 (stepT t i).1

variable {Rel : σ → τ → Prop} {stepS : σ → ι → σ × ο} {stepT : τ → ι → τ × ο} {s : σ} {t : τ}

theorem Matches.run (h : Matches Rel stepS stepT) (hst : Rel s t) (inputs : List ι) :
    (run stepS s inputs).2 = (run stepT t inputs).2 ∧
      Rel (run stepS s inputs).1 (run stepT t inputs).1 := by
  induction inputs generalizing s t with
  | nil => exact ⟨rfl, hst⟩
  | cons i rest ih =>
    obtain ⟨hout, hnext⟩ := h s t i hst
    obtain ⟨hrest, hfinal⟩ := ih hnext
    exact ⟨congrArg₂ List.cons hout hrest, hfinal⟩

end Machine
