import Mathlib.Data.List.Nodup
import Mathlib.Data.List.Perm.Basic
import Mathlib.Logic.Function.Basic

/-!
# Copying cells

A memory after a list of moves, each from one cell to another. Where the cells
written are distinct and none of them is read, the order of the moves is of no
matter and every cell written holds what its source held at first.
-/

namespace Copying

variable {κ β ι : Type*} [DecidableEq κ]

/-- The memory after the moves of `ps` in turn, each from its first cell to its second. -/
def copyAll (ps : List (κ × κ)) (m : κ → β) : κ → β :=
  ps.foldl (fun m p => Function.update m p.2 (m p.1)) m

variable {ps qs : List (κ × κ)} {m : κ → β} {p : κ × κ} {c : κ}

@[simp] theorem copyAll_nil : copyAll [] m = m := rfl

@[simp] theorem copyAll_cons :
    copyAll (p :: ps) m = copyAll ps (Function.update m p.2 (m p.1)) := rfl

theorem copyAll_append : copyAll (ps ++ qs) m = copyAll qs (copyAll ps m) :=
  List.foldl_append

theorem foldl_copyAll (f : ι → List (κ × κ)) (l : List ι) (m : κ → β) :
    l.foldl (fun m x => copyAll (f x) m) m = copyAll (l.flatMap f) m := by
  induction l generalizing m with
  | nil => rfl
  | cons x l ih => rw [List.foldl_cons, List.flatMap_cons, copyAll_append, ih]

theorem copyAll_frame (h : c ∉ ps.map Prod.snd) : copyAll ps m c = m c := by
  induction ps generalizing m with
  | nil => rfl
  | cons p ps ih =>
    rw [List.map_cons, List.mem_cons, not_or] at h
    rw [copyAll_cons, ih h.2, Function.update_of_ne h.1]

theorem copyAll_of_mem (hdst : (ps.map Prod.snd).Nodup)
    (hdisj : List.Disjoint (ps.map Prod.fst) (ps.map Prod.snd)) (h : p ∈ ps) :
    copyAll ps m p.2 = m p.1 := by
  induction ps generalizing m with
  | nil => cases h
  | cons q ps ih =>
    rw [List.map_cons, List.nodup_cons] at hdst
    rw [copyAll_cons]
    cases h with
    | head => rw [copyAll_frame hdst.1, Function.update_self]
    | tail _ h =>
      have hread : p.1 ≠ q.2 := by
        intro heq
        exact hdisj (List.mem_map_of_mem (List.mem_cons_of_mem q h)) (by simp [heq])
      rw [ih hdst.2 ?_ h, Function.update_of_ne hread]
      exact fun c hc hc' => hdisj (List.mem_cons_of_mem _ hc) (List.mem_cons_of_mem _ hc')

theorem copyAll_perm (h : ps.Perm qs) (hdst : (ps.map Prod.snd).Nodup)
    (hdisj : List.Disjoint (ps.map Prod.fst) (ps.map Prod.snd)) : copyAll ps m = copyAll qs m := by
  have hdst' : (qs.map Prod.snd).Nodup := (h.map _).nodup_iff.mp hdst
  have hdisj' : List.Disjoint (qs.map Prod.fst) (qs.map Prod.snd) := fun c hc hc' =>
    hdisj ((h.map _).mem_iff.mpr hc) ((h.map _).mem_iff.mpr hc')
  funext c
  by_cases hc : c ∈ ps.map Prod.snd
  · obtain ⟨p, hp, rfl⟩ := List.mem_map.mp hc
    rw [copyAll_of_mem hdst hdisj hp, copyAll_of_mem hdst' hdisj' (h.mem_iff.mp hp)]
  · rw [copyAll_frame hc, copyAll_frame fun hc' => hc ((h.map _).mem_iff.mpr hc')]

end Copying
