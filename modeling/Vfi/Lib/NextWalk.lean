import Mathlib.Computability.StateTransition
import Mathlib.Data.List.Nodup
import Mathlib.Logic.Function.Basic

/-!
# Walking next pointers

A walk visits a node and follows its next pointer until there is none. A walk
that ends visits every reachable node once; setting a pointer that was none
keeps all walks finite unless it closes a cycle.
-/

namespace NextWalk

open StateTransition (Reaches)

variable {ν : Type*}

/-- The nodes visited, for at most so many of them. -/
def walk (next : ν → Option ν) : Nat → Option ν → Option (List ν)
  | _, none => some []
  | 0, some _ => none
  | fuel + 1, some x => (walk next fuel (next x)).map (x :: ·)

/-- The walk from a pointer ends, and visits the nodes of the list. -/
inductive Walks (next : ν → Option ν) : Option ν → List ν → Prop where
  | nil : Walks next none []
  | cons {x : ν} {l : List ν} : Walks next (next x) l → Walks next (some x) (x :: l)

variable {next : ν → Option ν} {x y a b : ν} {p : Option ν} {l m : List ν} {fuel : Nat}

theorem walks_iff : Walks next p l ↔ ∃ fuel, walk next fuel p = some l := by
  constructor
  · intro h
    induction h with
    | nil => exact ⟨0, rfl⟩
    | cons _ ih =>
      obtain ⟨fuel, hwalk⟩ := ih
      exact ⟨fuel + 1, by simp [walk, hwalk]⟩
  · rintro ⟨fuel, hwalk⟩
    induction fuel generalizing p l with
    | zero =>
      cases p with
      | none =>
        simp [walk] at hwalk
        subst hwalk
        exact .nil
      | some x => simp [walk] at hwalk
    | succ fuel ih =>
      cases p with
      | none =>
        simp [walk] at hwalk
        subst hwalk
        exact .nil
      | some x =>
        simp only [walk, Option.map_eq_some_iff] at hwalk
        obtain ⟨l, hl, rfl⟩ := hwalk
        exact .cons (ih hl)

theorem Walks.unique (h : Walks next p l) (h' : Walks next p m) : l = m := by
  induction h generalizing m with
  | nil =>
    cases h'
    rfl
  | cons _ ih =>
    cases h' with
    | cons h' => rw [ih h']

/-- The walk from a node that is visited is the rest of the walk. -/
theorem Walks.suffix (h : Walks next p l) (hmem : x ∈ l) :
    ∃ before rest, l = before ++ rest ∧ Walks next (some x) rest := by
  induction h with
  | nil => simp at hmem
  | @cons y l hl ih =>
    rcases List.mem_cons.mp hmem with rfl | hmem
    · exact ⟨[], _, rfl, .cons hl⟩
    · obtain ⟨before, rest, rfl, hrest⟩ := ih hmem
      exact ⟨y :: before, rest, rfl, hrest⟩

/-- No node is visited twice: the walk from it would be shorter the second time. -/
theorem Walks.nodup (h : Walks next p l) : l.Nodup := by
  induction h with
  | nil => exact .nil
  | @cons x l hl ih =>
    refine List.nodup_cons.mpr ⟨fun hmem => ?_, ih⟩
    obtain ⟨before, rest, hsplit, hrest⟩ := hl.suffix hmem
    have hlength := congrArg List.length hsplit
    rw [← Walks.unique (.cons hl) hrest, List.length_append, List.length_cons] at hlength
    omega

theorem reaches_cases : Reaches next x y ↔ x = y ∨ ∃ z, next x = some z ∧ Reaches next z y :=
  Relation.ReflTransGen.cases_head_iff

theorem Walks.mem_iff (h : Walks next (some x) l) : y ∈ l ↔ Reaches next x y := by
  generalize hp : some x = p at h
  induction h generalizing x with
  | nil => simp at hp
  | @cons z l hl ih =>
    obtain rfl := Option.some.inj hp
    rw [List.mem_cons, reaches_cases, eq_comm (a := y)]
    refine or_congr_right ?_
    cases hnext : next x with
    | none =>
      rw [hnext] at hl
      cases hl
      simp
    | some z =>
      rw [ih hnext.symm]
      simp

-- ---------------------------------------------------------------------------
-- Setting a pointer
-- ---------------------------------------------------------------------------

variable [DecidableEq ν]

/-- A walk that does not come to the node stays as it is. -/
theorem Walks.update (h : Walks next p l) (ha : a ∉ l) :
    Walks (Function.update next a (some b)) p l := by
  induction h with
  | nil => exact .nil
  | @cons x l _ ih =>
    rw [List.mem_cons, not_or] at ha
    refine .cons ?_
    rw [Function.update_of_ne (Ne.symm ha.1)]
    exact ih ha.2

/-- A walk that comes to the node goes on from there. -/
theorem Walks.link (h : Walks next p l) (hb : Walks next (some b) m) (ha : a ∉ m) :
    ∃ l, Walks (Function.update next a (some b)) p l := by
  induction h with
  | nil => exact ⟨[], .nil⟩
  | @cons x l _ ih =>
    by_cases hx : x = a
    · subst hx
      refine ⟨x :: m, .cons ?_⟩
      rw [Function.update_self]
      exact hb.update ha
    · obtain ⟨l', hl'⟩ := ih
      refine ⟨x :: l', .cons ?_⟩
      rw [Function.update_of_ne hx]
      exact hl'

/-- What is reached without the pointer is reached with it. -/
theorem reaches_update (ha : next a = none) (h : Reaches next x y) :
    Reaches (Function.update next a (some b)) x y := by
  refine Relation.ReflTransGen.mono ?_ _ _ h
  intro u v huv
  have hu : u ≠ a := by
    rintro rfl
    simp [ha] at huv
  rwa [Function.update_of_ne hu]

/-- A pointer to a node from which one comes back closes a cycle. -/
theorem not_walks_of_cycle (ha : next a = none) (hcycle : Reaches next b a) :
    ¬ ∃ l, Walks (Function.update next a (some b)) (some a) l := by
  rintro ⟨l, hl⟩
  have hnodup := hl.nodup
  cases hl with
  | cons hrest =>
    rw [Function.update_self] at hrest
    exact (List.nodup_cons.mp hnodup).1 (hrest.mem_iff.mpr (reaches_update ha hcycle))

end NextWalk
