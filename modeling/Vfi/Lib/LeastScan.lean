import Mathlib.Data.List.Induction
import Mathlib.Order.Lattice

/-!
# Scanning for a least element

A scan that starts from a candidate and moves to every element with a smaller value
ends at the candidate, if nothing is smaller, and else at the first of the least.
-/

namespace LeastScan

variable {α β : Type*} [LinearOrder α] [LinearOrder β] {f : α → β} {start r r' : α} {l : List α}

/-- Where the scan of `l` from `start` ends. -/
def least (f : α → β) (start : α) (l : List α) : α :=
  l.foldl (fun best i => if f i < f best then i else best) start

/-- No value is smaller; and a smaller one than the candidate's has no equal before it. -/
structure IsLeast (f : α → β) (start : α) (l : List α) (r : α) : Prop where
  le : ∀ i ∈ l, f r ≤ f i
  le_start : f r ≤ f start
  first : r = start ∨ r ∈ l ∧ f r < f start ∧ ∀ i ∈ l, i < r → f r < f i

/-- For elements in increasing order. -/
theorem isLeast_least (h : l.Pairwise (· < ·)) : IsLeast f start l (least f start l) := by
  induction l using List.reverseRecOn with
  | nil => exact ⟨fun i hi => absurd hi List.not_mem_nil, le_refl _, .inl rfl⟩
  | append_singleton l x ih =>
    obtain ⟨hl, -, hlt⟩ := List.pairwise_append.mp h
    obtain ⟨hle, hstart, hfirst⟩ := ih hl
    rw [least, List.foldl_append, List.foldl_cons, List.foldl_nil]
    change IsLeast f start (l ++ [x]) (if f x < f (least f start l) then x else least f start l)
    split
    · next hx =>
      refine ⟨fun i hi => ?_, (le_of_lt hx).trans hstart, .inr ⟨by simp, hx.trans_le hstart, ?_⟩⟩
      · rcases List.mem_append.mp hi with hi | hi
        · exact (le_of_lt hx).trans (hle i hi)
        · rw [List.mem_singleton.mp hi]
      · intro i hi hix
        rcases List.mem_append.mp hi with hi | hi
        · exact hx.trans_le (hle i hi)
        · rw [List.mem_singleton.mp hi] at hix
          exact absurd hix (lt_irrefl x)
    · next hx =>
      refine ⟨fun i hi => ?_, hstart, hfirst.imp_right ?_⟩
      · rcases List.mem_append.mp hi with hi | hi
        · exact hle i hi
        · rw [List.mem_singleton.mp hi]
          exact le_of_not_gt hx
      · rintro ⟨hmem, hsmall, hbefore⟩
        refine ⟨List.mem_append_left _ hmem, hsmall, fun i hi hir => ?_⟩
        rcases List.mem_append.mp hi with hi | hi
        · exact hbefore i hi hir
        · rw [List.mem_singleton.mp hi] at hir
          exact absurd hir (not_lt_of_ge (le_of_lt (hlt _ hmem x (List.mem_singleton_self x))))

theorem IsLeast.unique (h : IsLeast f start l r) (h' : IsLeast f start l r') : r = r' := by
  rcases h.first with rfl | ⟨hr, hlt, hbefore⟩
  · rcases h'.first with rfl | ⟨hr', hlt', -⟩
    · rfl
    · exact absurd hlt' (not_lt_of_ge (h.le r' hr'))
  · rcases h'.first with rfl | ⟨hr', hlt', hbefore'⟩
    · exact absurd hlt (not_lt_of_ge (h'.le r hr))
    · rcases lt_trichotomy r r' with hrr | rfl | hrr
      · exact absurd (hbefore' r hr hrr) (not_lt_of_ge (h.le r' hr'))
      · rfl
      · exact absurd (hbefore r' hr' hrr) (not_lt_of_ge (h'.le r hr))

theorem isLeast_iff (h : l.Pairwise (· < ·)) : IsLeast f start l r ↔ least f start l = r := by
  constructor
  · exact (isLeast_least h).unique
  · rintro rfl
    exact isLeast_least h

end LeastScan
