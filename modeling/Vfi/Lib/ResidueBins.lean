import Mathlib.Data.List.Nodup
import Mathlib.Data.List.Perm.Subperm
import Mathlib.Data.Nat.Basic

/-!
# A range of integers in residue bins

The `n` integers from `first` on are spread over `h` bins by their distance from
`first` modulo `h`. The bins' sizes never grow with the bin number and differ by
at most one, so a bin that is as full as it can be bounds what the others hold.
-/

namespace ResidueBins

variable {first x : Int} {n h i j : Nat} {l : List Int}

/-- How many of the integers fall into bin `i`. -/
def capacity (n h i : Nat) : Nat := (n + h - 1 - i) / h

theorem capacity_antitone (hij : i ≤ j) : capacity n h j ≤ capacity n h i :=
  Nat.div_le_div_right (by omega)

theorem capacity_le_succ (hi : i < h) : capacity n h j ≤ capacity n h i + 1 := by
  rw [capacity, capacity, ← Nat.add_div_right _ (by omega)]
  exact Nat.div_le_div_right (by omega)

theorem lt_capacity_iff {k : Nat} (hi : i < h) : k < capacity n h i ↔ i + k * h < n := by
  rw [capacity, Nat.lt_div_iff_mul_lt (by omega)]
  rw [Nat.mul_comm]
  omega

/-- The integer that comes after all of them belongs to the first of the smallest bins. -/
theorem add_capacity_mul (hi : i < h) (hpos : 0 < capacity n h i)
    (hbefore : ∀ j < i, capacity n h i < capacity n h j)
    (hleast : ∀ j < h, capacity n h i ≤ capacity n h j) : i + capacity n h i * h = n := by
  have hend : ¬ i + capacity n h i * h < n := (lt_capacity_iff hi).not.mp (Nat.lt_irrefl _)
  cases i with
  | zero =>
    have hlast := (lt_capacity_iff (n := n) (k := capacity n h 0 - 1) (i := h - 1) (by omega)).mp
      (Nat.lt_of_lt_of_le (by omega) (hleast (h - 1) (by omega)))
    have hround : capacity n h 0 * h = (capacity n h 0 - 1) * h + h := by
      rw [← Nat.succ_mul]
      congr 1
      omega
    omega
  | succ i =>
    have hlast := (lt_capacity_iff (n := n) (i := i) (by omega)).mp (hbefore i (Nat.lt_succ_self i))
    omega

/-- The integers of bin `i`. -/
def members (first : Int) (n h i : Nat) : List Int :=
  (List.range (capacity n h i)).map fun k => first + (i + k * h : Nat)

@[simp] theorem length_members : (members first n h i).length = capacity n h i := by
  simp [members]

theorem nodup_members (hh : 0 < h) : (members first n h i).Nodup := by
  refine List.Nodup.map (fun k k' hk => ?_) List.nodup_range
  have hmul : k * h = k' * h := by omega
  exact Nat.eq_of_mul_eq_mul_right hh hmul

theorem mem_members (hi : i < h) :
    x ∈ members first n h i ↔ first ≤ x ∧ x < first + n ∧ (x - first).toNat % h = i := by
  simp only [members, List.mem_map, List.mem_range, lt_capacity_iff hi]
  constructor
  · rintro ⟨k, hk, rfl⟩
    refine ⟨by omega, by omega, ?_⟩
    have hsub : (first + (i + k * h : Nat) - first).toNat = i + k * h := by omega
    rw [hsub, Nat.add_mul_mod_self_right, Nat.mod_eq_of_lt hi]
  · rintro ⟨hle, hlt, hmod⟩
    have hdiv : i + (x - first).toNat / h * h = (x - first).toNat := by
      rw [← hmod, Nat.mul_comm]
      exact Nat.mod_add_div _ _
    exact ⟨(x - first).toNat / h, by omega, by omega⟩

/-- Distinct integers of a range are no more than the range has. -/
theorem length_le_of_range (hnodup : l.Nodup) (hl : ∀ x ∈ l, first ≤ x ∧ x < first + n) :
    l.length ≤ n := by
  have hsub : l ⊆ members first n 1 0 := by
    intro x hx
    rw [mem_members Nat.zero_lt_one]
    exact ⟨(hl x hx).1, (hl x hx).2, Nat.mod_one _⟩
  have hlen := (hnodup.subperm hsub).length_le
  rw [length_members, capacity, Nat.div_one] at hlen
  omega

/-- As many distinct members as a bin holds are all of them. -/
theorem members_subset (hnodup : l.Nodup) (hl : l ⊆ members first n h i)
    (hfull : capacity n h i ≤ l.length) : members first n h i ⊆ l :=
  ((hnodup.subperm hl).perm_of_length_le (by rwa [length_members])).symm.subset

theorem length_le_capacity (hnodup : l.Nodup) (hl : l ⊆ members first n h i) :
    l.length ≤ capacity n h i := by
  have hlen := (hnodup.subperm hl).length_le
  rwa [length_members] at hlen

/-- A list that has all members of a bin is at least as long as the bin is large. -/
theorem capacity_le_length (hh : 0 < h) (hl : members first n h i ⊆ l) :
    capacity n h i ≤ l.length := by
  have hperm := ((nodup_members hh).subperm hl).length_le
  rwa [length_members] at hperm

end ResidueBins
