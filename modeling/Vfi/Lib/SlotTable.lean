import Mathlib.Data.List.Basic
import Mathlib.Logic.Function.Basic

/-!
# Tables scanned up to the first free slot

An array of slots that are free or taken, scanned from the front for a key. The
scan sees the entries before the first free slot and none behind it.
-/

namespace SlotTable

abbrev Slots (α : Type*) := Nat → Option α

variable {α κ : Type*} {slots : Slots α} {cap i : Nat} {l : List α} {a : α}

/-- The table holds the entries in order, and its other slots are free. -/
structure Fills (slots : Slots α) (cap : Nat) (l : List α) : Prop where
  length_le : l.length ≤ cap
  slot : ∀ i < cap, slots i = l[i]?

/-- The table starts with the entries, and then has a free slot or ends. -/
structure Starts (slots : Slots α) (cap : Nat) (l : List α) : Prop where
  length_le : l.length ≤ cap
  entry : ∀ i < l.length, slots i = l[i]?
  free : l.length < cap → slots l.length = none

theorem fills_nil : Fills (fun _ => none : Slots α) cap [] :=
  ⟨Nat.zero_le _, fun _ _ => rfl⟩

theorem Fills.starts (h : Fills slots cap l) : Starts slots cap l where
  length_le := h.length_le
  entry i hi := h.slot i (Nat.lt_of_lt_of_le hi h.length_le)
  free hlt := by rw [h.slot _ hlt, List.getElem?_eq_none (Nat.le_refl _)]

theorem getElem?_concat_of_ne (h : i ≠ l.length) : (l ++ [a])[i]? = l[i]? := by
  rcases Nat.lt_or_gt_of_ne h with hlt | hgt
  · rw [List.getElem?_append_left hlt]
  · rw [List.getElem?_eq_none (Nat.le_of_lt hgt), List.getElem?_eq_none]
    rw [List.length_append]
    exact hgt

/-- An entry put into the first free slot. -/
theorem Fills.snoc (h : Fills slots cap l) (hlt : l.length < cap) (a : α) :
    Fills (Function.update slots l.length (some a)) cap (l ++ [a]) := by
  refine ⟨by rw [List.length_append]; exact hlt, fun i hi => ?_⟩
  by_cases hil : i = l.length
  · subst hil
    rw [Function.update_self, List.getElem?_concat_length]
  · rw [Function.update_of_ne hil, h.slot i hi, getElem?_concat_of_ne hil]

/-- The last entry taken out. -/
theorem Fills.pop (h : Fills slots cap (l ++ [a])) :
    Fills (Function.update slots l.length none) cap l := by
  have hlen : l.length + 1 ≤ cap := by simpa using h.length_le
  refine ⟨by omega, fun i hi => ?_⟩
  by_cases hil : i = l.length
  · subst hil
    rw [Function.update_self, List.getElem?_eq_none (Nat.le_refl _)]
  · rw [Function.update_of_ne hil, h.slot i hi, getElem?_concat_of_ne hil]

/-- Any entry taken out: only those before it can still be seen. -/
theorem Fills.hole (h : Fills slots cap l) (hi : i < l.length) :
    Starts (Function.update slots i none) cap (l.take i) := by
  have hlen : (l.take i).length = i := List.length_take_of_le (Nat.le_of_lt hi)
  refine ⟨?_, fun j hj => ?_, fun _ => ?_⟩
  · rw [hlen]
    exact Nat.le_trans (Nat.le_of_lt hi) h.length_le
  · rw [hlen] at hj
    rw [Function.update_of_ne (Nat.ne_of_lt hj), List.getElem?_take_of_lt hj]
    exact h.starts.entry j (Nat.lt_trans hj hi)
  · rw [hlen, Function.update_self]

section Scan

variable [DecidableEq κ] (key : α → κ) (k : κ)

/-- The slot the scan ends at, among `left` of them from `i` on, and the entry there
if it has the key. -/
def scan (slots : Slots α) : Nat → Nat → Nat × Option α
  | 0, i => (i, none)
  | left + 1, i =>
    match slots i with
    | none => (i, none)
    | some a => if key a = k then (i, some a) else scan slots left (i + 1)

variable {key k}

theorem scan_from {left : Nat} (hlen : l.length ≤ left)
    (hentry : ∀ j < l.length, slots (i + j) = l[j]?)
    (hfree : l.length < left → slots (i + l.length) = none) :
    scan key k slots left i = (i + l.findIdx (key · = k), l.find? (key · = k)) := by
  induction l generalizing left i with
  | nil =>
    cases left with
    | zero => simp [scan]
    | succ left => simp [scan, show slots i = none from hfree (Nat.succ_pos _)]
  | cons a rest ih =>
    cases left with
    | zero => cases hlen
    | succ left =>
      have hhead : slots i = some a := hentry 0 (Nat.succ_pos _)
      by_cases hkey : key a = k
      · simp [scan, hhead, hkey, List.findIdx_cons]
      · have htail := ih (i := i + 1) (Nat.le_of_succ_le_succ hlen)
          (fun j hj => by
            rw [Nat.add_assoc, Nat.add_comm 1]
            exact hentry (j + 1) (Nat.succ_lt_succ hj))
          (fun hlt => by
            rw [Nat.add_assoc, Nat.add_comm 1]
            exact hfree (Nat.succ_lt_succ hlt))
        simp [scan, hhead, hkey, htail, List.findIdx_cons]
        omega

/-- The scan is the search of the entries the table starts with. -/
theorem Starts.scan_eq (h : Starts slots cap l) :
    scan key k slots cap 0 = (l.findIdx (key · = k), l.find? (key · = k)) := by
  rw [scan_from h.length_le (i := 0), Nat.zero_add]
  · intro j hj
    rw [Nat.zero_add]
    exact h.entry j hj
  · intro hlt
    rw [Nat.zero_add]
    exact h.free hlt

end Scan

end SlotTable
