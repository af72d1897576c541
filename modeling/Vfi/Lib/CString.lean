import Mathlib.Algebra.BigOperators.Group.List.Basic
import Mathlib.Algebra.Ring.Nat
import Mathlib.Data.List.TakeWhile

/-!
# Terminated strings in a buffer

A buffer in which strings lie one behind the other, each ended by a terminator.
Writing the terminator over a character of a string cuts the string into two
and leaves the others as they are.
-/

namespace CString

variable {α : Type} {nul c x : α} {buf : List α} {p : Nat} {s t u : List α} {l ys : List (List α)}

/-- The room that strings take up with their terminators. -/
def room (l : List (List α)) : Nat := (l.map fun s => s.length + 1).sum

/-- From a place on, the buffer holds the strings. -/
structure Holds (nul : α) (buf : List α) (p : Nat) (l : List (List α)) : Prop where
  at_place : ∃ before after, buf = before ++ (l.flatMap (· ++ [nul]) ++ after) ∧ before.length = p
  plain : ∀ s ∈ l, nul ∉ s

theorem room_nil : room ([] : List (List α)) = 0 := rfl

theorem room_cons (s : List α) (l : List (List α)) : room (s :: l) = s.length + 1 + room l := by
  rw [room, List.map_cons, List.sum_cons, room]

theorem room_append (l ys : List (List α)) : room (l ++ ys) = room l + room ys := by
  rw [room, List.map_append, List.sum_append, room, room]

theorem length_flatMap (nul : α) (l : List (List α)) :
    (l.flatMap (· ++ [nul])).length = room l := by
  rw [List.length_flatMap, room]
  simp

/-- One of the strings, with what lies before and behind it. -/
theorem Holds.split (h : Holds nul buf p (l ++ s :: ys)) :
    ∃ before after, buf = before ++ (s ++ nul :: (ys.flatMap (· ++ [nul]) ++ after)) ∧
      before.length = p + room l := by
  obtain ⟨before, after, rfl, rfl⟩ := h.at_place
  refine ⟨before ++ l.flatMap (· ++ [nul]), after, ?_, ?_⟩
  · simp
  · rw [List.length_append, length_flatMap]

/-- The strings before a place can be left out. -/
theorem Holds.drop (h : Holds nul buf p (l ++ ys)) : Holds nul buf (p + room l) ys := by
  obtain ⟨before, after, rfl, rfl⟩ := h.at_place
  refine ⟨⟨before ++ l.flatMap (· ++ [nul]), after, ?_, ?_⟩, fun s hs => h.plain s ?_⟩
  · simp
  · rw [List.length_append, length_flatMap]
  · exact List.mem_append_right l hs

theorem Holds.set (h : Holds nul buf p (l ++ (t ++ c :: u) :: ys)) (x : α) :
    ∃ before after, buf.set (p + room l + t.length) x =
        before ++ (l.flatMap (· ++ [nul]) ++
          (t ++ x :: (u ++ nul :: (ys.flatMap (· ++ [nul]) ++ after)))) ∧
      before.length = p := by
  obtain ⟨before, after, rfl, rfl⟩ := h.at_place
  have hlength : (before ++ l.flatMap (· ++ [nul]) ++ t).length =
      before.length + room l + t.length := by
    rw [List.length_append, List.length_append, length_flatMap]
  have hbuf : before ++ ((l ++ (t ++ c :: u) :: ys).flatMap (· ++ [nul]) ++ after) =
      (before ++ l.flatMap (· ++ [nul]) ++ t) ++
        c :: (u ++ nul :: (ys.flatMap (· ++ [nul]) ++ after)) := by
    simp
  refine ⟨before, after, ?_, rfl⟩
  rw [hbuf, List.set_append_right _ _ (Nat.le_of_eq hlength), hlength, Nat.sub_self,
    List.set_cons_zero]
  simp

theorem Holds.plain_parts (h : Holds nul buf p (l ++ (t ++ c :: u) :: ys)) :
    nul ∉ t ∧ nul ∉ u ∧ ∀ s, s ∈ l ∨ s ∈ ys → nul ∉ s := by
  have hplain := h.plain (t ++ c :: u) (List.mem_append_right l List.mem_cons_self)
  rw [List.mem_append, List.mem_cons, not_or, not_or] at hplain
  refine ⟨hplain.1, hplain.2.2, fun s hs => h.plain s ?_⟩
  rw [List.mem_append, List.mem_cons]
  exact hs.imp_right .inr

/-- A string's end is a string. -/
theorem Holds.suffix (h : Holds nul buf p ((t ++ u) :: ys)) :
    Holds nul buf (p + t.length) (u :: ys) := by
  obtain ⟨before, after, rfl, rfl⟩ := h.at_place
  refine ⟨⟨before ++ t, after, ?_, ?_⟩, fun s hs => ?_⟩
  · simp
  · rw [List.length_append]
  · rcases List.mem_cons.mp hs with rfl | hs
    · exact fun hmem => h.plain _ List.mem_cons_self (List.mem_append_right t hmem)
    · exact h.plain s (List.mem_cons_of_mem _ hs)

theorem Holds.room_le (h : Holds nul buf p l) : p + room l ≤ buf.length := by
  obtain ⟨before, after, rfl, rfl⟩ := h.at_place
  rw [List.length_append, List.length_append, length_flatMap]
  omega

/-- A terminator over a character cuts its string. -/
theorem Holds.cut (h : Holds nul buf p (l ++ (t ++ c :: u) :: ys)) :
    Holds nul (buf.set (p + room l + t.length) nul) p (l ++ t :: u :: ys) := by
  obtain ⟨before, after, hset, hlength⟩ := h.set nul
  obtain ⟨ht, hu, hplain⟩ := h.plain_parts
  refine ⟨⟨before, after, ?_, hlength⟩, fun s hs => ?_⟩
  · rw [hset]
    simp
  · rw [List.mem_append, List.mem_cons, List.mem_cons] at hs
    rcases hs with hs | rfl | rfl | hs
    · exact hplain s (.inl hs)
    · exact ht
    · exact hu
    · exact hplain s (.inr hs)

/-- Another character over a character changes its string. -/
theorem Holds.put (h : Holds nul buf p (l ++ (t ++ c :: u) :: ys)) (hx : x ≠ nul) :
    Holds nul (buf.set (p + room l + t.length) x) p (l ++ (t ++ x :: u) :: ys) := by
  obtain ⟨before, after, hset, hlength⟩ := h.set x
  obtain ⟨ht, hu, hplain⟩ := h.plain_parts
  refine ⟨⟨before, after, ?_, hlength⟩, fun s hs => ?_⟩
  · rw [hset]
    simp
  · rw [List.mem_append, List.mem_cons] at hs
    rcases hs with hs | rfl | hs
    · exact hplain s (.inl hs)
    · rw [List.mem_append, List.mem_cons, not_or, not_or]
      exact ⟨ht, hx.symm, hu⟩
    · exact hplain s (.inr hs)

section Reading

variable [DecidableEq α]

/-- The string that a pointer to its first character stands for. -/
def readAt (nul : α) (buf : List α) (p : Nat) : List α := (buf.drop p).takeWhile (· ≠ nul)

/-- A pointer into a string stands for the rest of it. -/
theorem Holds.read_append (h : Holds nul buf p (l ++ (t ++ u) :: ys)) :
    readAt nul buf (p + room l + t.length) = u := by
  obtain ⟨before, after, rfl, hlength⟩ := h.split
  have hplain : nul ∉ t ++ u := h.plain _ (List.mem_append_right l List.mem_cons_self)
  have hne : ∀ y ∈ u, decide (y ≠ nul) = true := by
    intro y hy
    exact decide_eq_true fun heq => hplain (List.mem_append_right t (heq ▸ hy))
  have hplace : (before ++ t).length = p + room l + t.length := by
    rw [List.length_append, hlength]
  rw [readAt, List.append_assoc t, ← List.append_assoc before, List.drop_left' hplace,
    List.takeWhile_append_of_pos hne]
  simp

theorem Holds.read (h : Holds nul buf p (l ++ s :: ys)) : readAt nul buf (p + room l) = s :=
  Holds.read_append (t := []) h

end Reading

end CString
