import Mathlib.Data.List.Basic

/-!
# Flat memory

A block of memory as its bytes, some of which belong to stored pointers. What a
load finds after a store to the same place, or to a place apart from it. An
access that is not inside the block has no result.
-/

namespace FlatMemory

/-- A byte of a block: a plain one, or one byte of a pointer. -/
inductive Memval (α π : Type*) where
  | byte (a : α)
  | frag (p : π) (k : Nat)
deriving DecidableEq, Repr

variable {α π : Type*}

def load (mem : List (Memval α π)) (place n : Nat) : Option (List (Memval α π)) :=
  if place + n ≤ mem.length then some ((mem.drop place).take n) else none

def store (mem : List (Memval α π)) (place : Nat) (cells : List (Memval α π)) :
    Option (List (Memval α π)) :=
  if place + cells.length ≤ mem.length then
    some (mem.take place ++ (cells ++ mem.drop (place + cells.length)))
  else none

/-- A pointer as it is stored; NULL is zeroes. -/
def encode (zero : α) (width : Nat) : Option π → List (Memval α π)
  | none => List.replicate width (.byte zero)
  | some p => (List.range width).map (.frag p)

/-- The string of plain bytes up to a zero. -/
def takeString [DecidableEq α] (zero : α) : List (Memval α π) → Option (List α)
  | .byte a :: cells => if a = zero then some [] else (takeString zero cells).map (a :: ·)
  | _ => none

/-- The pointer that bytes stand for, unless they are not the bytes of one pointer. -/
def decode [DecidableEq α] [DecidableEq π] (zero : α) (cells : List (Memval α π)) :
    Option (Option π) :=
  match cells with
  | [] => none
  | .byte _ :: _ => if cells = encode zero cells.length none then some none else none
  | .frag p _ :: _ => if cells = encode zero cells.length (some p) then some (some p) else none

variable {mem after cells : List (Memval α π)} {place other n width : Nat} {zero : α}

-- ---------------------------------------------------------------------------
-- A load after a store
-- ---------------------------------------------------------------------------

theorem store_eq_some (h : place + cells.length ≤ mem.length) :
    store mem place cells = some (mem.take place ++ (cells ++ mem.drop (place + cells.length))) :=
  if_pos h

theorem exists_store (mem : List (Memval α π)) (place : Nat) (cells : List (Memval α π))
    (h : place + cells.length ≤ mem.length) : ∃ after, store mem place cells = some after :=
  ⟨_, store_eq_some h⟩

theorem length_store (h : store mem place cells = some after) : after.length = mem.length := by
  unfold store at h
  split at h
  · cases h
    simp only [List.length_append, List.length_take, List.length_drop]
    omega
  · cases h

theorem load_store (h : store mem place cells = some after) :
    load after place cells.length = some cells := by
  have hlength := length_store h
  unfold store at h
  split at h
  · next hroom =>
    obtain rfl := Option.some.inj h
    have htake : (mem.take place).length = place := List.length_take_of_le (by omega)
    rw [load, if_pos (hlength ▸ hroom), List.drop_left' htake, List.take_left]
  · cases h

/-- A store leaves the bytes outside its range as they are. -/
theorem getElem?_store (h : store mem place cells = some after)
    (hout : n < place ∨ place + cells.length ≤ n) : after[n]? = mem[n]? := by
  unfold store at h
  split at h
  · next hroom =>
    obtain rfl := Option.some.inj h
    have htake : (mem.take place).length = place := List.length_take_of_le (by omega)
    rcases hout with hbelow | habove
    · rw [List.getElem?_append_left (Nat.lt_of_lt_of_eq hbelow htake.symm), List.getElem?_take,
        if_pos hbelow]
    · rw [List.getElem?_append_right (by omega), List.getElem?_append_right (by omega),
        List.getElem?_drop, htake]
      congr 1
      omega
  · cases h

theorem load_store_of_disjoint (h : store mem place cells = some after)
    (hapart : other + n ≤ place ∨ place + cells.length ≤ other) :
    load after other n = load mem other n := by
  have hsame : (after.drop other).take n = (mem.drop other).take n := by
    apply List.ext_getElem?
    intro i
    rw [List.getElem?_take, List.getElem?_take, List.getElem?_drop, List.getElem?_drop]
    by_cases hi : i < n
    · rw [if_pos hi, if_pos hi]
      exact getElem?_store h (by omega)
    · rw [if_neg hi, if_neg hi]
  rw [load, load, length_store h, hsame]

theorem load_append (before cells after : List (Memval α π)) :
    load (before ++ (cells ++ after)) before.length cells.length = some cells := by
  rw [load, if_pos (by simp), List.drop_left, List.take_left]

theorem store_append (before old cells after : List (Memval α π))
    (h : cells.length = old.length) :
    store (before ++ (old ++ after)) before.length cells = some (before ++ (cells ++ after)) := by
  rw [store, if_pos (by simp [h]), List.take_left, h, ← List.append_assoc before old,
    List.drop_left' (List.length_append)]

-- ---------------------------------------------------------------------------
-- Pointers
-- ---------------------------------------------------------------------------

theorem length_encode (zero : α) (width : Nat) (p : Option π) :
    (encode zero width p).length = width := by
  cases p with
  | none => exact List.length_replicate
  | some p => rw [encode, List.length_map, List.length_range]

theorem decode_encode [DecidableEq α] [DecidableEq π] (zero : α) (hwidth : 0 < width)
    (p : Option π) : decode zero (encode zero width p) = some p := by
  obtain ⟨width, rfl⟩ := Nat.exists_eq_succ_of_ne_zero (Nat.ne_of_gt hwidth)
  have hlength := length_encode zero (width + 1) p
  cases p with
  | none =>
    rw [encode, List.replicate_succ, decode, if_pos]
    rw [← List.replicate_succ, List.length_replicate]
    rfl
  | some p =>
    rw [encode, List.range_succ_eq_map, List.map_cons, decode, if_pos]
    rw [← List.map_cons, ← List.range_succ_eq_map, List.length_map, List.length_range]
    rfl

-- ---------------------------------------------------------------------------
-- Strings
-- ---------------------------------------------------------------------------

theorem takeString_bytes [DecidableEq α] {s : List α} (h : zero ∈ s)
    (cells : List (Memval α π)) :
    takeString zero (s.map .byte ++ cells) = some (s.takeWhile (· ≠ zero)) := by
  induction s with
  | nil => cases h
  | cons a s ih =>
    rw [List.map_cons, List.cons_append, takeString]
    by_cases ha : a = zero
    · simp [ha]
    · have hs := (List.mem_cons.mp h).resolve_left (Ne.symm ha)
      simp [ha, ih hs]

-- ---------------------------------------------------------------------------
-- Characters with an array of pointers behind them
-- ---------------------------------------------------------------------------

def layout (zero : α) (width : Nat) (chars : List α) (slots : List (Option π)) :
    List (Memval α π) :=
  chars.map .byte ++ slots.flatMap (encode zero width)

variable {chars : List α} {slots done rest : List (Option π)} {p old : Option π} {c : α}

theorem length_slots (zero : α) (width : Nat) (slots : List (Option π)) :
    (slots.flatMap (encode zero width)).length = width * slots.length := by
  induction slots with
  | nil => rfl
  | cons p slots ih =>
    rw [List.flatMap_cons, List.length_append, length_encode, ih, List.length_cons, Nat.mul_succ,
      Nat.add_comm]

theorem length_layout (zero : α) (width : Nat) (chars : List α) (slots : List (Option π)) :
    (layout zero width chars slots).length = chars.length + width * slots.length := by
  rw [layout, List.length_append, List.length_map, length_slots]

theorem layout_zero (zero : α) (width : Nat) (chars : List α) (n : Nat) :
    layout zero width chars (List.replicate n (none : Option π)) =
      chars.map .byte ++ List.replicate (width * n) (.byte zero) := by
  induction n with
  | zero => rfl
  | succ n ih =>
    have hrest := List.append_cancel_left ih
    rw [layout, List.replicate_succ, List.flatMap_cons, hrest, encode, ← List.replicate_add,
      Nat.mul_succ, Nat.add_comm]

theorem layout_slot (zero : α) (width : Nat) (chars : List α) (done : List (Option π))
    (p : Option π) (rest : List (Option π)) :
    layout zero width chars (done ++ p :: rest) =
      layout zero width chars done ++
        (encode zero width p ++ rest.flatMap (encode zero width)) := by
  simp [layout]

theorem load_layout [DecidableEq α] [DecidableEq π] (zero : α) (hwidth : 0 < width)
    (chars : List α) (done : List (Option π)) (p : Option π) (rest : List (Option π)) :
    (load (layout zero width chars (done ++ p :: rest)) (chars.length + width * done.length)
      width).bind (decode zero) = some p := by
  have hload := load_append (layout zero width chars done) (encode zero width p)
    (rest.flatMap (encode zero width))
  rw [length_layout, length_encode] at hload
  rw [layout_slot, hload, Option.bind_some, decode_encode zero hwidth]

theorem store_layout_slot (zero : α) (width : Nat) (chars : List α) (done : List (Option π))
    (old p : Option π) (rest : List (Option π)) :
    store (layout zero width chars (done ++ old :: rest)) (chars.length + width * done.length)
      (encode zero width p) = some (layout zero width chars (done ++ p :: rest)) := by
  have hsame : (encode zero width p).length = (encode zero width old).length := by
    rw [length_encode, length_encode]
  have hstore := store_append (layout zero width chars done) (encode zero width old)
    (encode zero width p) (rest.flatMap (encode zero width)) hsame
  rw [length_layout] at hstore
  rw [layout_slot, layout_slot, hstore]

theorem store_layout_byte (zero : α) (width : Nat) (slots : List (Option π))
    (hplace : place < chars.length)
    (c : α) :
    store (layout zero width chars slots) place [.byte c] =
      some (layout zero width (chars.set place c) slots) := by
  have hset : chars.set place c = chars.take place ++ c :: chars.drop (place + 1) :=
    List.set_eq_take_append_cons_drop.trans (if_pos hplace)
  have hchars : chars = chars.take place ++ chars[place] :: chars.drop (place + 1) := by
    rw [← List.drop_eq_getElem_cons hplace, List.take_append_drop]
  have hlayout (x : α) : layout zero width (chars.take place ++ x :: chars.drop (place + 1)) slots =
      (chars.take place).map .byte ++ ([.byte x] ++
        ((chars.drop (place + 1)).map .byte ++ slots.flatMap (encode zero width))) := by
    simp [layout]
  have hstore := store_append ((chars.take place).map .byte) [.byte chars[place]] [.byte c]
    ((chars.drop (place + 1)).map .byte ++ slots.flatMap (encode zero width)) rfl
  rw [← hlayout, ← hlayout, ← hset, ← hchars, List.length_map,
    List.length_take_of_le (Nat.le_of_lt hplace)] at hstore
  exact hstore

theorem takeString_layout [DecidableEq α] (zero : α) (slots : List (Option π))
    (hplace : place ≤ chars.length) (h : zero ∈ chars.drop place) :
    takeString zero ((layout zero width chars slots).drop place) =
      some ((chars.drop place).takeWhile (· ≠ zero)) := by
  rw [layout, List.drop_append_of_le_length (by rwa [List.length_map]), ← List.map_drop]
  exact takeString_bytes h _

end FlatMemory
