import Mathlib.Data.List.Range
import Mathlib.Logic.Function.Basic

/-!
# Ring buffers

`ringbuf.c`: an array of pointers with an index to read from and one to write to.
One slot stays free, so that a full ring is told from an empty one. The operations
are those of a queue: `ringbufGet_cons` and `ringbufPut_contents`.
-/

namespace Vfi

/-- `RINGBUF`. A slot that was never written holds no pointer. -/
structure RingBuf (α : Type*) where
  ppArray : Nat → Option α
  iRead : Nat
  iWrite : Nat
  iLen : Nat
  read_lt : iRead < iLen
  write_lt : iWrite < iLen

variable {α : Type*}

def ringbufInit (ppArray : Nat → Option α) (len : Nat) (full : Bool) (hlen : 0 < len) :
    RingBuf α where
  ppArray := ppArray
  iRead := 0
  iWrite := if full then len - 1 else 0
  iLen := len
  read_lt := hlen
  write_lt := by split <;> omega

/-- The pointer is NULL if the ring is empty. -/
def ringbufGet (ring : RingBuf α) : RingBuf α × Option α :=
  if ring.iRead = ring.iWrite then (ring, none)
  else
    ({ ring with
      iRead := (ring.iRead + 1) % ring.iLen
      read_lt := Nat.mod_lt _ (Nat.zero_lt_of_lt ring.read_lt) }, ring.ppArray ring.iRead)

/-- The pointer is NULL if the ring is full. -/
def ringbufPut (ring : RingBuf α) (pData : α) : RingBuf α × Option α :=
  let next := (ring.iWrite + 1) % ring.iLen
  if next = ring.iRead then (ring, none)
  else
    ({ ring with
      ppArray := Function.update ring.ppArray ring.iWrite (some pData)
      iWrite := next
      write_lt := Nat.mod_lt _ (Nat.zero_lt_of_lt ring.write_lt) }, some pData)

-- ---------------------------------------------------------------------------
-- A ring is a queue
-- ---------------------------------------------------------------------------

namespace RingBuf

variable (ring : RingBuf α)

/-- The number of slots from the read index to the write index. -/
def count : Nat := (ring.iWrite + ring.iLen - ring.iRead) % ring.iLen

/-- The slots from the read index to the write index. -/
def contents : List (Option α) :=
  (List.range ring.count).map fun k => ring.ppArray ((ring.iRead + k) % ring.iLen)

@[simp] theorem length_contents : ring.contents.length = ring.count := by
  simp [contents]

/-- An index goes round at most once. -/
theorem wrap {a len : Nat} (ha : a < 2 * len) : a % len = if a < len then a else a - len := by
  split
  · next hlt => exact Nat.mod_eq_of_lt hlt
  · next hge =>
    rw [Nat.mod_eq_sub_mod (Nat.le_of_not_lt hge), Nat.mod_eq_of_lt (by omega)]

theorem count_eq : ring.count =
    if ring.iRead ≤ ring.iWrite then ring.iWrite - ring.iRead
    else ring.iWrite + ring.iLen - ring.iRead := by
  have hr := ring.read_lt
  have hw := ring.write_lt
  rw [count, wrap (by omega)]
  split <;> split <;> omega

theorem count_lt : ring.count < ring.iLen := Nat.mod_lt _ (Nat.zero_lt_of_lt ring.read_lt)

theorem count_eq_zero_iff : ring.count = 0 ↔ ring.iRead = ring.iWrite := by
  have hr := ring.read_lt
  have hw := ring.write_lt
  rw [count_eq]
  split <;> omega

/-- The ring is full when the next write index would be the read index. -/
theorem count_full_iff :
    ring.count + 1 = ring.iLen ↔ (ring.iWrite + 1) % ring.iLen = ring.iRead := by
  have hr := ring.read_lt
  have hw := ring.write_lt
  rw [count_eq, wrap (by omega)]
  split <;> split <;> omega

/-- The slot written next lies behind the contents. -/
theorem write_eq : (ring.iRead + ring.count) % ring.iLen = ring.iWrite := by
  have hr := ring.read_lt
  have hw := ring.write_lt
  rw [wrap (Nat.lt_of_lt_of_le (Nat.add_lt_add hr ring.count_lt) (by omega)), count_eq]
  split <;> split <;> omega

theorem slot_ne_write {k : Nat} (hk : k < ring.count) :
    (ring.iRead + k) % ring.iLen ≠ ring.iWrite := by
  have hr := ring.read_lt
  have hw := ring.write_lt
  rw [count_eq] at hk
  rw [wrap (by split at hk <;> omega)]
  split at hk <;> split <;> omega

end RingBuf

variable {ring : RingBuf α} {len : Nat}

theorem ringbufGet_nil (h : ring.contents = []) : ringbufGet ring = (ring, none) := by
  have hzero : ring.count = 0 := by rw [← ring.length_contents, h, List.length_nil]
  rw [ringbufGet, if_pos (ring.count_eq_zero_iff.mp hzero)]

theorem ringbufGet_cons {p : Option α} {rest : List (Option α)} (h : ring.contents = p :: rest) :
    ∃ ring', ringbufGet ring = (ring', p) ∧ ring'.contents = rest ∧ ring'.iLen = ring.iLen := by
  have hcount : ring.count = rest.length + 1 := by
    rw [← ring.length_contents, h, List.length_cons]
  have hne : ring.iRead ≠ ring.iWrite := by
    rw [ne_eq, ← ring.count_eq_zero_iff]
    omega
  have hr := ring.read_lt
  have hw := ring.write_lt
  rw [RingBuf.contents, hcount, List.range_succ_eq_map, List.map_cons, List.map_map] at h
  obtain ⟨hp, hrest⟩ := List.cons.inj h
  rw [Nat.add_zero, Nat.mod_eq_of_lt hr] at hp
  rw [ringbufGet, if_neg hne, hp]
  refine ⟨_, rfl, ?_, rfl⟩
  have hcount' : (ring.iWrite + ring.iLen - (ring.iRead + 1) % ring.iLen) % ring.iLen =
      rest.length := by
    have heq := ring.count_eq
    rw [RingBuf.wrap (by omega), RingBuf.wrap (by omega)]
    split at heq <;> split <;> split <;> omega
  simp only [RingBuf.contents, RingBuf.count, hcount']
  refine Eq.trans (List.map_congr_left fun k _ => ?_) hrest
  rw [Function.comp_apply, Nat.mod_add_mod, Nat.add_assoc, Nat.add_comm 1]

theorem ringbufPut_contents (hfree : ring.count + 1 < ring.iLen) (pData : α) :
    ∃ ring', ringbufPut ring pData = (ring', some pData) ∧
      ring'.contents = ring.contents ++ [some pData] ∧ ring'.iLen = ring.iLen := by
  have hr := ring.read_lt
  have hw := ring.write_lt
  have hne : (ring.iWrite + 1) % ring.iLen ≠ ring.iRead := by
    rw [ne_eq, ← ring.count_full_iff]
    omega
  rw [ringbufPut, if_neg hne]
  refine ⟨_, rfl, ?_, rfl⟩
  have hcount' : ((ring.iWrite + 1) % ring.iLen + ring.iLen - ring.iRead) % ring.iLen =
      ring.count + 1 := by
    have heq := ring.count_eq
    have hnext := RingBuf.wrap (show ring.iWrite + 1 < 2 * ring.iLen by omega)
    generalize (ring.iWrite + 1) % ring.iLen = next at hne hnext ⊢
    rw [RingBuf.wrap (by split at hnext <;> omega)]
    split at heq <;> split at hnext <;> split <;> omega
  simp only [RingBuf.contents, RingBuf.count, hcount']
  rw [List.range_succ, List.map_append, List.map_singleton]
  refine congrArg₂ _ (List.map_congr_left fun k hk => ?_) (congrArg (fun p => [p]) ?_)
  · rw [Function.update_of_ne (ring.slot_ne_write (List.mem_range.mp hk))]
  · exact (congrArg _ ring.write_eq).trans (Function.update_self ..)

theorem contents_ringbufInit_empty (ppArray : Nat → Option α) (hlen : 0 < len) :
    (ringbufInit ppArray len false hlen).contents = [] := by
  simp [RingBuf.contents, RingBuf.count, ringbufInit]

theorem contents_ringbufInit_full (ppArray : Nat → Option α) (hlen : 0 < len) :
    (ringbufInit ppArray len true hlen).contents = (List.range (len - 1)).map ppArray := by
  have hcount : (ringbufInit ppArray len true hlen).count = len - 1 := by
    rw [RingBuf.count_eq]
    simp [ringbufInit]
  rw [RingBuf.contents, hcount]
  refine List.map_congr_left fun k hk => ?_
  have hlt := List.mem_range.mp hk
  simp only [ringbufInit, Nat.zero_add]
  rw [Nat.mod_eq_of_lt (by omega)]

end Vfi
