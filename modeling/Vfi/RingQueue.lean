import Vfi.Lib.BoundedQueue
import Vfi.Lib.Simulation
import Vfi.RingBuf

/-!
# A ring buffer is a bounded queue

The ring over `iLen` slots answers every sequence of puts, gets and tests as a
queue that holds at most `iLen - 1` pointers.
-/

namespace Vfi

variable {α : Type*}

def ringbufEmpty (ring : RingBuf α) : Bool := ring.iRead == ring.iWrite

inductive RingOp (α : Type*) where
  | put (pData : α)
  | get
  | empty

inductive RingReply (α : Type*) where
  | pointer (p : Option α)
  | flag (b : Bool)
deriving DecidableEq

def RingBuf.step (ring : RingBuf α) : RingOp α → RingBuf α × RingReply α
  | .put pData => ((ringbufPut ring pData).1, .pointer (ringbufPut ring pData).2)
  | .get => ((ringbufGet ring).1, .pointer (ringbufGet ring).2)
  | .empty => (ring, .flag (ringbufEmpty ring))

/-- What the operations are for. -/
def queueStep {cap : Nat} (q : BoundedQueue α cap) : RingOp α → BoundedQueue α cap × RingReply α
  | .put pData => ((q.put pData).1, .pointer (q.put pData).2)
  | .get => (q.get.1, .pointer q.get.2)
  | .empty => (q, .flag q.isEmpty)

/-- The slots from the read to the write index are the items of the queue. -/
def RingBuf.Holds {cap : Nat} (ring : RingBuf α) (q : BoundedQueue α cap) : Prop :=
  ring.iLen = cap + 1 ∧ ring.contents = q.items.map some

/-- The queue a ring starts as: empty, or with all but the last array element it covers. -/
def startQueue (array : List α) (len : Nat) (full : Bool) : BoundedQueue α (len - 1) where
  items := if full then array.take (len - 1) else []
  length_le := by
    split
    · rw [List.length_take]
      exact Nat.min_le_left _ _
    · exact Nat.zero_le _

variable {ring : RingBuf α} {cap : Nat} {q : BoundedQueue α cap}

-- ---------------------------------------------------------------------------
-- When a ring is empty and when it is full
-- ---------------------------------------------------------------------------

theorem ringbufPut_full (h : ring.count + 1 = ring.iLen) (pData : α) :
    ringbufPut ring pData = (ring, none) := by
  rw [ringbufPut, if_pos (ring.count_full_iff.mp h)]

theorem ringbufPut_eq_none_iff (pData : α) :
    (ringbufPut ring pData).2 = none ↔ ring.count + 1 = ring.iLen := by
  by_cases hfull : ring.count + 1 = ring.iLen
  · simp [ringbufPut_full hfull, hfull]
  · have hfree : ring.count + 1 < ring.iLen := Nat.lt_of_le_of_ne ring.count_lt hfull
    obtain ⟨ring', hput, -⟩ := ringbufPut_contents hfree pData
    simp [hput, hfull]

theorem ringbufEmpty_iff : ringbufEmpty ring = true ↔ ring.contents = [] := by
  rw [ringbufEmpty, beq_iff_eq, ← ring.count_eq_zero_iff, ← ring.length_contents,
    List.length_eq_zero_iff]

namespace RingBuf.Holds

theorem count_eq (h : ring.Holds q) : ring.count = q.items.length := by
  rw [← ring.length_contents, h.2, List.length_map]

theorem put (h : ring.Holds q) (pData : α) :
    (ringbufPut ring pData).2 = (q.put pData).2 ∧
      (ringbufPut ring pData).1.Holds (q.put pData).1 := by
  have hcount := h.count_eq
  have hlen := h.1
  rcases Nat.lt_or_ge q.items.length cap with hlt | hge
  · have hfree : ring.count + 1 < ring.iLen := by omega
    obtain ⟨ring', hput, hcontents, hlen'⟩ := ringbufPut_contents hfree pData
    obtain ⟨hitems, hout⟩ := BoundedQueue.put_of_lt (a := pData) hlt
    rw [hput]
    refine ⟨hout.symm, hlen'.trans hlen, ?_⟩
    simp [hcontents, h.2, hitems]
  · have hfull := Nat.le_antisymm q.length_le hge
    rw [ringbufPut_full (by omega), BoundedQueue.put_of_full hfull]
    exact ⟨rfl, h⟩

theorem get (h : ring.Holds q) :
    (ringbufGet ring).2 = q.get.2 ∧ (ringbufGet ring).1.Holds q.get.1 := by
  cases hitems : q.items with
  | nil =>
    obtain ⟨hleft, hout⟩ := BoundedQueue.get_nil hitems
    have hnil : ring.contents = [] := by simp [h.2, hitems]
    rw [ringbufGet_nil hnil]
    exact ⟨hout.symm, h.1, by simp [hnil, hleft]⟩
  | cons a rest =>
    obtain ⟨hleft, hout⟩ := BoundedQueue.get_cons hitems
    have hcons : ring.contents = some a :: rest.map some := by simp [h.2, hitems]
    obtain ⟨ring', hget, hcontents, hlen⟩ := ringbufGet_cons hcons
    rw [hget]
    exact ⟨hout.symm, hlen.trans h.1, by simp [hcontents, hleft]⟩

theorem empty (h : ring.Holds q) : ringbufEmpty ring = q.isEmpty := by
  rw [Bool.eq_iff_iff, ringbufEmpty_iff, h.2, BoundedQueue.isEmpty]
  simp

theorem matches_step :
    Machine.Matches (Holds : RingBuf α → BoundedQueue α cap → Prop) RingBuf.step queueStep := by
  intro ring q op h
  cases op with
  | put pData => exact ⟨congrArg _ (h.put pData).1, (h.put pData).2⟩
  | get => exact ⟨congrArg _ h.get.1, h.get.2⟩
  | empty => exact ⟨congrArg _ h.empty, h⟩

theorem init (array : List α) {len : Nat} (full : Bool) (hlen : 0 < len)
    (harray : len ≤ array.length) :
    (ringbufInit (fun k => array[k]?) len full hlen).Holds (startQueue array len full) := by
  refine ⟨by simp [ringbufInit]; omega, ?_⟩
  cases full with
  | false => simp [contents_ringbufInit_empty, startQueue]
  | true =>
    rw [contents_ringbufInit_full]
    refine List.ext_getElem? fun k => ?_
    rcases Nat.lt_or_ge k (len - 1) with hlt | hge
    · simp [startQueue, hlt, Nat.lt_of_lt_of_le hlt (Nat.le_trans (Nat.sub_le len 1) harray)]
    · have hrange : (List.range (len - 1)).length ≤ k := by rwa [List.length_range]
      have htake : (array.take (len - 1)).length ≤ k := by
        rw [List.length_take]
        exact Nat.le_trans (Nat.min_le_left _ _) hge
      rw [List.getElem?_map, List.getElem?_map, List.getElem?_eq_none hrange]
      exact (congrArg (Option.map some) (List.getElem?_eq_none htake)).symm

end RingBuf.Holds

/-- After any operations the answers are those of the queue, the ring holds what the
queue holds, and a put or get fails exactly when the ring is full or empty. -/
theorem ringbuf_refines (array : List α) {len : Nat} (full : Bool) (hlen : 0 < len)
    (harray : len ≤ array.length) (ops : List (RingOp α)) :
    let ringRun := Machine.run RingBuf.step (ringbufInit (fun k => array[k]?) len full hlen) ops
    let queueRun := Machine.run queueStep (startQueue array len full) ops
    ringRun.2 = queueRun.2 ∧
      ringRun.1.contents = queueRun.1.items.map some ∧
      (∀ pData, ((ringbufPut ringRun.1 pData).2 = none ↔ queueRun.1.items.length = len - 1) ∧
        ((ringbufPut ringRun.1 pData).2 = none → (ringbufPut ringRun.1 pData).1 = ringRun.1)) ∧
      ((ringbufGet ringRun.1).2 = none ↔ queueRun.1.items = []) := by
  intro ringRun queueRun
  obtain ⟨hout, hholds⟩ :=
    RingBuf.Holds.matches_step.run (RingBuf.Holds.init array full hlen harray) ops
  have hcap : ringRun.1.iLen = len - 1 + 1 := hholds.1
  have hcount : ringRun.1.count = queueRun.1.items.length := hholds.count_eq
  refine ⟨hout, hholds.2, fun pData => ⟨?_, fun hnone => ?_⟩, ?_⟩
  · rw [ringbufPut_eq_none_iff, hcap, hcount]
    omega
  · rw [ringbufPut_full ((ringbufPut_eq_none_iff pData).mp hnone)]
  · rw [hholds.get.1, BoundedQueue.get]
    exact List.head?_eq_none_iff

/-- A ring over three slots holds two pointers. -/
theorem ringbuf_refines_three :
    (Machine.run RingBuf.step (ringbufInit (fun k => [1, 2, 3][k]?) 3 true (by decide))
      [.put 9, .get, .put 9, .get, .get, .get, .empty]).2 =
      [.pointer none, .pointer (some 1), .pointer (some 9), .pointer (some 2),
        .pointer (some 9), .pointer none, .flag true] :=
  (ringbuf_refines [1, 2, 3] true (by decide) (by decide) _).1.trans (by decide)

end Vfi
