import Vfi.Lib.Transition
import Mathlib.Algebra.Order.Group.Nat
import Mathlib.Data.List.Nodup
import Mathlib.Data.List.TakeWhile

/-!
# Reading the replies of an open file

`vfi_read` takes replies from a queue, over as many reads as they need, and
keeps the last of them for `vfi_llseek`, which puts them back. What is read is
what was queued: `readReplies`. When a read returns at all: `vfiRead_returns_iff`.
-/

namespace Vfi.ReadReplies

open Transition

-- ---------------------------------------------------------------------------
-- The file
-- ---------------------------------------------------------------------------

/-- A `struct mybuffers` by the number of its allocation, with the bytes that its reply pointer
and its size stand for. -/
structure Mybuffers where
  id : Nat
  reply : List UInt8
deriving DecidableEq, Repr

def Mybuffers.size (mybuf : Mybuffers) : Nat := mybuf.reply.length

/-- `struct privdata`, with what has been given to `kfree`. -/
structure Privdata where
  opened : Bool
  readlist : List Mybuffers
  seeklist : List Mybuffers
  seekbufs : Int
  pos : Int
  mybuf : Option Mybuffers
  offset : Nat
  size : Nat
  freed : List Nat
deriving DecidableEq, Repr

/-- A file that was just opened. -/
def Privdata.new : Privdata := ⟨true, [], [], 0, 0, none, 0, 0, []⟩

def queueToRead (priv : Privdata) (mybuf : Mybuffers) : Privdata :=
  if priv.opened then { priv with readlist := priv.readlist ++ [mybuf] }
  else { priv with freed := priv.freed ++ [mybuf.id] }

def espipe : Int := 29

/-- The result of `no_llseek`, or the new position. -/
def vfiLlseek (priv : Privdata) (offset : Int) (origin : Nat) : Int × Privdata :=
  if origin = 1 then
    if offset < 0 then
      match priv.seeklist with
      | mybuf :: seeklist =>
        (priv.pos + offset, { priv with
          seeklist
          readlist := mybuf :: priv.readlist
          seekbufs := priv.seekbufs - 1
          pos := priv.pos + offset })
      | [] => (-espipe, priv)
    else if offset = 0 then (0, { priv with pos := 0 })
    else (-espipe, priv)
  else (-espipe, priv)

/-- The reply to read from: the current one, or else the first of the list. -/
def pick (priv : Privdata) : Option (Mybuffers × Privdata) :=
  match priv.mybuf with
  | some mybuf => some (mybuf, priv)
  | none =>
    match priv.readlist with
    | [] => none
    | mybuf :: readlist =>
      some (mybuf, { priv with mybuf := some mybuf, readlist, size := mybuf.size, offset := 0 })

/-- A reply that was read to its end is kept, and the one kept longest is freed if there are
too many. -/
def consume (priv : Privdata) (mybuf : Mybuffers) : Privdata :=
  let seeklist := mybuf :: priv.seeklist
  if priv.seekbufs > 16 then
    { priv with
      mybuf := none
      seeklist := seeklist.dropLast
      freed := priv.freed ++ (seeklist.getLast?.map Mybuffers.id).toList }
  else { priv with mybuf := none, seeklist, seekbufs := priv.seekbufs + 1 }

/-- One round of the loop, where `copy_to_user` reaches so many bytes: what it adds to `mycount`,
the bytes copied, and what it leaves. -/
def pass (reach count : Nat) (mybuf : Mybuffers) (priv : Privdata) :
    Nat × List UInt8 × Privdata :=
  let left := priv.size - priv.offset
  let copied := if count < left then count else left
  let ret := copied - reach
  let data := (mybuf.reply.drop priv.offset).take (copied - ret)
  if ret ≠ 0 then (copied - ret, data, { priv with offset := priv.offset + (copied - ret) })
  else if count < left then (copied, data, { priv with offset := priv.offset + copied })
  else (left, data, consume priv mybuf)

/-- The end of a read: `mycount` and the bytes copied, or that it found an empty list, where it
sleeps or returns `-EAGAIN`. -/
inductive ReadEnd where
  | returned (mycount : Nat) (data : List UInt8) (priv : Privdata)
  | empty (priv : Privdata)
deriving DecidableEq, Repr

/-- At most so many rounds of the loop; `reach` is what `copy_to_user` reaches in each. -/
def vfiRead (fuel : Nat) (reach : Nat → Nat) (count : Nat) (offset : Int) (priv : Privdata) :
    Option ReadEnd :=
  match fuel with
  | 0 => none
  | fuel + 1 =>
    match pick priv with
    | none => some (.empty priv)
    | some (mybuf, priv) =>
      let (mycount, data, priv) := pass (reach 0) count mybuf priv
      if mycount = 0 then vfiRead fuel (fun i => reach (i + 1)) count offset priv
      else some (.returned mycount data { priv with pos := offset + mycount })

-- ---------------------------------------------------------------------------
-- When a read returns
-- ---------------------------------------------------------------------------

/-- What is left of each reply that is not read. -/
def Privdata.lefts (priv : Privdata) : List Nat :=
  (priv.mybuf.map fun _ => priv.size - priv.offset).toList ++ priv.readlist.map Mybuffers.size

/-- The replies at the front of which nothing is left. -/
def Privdata.spent (priv : Privdata) : Nat := (priv.lefts.takeWhile (· = 0)).length

variable {priv t : Privdata} {mybuf : Mybuffers} {reach count left : Nat} {rest : List Nat}

theorem pick_lefts (h : priv.lefts = left :: rest) :
    ∃ mybuf t, pick priv = some (mybuf, t) ∧ t.mybuf = some mybuf ∧ t.size - t.offset = left ∧
      t.readlist.map Mybuffers.size = rest := by
  unfold Privdata.lefts at h
  unfold pick
  cases hmybuf : priv.mybuf with
  | some mybuf =>
    rw [hmybuf] at h
    obtain ⟨hleft, hrest⟩ := List.cons.inj h
    exact ⟨mybuf, priv, rfl, hmybuf, hleft, hrest⟩
  | none =>
    rw [hmybuf] at h
    cases hreadlist : priv.readlist with
    | nil =>
      rw [hreadlist] at h
      cases h
    | cons mybuf readlist =>
      rw [hreadlist] at h
      obtain ⟨hleft, hrest⟩ := List.cons.inj h
      exact ⟨mybuf, _, rfl, rfl, hleft, hrest⟩

/-- A round copies as much as was asked for, is left and can be reached, and consumes a reply of
which nothing is left then. -/
theorem pass_eq (reach count : Nat) (mybuf : Mybuffers) (priv : Privdata) :
    let left := priv.size - priv.offset
    let n := min (min count left) reach
    pass reach count mybuf priv =
      (n, (mybuf.reply.drop priv.offset).take n,
        if n < left then { priv with offset := priv.offset + n } else consume priv mybuf) := by
  intro left n
  unfold pass
  have hcopied : (if count < left then count else left) = min count left := by
    split
    · next h => exact (Nat.min_eq_left h.le).symm
    · next h => exact (Nat.min_eq_right (Nat.le_of_not_lt h)).symm
  have hn : min count left - (min count left - reach) = n := Nat.sub_sub_eq_min _ _
  dsimp only
  rw [hcopied, hn]
  by_cases hret : min count left - reach ≠ 0
  · have hlt : n < left := by omega
    rw [if_pos hret, if_pos hlt]
  · have hfull : n = min count left := by omega
    rw [if_neg hret]
    by_cases hcount : count < left
    · have hlt : n < left := by omega
      have heq : min count left = count := Nat.min_eq_left hcount.le
      rw [if_pos hcount, if_pos hlt, hfull, heq]
    · have heq : left = n := by omega
      rw [if_neg hcount, if_neg heq.not_gt, ← heq]

theorem consume_lefts : (consume priv mybuf).lefts = priv.readlist.map Mybuffers.size := by
  unfold consume
  dsimp only
  split <;> rfl

/-- The read returns after at most so many rounds. -/
def Returns (fuel : Nat) (reach : Nat → Nat) (count : Nat) (offset : Int) (priv : Privdata) :
    Prop :=
  ∃ mycount data t, vfiRead fuel reach count offset priv = some (.returned mycount data t)

theorem returns_succ {fuel : Nat} {reach : Nat → Nat} {offset : Int}
    (hpick : pick priv = some (mybuf, t)) :
    Returns (fuel + 1) reach count offset priv ↔
      (pass (reach 0) count mybuf t).1 ≠ 0 ∨
        Returns fuel (fun i => reach (i + 1)) count offset (pass (reach 0) count mybuf t).2.2 := by
  unfold Returns
  rw [vfiRead, hpick]
  dsimp only
  by_cases hmycount : (pass (reach 0) count mybuf t).1 = 0
  · rw [if_pos hmycount]
    simp [hmycount]
  · rw [if_neg hmycount]
    simp [hmycount]

theorem exists_shift {fuel : Nat} {reach : Nat → Nat} {k : Nat} :
    (∃ i, k + 1 ≤ i ∧ i < fuel + 1 ∧ 1 ≤ reach i) ↔
      ∃ i, k ≤ i ∧ i < fuel ∧ 1 ≤ reach (i + 1) := by
  constructor
  · rintro ⟨i, hle, hlt, hreach⟩
    cases i with
    | zero => cases hle
    | succ i => exact ⟨i, Nat.le_of_succ_le_succ hle, Nat.lt_of_succ_lt_succ hlt, hreach⟩
  · rintro ⟨i, hle, hlt, hreach⟩
    exact ⟨i + 1, Nat.succ_le_succ hle, Nat.succ_lt_succ hlt, hreach⟩

theorem spent_zero (h : priv.lefts = 0 :: rest) (ht : t.lefts = rest) :
    priv.spent = t.spent + 1 := by
  simp [Privdata.spent, h, ht]

theorem spent_pos (h : priv.lefts = left :: rest) (hleft : 0 < left) : priv.spent = 0 := by
  simp [Privdata.spent, h, hleft.ne']

/-- A round takes a spent reply from the list. -/
theorem returns_spent (fuel count : Nat) (reach : Nat → Nat) (offset : Int)
    (h : priv.lefts = 0 :: rest) :
    ∃ t, t.lefts = rest ∧ (Returns (fuel + 1) reach count offset priv ↔
      Returns fuel (fun i => reach (i + 1)) count offset t) := by
  obtain ⟨mybuf, t, hpick, hmybuf, hleft, hrest⟩ := pick_lefts h
  refine ⟨consume t mybuf, consume_lefts.trans hrest, ?_⟩
  rw [returns_succ hpick, pass_eq]
  dsimp only
  rw [hleft, Nat.min_zero, Nat.zero_min, if_neg (lt_irrefl 0)]
  simp

/-- A round that copies nothing of a reply leaves it where it is. -/
theorem returns_left (fuel count : Nat) (reach : Nat → Nat) (offset : Int)
    (h : priv.lefts = left :: rest) (hpos : 0 < left) :
    (min (min count left) (reach 0) ≠ 0 → Returns (fuel + 1) reach count offset priv) ∧
      (min (min count left) (reach 0) = 0 → ∃ t, t.lefts = priv.lefts ∧
        (Returns (fuel + 1) reach count offset priv ↔
          Returns fuel (fun i => reach (i + 1)) count offset t)) := by
  obtain ⟨mybuf, t, hpick, hmybuf, hleft, hrest⟩ := pick_lefts h
  rw [returns_succ hpick, pass_eq]
  dsimp only
  rw [hleft]
  refine ⟨fun hcopy => .inl hcopy, fun hcopy => ⟨t, ?_, ?_⟩⟩
  · rw [Privdata.lefts, hmybuf, h, Option.map_some, hleft, hrest]
    rfl
  · rw [hcopy, if_pos hpos, Nat.add_zero]
    simp

/-- With `spent` replies in front of one with something left, a read returns exactly when it is
to copy something, and a copy after that many rounds copies a byte. -/
theorem returns_iff (fuel : Nat) (reach : Nat → Nat) (offset : Int)
    (h : ∃ left ∈ priv.lefts, 0 < left) :
    Returns fuel reach count offset priv ↔
      1 ≤ count ∧ ∃ i, priv.spent ≤ i ∧ i < fuel ∧ 1 ≤ reach i := by
  induction fuel generalizing reach priv with
  | zero =>
    constructor
    · rintro ⟨_, _, _, hnone⟩
      cases hnone
    · rintro ⟨-, i, -, hlt, -⟩
      exact absurd hlt (Nat.not_lt_zero i)
  | succ fuel ih =>
    cases hlefts : priv.lefts with
    | nil =>
      rw [hlefts] at h
      obtain ⟨left, hmem, -⟩ := h
      cases hmem
    | cons left rest =>
      rcases Nat.eq_zero_or_pos left with rfl | hpos
      · obtain ⟨t, ht, hround⟩ := returns_spent fuel count reach offset hlefts
        have hrest : ∃ left ∈ t.lefts, 0 < left := by
          obtain ⟨left, hmem, hpos⟩ := h
          rw [hlefts] at hmem
          rw [ht]
          exact ⟨left, (List.mem_cons.mp hmem).resolve_left hpos.ne', hpos⟩
        rw [hround, ih _ hrest, spent_zero hlefts ht, exists_shift]
      · obtain ⟨hcopies, hstays⟩ := returns_left fuel count reach offset hlefts hpos
        rw [spent_pos hlefts hpos]
        by_cases hcopy : min (min count left) (reach 0) = 0
        · obtain ⟨t, ht, hround⟩ := hstays hcopy
          rw [hround, ih _ (ht ▸ h), Privdata.spent, ht, ← Privdata.spent, spent_pos hlefts hpos,
            ← exists_shift]
          refine and_congr_right fun hcount => exists_congr fun i => ?_
          have hreach : reach 0 = 0 := by omega
          cases i with
          | zero => simp [hreach]
          | succ i => simp
        · have hmin := Nat.pos_of_ne_zero hcopy
          refine iff_of_true (hcopies hcopy) ⟨by omega, 0, le_rfl, Nat.succ_pos fuel, by omega⟩

/-- The loop of a read ends exactly if there is something to copy, and one of the copies after
those of empty replies copies a byte. -/
theorem vfiRead_returns_iff (priv : Privdata) (reach : Nat → Nat) (count : Nat) (offset : Int)
    (h : ∃ left ∈ priv.lefts, 0 < left) :
    (∃ fuel, Returns fuel reach count offset priv) ↔
      1 ≤ count ∧ ∃ i, priv.spent ≤ i ∧ 1 ≤ reach i := by
  constructor
  · rintro ⟨fuel, hreturns⟩
    obtain ⟨hcount, i, hspent, -, hreach⟩ := (returns_iff fuel reach offset h).mp hreturns
    exact ⟨hcount, i, hspent, hreach⟩
  · rintro ⟨hcount, i, hspent, hreach⟩
    exact ⟨i + 1, (returns_iff (i + 1) reach offset h).mpr
      ⟨hcount, i, hspent, Nat.lt_succ_self i, hreach⟩⟩

theorem vfiRead_returns_iff_one :
    (∃ fuel, Returns fuel (fun _ => 1) 1 0 (queueToRead .new ⟨0, [10]⟩)) ↔
      1 ≤ 1 ∧ ∃ i, (queueToRead .new ⟨0, [10]⟩).spent ≤ i ∧ 1 ≤ 1 :=
  vfiRead_returns_iff (queueToRead .new ⟨0, [10]⟩) (fun _ => 1) 1 0
    ⟨1, List.mem_cons_self, Nat.one_pos⟩

/-- A read of no bytes goes round for ever at a reply of one byte. -/
theorem vfiRead_spins :
    ¬ ∀ (priv : Privdata) (reach : Nat → Nat) (count : Nat) (offset : Int),
      (∃ left ∈ priv.lefts, 0 < left) → ∃ fuel, Returns fuel reach count offset priv := by
  intro h
  have hleft : ∃ left ∈ (queueToRead .new ⟨0, [10]⟩).lefts, 0 < left :=
    ⟨1, List.mem_cons_self, Nat.one_pos⟩
  obtain ⟨fuel, hreturns⟩ := h (queueToRead .new ⟨0, [10]⟩) (fun _ => 1) 0 0 hleft
  exact absurd ((returns_iff fuel _ 0 hleft).mp hreturns).1 (Nat.not_succ_le_zero 0)

-- ---------------------------------------------------------------------------
-- The replies of a file
-- ---------------------------------------------------------------------------

/-- A reply that is queued, a read with the bytes it copies, or a seek backwards. -/
inductive Action where
  | queue (mybuf : Mybuffers)
  | read (count : Nat) (offset : Int) (data : List UInt8)
  | seek (offset : Int)
deriving DecidableEq, Repr

/-- The bytes that are not read yet. -/
def Privdata.unread (priv : Privdata) : List UInt8 :=
  ((priv.mybuf.map fun mybuf => mybuf.reply.drop priv.offset).getD []) ++
    priv.readlist.flatMap Mybuffers.reply

/-- A read with bytes to read, each of which can be reached, goes round at most once for each
reply. -/
def step (priv : Privdata) : Action → Option Privdata
  | .queue mybuf => some (queueToRead priv mybuf)
  | .read count offset data =>
    if 1 ≤ count ∧ priv.unread ≠ [] then
      match vfiRead priv.lefts.length (fun _ => count) count offset priv with
      | some (.returned _ copied t) => if copied = data then some t else none
      | _ => none
    else none
  | .seek offset => if offset < 0 then some (vfiLlseek priv offset 1).2 else none

/-- The bytes that a read copies. -/
def Action.data : Action → List UInt8
  | .read _ _ data => data
  | _ => []

def Action.queued : Action → List Mybuffers
  | .queue mybuf => [mybuf]
  | _ => []

def bytesRead (tr : List (Action × Privdata)) : List UInt8 := tr.flatMap fun entry => entry.1.data

def queued (tr : List (Action × Privdata)) : List Mybuffers :=
  tr.flatMap fun entry => entry.1.queued

def Action.isSeek : Action → Bool
  | .seek _ => true
  | _ => false

/-- The replies that are not read to their end, in order. -/
def Privdata.queue (priv : Privdata) : List Mybuffers := priv.mybuf.toList ++ priv.readlist

/-- The replies read to their end and not sought back since, the last one last: a read adds
those that it takes from the queue, and a seek takes the last one back. -/
def consumed : List Mybuffers → Privdata → List (Action × Privdata) → List Mybuffers
  | replies, _, [] => replies
  | replies, _, (.queue _, t) :: rest => consumed replies t rest
  | replies, s, (.read .., t) :: rest =>
    consumed (replies ++ s.queue.take (s.queue.length - t.queue.length)) t rest
  | replies, s, (.seek _, t) :: rest =>
    consumed (if s.seeklist = [] then replies else replies.dropLast) t rest

/-- A read returns the number of the bytes that it copies, at most as many as were asked for, and
moves the position by it. -/
def Counted (s : Privdata) : Action → Privdata → Prop
  | .read count offset data, t => data.length ≤ count ∧ t.pos = offset + data.length ∧
      ∃ fuel, vfiRead fuel (fun _ => count) count offset s =
        some (.returned data.length data t)
  | _, _ => True

def Privdata.PartlyRead (priv : Privdata) : Prop := priv.mybuf.isSome ∧ 0 < priv.offset

/-- A reply that is being read has been read in part; the kept ones are counted. -/
structure Inv (priv : Privdata) : Prop where
  opened : priv.opened = true
  size : ∀ mybuf ∈ priv.mybuf, priv.size = mybuf.size
  partly : ∀ mybuf ∈ priv.mybuf, 0 < priv.offset ∧ priv.offset < priv.size
  seekbufs : priv.seekbufs = priv.seeklist.length
  few : priv.seeklist.length ≤ 17

/-- Every buffer that was handed over: the live ones and those that are freed. -/
def Privdata.held (priv : Privdata) : List Nat :=
  (priv.queue ++ priv.seeklist).map Mybuffers.id ++ priv.freed

/-- What a read does: it takes replies from the queue, whose last 17 are kept, and copies the
first bytes that were unread. -/
structure Reads (s t : Privdata) (data : List UInt8) : Prop where
  taken : ∃ taken, s.queue = taken ++ t.queue ∧
    t.seeklist = (taken.reverse ++ s.seeklist).take 17
  unread : s.unread = data ++ t.unread
  held : t.held.Perm s.held
  inv : Inv t

variable {s : Privdata} {data : List UInt8}

/-- To free the last of a list moves its number to those freed. -/
theorem perm_free_last (l : List Mybuffers) (freed : List Nat) :
    (l.dropLast.map Mybuffers.id ++ (freed ++ (l.getLast?.map Mybuffers.id).toList)).Perm
      (l.map Mybuffers.id ++ freed) := by
  rcases List.eq_nil_or_concat' l with rfl | ⟨init, last, rfl⟩
  · simp
  · simp only [List.dropLast_concat, List.getLast?_concat, Option.map_some, Option.toList_some,
      List.map_append, List.map_singleton, List.append_assoc]
    exact List.Perm.append_left _ List.perm_append_comm

theorem consume_seeklist (mybuf : Mybuffers) (hseekbufs : priv.seekbufs = priv.seeklist.length)
    (hfew : priv.seeklist.length ≤ 17) :
    (consume priv mybuf).seeklist = (mybuf :: priv.seeklist).take 17 ∧
      (consume priv mybuf).seekbufs = (consume priv mybuf).seeklist.length ∧
      ((consume priv mybuf).seeklist.map Mybuffers.id ++ (consume priv mybuf).freed).Perm
        ((mybuf :: priv.seeklist).map Mybuffers.id ++ priv.freed) := by
  unfold consume
  dsimp only
  by_cases hmany : priv.seekbufs > 16
  · have hlength : priv.seeklist.length = 17 := by omega
    rw [if_pos hmany]
    refine ⟨?_, ?_, ?_⟩
    · rw [List.dropLast_eq_take, List.length_cons, hlength]
    · rw [List.length_dropLast, List.length_cons, hseekbufs]
      rfl
    · exact perm_free_last (mybuf :: priv.seeklist) priv.freed
  · have hlength : (mybuf :: priv.seeklist).length ≤ 17 := by
      rw [List.length_cons]
      omega
    rw [if_neg hmany]
    refine ⟨(List.take_of_length_le hlength).symm, ?_, List.Perm.refl _⟩
    rw [hseekbufs, List.length_cons]
    rfl

/-- The reply picked is the current one, at its place in the queue. -/
structure Picked (priv : Privdata) (mybuf : Mybuffers) (t : Privdata) : Prop where
  current : t.mybuf = some mybuf
  size : t.size = mybuf.size
  queue : t.queue = priv.queue
  unread : t.unread = priv.unread
  seeklist : t.seeklist = priv.seeklist
  seekbufs : t.seekbufs = priv.seekbufs
  freed : t.freed = priv.freed
  opened : t.opened = priv.opened

theorem Inv.picked (h : Inv priv) (hpick : pick priv = some (mybuf, t)) :
    Picked priv mybuf t := by
  unfold pick at hpick
  split at hpick
  · next current hcurrent =>
    obtain ⟨rfl, rfl⟩ := Prod.mk.inj (Option.some.inj hpick)
    exact ⟨hcurrent, h.size _ hcurrent, rfl, rfl, rfl, rfl, rfl, rfl⟩
  · next hnone =>
    split at hpick
    · cases hpick
    · next first readlist hreadlist =>
      obtain ⟨rfl, rfl⟩ := Prod.mk.inj (Option.some.inj hpick)
      refine ⟨rfl, rfl, ?_, ?_, rfl, rfl, rfl, rfl⟩
      · simp [Privdata.queue, hnone, hreadlist]
      · simp [Privdata.unread, hnone, hreadlist]

theorem Picked.queue_eq (h : Picked priv mybuf t) : priv.queue = mybuf :: t.readlist := by
  rw [← h.queue, Privdata.queue, h.current]
  rfl

theorem Picked.unread_eq (h : Picked priv mybuf t) :
    priv.unread = mybuf.reply.drop t.offset ++ t.readlist.flatMap Mybuffers.reply := by
  rw [← h.unread, Privdata.unread, h.current]
  rfl

theorem Picked.held (h : Picked priv mybuf t) : t.held = priv.held := by
  rw [Privdata.held, Privdata.held, h.queue, h.seeklist, h.freed]

theorem Picked.length_drop (h : Picked priv mybuf t) :
    (mybuf.reply.drop t.offset).length = t.size - t.offset := by
  rw [List.length_drop, h.size, Mybuffers.size]

/-- A part of the current reply is copied. -/
theorem Picked.reads_part (h : Picked priv mybuf t) (hi : Inv priv) {n : Nat} (hn : 0 < n)
    (hlt : n < t.size - t.offset) :
    Reads priv { t with offset := t.offset + n } ((mybuf.reply.drop t.offset).take n) where
  taken := by
    refine ⟨[], h.queue.symm, ?_⟩
    exact (List.take_of_length_le hi.few).symm ▸ h.seeklist
  unread := by
    rw [h.unread_eq, Privdata.unread, h.current]
    simp only [Option.map_some, Option.getD_some]
    rw [← List.append_assoc, ← List.drop_drop, List.take_append_drop]
  held := by
    have hheld : Privdata.held { t with offset := t.offset + n } = t.held := rfl
    rw [hheld, h.held]
  inv := by
    refine ⟨h.opened.trans hi.opened, ?_, ?_, ?_, ?_⟩
    · rintro other hother
      obtain rfl := Option.some.inj (h.current.symm.trans hother)
      exact h.size
    · rintro other -
      exact ⟨Nat.add_pos_right _ hn, Nat.add_lt_of_lt_sub' hlt⟩
    · exact h.seekbufs.trans (hi.seekbufs.trans (congrArg _ (congrArg _ h.seeklist.symm)))
    · exact h.seeklist ▸ hi.few

theorem consume_queue : (consume priv mybuf).queue = priv.readlist := by
  unfold consume
  dsimp only
  split <;> rfl

theorem consume_unread :
    (consume priv mybuf).unread = priv.readlist.flatMap Mybuffers.reply := by
  unfold consume
  dsimp only
  split <;> rfl

theorem consume_current (priv : Privdata) (mybuf : Mybuffers) :
    (consume priv mybuf).mybuf = none ∧ (consume priv mybuf).opened = priv.opened := by
  unfold consume
  dsimp only
  split <;> exact ⟨rfl, rfl⟩

/-- The rest of the current reply is copied, and the reply is kept. -/
theorem Picked.reads_rest (h : Picked priv mybuf t) (hi : Inv priv) :
    Reads priv (consume t mybuf) (mybuf.reply.drop t.offset) := by
  have hseekbufs : t.seekbufs = t.seeklist.length := by
    rw [h.seekbufs, h.seeklist]
    exact hi.seekbufs
  have hfew : t.seeklist.length ≤ 17 := h.seeklist ▸ hi.few
  obtain ⟨hseeklist, hcount, hperm⟩ := consume_seeklist mybuf hseekbufs hfew
  refine ⟨⟨[mybuf], ?_, ?_⟩, ?_, ?_, ?_⟩
  · rw [h.queue_eq, consume_queue]
    rfl
  · rw [hseeklist, h.seeklist]
    rfl
  · rw [h.unread_eq, consume_unread]
  · rw [Privdata.held, Privdata.held, consume_queue, h.queue_eq, ← h.seeklist, ← h.freed]
    simp only [List.map_append, List.append_assoc]
    exact (List.Perm.append_left _ hperm).trans List.perm_middle
  · obtain ⟨hnone, hopened⟩ := consume_current t mybuf
    refine ⟨hopened.trans (h.opened.trans hi.opened), ?_, ?_, hcount, ?_⟩
    · rw [hnone]
      rintro other ⟨⟩
    · rw [hnone]
      rintro other ⟨⟩
    · rw [hseeklist]
      exact List.length_take_le _ _

theorem pass_reads (h : Inv priv) (hcount : 1 ≤ count) (hpick : pick priv = some (mybuf, t)) :
    Reads priv (pass count count mybuf t).2.2 (pass count count mybuf t).2.1 ∧
      (pass count count mybuf t).1 = (pass count count mybuf t).2.1.length := by
  have hpicked := h.picked hpick
  have hmin : min (min count (t.size - t.offset)) count = min count (t.size - t.offset) :=
    Nat.min_eq_left (Nat.min_le_left _ _)
  rw [pass_eq]
  dsimp only
  rw [hmin]
  refine ⟨?_, ?_⟩
  · split
    · next hlt => exact hpicked.reads_part h (by omega) hlt
    · next hlt =>
      have hall : (mybuf.reply.drop t.offset).take (min count (t.size - t.offset)) =
          mybuf.reply.drop t.offset := by
        refine List.take_of_length_le ?_
        rw [hpicked.length_drop]
        exact Nat.le_of_not_lt hlt
      rw [hall]
      exact hpicked.reads_rest h
  · rw [List.length_take, hpicked.length_drop]
    omega

theorem take_append_take {α : Type} (l rest : List α) (n : Nat) :
    (l ++ rest.take n).take n = (l ++ rest).take n := by
  rw [List.take_append, List.take_append, List.take_take, Nat.min_eq_left (Nat.sub_le _ _)]

theorem Reads.trans {u : Privdata} {more : List UInt8} (h : Reads s t data)
    (h' : Reads t u more) : Reads s u (data ++ more) where
  taken := by
    obtain ⟨taken, hqueue, hseeklist⟩ := h.taken
    obtain ⟨taken', hqueue', hseeklist'⟩ := h'.taken
    refine ⟨taken ++ taken', ?_, ?_⟩
    · rw [hqueue, hqueue', List.append_assoc]
    · rw [hseeklist', hseeklist, take_append_take, List.reverse_append, List.append_assoc]
  unread := by rw [h.unread, h'.unread, List.append_assoc]
  held := h'.held.trans h.held
  inv := h'.inv

theorem Reads.of_pos {pos : Int} (h : Reads s t data) : Reads s { t with pos } data :=
  ⟨h.taken, h.unread, h.held, h.inv.opened, h.inv.size, h.inv.partly, h.inv.seekbufs, h.inv.few⟩

theorem pass_le (reach count : Nat) (mybuf : Mybuffers) (priv : Privdata) :
    (pass reach count mybuf priv).1 ≤ count := by
  rw [pass_eq]
  exact (Nat.min_le_left _ _).trans (Nat.min_le_left _ _)

/-- A whole read, round by round. -/
theorem vfiRead_reads {fuel : Nat} {offset : Int} {mycount : Nat} (h : Inv priv)
    (hcount : 1 ≤ count)
    (hread : vfiRead fuel (fun _ => count) count offset priv = some (.returned mycount data t)) :
    Reads priv t data ∧ data ≠ [] ∧ mycount = data.length ∧ mycount ≤ count ∧
      t.pos = offset + mycount := by
  induction fuel generalizing priv data with
  | zero => cases hread
  | succ fuel ih =>
    rw [vfiRead] at hread
    split at hread
    · cases hread
    · next mybuf picked hpick =>
      obtain ⟨hreads, hlength⟩ := pass_reads h hcount hpick
      dsimp only at hread
      split at hread
      · next hzero =>
        obtain ⟨hrest, hreturned⟩ := ih hreads.inv hread
        have hnil : (pass count count mybuf picked).2.1 = [] :=
          List.eq_nil_of_length_eq_zero (hlength.symm.trans hzero)
        rw [hnil] at hreads
        exact ⟨hreads.trans hrest, hreturned⟩
      · next hmycount =>
        obtain ⟨rfl, rfl, rfl⟩ := ReadEnd.returned.inj (Option.some.inj hread)
        refine ⟨hreads.of_pos, ?_, hlength, pass_le count count mybuf picked, rfl⟩
        rintro hnil
        rw [hnil] at hlength
        exact hmycount hlength

theorem left_of_unread (h : Inv priv) (hunread : priv.unread ≠ []) :
    ∃ left ∈ priv.lefts, 0 < left := by
  by_contra hnone
  have hzero : ∀ left ∈ priv.lefts, left = 0 := by
    intro left hmem
    by_contra hne
    exact hnone ⟨left, hmem, Nat.pos_of_ne_zero hne⟩
  refine hunread (List.append_eq_nil_iff.mpr ⟨?_, ?_⟩)
  · cases hmybuf : priv.mybuf with
    | none => rfl
    | some mybuf =>
      have hleft := hzero (priv.size - priv.offset) (by simp [Privdata.lefts, hmybuf])
      have hsize := h.size mybuf hmybuf
      rw [Option.map_some, Option.getD_some, List.drop_eq_nil_iff]
      rw [hsize] at hleft
      exact Nat.le_of_sub_eq_zero hleft
  · rw [List.flatMap_eq_nil_iff]
    intro mybuf hmem
    refine List.eq_nil_of_length_eq_zero (hzero mybuf.size ?_)
    exact List.mem_append_right _ (List.mem_map_of_mem hmem)

theorem spent_lt (h : ∃ left ∈ priv.lefts, 0 < left) : priv.spent < priv.lefts.length := by
  have hprefix := List.takeWhile_prefix (l := priv.lefts) fun left => decide (left = 0)
  refine Nat.lt_of_le_of_ne hprefix.length_le fun heq => ?_
  obtain ⟨left, hmem, hpos⟩ := h
  rw [← hprefix.eq_of_length heq] at hmem
  exact hpos.ne' (of_decide_eq_true
    (List.mem_takeWhile_imp (p := fun left => decide (left = 0)) hmem))

/-- A read with bytes to read returns. -/
theorem step_read (h : Inv priv) (hcount : 1 ≤ count) (hunread : priv.unread ≠ [])
    (offset : Int) : ∃ data t, data ≠ [] ∧ step priv (.read count offset data) = some t := by
  have hleft := left_of_unread h hunread
  obtain ⟨mycount, data, t, hread⟩ :=
    (returns_iff priv.lefts.length (fun _ => count) offset hleft).mpr
      ⟨hcount, priv.spent, le_rfl, spent_lt hleft, hcount⟩
  refine ⟨data, t, (vfiRead_reads h hcount hread).2.1, ?_⟩
  rw [step, if_pos ⟨hcount, hunread⟩, hread]
  exact if_pos rfl

theorem read_of_step {offset : Int} (h : Inv s)
    (hstep : step s (.read count offset data) = some t) :
    Reads s t data ∧ Counted s (.read count offset data) t := by
  rw [step] at hstep
  split at hstep
  · next hguard =>
    split at hstep
    · next mycount copied u hread =>
      split at hstep
      · next hdata =>
        obtain rfl := hdata
        obtain rfl := Option.some.inj hstep
        obtain ⟨hreads, -, rfl, hle, hpos⟩ := vfiRead_reads h hguard.1 hread
        exact ⟨hreads, hle, hpos, s.lefts.length, hread⟩
      · cases hstep
    · cases hstep
  · cases hstep

-- ---------------------------------------------------------------------------
-- Steps
-- ---------------------------------------------------------------------------

variable {action : Action} {tr : List (Action × Privdata)}

theorem Inv.queue (h : Inv priv) :
    queueToRead priv mybuf = { priv with readlist := priv.readlist ++ [mybuf] } := by
  rw [queueToRead, if_pos h.opened]

/-- A seek backwards moves the first of the kept replies to the front of the queue. -/
theorem seek_of_step {offset : Int} (hstep : step s (.seek offset) = some t) :
    (s.seeklist = [] ∧ t = s) ∨
      ∃ mybuf seeklist pos, s.seeklist = mybuf :: seeklist ∧
        t = { s with
          seeklist, pos
          readlist := mybuf :: s.readlist
          seekbufs := s.seekbufs - 1 } := by
  rw [step] at hstep
  split at hstep
  · next hneg =>
    obtain rfl := Option.some.inj hstep
    rw [vfiLlseek, if_pos rfl, if_pos hneg]
    cases hseeklist : s.seeklist with
    | nil => exact .inl ⟨rfl, rfl⟩
    | cons mybuf seeklist => exact .inr ⟨mybuf, seeklist, _, rfl, rfl⟩
  · cases hstep

theorem step_inv (h : Inv s) (hstep : step s action = some t) : Inv t := by
  cases action with
  | queue mybuf =>
    obtain rfl := Option.some.inj hstep
    rw [h.queue]
    exact ⟨h.opened, h.size, h.partly, h.seekbufs, h.few⟩
  | read count offset data => exact (read_of_step h hstep).1.inv
  | seek offset =>
    obtain ⟨-, rfl⟩ | ⟨mybuf, seeklist, pos, hseeklist, rfl⟩ := seek_of_step hstep
    · exact h
    · have hseekbufs := h.seekbufs
      have hfew := h.few
      rw [hseeklist, List.length_cons] at hseekbufs hfew
      refine ⟨h.opened, h.size, h.partly, ?_, Nat.le_of_succ_le hfew⟩
      dsimp only
      omega

theorem step_counted (h : Inv s) (hstep : step s action = some t) : Counted s action t := by
  cases action with
  | queue mybuf => trivial
  | read count offset data => exact (read_of_step h hstep).2
  | seek offset => trivial

/-- No byte is lost or doubled by a step that is no seek. -/
theorem step_unread (h : Inv s) (hstep : step s action = some t) (hseek : action.isSeek = false) :
    s.unread ++ action.queued.flatMap Mybuffers.reply = action.data ++ t.unread := by
  cases action with
  | queue mybuf =>
    obtain rfl := Option.some.inj hstep
    rw [h.queue]
    simp [Action.queued, Action.data, Privdata.unread]
  | read count offset data =>
    rw [(read_of_step h hstep).1.unread]
    simp [Action.queued, Action.data]
  | seek offset => cases hseek

/-- Every buffer handed over is live or freed. -/
theorem step_held (h : Inv s) (hstep : step s action = some t) :
    t.held.Perm (s.held ++ action.queued.map Mybuffers.id) := by
  cases action with
  | queue mybuf =>
    obtain rfl := Option.some.inj hstep
    rw [h.queue]
    simp only [Privdata.held, Privdata.queue, Action.queued, List.map_append, List.map_cons,
      List.map_nil, List.append_assoc]
    refine List.Perm.append_left _ (List.Perm.append_left _ ?_)
    rw [← List.append_assoc _ s.freed]
    exact List.perm_append_comm
  | read count offset data =>
    simpa [Action.queued] using (read_of_step h hstep).1.held
  | seek offset =>
    obtain ⟨-, rfl⟩ | ⟨mybuf, seeklist, pos, hseeklist, rfl⟩ := seek_of_step hstep
    · simp [Action.queued]
    · simp only [Privdata.held, Privdata.queue, Action.queued, hseeklist, List.map_append,
        List.map_cons, List.map_nil, List.append_assoc, List.append_nil]
      exact List.Perm.append_left _ List.perm_middle.symm

theorem inv_new : Inv .new :=
  ⟨rfl, by rintro mybuf ⟨⟩, by rintro mybuf ⟨⟩, rfl, Nat.zero_le 17⟩

-- ---------------------------------------------------------------------------
-- Runs
-- ---------------------------------------------------------------------------

theorem run_inv (h : Inv s) (hr : IsRun step s tr) : Inv (final s tr) :=
  hr.final Inv h fun _ _ _ => step_inv

theorem run_counted (h : Inv s) (hr : IsRun step s tr) : Each Counted s tr :=
  hr.of_invariant Inv h fun _ _ _ hi hs => ⟨step_inv hi hs, step_counted hi hs⟩

theorem run_unread (h : Inv s) (hr : IsRun step s tr)
    (hseek : ∀ entry ∈ tr, entry.1.isSeek = false) :
    s.unread ++ (queued tr).flatMap Mybuffers.reply = bytesRead tr ++ (final s tr).unread := by
  induction tr generalizing s with
  | nil => exact List.append_nil _
  | cons entry rest ih =>
    obtain ⟨action, t⟩ := entry
    have hstep := step_unread h hr.1 (hseek _ List.mem_cons_self)
    have hrest := ih (step_inv h hr.1) hr.2 fun entry hmem =>
      hseek entry (List.mem_cons_of_mem _ hmem)
    simp only [queued, bytesRead, List.flatMap_cons, List.flatMap_append] at hrest ⊢
    rw [← List.append_assoc, hstep, List.append_assoc, hrest, List.append_assoc]
    rfl

theorem run_held (h : Inv s) (hr : IsRun step s tr) :
    (final s tr).held.Perm (s.held ++ (queued tr).map Mybuffers.id) := by
  induction tr generalizing s with
  | nil => simp [queued, final]
  | cons entry rest ih =>
    obtain ⟨action, t⟩ := entry
    have hstep := step_held h hr.1
    have hrest := ih (step_inv h hr.1) hr.2
    simp only [queued, List.flatMap_cons, List.map_append] at hrest ⊢
    rw [← List.append_assoc]
    exact hrest.trans (hstep.append_right _)

/-- The kept replies are the last of those consumed, the last one first. -/
theorem run_kept (replies : List Mybuffers) (h : Inv s) (hr : IsRun step s tr)
    (hkept : List.IsPrefix s.seeklist replies.reverse) :
    List.IsPrefix (final s tr).seeklist (consumed replies s tr).reverse := by
  induction tr generalizing s replies with
  | nil => exact hkept
  | cons entry rest ih =>
    obtain ⟨action, t⟩ := entry
    have hinv := step_inv h hr.1
    have hstep := hr.1
    cases action with
    | queue mybuf =>
      refine ih _ hinv hr.2 ?_
      obtain rfl := Option.some.inj hstep
      rwa [h.queue]
    | read count offset data =>
      refine ih _ hinv hr.2 ?_
      obtain ⟨taken, hqueue, hseeklist⟩ := (read_of_step h hstep).1.taken
      have htaken : s.queue.take (s.queue.length - t.queue.length) = taken := by
        rw [hqueue, List.length_append, Nat.add_sub_cancel, List.take_left]
      rw [htaken, hseeklist, List.reverse_append]
      exact (List.take_prefix _ _).trans ((List.prefix_append_right_inj _).mpr hkept)
    | seek offset =>
      refine ih _ hinv hr.2 ?_
      obtain ⟨hnil, rfl⟩ | ⟨mybuf, seeklist, pos, hseeklist, rfl⟩ := seek_of_step hstep
      · rwa [if_pos hnil]
      · rw [hseeklist] at hkept
        obtain ⟨older, holder⟩ := hkept
        rw [if_neg (by rw [hseeklist]; exact List.cons_ne_nil _ _), ← List.tail_reverse, ← holder]
        exact List.prefix_append _ _

/-- Seeks with no reply partly read put the kept replies back in front of the unread ones. -/
theorem run_seeks {seeks : List (Action × Privdata)} (hr : IsRun step s seeks)
    (hmybuf : s.mybuf = none) (hseek : ∀ entry ∈ seeks, entry.1.isSeek)
    (hlength : seeks.length ≤ s.seeklist.length) :
    (final s seeks).mybuf = none ∧
      (final s seeks).readlist = (s.seeklist.take seeks.length).reverse ++ s.readlist := by
  induction seeks generalizing s with
  | nil => exact ⟨hmybuf, rfl⟩
  | cons entry rest ih =>
    obtain ⟨action, t⟩ := entry
    cases action with
    | queue mybuf => cases hseek _ List.mem_cons_self
    | read count offset data => cases hseek _ List.mem_cons_self
    | seek offset =>
      obtain ⟨hnil, rfl⟩ | ⟨mybuf, seeklist, pos, hseeklist, rfl⟩ := seek_of_step hr.1
      · rw [hnil] at hlength
        cases hlength
      · rw [hseeklist, List.length_cons, List.length_cons] at hlength
        obtain ⟨hnone, hreadlist⟩ := ih hr.2 hmybuf
          (fun entry hmem => hseek entry (List.mem_cons_of_mem _ hmem))
          (Nat.le_of_succ_le_succ hlength)
        refine ⟨hnone, ?_⟩
        rw [final, hreadlist, hseeklist]
        simp

/-- The last of the consumed replies, as the kept ones have them. -/
theorem kept_last {replies : List Mybuffers} {k : Nat}
    (h : List.IsPrefix s.seeklist replies.reverse) (hk : k ≤ s.seeklist.length) :
    (s.seeklist.take k).reverse = replies.drop (replies.length - k) := by
  obtain ⟨older, holder⟩ := h
  have htake : s.seeklist.take k = replies.reverse.take k := by
    rw [← holder, List.take_append_of_le_length hk]
  rw [htake, List.take_reverse, List.reverse_reverse]

theorem Inv.mybuf_eq_none (h : Inv s) (hpartly : ¬ s.PartlyRead) : s.mybuf = none := by
  cases hmybuf : s.mybuf with
  | none => rfl
  | some mybuf => exact absurd ⟨by rw [hmybuf]; rfl, (h.partly mybuf hmybuf).1⟩ hpartly

theorem unread_of_none (h : s.mybuf = none) :
    s.unread = s.readlist.flatMap Mybuffers.reply := by
  rw [Privdata.unread, h]
  rfl

theorem take_of_eq {a b c : List UInt8} (h : a = b ++ c) : b = a.take b.length := by
  rw [h, List.take_left]

/-- What is read is what was queued, in order, and after seeks first the replies sought back;
every read returns the number of its bytes; and the kept replies are counted and few, a read with
bytes to read returns, and no buffer is freed twice. -/
theorem readReplies (hr : IsRun step .new tr) (hfresh : ((queued tr).map Mybuffers.id).Nodup) :
    let s := final .new tr
    ((∀ entry ∈ tr, entry.1.isSeek = false) →
      bytesRead tr = ((queued tr).flatMap Mybuffers.reply).take (bytesRead tr).length) ∧
    (∀ seeks reads, IsRun step s (seeks ++ reads) → ¬ s.PartlyRead →
      (∀ entry ∈ seeks, entry.1.isSeek) → seeks.length ≤ s.seeklist.length →
      (∀ entry ∈ reads, entry.1.isSeek = false) →
      let replies := consumed [] .new tr
      bytesRead reads = ((replies.drop (replies.length - seeks.length)).flatMap Mybuffers.reply ++
        s.unread ++ (queued reads).flatMap Mybuffers.reply).take (bytesRead reads).length) ∧
    Each Counted .new tr ∧
    (∀ count offset, 1 ≤ count → s.unread ≠ [] →
      ∃ data t, data ≠ [] ∧ step s (.read count offset data) = some t) ∧
    s.seekbufs = s.seeklist.length ∧ s.seeklist.length ≤ 17 ∧ s.freed.Nodup := by
  intro s
  have hinv : Inv s := run_inv inv_new hr
  refine ⟨fun hseek => ?_, ?_, run_counted inv_new hr, ?_, hinv.seekbufs, hinv.few, ?_⟩
  · exact take_of_eq (run_unread inv_new hr hseek)
  · intro seeks reads hrun hpartly hseeks hlength hreads replies
    obtain ⟨hback, hrun⟩ := each_append.mp hrun
    have hkept := run_kept [] inv_new hr (List.prefix_refl _)
    rw [← kept_last hkept hlength]
    have hmybuf := hinv.mybuf_eq_none hpartly
    obtain ⟨hnone, hreadlist⟩ := run_seeks hback hmybuf hseeks hlength
    have hunread := run_unread (run_inv hinv hback) hrun hreads
    rw [unread_of_none hnone, hreadlist, List.flatMap_append, ← unread_of_none hmybuf] at hunread
    exact take_of_eq hunread
  · exact fun count offset hcount hunread => step_read hinv hcount hunread offset
  · have hheld := run_held inv_new hr
    have hnodup : s.held.Nodup := hheld.nodup_iff.mpr hfresh
    exact (List.nodup_append'.mp hnodup).2.1

def sampleRun : List (Action × Privdata) :=
  follow step .new [.queue ⟨0, [1, 2, 3]⟩, .queue ⟨1, []⟩, .read 2 0 [1, 2], .queue ⟨2, [4]⟩,
    .read 9 2 [3], .read 9 3 [4]]

theorem readReplies_sample :
    let s := final .new sampleRun
    bytesRead sampleRun = [1, 2, 3, 4] ∧ Each Counted .new sampleRun ∧ s.seeklist.length ≤ 17 ∧
      s.freed.Nodup ∧ ∀ seeks reads, IsRun step s (seeks ++ reads) → seeks.length = 2 →
        (∀ entry ∈ seeks, entry.1.isSeek) → (∀ entry ∈ reads, entry.1.isSeek = false) →
        queued reads = [] → bytesRead reads = ([4] : List UInt8).take (bytesRead reads).length := by
  intro s
  obtain ⟨hfifo, hseeks, hcounted, -, -, hfew, hfreed⟩ :=
    readReplies (isRun_follow step .new _ : IsRun step .new sampleRun) (by decide)
  refine ⟨(hfifo (by decide)).trans (by decide), hcounted, hfew, hfreed, ?_⟩
  intro seeks reads hrun hlength hback hreads hqueued
  have hpartly : ¬ s.PartlyRead := fun hpartly => absurd hpartly.1 (by decide)
  have h := hseeks seeks reads hrun hpartly hback (by rw [hlength]; decide) hreads
  rw [hqueued, hlength] at h
  exact h

end Vfi.ReadReplies
