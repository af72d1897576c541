import Vfi.DescMemory
import Vfi.ReadReplies
import Mathlib.Algebra.BigOperators.Group.List.Basic
import Mathlib.Algebra.Ring.Nat

/-!
# Writing lines

A blocking `vfi_write` cuts what is written at its newlines, copies what follows a
line to a buffer of its own, and only then has the line executed. What is
executed, and what is queued to be read: `vfiWrite_lines`.
-/

namespace Vfi.WriteLines

open DescMemory ReadReplies

-- ---------------------------------------------------------------------------
-- The loop
-- ---------------------------------------------------------------------------

/-- What executing a line in its buffer does: to the node, as the bytes of its reply, and to the
buffer. -/
abbrev Exec (σ : Type) := σ → List Char → σ × List UInt8 × List Char

/-- A line as it is handed to `do_operation`, and the reply that is queued for it. -/
structure Call where
  line : List Char
  thisLen : Nat
  mybuf : Mybuffers
deriving DecidableEq, Repr

/-- The loop's variables: the blocks of characters allocated so far, a pointer into one of them,
and what remains. -/
structure Writing (σ : Type) where
  heap : List (List Char)
  buffer : Option (Nat × Nat)
  remains : Nat
  offset : Int
  node : σ
  priv : Privdata

/-- For one separator, which is overwritten where it is found. -/
def strsep (chars : List Char) (p : Nat) (c : Char) : List Char × Option Nat :=
  DescMemory.nameRemainder chars p c

variable {σ : Type}

/-- One round, at a place of a block. -/
def round (exec : Exec σ) (w : Writing σ) (block pos : Nat) : Call × Writing σ :=
  let (chars, rest) := strsep (w.heap.getD block []) pos '\n'
  let heap := w.heap.set block chars
  let thisLen := rest.elim w.remains fun rest => rest - pos
  let remains := w.remains - thisLen
  let (heap, buffer) :=
    match rest with
    | none => (heap, none)
    | some rest =>
      if remains ≠ 0 then
        (heap ++ [(chars.drop rest).take remains ++ ['\x00']], some (heap.length, 0))
      else (heap, some (block, rest))
  let line := read chars pos
  let (node, reply, left) := exec w.node line
  let mybuf := ⟨block, reply⟩
  (⟨line, thisLen, mybuf⟩,
    ⟨heap.set block left, buffer, remains, w.offset + thisLen, node, queueToRead w.priv mybuf⟩)

/-- At most so many rounds, each at the place where the one before has left the buffer. -/
def writeLoop (exec : Exec σ) : Nat → Writing σ → Option (List Call × Writing σ)
  | 0, _ => none
  | fuel + 1, w =>
    match w.buffer with
    | none => none
    | some (block, pos) =>
      let (call, w) := round exec w block pos
      if w.remains ≠ 0 ∧ w.buffer.isSome then
        (writeLoop exec fuel w).map fun (calls, w) => (call :: calls, w)
      else some ([call], w)

/-- A write of the characters to a file, with the blocks allocated before it. -/
def vfiWrite (exec : Exec σ) (fuel : Nat) (heap : List (List Char)) (node : σ) (priv : Privdata)
    (offset : Int) (s : List Char) : Option (List Call × Writing σ) :=
  writeLoop exec fuel
    ⟨heap ++ [s ++ ['\x00']], some (heap.length, 0), s.length, offset, node, priv⟩

-- ---------------------------------------------------------------------------
-- Lines
-- ---------------------------------------------------------------------------

/-- The lines of a text; a newline at the end ends the last line. -/
def lines (s : List Char) : List (List Char) :=
  let l := s.splitOn '\n'
  if l.getLast? = some [] then l.dropLast else l

/-- The lines executed one after the other: the replies, and the node after them. -/
def execute (exec : Exec σ) : σ → List (List Char) → List (List UInt8) × σ
  | node, [] => ([], node)
  | node, line :: rest =>
    let (after, reply, _) := exec node line
    let (replies, last) := execute exec after rest
    (reply :: replies, last)

theorem execute_cons (exec : Exec σ) (node : σ) (line : List Char) (rest : List (List Char)) :
    execute exec node (line :: rest) =
      ((exec node line).2.1 :: (execute exec (exec node line).1 rest).1,
        (execute exec (exec node line).1 rest).2) := rfl

theorem lines_last {s : List Char} (hs : s ≠ []) (h : '\n' ∉ s) : lines s = [s] := by
  rw [lines, List.splitOn_eq_singleton h]
  simp [hs]

theorem lines_cons {line rest : List Char} (h : '\n' ∉ line) :
    lines (line ++ '\n' :: rest) = line :: if rest = [] then [] else lines rest := by
  unfold lines
  rw [List.splitOn_append_cons_self_of_not_mem h]
  have hne := List.splitOn_ne_nil '\n' rest
  by_cases hrest : rest = []
  · subst hrest
    rfl
  · rw [if_neg hrest]
    dsimp only
    rw [List.getLast?_cons_of_ne_nil hne]
    split
    · rw [List.dropLast_cons_of_ne_nil hne]
    · rfl

-- ---------------------------------------------------------------------------
-- One round
-- ---------------------------------------------------------------------------

/-- The buffer is at the start of a block of its own, which holds the text that remains. -/
structure At (w : Writing σ) (block : Nat) (rest : List Char) : Prop where
  buffer : w.buffer = some (block, 0)
  lt : block < w.heap.length
  chars : w.heap.getD block [] = rest ++ ['\x00']
  remains : w.remains = rest.length
  plain : '\x00' ∉ rest

/-- The call of a round for a line, and the round's effect on all but the buffer. -/
structure Round (exec : Exec σ) (w : Writing σ) (block : Nat) (line : List Char) (thisLen : Nat)
    (call : Call) (t : Writing σ) : Prop where
  called : call = ⟨line, thisLen, ⟨block, (exec w.node line).2.1⟩⟩
  node : t.node = (exec w.node line).1
  priv : t.priv = queueToRead w.priv call.mybuf
  offset : t.offset = w.offset + thisLen
  remains : t.remains = w.remains - thisLen

variable {exec : Exec σ} {w : Writing σ} {block : Nat} {line rest : List Char}

theorem read_start (h : '\x00' ∉ rest) (after : List Char) :
    read (rest ++ '\x00' :: after) 0 = rest := by
  have hholds : CString.Holds '\x00' (rest ++ '\x00' :: after) 0 [rest] :=
    ⟨⟨[], after, by simp, rfl⟩, by simpa using h⟩
  exact CString.Holds.read (l := []) hholds

theorem strsep_last (h : '\x00' ∉ rest) (hline : '\n' ∉ rest) :
    strsep (rest ++ ['\x00']) 0 '\n' = (rest ++ ['\x00'], none) := by
  rw [strsep, DescMemory.nameRemainder, read_start h, nameRemainder_of_not_mem hline]

theorem strsep_line (h : '\x00' ∉ line ++ '\n' :: rest) (hline : '\n' ∉ line) :
    strsep (line ++ '\n' :: rest ++ ['\x00']) 0 '\n' =
      (line ++ '\x00' :: (rest ++ ['\x00']), some (line.length + 1)) := by
  rw [strsep, DescMemory.nameRemainder, read_start h, nameRemainder_append hline]
  simp

/-- What is copied behind a line that was cut. -/
theorem copied_rest (line rest : List Char) :
    ((line ++ '\x00' :: (rest ++ ['\x00'])).drop (line.length + 1)).take rest.length = rest := by
  have hsplit : line ++ '\x00' :: (rest ++ ['\x00']) =
      (line ++ ['\x00']) ++ (rest ++ ['\x00']) := by
    simp
  rw [hsplit, List.drop_left' (by simp), List.take_left]

/-- The new block is not the one that the line is executed in. -/
theorem getD_block {heap : List (List Char)} {chars new left : List Char}
    (h : block < heap.length) :
    ((heap.set block chars ++ [new]).set block left).getD heap.length [] = new := by
  rw [List.getD_eq_getElem?_getD, List.getElem?_set_ne h.ne,
    List.getElem?_append_right (by simp), List.length_set, Nat.sub_self]
  rfl

/-- The last line has no newline. -/
theorem At.round_last (exec : Exec σ) (h : At w block rest) (hline : '\n' ∉ rest) :
    Round exec w block rest rest.length (round exec w block 0).1 (round exec w block 0).2 ∧
      (round exec w block 0).2.remains = 0 := by
  unfold round
  rw [h.chars, strsep_last h.plain hline]
  dsimp only [Option.elim_none]
  rw [read_start h.plain, h.remains]
  exact ⟨⟨rfl, rfl, rfl, rfl, by rw [h.remains]⟩, Nat.sub_self _⟩

/-- A line with a newline, and the block of what follows it. -/
theorem At.round_line (exec : Exec σ) (h : At w block (line ++ '\n' :: rest))
    (hline : '\n' ∉ line) :
    Round exec w block line (line.length + 1) (round exec w block 0).1 (round exec w block 0).2 ∧
      (round exec w block 0).2.remains = rest.length ∧
      (rest ≠ [] → At (round exec w block 0).2 w.heap.length rest) := by
  have hplain := h.plain
  rw [List.mem_append, List.mem_cons, not_or, not_or] at hplain
  have hremains : w.remains - (line.length + 1 - 0) = rest.length := by
    rw [h.remains, List.length_append, List.length_cons]
    omega
  unfold round
  rw [h.chars, strsep_line h.plain hline]
  dsimp only [Option.elim_some]
  simp only [read_start hplain.1, hremains]
  refine ⟨⟨rfl, rfl, rfl, rfl, hremains.symm⟩, trivial, ?_⟩
  · intro hrest
    have hpos : rest.length ≠ 0 := by simpa using hrest
    simp only [if_pos hpos]
    refine ⟨?_, ?_, ?_, rfl, hplain.2.2⟩
    · simp
    · simp
    · rw [copied_rest]
      exact getD_block h.lt

-- ---------------------------------------------------------------------------
-- All rounds
-- ---------------------------------------------------------------------------

/-- Every line of the text is executed once, in order, and its reply queued; together the lines
have the length of the text. -/
structure Wrote (exec : Exec σ) (w : Writing σ) (s : List Char) (calls : List Call)
    (t : Writing σ) : Prop where
  lines : calls.map Call.line = lines s
  replies : execute exec w.node (WriteLines.lines s) =
    (calls.map fun call => call.mybuf.reply, t.node)
  priv : t.priv = (calls.map Call.mybuf).foldl queueToRead w.priv
  length : (calls.map Call.thisLen).sum = s.length
  offset : t.offset = w.offset + s.length

variable {s : List Char} {call : Call} {calls : List Call} {t u : Writing σ} {n : Nat}

/-- A round for the only line. -/
theorem Round.wrote (h : Round exec w block line n call t) (hlines : lines s = [line])
    (hlength : n = s.length) : Wrote exec w s [call] t := by
  subst hlength
  refine ⟨?_, ?_, h.priv, ?_, h.offset⟩
  · rw [hlines, h.called]
    rfl
  · rw [hlines, h.called, h.node]
    rfl
  · rw [h.called]
    exact Nat.add_zero _

/-- A round for the first line, and those for the rest. -/
theorem Round.wrote_cons (h : Round exec w block line (line.length + 1) call t)
    (hline : '\n' ∉ line) (hrest : rest ≠ []) (hwrote : Wrote exec t rest calls u) :
    Wrote exec w (line ++ '\n' :: rest) (call :: calls) u := by
  have hlines : lines (line ++ '\n' :: rest) = line :: if rest = [] then [] else lines rest :=
    lines_cons hline
  rw [if_neg hrest] at hlines
  refine ⟨?_, ?_, ?_, ?_, ?_⟩
  · rw [hlines, List.map_cons, hwrote.lines, h.called]
  · rw [hlines, execute_cons, ← h.node, hwrote.replies, h.called]
    rfl
  · rw [hwrote.priv, h.priv]
    rfl
  · rw [List.map_cons, List.sum_cons, hwrote.length, h.called, List.length_append,
      List.length_cons]
    dsimp only
    omega
  · rw [hwrote.offset, h.offset, List.length_append, List.length_cons]
    omega

theorem writeLoop_last {fuel : Nat} (h : w.buffer = some (block, 0))
    (hremains : (round exec w block 0).2.remains = 0) :
    writeLoop exec (fuel + 1) w = some ([(round exec w block 0).1], (round exec w block 0).2) := by
  rw [writeLoop, h]
  dsimp only
  rw [if_neg fun hmore => hmore.1 hremains]

theorem writeLoop_more {fuel : Nat} {next : Nat × Nat} (h : w.buffer = some (block, 0))
    (hremains : (round exec w block 0).2.remains ≠ 0)
    (hbuffer : (round exec w block 0).2.buffer = some next)
    (hloop : writeLoop exec fuel (round exec w block 0).2 = some (calls, u)) :
    writeLoop exec (fuel + 1) w = some ((round exec w block 0).1 :: calls, u) := by
  rw [writeLoop, h]
  dsimp only
  rw [if_pos ⟨hremains, by rw [hbuffer]; rfl⟩, hloop]
  rfl

/-- The loop, by induction on the rounds that are left. -/
theorem At.writeLoop (exec : Exec σ) {fuel : Nat} (h : At w block s) (hs : s ≠ [])
    (hfuel : s.length ≤ fuel) :
    ∃ calls t, writeLoop exec fuel w = some (calls, t) ∧ Wrote exec w s calls t := by
  induction fuel generalizing w block s with
  | zero => exact absurd (List.eq_nil_of_length_eq_zero (Nat.le_zero.mp hfuel)) hs
  | succ fuel ih =>
    by_cases hmem : '\n' ∈ s
    · obtain ⟨line, rest, rfl, hline⟩ := List.eq_append_cons_of_mem hmem
      obtain ⟨hround, hremains, hnext⟩ := h.round_line exec hline
      by_cases hrest : rest = []
      · subst hrest
        refine ⟨_, _, writeLoop_last h.buffer hremains, hround.wrote ?_ ?_⟩
        · rw [lines_cons hline, if_pos rfl]
        · rw [List.length_append]
          rfl
      · have hat := hnext hrest
        have hshort : rest.length ≤ fuel := by
          rw [List.length_append, List.length_cons] at hfuel
          omega
        obtain ⟨calls, t, hloop, hwrote⟩ := ih hat hrest hshort
        have hremains' : (round exec w block 0).2.remains ≠ 0 := by
          rw [hremains]
          simpa using hrest
        exact ⟨_, _, writeLoop_more h.buffer hremains' hat.buffer hloop,
          hround.wrote_cons hline hrest hwrote⟩
    · obtain ⟨hround, hremains⟩ := h.round_last exec hmem
      exact ⟨_, _, writeLoop_last h.buffer hremains, hround.wrote (lines_last hs hmem) rfl⟩

/-- Replies to an open file stay in order. -/
theorem foldl_queueToRead {priv : Privdata} (h : priv.opened = true) (mybufs : List Mybuffers) :
    mybufs.foldl queueToRead priv = { priv with readlist := priv.readlist ++ mybufs } := by
  induction mybufs generalizing priv with
  | nil => simp
  | cons mybuf rest ih =>
    have hqueue : queueToRead priv mybuf = { priv with readlist := priv.readlist ++ [mybuf] } :=
      if_pos h
    rw [List.foldl_cons, hqueue, ih]
    · simp
    · exact h

/-- A blocking write ends; it has executed the lines of what was written, in order and as they
were written, and queued the reply to each. -/
theorem vfiWrite_lines (exec : Exec σ) (heap : List (List Char)) (node : σ) (priv : Privdata)
    (offset : Int) (hs : s ≠ []) (hplain : '\x00' ∉ s) :
    ∃ calls w, vfiWrite exec s.length heap node priv offset s = some (calls, w) ∧
      calls.map Call.line = lines s ∧
      execute exec node (lines s) = (calls.map fun call => call.mybuf.reply, w.node) ∧
      w.priv = (calls.map Call.mybuf).foldl queueToRead priv ∧
      (priv.opened = true →
        w.priv = { priv with readlist := priv.readlist ++ calls.map Call.mybuf }) ∧
      (calls.map Call.thisLen).sum = s.length ∧ w.offset = offset + s.length := by
  have hat : At (⟨heap ++ [s ++ ['\x00']], some (heap.length, 0), s.length, offset, node, priv⟩ :
      Writing σ) heap.length s :=
    ⟨rfl, by simp, by simp [List.getD_eq_getElem?_getD], rfl, hplain⟩
  obtain ⟨calls, w, hloop, hwrote⟩ := hat.writeLoop exec hs le_rfl
  exact ⟨calls, w, hloop, hwrote.lines, hwrote.replies, hwrote.priv,
    fun hopened => hwrote.priv.trans (foldl_queueToRead hopened _), hwrote.length, hwrote.offset⟩

/-- A node that answers each line with its number, and cuts its buffer. -/
def counting : Exec Nat := fun n _ => (n + 1, [UInt8.ofNat n], ['\x00'])

/-- Two commands with an empty line between them. -/
theorem vfiWrite_lines_sample :
    ∃ calls w, vfiWrite counting 5 [] 0 .new 0 ['a', '\n', '\n', 'b', '\n'] = some (calls, w) ∧
      calls.map Call.line = [['a'], [], ['b']] ∧
      w.priv.readlist = [⟨0, [0]⟩, ⟨1, [1]⟩, ⟨2, [2]⟩] := by
  obtain ⟨calls, w, hrun, hcalls, -⟩ := vfiWrite_lines counting [] 0 .new 0
    (s := ['a', '\n', '\n', 'b', '\n']) (by simp) (by decide)
  have hlines : lines ['a', '\n', '\n', 'b', '\n'] = [['a'], [], ['b']] := by decide
  refine ⟨calls, w, hrun, hcalls.trans hlines, ?_⟩
  obtain ⟨rfl, rfl⟩ := Prod.mk.inj (Option.some.inj ((show vfiWrite counting 5 [] 0 .new 0
    ['a', '\n', '\n', 'b', '\n'] = some (_, _) from rfl).symm.trans hrun))
  rfl

end Vfi.WriteLines
