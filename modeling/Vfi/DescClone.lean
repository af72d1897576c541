import Vfi.DescFailure

/-!
# Clones of a descriptor

`vfi_clone_desc` copies the buffer of a descriptor and then moves the pointers
into the copy, field by field. What it leaves in the original's buffer:
`clone_not_deep`.
-/

namespace Vfi.DescMemory

-- ---------------------------------------------------------------------------
-- Cloning
-- ---------------------------------------------------------------------------

def Cell.get? {α : Type} : Cell α → Option α
  | .uninit => none
  | .val a => some a

/-- `new->buf + (p - old->buf)`, with no result for a pointer that is not into the old buffer. -/
def rebase (old new : Nat) : Ptr → Option Ptr
  | .into id pos => if id = old then some (.into new pos) else none
  | _ => none

def rebaseLocation (old new : Nat) (location : Ptr) : Option Ptr :=
  if location = .null then some .null else rebase old new location

/-- A pointer as a number, by the addresses of the buffers. -/
def Ptr.value (addr : Nat → Nat) : Ptr → Nat
  | .null => 0
  | .into id pos => addr id + pos
  | .number n => n

/-- `p - old->buf`, taken for a pointer. -/
def difference (build : Build) (addr : Nat → Nat) (old : Nat) (p : Ptr) : Ptr :=
  match (p.value addr + 2 ^ build.longBits - addr old) % 2 ^ build.longBits with
  | 0 => .null
  | n + 1 => .number (n + 1)

def cloneRange (build : Build) (addr : Nat → Nat) (old : Nat) (p : Ptr) : Ptr :=
  if p = .null then .null else difference build addr old p

/-- The loop over the options. -/
def cloneQuery (old new : Nat) : List Ptr → Option (List Ptr)
  | [] => none
  | .null :: slots => some (.null :: slots)
  | p :: slots => do return (← rebase old new p) :: (← cloneQuery old new slots)

/-- The copy of the buffer, and the pointers into it. -/
def cloneBuf (build : Build) (addr : Nat → Nat) (heap : Heap) (d : Desc) (old : Nat) :
    Option (Heap × Desc) := do
  let new := heap.bufs.length
  let b ← heap.bufs[old]?
  guard (b.live ∧ d.buflen = .val b.size)
  let location ← rebaseLocation old new (← d.location.get?)
  let name ← rebase old new (← d.name.get?)
  let query ← rebase old new (← d.query.get?)
  let soffset ← d.soffset.get?
  let sextent ← d.sextent.get?
  guard (query = .into new b.chars.length)
  let slots ← cloneQuery old new b.slots
  return (⟨heap.bufs ++ [{ b with slots }], heap.calls + 1⟩,
    { d with
      buf := .val (.into new 0)
      location := .val location
      name := .val name
      query := .val query
      soffset := .val (cloneRange build addr old soffset)
      sextent := .val (cloneRange build addr old sextent) })

/-- The references of the clone before it is written are put. -/
def vfiCloneDesc (calls : ParseCalls) (addr : Nat → Nat) (heap : Heap) (new old : Desc) :
    Option (Heap × Desc × Int) :=
  match new.address, new.rde, new.ploc, old.buf, old.buflen with
  | .val _, .val _, .val _, .val buf, .val buflen =>
    if buf = .null ∨ buflen = 0 then some (heap, old, -enomem)
    else if calls.kzalloc heap.calls then
      match buf with
      | .into id 0 => (cloneBuf calls.build addr heap old id).map fun (heap, d) => (heap, d, 0)
      | _ => none
    else some ({ heap with calls := heap.calls + 1 }, { old with buf := .val .null }, -enomem)
  | _, _, _, _, _ => none

/-- Descriptors that a parse or a clone gave, where nothing else writes or frees their buffers. -/
inductive Made (calls : ParseCalls) (addr : Nat → Nat) : Heap → Desc → Prop
  | parse {heap heap' : Heap} {desc : CText} {d d' : Desc} :
      vfiParseDesc calls heap desc.chars d = some (heap', d', 0) → Made calls addr heap' d'
  | clone {heap heap' : Heap} {new old d : Desc} : Made calls addr heap old →
      vfiCloneDesc calls addr heap new old = some (heap', d, 0) → Made calls addr heap' d
  | other {heap heap' : Heap} {d : Desc} : Made calls addr heap d →
      (∀ id, d.buf = .val (.into id 0) → heap'.bufs[id]? = heap.bufs[id]?) →
      Made calls addr heap' d

/-- NULL for NULL, and otherwise the same place in the other buffer. -/
def Moves (source target : Nat) (p q : Ptr) : Prop :=
  (p = .null ∧ q = .null) ∨ ∃ pos, p = .into source pos ∧ q = .into target pos

def Moved (source target : Nat) (old new : Cell Ptr) : Prop :=
  ∃ p q, old = .val p ∧ new = .val q ∧ Moves source target p q

/-- The clone has the strings of the original in a buffer of its own, and every pointer of it is
into that. -/
structure DeepCopy (heap : Heap) (old new : Desc) (source target : Nat) : Prop where
  buf : old.buf = .val (.into source 0) ∧ new.buf = .val (.into target 0) ∧ source ≠ target
  slots : ∃ b b', heap.bufs[source]? = some b ∧ heap.bufs[target]? = some b' ∧ b'.live = true ∧
    b'.chars = b.chars ∧ List.Forall₂ (Moves source target) b.slots b'.slots
  name : Moved source target old.name new.name
  location : Moved source target old.location new.location
  soffset : Moved source target old.soffset new.soffset
  sextent : Moved source target old.sextent new.sextent
  query : Moved source target old.query new.query
  last : Moved source target old.last new.last

-- ---------------------------------------------------------------------------
-- What every such descriptor is
-- ---------------------------------------------------------------------------

/-- The places that the name, the location and the options have in a buffer. -/
structure Places where
  chars : List Char
  name : Nat
  location : Option Nat
  queries : List Nat
  nulls : Nat

def Places.toBuf (w : Places) (id : Nat) : Buf where
  chars := w.chars
  slots := w.queries.map (.into id) ++ List.replicate (w.nulls + 1) .null

/-- A descriptor with its pointers into one buffer. Nothing is known of the numbers' ends, and of
`last` only that it is into a buffer, which may be an older one. -/
structure Whole (heap : Heap) (id : Nat) (w : Places) (d : Desc) : Prop where
  found : heap.bufs[id]? = some (w.toBuf id)
  buf : d.buf = .val (.into id 0)
  buflen : d.buflen = .val (w.toBuf id).size
  name : d.name = .val (.into id w.name)
  location : d.location = .val (toPtr id w.location)
  soffset : ∃ p, d.soffset = .val p
  sextent : ∃ p, d.sextent = .val p
  query : d.query = .val (.into id w.chars.length)
  last : ∃ id' pos, d.last = .val (.into id' pos) ∧ id' ≤ id

theorem Places.toBuf_size (w : Places) (id id' : Nat) :
    (w.toBuf id).size = (w.toBuf id').size := by
  simp [Places.toBuf, Buf.size]

theorem Places.toBuf_size_ne (w : Places) (id : Nat) : (w.toBuf id).size ≠ 0 := by
  simp [Places.toBuf, Buf.size]

variable {calls : ParseCalls} {addr : Nat → Nat} {heap heap' : Heap} {new old d : Desc} {id : Nat}
variable {w : Places}

theorem vfiParseDesc_whole {desc : CText}
    (h : vfiParseDesc calls heap desc.chars d = some (heap', new, 0)) :
    ∃ id w, Whole heap' id w new := by
  by_cases hcopied : Copied calls heap.calls desc.chars
  · obtain ⟨r, hparse, ⟨queries, k, hslots⟩, hreads⟩ := parse_reads calls.build desc.plain
    by_cases hnumbers : NumbersOk calls.build desc.chars
    · obtain ⟨parsed, hdesc⟩ := (parseDesc_ok_iff desc.chars).mpr hnumbers
      rw [hdesc] at hreads
      obtain ⟨hchars, hlength⟩ := parse_length hparse
      have hrun := vfiParseDesc_of_parse (d := d) hcopied hparse hreads.1
      cases hrun.symm.trans h
      let w : Places := ⟨r.chars, r.name, r.location, queries, k⟩
      have hbuf : r.toBuf heap.bufs.length = w.toBuf heap.bufs.length := by
        rw [Parsed.toBuf, Places.toBuf, hslots, List.map_append, List.map_replicate, List.map_map]
        rfl
      have hsize : (newBuf desc.chars).size = (w.toBuf heap.bufs.length).size := by
        rw [← hbuf, Buf.size, Buf.size, Parsed.toBuf, List.length_map, hchars, hlength]
      refine ⟨heap.bufs.length, w, ?_, rfl, congrArg Cell.val hsize, rfl, rfl, ⟨_, rfl⟩, ⟨_, rfl⟩,
        ?_, ⟨_, _, rfl, Nat.le_refl _⟩⟩
      · rw [← hbuf]
        exact getElem?_push heap.bufs _
      · exact congrArg (fun n => Cell.val (Ptr.into heap.bufs.length n)) hchars.symm
    · obtain ⟨b, d', ret, hrun, hret, -⟩ :=
        vfiParseDesc_malformed (d := d) desc.plain hcopied hnumbers
      cases hrun.symm.trans h
      exact absurd rfl hret
  · obtain ⟨n, hrun⟩ := vfiParseDesc_uncopied (d := d) hcopied
    cases hrun.symm.trans h

-- ---------------------------------------------------------------------------
-- What a clone is
-- ---------------------------------------------------------------------------

theorem rebase_into (source target pos : Nat) :
    rebase source target (.into source pos) = some (.into target pos) :=
  if_pos rfl

theorem rebaseLocation_toPtr (source target : Nat) (location : Option Nat) :
    rebaseLocation source target (toPtr source location) = some (toPtr target location) := by
  cases location with
  | none => rfl
  | some pos => exact (if_neg Ptr.noConfusion).trans (rebase_into source target pos)

theorem cloneQuery_queries (source target : Nat) (queries : List Nat) (k : Nat) :
    cloneQuery source target (queries.map (.into source) ++ List.replicate (k + 1) .null) =
      some (queries.map (.into target) ++ List.replicate (k + 1) .null) := by
  induction queries with
  | nil => rfl
  | cons query queries ih =>
    rw [List.map_cons, List.cons_append, cloneQuery, ih, rebase_into]
    · rfl
    · exact Ptr.noConfusion

/-- The fields of a clone. -/
def Places.fill (w : Places) (build : Build) (addr : Nat → Nat) (source target : Nat)
    (soffset sextent : Ptr) (old : Desc) : Desc :=
  { old with
    buf := .val (.into target 0)
    location := .val (toPtr target w.location)
    name := .val (.into target w.name)
    query := .val (.into target w.chars.length)
    soffset := .val (cloneRange build addr source soffset)
    sextent := .val (cloneRange build addr source sextent) }

theorem Whole.cloneBuf {build : Build} (h : Whole heap id w old) {soffset sextent : Ptr}
    (hsoffset : old.soffset = .val soffset) (hsextent : old.sextent = .val sextent) :
    cloneBuf build addr heap old id =
      some (⟨heap.bufs ++ [w.toBuf heap.bufs.length], heap.calls + 1⟩,
        w.fill build addr id heap.bufs.length soffset sextent old) := by
  have hguard : guard ((w.toBuf id).live = true ∧ True) = some () := if_pos ⟨rfl, trivial⟩
  have hquery : guard (Ptr.into heap.bufs.length w.chars.length =
      .into heap.bufs.length (w.toBuf id).chars.length) = some () := if_pos rfl
  have hslots : cloneQuery id heap.bufs.length (w.toBuf id).slots =
      some (w.toBuf heap.bufs.length).slots :=
    cloneQuery_queries id heap.bufs.length w.queries w.nulls
  unfold DescMemory.cloneBuf
  simp only [h.found, h.buflen, h.name, h.location, h.query, hsoffset, hsextent, Cell.get?,
    Option.bind_eq_bind, Option.bind_some, rebaseLocation_toPtr, rebase_into, hguard, hquery,
    hslots]
  rw [Places.fill, h.buflen]
  rfl

/-- A clone has the places of the original, in the newest buffer. -/
theorem vfiCloneDesc_whole (h : Whole heap id w old)
    (hclone : vfiCloneDesc calls addr heap new old = some (heap', d, 0)) :
    ∃ soffset sextent, old.soffset = .val soffset ∧ old.sextent = .val sextent ∧
      heap' = ⟨heap.bufs ++ [w.toBuf heap.bufs.length], heap.calls + 1⟩ ∧
      d = w.fill calls.build addr id heap.bufs.length soffset sextent old := by
  obtain ⟨soffset, hsoffset⟩ := h.soffset
  obtain ⟨sextent, hsextent⟩ := h.sextent
  refine ⟨soffset, sextent, hsoffset, hsextent, ?_⟩
  unfold vfiCloneDesc at hclone
  rw [h.buf, h.buflen] at hclone
  split at hclone
  · next hbuf hbuflen =>
    cases hbuf
    cases hbuflen
    have hsize : ¬ (Ptr.into id 0 = .null ∨ (w.toBuf id).size = 0) := by
      rintro (hnull | hzero)
      · cases hnull
      · exact w.toBuf_size_ne id hzero
    rw [if_neg hsize] at hclone
    split at hclone
    · have hrun : (DescMemory.cloneBuf calls.build addr heap old id).map
          (fun r => (r.1, r.2, (0 : Int))) = some (heap', d, 0) := hclone
      rw [h.cloneBuf hsoffset hsextent] at hrun
      cases hrun
      exact ⟨rfl, rfl⟩
    · cases hclone
  · cases hclone

theorem Whole.clone {build : Build} {soffset sextent : Ptr} (h : Whole heap id w old) :
    Whole ⟨heap.bufs ++ [w.toBuf heap.bufs.length], heap.calls + 1⟩ heap.bufs.length w
      (w.fill build addr id heap.bufs.length soffset sextent old) := by
  obtain ⟨id', pos, hlast, hle⟩ := h.last
  have hid := (List.getElem?_eq_some_iff.mp h.found).1
  refine ⟨getElem?_push heap.bufs _, rfl, ?_, rfl, rfl, ⟨_, rfl⟩, ⟨_, rfl⟩, rfl,
    ⟨id', pos, hlast, by omega⟩⟩
  exact h.buflen.trans (congrArg Cell.val (w.toBuf_size id heap.bufs.length))

theorem made_whole (h : Made calls addr heap d) : ∃ id w, Whole heap id w d := by
  induction h with
  | parse h => exact vfiParseDesc_whole h
  | clone _ hclone ih =>
    obtain ⟨id, w, hold⟩ := ih
    obtain ⟨soffset, sextent, -, -, rfl, rfl⟩ := vfiCloneDesc_whole hold hclone
    exact ⟨_, w, hold.clone⟩
  | other _ hframe ih =>
    obtain ⟨id, w, h⟩ := ih
    refine ⟨id, w, { h with found := ?_ }⟩
    rw [hframe id h.buf]
    exact h.found

theorem moved_toPtr (source target : Nat) (pos : Option Nat) :
    Moved source target (.val (toPtr source pos)) (.val (toPtr target pos)) := by
  refine ⟨_, _, rfl, rfl, ?_⟩
  cases pos with
  | none => exact .inl ⟨rfl, rfl⟩
  | some pos => exact .inr ⟨pos, rfl, rfl⟩

theorem Places.toBuf_moves (w : Places) (source target : Nat) :
    List.Forall₂ (Moves source target) (w.toBuf source).slots (w.toBuf target).slots := by
  unfold Places.toBuf
  dsimp only
  induction w.queries with
  | nil =>
    rw [List.map_nil, List.map_nil, List.nil_append]
    induction w.nulls + 1 with
    | zero => exact .nil
    | succ k ih => exact .cons (.inl ⟨rfl, rfl⟩) ih
  | cons query queries ih => exact .cons (.inr ⟨query, rfl, rfl⟩) ih

/-- A difference of pointers is not a place in the new buffer. -/
theorem cloneRange_moves {build : Build} {source target : Nat} {p : Ptr} :
    Moves source target p (cloneRange build addr source p) ↔ p = .null := by
  unfold cloneRange Moves
  by_cases hnull : p = .null
  · rw [if_pos hnull]
    exact iff_of_true (.inl ⟨hnull, rfl⟩) hnull
  · rw [if_neg hnull]
    refine iff_of_false ?_ hnull
    rintro (⟨hp, -⟩ | ⟨pos, -, hq⟩)
    · exact hnull hp
    · unfold difference at hq
      split at hq
      · cases hq
      · cases hq

theorem moved_cloneRange {build : Build} {source target : Nat} {p : Ptr} :
    Moved source target (.val p) (.val (cloneRange build addr source p)) ↔ p = .null := by
  have hiff : Moves source target p (cloneRange build addr source p) ↔ p = .null :=
    cloneRange_moves
  rw [← hiff]
  constructor
  · rintro ⟨p', q', hp, hq, h⟩
    cases hp
    cases hq
    exact h
  · exact fun h => ⟨_, _, rfl, rfl, h⟩

/-- The pointers that a clone moves, and those that it does not. -/
theorem clone_moved (h : Made calls addr heap old)
    (hclone : vfiCloneDesc calls addr heap new old = some (heap', d, 0)) :
    ∃ source target b b', old.buf = .val (.into source 0) ∧ d.buf = .val (.into target 0) ∧
      source ≠ target ∧ heap'.bufs[source]? = some b ∧ heap'.bufs[target]? = some b' ∧
      b'.live = true ∧ b'.chars = b.chars ∧ List.Forall₂ (Moves source target) b.slots b'.slots ∧
      Moved source target old.name d.name ∧ Moved source target old.location d.location ∧
      Moved source target old.query d.query ∧
      (Moved source target old.soffset d.soffset ↔ old.soffset = .val .null) ∧
      (Moved source target old.sextent d.sextent ↔ old.sextent = .val .null) := by
  obtain ⟨id, w, hold⟩ := made_whole h
  obtain ⟨soffset, sextent, hsoffset, hsextent, rfl, rfl⟩ := vfiCloneDesc_whole hold hclone
  have hid := (List.getElem?_eq_some_iff.mp hold.found).1
  refine ⟨id, heap.bufs.length, w.toBuf id, w.toBuf heap.bufs.length, hold.buf, rfl, hid.ne, ?_,
    getElem?_push heap.bufs _, rfl, rfl, w.toBuf_moves id heap.bufs.length, ?_, ?_, ?_, ?_, ?_⟩
  · rw [List.getElem?_append_left hid]
    exact hold.found
  · rw [hold.name]
    exact moved_toPtr id _ (some w.name)
  · rw [hold.location]
    exact moved_toPtr id _ w.location
  · rw [hold.query]
    exact moved_toPtr id _ (some w.chars.length)
  · rw [hsoffset, Cell.val.injEq]
    exact moved_cloneRange
  · rw [hsextent, Cell.val.injEq]
    exact moved_cloneRange

/-- No clone is a deep copy: its `end` stays in the buffer of a descriptor before it. -/
theorem clone_not_deep (h : Made calls addr heap old)
    (hclone : vfiCloneDesc calls addr heap new old = some (heap', d, 0)) :
    ¬ ∃ source target, DeepCopy heap' old d source target := by
  obtain ⟨id, w, hold⟩ := made_whole h
  obtain ⟨soffset, sextent, -, -, rfl, rfl⟩ := vfiCloneDesc_whole hold hclone
  obtain ⟨id', pos, hlast, hle⟩ := hold.last
  have hid := (List.getElem?_eq_some_iff.mp hold.found).1
  rintro ⟨source, target, hcopy⟩
  -- The clone's own buffer is the newest, and `last` was copied as it is.
  have htarget : heap.bufs.length = target := by
    have hbuf := hcopy.buf.2.1
    cases hbuf
    rfl
  obtain ⟨p, q, hp, hq, hmoves⟩ := hcopy.last
  have hq' : old.last = .val q := hq
  rw [hlast] at hp hq'
  cases hp
  cases hq'
  rcases hmoves with ⟨hnull, -⟩ | ⟨pos', -, hmoved⟩
  · cases hnull
  · cases hmoved
    omega

/-- The clone of `x#8` is in buffer 1, with `end` in buffer 0 and the number 3 for its offset
string. -/
theorem clone_run : ∃ heap old heap' d,
    vfiParseDesc debugCalls {} ['x', '#', '8'] .uninit = some (heap, old, 0) ∧
    vfiCloneDesc debugCalls (fun id => 4096 * (id + 1)) heap .zeroed old = some (heap', d, 0) ∧
    d.buf = .val (.into 1 0) ∧ d.last = .val (.into 0 8) ∧ d.soffset = .val (.number 3) := by
  have hrun : ((vfiParseDesc debugCalls {} ['x', '#', '8'] .uninit).bind fun r =>
      (vfiCloneDesc debugCalls (fun id => 4096 * (id + 1)) r.1 .zeroed r.2.1).map fun c =>
        (r.2.2, c.2.2, c.2.1.buf, c.2.1.last, c.2.1.soffset)) =
      some (0, 0, .val (.into 1 0), .val (.into 0 8), .val (.number 3)) := by
    decide
  obtain ⟨⟨heap, old, ret⟩, hparse, hrun⟩ := Option.bind_eq_some_iff.mp hrun
  obtain ⟨⟨heap', d, ret'⟩, hclone, heq⟩ := Option.map_eq_some_iff.mp hrun
  simp only [Prod.mk.injEq] at heq
  obtain ⟨rfl, rfl, hbuf, hlast, hsoffset⟩ := heq
  exact ⟨heap, old, heap', d, hparse, hclone, hbuf, hlast, hsoffset⟩

theorem clone_not_deep_offset : ∃ heap old heap' d,
    vfiParseDesc debugCalls {} ['x', '#', '8'] .uninit = some (heap, old, 0) ∧
    vfiCloneDesc debugCalls (fun id => 4096 * (id + 1)) heap .zeroed old = some (heap', d, 0) ∧
    ¬ ∃ source target, DeepCopy heap' old d source target := by
  obtain ⟨heap, old, heap', d, hparse, hclone, -⟩ := clone_run
  have hmade :=
    @Made.parse _ (fun id => 4096 * (id + 1)) _ _ ⟨['x', '#', '8'], by decide⟩ _ _ hparse
  exact ⟨heap, old, heap', d, hparse, hclone, clone_not_deep hmade hclone⟩

theorem clone_stale : ¬ ∀ heap old heap' d,
    vfiParseDesc debugCalls {} ['x', '#', '8'] .uninit = some (heap, old, 0) →
    vfiCloneDesc debugCalls (fun id => 4096 * (id + 1)) heap .zeroed old = some (heap', d, 0) →
    ∃ source target, DeepCopy heap' old d source target := by
  intro h
  obtain ⟨heap, old, heap', d, hparse, hclone, hbuf, hlast, -⟩ := clone_run
  obtain ⟨source, target, hcopy⟩ := h heap old heap' d hparse hclone
  obtain ⟨p, q, -, hq, hmoves⟩ := hcopy.last
  cases hbuf.symm.trans hcopy.buf.2.1
  cases hlast.symm.trans hq
  rcases hmoves with ⟨-, hnull⟩ | ⟨pos, -, hmoved⟩
  · cases hnull
  · cases hmoved

end Vfi.DescMemory
