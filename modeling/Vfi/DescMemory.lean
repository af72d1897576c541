import Vfi.BindTerms
import Vfi.Lib.CString

/-!
# The parser on its buffer

The parser as it works: on the copy that `vfi_str_dup` makes of a string, which
it cuts by writing NULs, with pointers into the copy and an array of them behind
it. The strings these stand for are those of the parser on strings:
`parse_reads`.
-/

namespace Vfi.DescMemory

open CString

-- ---------------------------------------------------------------------------
-- Buffers and descriptors
-- ---------------------------------------------------------------------------

/-- NULL, a place in a buffer, or a number that was stored as a pointer. -/
inductive Ptr where
  | null
  | into (buf pos : Nat)
  | number (n : Nat)
deriving DecidableEq, Repr

/-- A variable, which can be read before it is written. -/
inductive Cell (α : Type) where
  | uninit
  | val (a : α)
deriving DecidableEq, Repr

/-- The copy of a string up to the slots for its options, and the slots. -/
structure Buf where
  chars : List Char
  slots : List Ptr
  live : Bool := true
deriving DecidableEq, Repr

/-- The buffers allocated so far, by their numbers, and the calls of `kzalloc`. -/
structure Heap where
  bufs : List Buf := []
  calls : Nat := 0
deriving DecidableEq, Repr

inductive VfiOps where
  | vfiLocalOps
  | vfiFabricOps
deriving DecidableEq, Repr

/-- `struct vfi_desc_param`, with `last` for its `end`. -/
structure Desc where
  buf : Cell Ptr
  buflen : Cell Nat
  name : Cell Ptr
  location : Cell Ptr
  offset : Cell UInt64
  extent : Cell UInt32
  soffset : Cell Ptr
  sextent : Cell Ptr
  query : Cell Ptr
  last : Cell Ptr
  ops : Cell (Option VfiOps)
  rde : Cell (Option Nat)
  address : Cell (Option Nat)
  ploc : Cell (Option Nat)
deriving DecidableEq, Repr

/-- A descriptor on the stack. -/
def Desc.uninit : Desc :=
  ⟨.uninit, .uninit, .uninit, .uninit, .uninit, .uninit, .uninit, .uninit, .uninit, .uninit,
    .uninit, .uninit, .uninit, .uninit⟩

/-- A descriptor after `memset`. -/
def Desc.zeroed : Desc :=
  ⟨.val .null, .val 0, .val .null, .val .null, .val 0, .val 0, .val .null, .val .null, .val .null,
    .val .null, .val none, .val none, .val none, .val none⟩

/-- What the parser calls: `kzalloc`, by the number of the call, and the finds by name. -/
structure ParseCalls where
  build : Build
  kzalloc : Nat → Bool
  vfiFabricFind : List Char → Option Nat
  vfiDmaFind : List Char → Option Nat

/-- A buffer for a string: a multiple of 4 characters, and a slot for each possible option. -/
def newBuf (name : List Char) : Buf where
  chars := name ++ List.replicate (((name.length + 1) / 4 + 1) * 4 - name.length) '\x00'
  slots := List.replicate (argc name) .null

def Buf.size (b : Buf) : Nat := b.chars.length + 4 * b.slots.length

/-- `vfi_str_dup` without a descriptor. -/
def strDup (calls : ParseCalls) (heap : Heap) (name : List Char) : Heap × Option Nat :=
  match Vfi.vfiStrDup name with
  | none => (heap, none)
  | some copy =>
    if calls.kzalloc heap.calls then
      (⟨heap.bufs ++ [newBuf copy], heap.calls + 1⟩, some heap.bufs.length)
    else ({ heap with calls := heap.calls + 1 }, none)

def vfiStrDup (calls : ParseCalls) (heap : Heap) (name : List Char) (d : Desc) :
    Heap × Desc × Option Nat :=
  let d := { d with buflen := .val 0 }
  match strDup calls heap name with
  | (heap, none) => (heap, d, none)
  | (heap, some id) =>
    let b := newBuf name
    (heap, { d with
      buflen := .val b.size
      query := .val (.into id b.chars.length)
      last := .val (.into id (b.chars.length + 4 * (b.slots.length - 1))) }, some id)

def kfree (heap : Heap) (id : Nat) : Heap :=
  { heap with bufs := heap.bufs.modify id fun b => { b with live := false } }

-- ---------------------------------------------------------------------------
-- The parser
-- ---------------------------------------------------------------------------

def read (chars : List Char) (p : Nat) : List Char := readAt '\x00' chars p

def nameRemainder (chars : List Char) (name : Nat) (c : Char) : List Char × Option Nat :=
  match Vfi.nameRemainder (read chars name) c with
  | (_, none) => (chars, none)
  | (head, some _) => (chars.set (name + head.length) '\x00', some (name + head.length + 1))

/-- A NULL string has no remainder. -/
def remainderOf (chars : List Char) (name : Option Nat) (c : Char) : List Char × Option Nat :=
  match name with
  | none => (chars, none)
  | some name => nameRemainder chars name c

/-- The loop that skips the dots before the name, for at most so many of them. -/
def skipDots : Nat → List Char → Nat → Option Nat → List Char × Nat × Option Nat
  | fuel + 1, chars, name, some location =>
    if read chars name = [] then
      let (chars, next) := nameRemainder chars location '.'
      skipDots fuel chars location next
    else (chars, name, some location)
  | _, chars, name, location => (chars, name, location)

/-- The offset and the extent, in either order. -/
def splitRange (chars : List Char) (name : Nat) : List Char × Option Nat × Option Nat :=
  let (chars, sextent) := nameRemainder chars name ':'
  let (chars, soffset) := nameRemainder chars name '#'
  let (chars, sextent) :=
    match sextent with
    | none => remainderOf chars soffset ':'
    | some sextent => (chars, some sextent)
  match soffset with
  | none => let (chars, soffset) := remainderOf chars sextent '#'; (chars, soffset, sextent)
  | some soffset => (chars, some soffset, sextent)

/-- The number at a pointer, and where its conversion stopped. -/
def parseNumber (build : Build) (chars : List Char) : Option Nat → Nat × Option Nat
  | none => (0, none)
  | some s =>
    let (value, rest) := simpleStrtoul build (read chars s)
    (value, some (s + ((read chars s).length - rest.length)))

/-- The assertion on where a conversion stopped; what it makes of `ret`. -/
def vfiAssert (build : Build) (chars : List Char) (name : Nat) (stop : Option Nat) (ret : Int) :
    Int :=
  match stop with
  | none => ret
  | some stop => if build.debug ∧ read chars stop ≠ [] then stop - name else ret

/-- The parentheses of one option. -/
def parseOption (chars : List Char) (query : Nat) : List Char :=
  match Vfi.nameRemainder (read chars query) '(' with
  | (_, none) => chars
  | (var, some _) =>
    let chars := chars.set (query + var.length) '='
    match Vfi.nameRemainder (read chars (query + var.length)) ')' with
    | (_, none) => chars
    | (val, some _) => chars.set (query + var.length + val.length) '\x00'

/-- The loop over the options, with so many slots left. It has no result where it writes behind
the last slot. -/
def vfiParseOptions : Nat → List Char → Option Nat → Option (List Char × List (Option Nat))
  | 0, _, _ => none
  | slots + 1, chars, none => some (chars, List.replicate (slots + 1) none)
  | slots + 1, chars, some query =>
    let (chars, next) := nameRemainder chars query ','
    (vfiParseOptions slots (parseOption chars query) next).map fun (chars, queries) =>
      (chars, some query :: queries)

/-- What `_vfi_parse_desc` leaves, with places in the buffer for pointers. -/
structure Parsed where
  ret : Int
  chars : List Char
  slots : List (Option Nat)
  name : Nat
  location : Option Nat
  soffset : Option Nat
  sextent : Option Nat
  offset : UInt64
  extent : UInt32
deriving DecidableEq, Repr

/-- The strings in the slots up to the first NULL. -/
def Parsed.query (r : Parsed) : List (List Char) :=
  (r.slots.takeWhile Option.isSome).map fun query => read r.chars (query.getD 0)

/-- Where the name starts: behind the scheme, if there is one. -/
def nameStart (desc : List Char) : Nat :=
  match strstr desc "://".toList with
  | some ops => desc.length - ops.length + 3
  | none => 0

/-- The first query, the name and the location. -/
def parsePath (b : Buf) : List Char × Option Nat × Nat × Option Nat :=
  let start := nameStart (read b.chars 0)
  let (chars, query) := nameRemainder b.chars start '?'
  let (chars, location) := nameRemainder chars start '.'
  let (chars, name, location) := skipDots b.chars.length chars start location
  (chars, query, name, location)

/-- `_vfi_parse_desc` up to the options it acts on itself. -/
def parse (build : Build) (b : Buf) : Option Parsed :=
  let (chars, query, name, location) := parsePath b
  let (chars, soffset, sextent) := splitRange chars (location.getD name)
  let (extent, sextent) := parseNumber build chars sextent
  let (offset, soffset) := parseNumber build chars soffset
  let ret := vfiAssert build chars name soffset (vfiAssert build chars name sextent 0)
  (vfiParseOptions b.slots.length chars query).map fun (chars, slots) =>
    { ret, chars, slots, name, location, soffset, sextent
      offset := .ofNat offset, extent := .ofNat extent }

-- ---------------------------------------------------------------------------
-- Cutting a string in the buffer
-- ---------------------------------------------------------------------------

variable {build : Build} {chars s t : List Char} {p : Nat} {c : Char} {l ys : List (List Char)}

/-- The strings in the buffer, from a place on. -/
abbrev Strings (chars : List Char) (p : Nat) (l : List (List Char)) : Prop :=
  Holds '\x00' chars p l

theorem read_room (h : Strings chars p (l ++ s :: ys)) : read chars (p + room l) = s :=
  h.read

theorem place_snoc (p : Nat) (l : List (List Char)) (s : List Char) :
    p + room (l ++ [s]) = p + room l + s.length + 1 := by
  rw [room_append, room_cons, room_nil]
  omega

/-- `name_remainder` on the end of a string cuts it as its model on strings does. -/
theorem nameRemainder_suffix (h : Strings chars p (l ++ (t ++ s) :: ys)) (c : Char) :
    ∃ chars', nameRemainder chars (p + room l + t.length) c =
        (chars', (Vfi.nameRemainder s c).2.map
          fun _ => p + room (l ++ [t ++ (Vfi.nameRemainder s c).1])) ∧
      Strings chars' p (l ++ (t ++ (Vfi.nameRemainder s c).1) ::
        ((Vfi.nameRemainder s c).2.toList ++ ys)) := by
  have hread : read chars (p + room l + t.length) = s := h.read_append
  unfold nameRemainder
  rw [hread]
  by_cases hmem : c ∈ s
  · obtain ⟨u, v, rfl, hu⟩ := List.eq_append_cons_of_mem hmem
    rw [← List.append_assoc] at h
    rw [nameRemainder_append hu]
    have hplace : p + room l + t.length + u.length = p + room l + (t ++ u).length := by
      rw [List.length_append, Nat.add_assoc]
    refine ⟨chars.set (p + room l + t.length + u.length) '\x00', ?_, ?_⟩
    · dsimp only
      rw [Option.map_some, place_snoc, hplace]
    · rw [hplace]
      exact h.cut
  · rw [nameRemainder_of_not_mem hmem]
    exact ⟨chars, rfl, h⟩

theorem nameRemainder_strings (h : Strings chars p (l ++ s :: ys)) (c : Char) :
    ∃ chars', nameRemainder chars (p + room l) c =
        (chars', (Vfi.nameRemainder s c).2.map
          fun _ => p + room (l ++ [(Vfi.nameRemainder s c).1])) ∧
      Strings chars' p (l ++ (Vfi.nameRemainder s c).1 ::
        ((Vfi.nameRemainder s c).2.toList ++ ys)) :=
  nameRemainder_suffix (t := []) h c

/-- A string that was cut takes up the same room. -/
theorem room_nameRemainder (l : List (List Char)) (s : List Char) (c : Char) :
    room (l ++ (Vfi.nameRemainder s c).1 :: (Vfi.nameRemainder s c).2.toList) =
      room (l ++ [s]) := by
  have hlength := congrArg List.length (nameRemainder_join s c).2
  rw [List.length_append] at hlength
  rw [room_append, room_append, room_cons, room_cons]
  cases hrest : (Vfi.nameRemainder s c).2 with
  | none =>
    rw [hrest] at hlength
    rw [hlength]
    rfl
  | some rest =>
    rw [hrest] at hlength
    simp only [Option.map_some, Option.getD_some, List.length_cons] at hlength
    simp only [Option.toList_some, room_cons, room_nil]
    omega

theorem simpleStrtoul_suffix (build : Build) (s : List Char) :
    List.IsSuffix (simpleStrtoul build s).2 s := by
  have hdigits : ∀ value s, List.IsSuffix (hexDigits build.longBits value s).2 s := by
    intro value s
    induction s generalizing value with
    | nil => exact List.suffix_rfl
    | cons c s ih =>
      rw [hexDigits]
      split
      · exact (ih _).trans (List.suffix_cons c s)
      · exact List.suffix_rfl
  unfold simpleStrtoul
  split
  · exact (hdigits 0 _).trans ((List.suffix_cons 'x' _).trans (List.suffix_cons '0' _))
  · exact (hdigits 0 _).trans ((List.suffix_cons 'X' _).trans (List.suffix_cons '0' _))
  · exact hdigits 0 s

theorem skipDots_none (fuel : Nat) (chars : List Char) (name : Nat) :
    skipDots fuel chars name none = (chars, name, none) := by
  cases fuel with
  | zero => rfl
  | succ fuel => rfl

theorem skipDots_of_ne_nil (fuel : Nat) {name : Nat} (location : Option Nat)
    (h : read chars name ≠ []) : skipDots fuel chars name location = (chars, name, location) := by
  cases location with
  | none => exact skipDots_none fuel chars name
  | some location =>
    cases fuel with
    | zero => rfl
    | succ fuel => rw [skipDots, if_neg h]

theorem splitLocation_dot (s : List Char) : splitLocation ('.' :: s) = splitLocation s := by
  rw [splitLocation, List.dropWhile_cons_of_pos (by decide), splitLocation]

theorem splitLocation_cons {c : Char} (hdot : c ≠ '.') (s : List Char) :
    splitLocation (c :: s) = Vfi.nameRemainder (c :: s) '.' := by
  rw [splitLocation, List.dropWhile_cons_of_neg (by simpa using hdot)]

/-- A string that does not begin with the mark has a name in front of it. -/
theorem nameRemainder_ne_nil {c m : Char} (hc : c ≠ m) (s : List Char) :
    (Vfi.nameRemainder (c :: s) m).1 ≠ [] := by
  have hjoin := (nameRemainder_join (c :: s) m).2
  intro hnil
  rw [hnil, List.nil_append] at hjoin
  cases hrest : (Vfi.nameRemainder (c :: s) m).2 with
  | none =>
    rw [hrest] at hjoin
    cases hjoin
  | some rest =>
    rw [hrest] at hjoin
    exact hc (List.cons.inj hjoin).1

/-- The loop over the dots finds the name and the location. -/
theorem skipDots_strings (h : Strings chars p (s :: ys)) {fuel : Nat} (hfuel : s.length ≤ fuel) :
    ∃ chars' start, skipDots fuel (nameRemainder chars p '.').1 p (nameRemainder chars p '.').2 =
        (chars', start, (splitLocation s).2.map fun _ => start + room [(splitLocation s).1]) ∧
      Strings chars' start ((splitLocation s).1 :: ((splitLocation s).2.toList ++ ys)) ∧
      start + room ((splitLocation s).1 :: (splitLocation s).2.toList) = p + room [s] := by
  induction s generalizing chars p fuel with
  | nil =>
    obtain ⟨chars', heq, hstrings⟩ := nameRemainder_strings (l := []) h '.'
    rw [room_nil, Nat.add_zero] at heq
    rw [heq]
    exact ⟨chars', p, skipDots_none fuel chars' p, hstrings, rfl⟩
  | cons c s ih =>
    obtain ⟨chars', heq, hstrings⟩ := nameRemainder_strings (l := []) h '.'
    rw [room_nil, Nat.add_zero] at heq
    rw [heq]
    by_cases hdot : c = '.'
    · subst hdot
      obtain ⟨fuel, rfl⟩ : ∃ k, fuel = k + 1 := ⟨fuel - 1, by rw [List.length_cons] at hfuel; omega⟩
      have hcut : Vfi.nameRemainder ('.' :: s) '.' = ([], some s) := nameRemainder_append (s := [])
        List.not_mem_nil
      rw [hcut] at hstrings ⊢
      have hread : read chars' p = [] := read_room (l := []) hstrings
      have hrest : Strings chars' (p + 1) (s :: ys) := Holds.drop (l := [[]]) hstrings
      obtain ⟨chars'', start, hskip, hfinal, hroom⟩ := ih hrest
        (Nat.le_of_succ_le_succ hfuel)
      rw [splitLocation_dot]
      refine ⟨chars'', start, ?_, hfinal, ?_⟩
      · rw [← hskip]
        dsimp only [Option.map_some, List.nil_append]
        have hone : room [([] : List Char)] = 1 := rfl
        rw [hone, skipDots, if_pos hread]
      · rw [hroom, room_cons, room_cons, List.length_cons]
        omega
    · have hhead := nameRemainder_ne_nil hdot s
      have hread : read chars' p = (Vfi.nameRemainder (c :: s) '.').1 :=
        read_room (l := []) hstrings
      rw [splitLocation_cons hdot]
      exact ⟨chars', p, skipDots_of_ne_nil fuel _ (hread ▸ hhead), hstrings,
        congrArg (p + ·) (room_nameRemainder [] (c :: s) '.')⟩

/-- The strings of a range in the order in which they lie. -/
def rangeStrings (r : Range) : List (List Char) :=
  if r.extentFirst then r.sextent.toList ++ r.soffset.toList
  else r.soffset.toList ++ r.sextent.toList

/-- What lies between the name of a range and its offset, and its extent. -/
def beforeOffset (r : Range) : List (List Char) := if r.extentFirst then r.sextent.toList else []

def beforeExtent (r : Range) : List (List Char) := if r.extentFirst then [] else r.soffset.toList

theorem room_splitRange (s : List Char) :
    room ((Vfi.splitRange s).text :: rangeStrings (Vfi.splitRange s)) = room [s] := by
  have hcolon := room_nameRemainder [] s ':'
  have hhash := room_nameRemainder [] (Vfi.nameRemainder s ':').1 '#'
  unfold Vfi.splitRange
  dsimp only
  generalize (Vfi.nameRemainder s ':').2 = sextent at *
  generalize (Vfi.nameRemainder s ':').1 = head at *
  generalize (Vfi.nameRemainder head '#').2 = soffset at *
  generalize (Vfi.nameRemainder head '#').1 = text at *
  cases sextent with
  | none =>
    cases soffset with
    | none => exact hhash.trans hcolon
    | some o =>
      have hcut := room_nameRemainder [text] o ':'
      exact (hcut.trans hhash).trans hcolon
  | some e =>
    cases soffset with
    | none =>
      have hcut := room_nameRemainder [text] e '#'
      have hhead : room [text, e] = room [head, e] := by
        have hlength : room [text] = room [head] := hhash
        rw [room_cons text, room_cons head] at hlength
        rw [room_cons text, room_cons head]
        omega
      exact (hcut.trans hhead).trans hcolon
    | some o =>
      have hhead : room [text, o, e] = room [head, e] := by
        have hlength : room [text, o] = room [head] := hhash
        rw [room_cons text, room_cons o, room_cons head] at hlength
        rw [room_cons text, room_cons o, room_cons head]
        omega
      exact hhead.trans hcolon

/-- `name_remainder` on the string behind another one. -/
theorem nameRemainder_next {text : List Char} (h : Strings chars p (l ++ text :: s :: ys))
    (c : Char) :
    ∃ chars', nameRemainder chars (p + room (l ++ [text])) c =
        (chars', (Vfi.nameRemainder s c).2.map
          fun _ => p + room (l ++ text :: [(Vfi.nameRemainder s c).1])) ∧
      Strings chars' p (l ++ text :: (Vfi.nameRemainder s c).1 ::
        ((Vfi.nameRemainder s c).2.toList ++ ys)) := by
  have hs : Strings chars p ((l ++ [text]) ++ s :: ys) := by
    rw [List.append_assoc]
    exact h
  obtain ⟨chars', hcut, h'⟩ := nameRemainder_strings hs c
  rw [List.append_assoc] at hcut h'
  exact ⟨chars', hcut, h'⟩

theorem splitRange_strings (h : Strings chars p (l ++ s :: ys)) :
    ∃ chars', splitRange chars (p + room l) =
        (chars',
          (Vfi.splitRange s).soffset.map fun _ =>
            p + room (l ++ (Vfi.splitRange s).text :: beforeOffset (Vfi.splitRange s)),
          (Vfi.splitRange s).sextent.map fun _ =>
            p + room (l ++ (Vfi.splitRange s).text :: beforeExtent (Vfi.splitRange s))) ∧
      Strings chars' p (l ++ (Vfi.splitRange s).text ::
        (rangeStrings (Vfi.splitRange s) ++ ys)) := by
  obtain ⟨chars₁, hcolon, h₁⟩ := nameRemainder_strings h ':'
  obtain ⟨chars₂, hhash, h₂⟩ := nameRemainder_strings h₁ '#'
  have hroom := room_nameRemainder l (Vfi.nameRemainder s ':').1 '#'
  unfold splitRange Vfi.splitRange
  rw [hcolon]
  dsimp only
  rw [hhash]
  dsimp only
  generalize (Vfi.nameRemainder s ':').2 = sextent at *
  generalize (Vfi.nameRemainder s ':').1 = head at *
  generalize (Vfi.nameRemainder head '#').2 = soffset at *
  generalize (Vfi.nameRemainder head '#').1 = text at *
  cases sextent with
  | none =>
    cases soffset with
    | none => exact ⟨chars₂, rfl, h₂⟩
    | some o =>
      obtain ⟨chars₃, hcut, h₃⟩ := nameRemainder_next h₂ ':'
      refine ⟨chars₃, ?_, h₃⟩
      dsimp only [Option.map_some, remainderOf]
      rw [hcut]
      rfl
  | some e =>
    rw [Option.map_some, ← hroom]
    cases soffset with
    | none =>
      obtain ⟨chars₃, hcut, h₃⟩ := nameRemainder_next h₂ '#'
      refine ⟨chars₃, ?_, h₃⟩
      dsimp only [Option.map_none, Option.toList_none, remainderOf]
      rw [hcut]
      rfl
    | some o => exact ⟨chars₂, rfl, h₂⟩

-- ---------------------------------------------------------------------------
-- Numbers and options in the buffer
-- ---------------------------------------------------------------------------

/-- A number in the buffer is read, and asserted on, as the string at its place. -/
theorem parseNumber_strings {field : Option (List Char)} (build : Build) (name : Nat) (ret : Int)
    (h : ∀ s ∈ field, ∃ ys, Strings chars p (l ++ s :: ys)) :
    (parseNumber build chars (field.map fun _ => p + room l)).1 =
        (Vfi.parseNumber build field).1 ∧
      vfiAssert build chars name (parseNumber build chars (field.map fun _ => p + room l)).2 ret =
        match (Vfi.parseNumber build field).2 with
        | some stop => if build.debug then ((p + room l + stop : Nat) : Int) - name else ret
        | none => ret := by
  cases field with
  | none => exact ⟨rfl, rfl⟩
  | some s =>
    obtain ⟨ys, hs⟩ := h s rfl
    obtain ⟨used, hused⟩ := simpleStrtoul_suffix build s
    unfold parseNumber Vfi.parseNumber
    dsimp only [Option.map_some]
    rw [read_room hs]
    refine ⟨rfl, ?_⟩
    have hlength : s.length - (simpleStrtoul build s).2.length = used.length := by
      rw [← congrArg List.length hused, List.length_append, Nat.add_sub_cancel]
    have hstop : read chars (p + room l + used.length) = (simpleStrtoul build s).2 :=
      Holds.read_append (hused.symm ▸ hs)
    rw [vfiAssert, hlength, hstop]
    by_cases hrest : (simpleStrtoul build s).2 = []
    · rw [if_pos hrest, if_neg fun h => h.2 hrest]
    · rw [if_neg hrest]
      by_cases hdebug : build.debug = true
      · rw [if_pos ⟨hdebug, hrest⟩]
        exact (if_pos hdebug).symm
      · rw [if_neg fun h => hdebug h.1]
        exact (if_neg hdebug).symm

/-- What a closing parenthesis cuts off an option is left behind it. -/
theorem parseOption_strings (h : Strings chars p (l ++ s :: ys)) :
    ∃ junk, Strings (parseOption chars (p + room l)) p
        (l ++ Vfi.parseOption s :: (junk ++ ys)) ∧
      room (Vfi.parseOption s :: junk) = room [s] := by
  unfold parseOption Vfi.parseOption
  rw [read_room h]
  by_cases hopen : '(' ∈ s
  · obtain ⟨var, val, rfl, hvar⟩ := List.eq_append_cons_of_mem hopen
    rw [nameRemainder_append hvar]
    dsimp only
    have hput : Strings (chars.set (p + room l + var.length) '=') p
        (l ++ (var ++ '=' :: val) :: ys) :=
      h.put (by decide)
    have hread : read (chars.set (p + room l + var.length) '=') (p + room l + var.length) =
        '=' :: val := hput.read_append
    rw [hread]
    by_cases hclose : ')' ∈ val
    · obtain ⟨inner, outer, rfl, hinner⟩ := List.eq_append_cons_of_mem hclose
      have hequal : ')' ∉ '=' :: inner := by
        rw [List.mem_cons, not_or]
        exact ⟨by decide, hinner⟩
      rw [← List.cons_append, nameRemainder_append hequal, nameRemainder_append hinner]
      dsimp only
      refine ⟨[outer], ?_, ?_⟩
      · have hcut := Holds.cut (t := var ++ '=' :: inner) (c := ')') (u := outer)
          (by simpa using hput)
        rw [List.length_append, ← Nat.add_assoc] at hcut
        exact hcut
      · simp only [room_cons, room_nil, List.length_append, List.length_cons]
        omega
    · have hequal : ')' ∉ '=' :: val := by
        rw [List.mem_cons, not_or]
        exact ⟨by decide, hclose⟩
      rw [nameRemainder_of_not_mem hequal, nameRemainder_of_not_mem hclose]
      refine ⟨[], hput, ?_⟩
      simp only [room_cons, room_nil, List.length_append, List.length_cons]
  · rw [nameRemainder_of_not_mem hopen]
    exact ⟨[], h, rfl⟩

theorem vfiParseOptions_of_mem {t u : List Char} (ht : ',' ∉ t) :
    Vfi.vfiParseOptions (t ++ ',' :: u) = Vfi.parseOption t :: Vfi.vfiParseOptions u := by
  rw [Vfi.vfiParseOptions, List.splitOn_append_cons_self_of_not_mem ht, List.map_cons]
  rfl

theorem vfiParseOptions_of_not_mem (hs : ',' ∉ s) :
    Vfi.vfiParseOptions s = [Vfi.parseOption s] := by
  have hnot : ∀ t ∈ [s], ',' ∉ t := by simpa using hs
  have hsplit := List.splitOn_intercalate ',' hnot (List.cons_ne_nil s [])
  rw [List.intercalate_singleton] at hsplit
  rw [Vfi.vfiParseOptions, hsplit, List.map_singleton]

/-- There are slots for the options and for the NULL behind them. -/
theorem vfiParseOptions_strings {slots : Nat} (h : Strings chars p (l ++ s :: ys))
    (hslots : s.count ',' + 2 ≤ slots) :
    ∃ (chars' : List Char) (queries : List Nat) (k : Nat) (zs : List (List Char)),
      vfiParseOptions slots chars (some (p + room l)) =
        some (chars', queries.map some ++ List.replicate (k + 1) none) ∧
      Strings chars' p (l ++ zs) ∧ queries.map (read chars') = Vfi.vfiParseOptions s := by
  induction slots generalizing chars l s with
  | zero => omega
  | succ slots ih =>
    obtain ⟨chars₁, hcut, h₁⟩ := nameRemainder_strings h ','
    obtain ⟨junk, h₂, hroom⟩ := parseOption_strings h₁
    rw [vfiParseOptions, hcut]
    dsimp only
    by_cases hcomma : ',' ∈ s
    · obtain ⟨t, u, rfl, ht⟩ := List.eq_append_cons_of_mem hcomma
      rw [nameRemainder_append ht] at h₂ hroom ⊢
      dsimp only [Option.map_some, Option.toList_some] at h₂ hroom ⊢
      have hnext : p + room (l ++ [t]) = p + room (l ++ Vfi.parseOption t :: junk) := by
        rw [room_append, room_append, hroom]
      have hcount : u.count ',' + 2 ≤ slots := by
        rw [List.count_append, List.count_eq_zero_of_not_mem ht, List.count_cons_self] at hslots
        omega
      obtain ⟨chars', queries, k, zs, hloop, hstrings, hread⟩ :=
        ih (l := l ++ Vfi.parseOption t :: junk) (by simpa using h₂) hcount
      rw [hnext, hloop]
      rw [List.append_assoc] at hstrings
      have hhead : read chars' (p + room l) = Vfi.parseOption t := read_room hstrings
      refine ⟨chars', (p + room l) :: queries, k, _, rfl, hstrings, ?_⟩
      rw [List.map_cons, hhead, hread, vfiParseOptions_of_mem ht]
    · rw [nameRemainder_of_not_mem hcomma] at h₂ ⊢
      obtain ⟨k, rfl⟩ : ∃ k, slots = k + 1 := ⟨slots - 1, by omega⟩
      dsimp only [Option.map_none, Option.toList_none, List.nil_append] at h₂ ⊢
      refine ⟨_, [p + room l], k, _, rfl, h₂, ?_⟩
      rw [List.map_singleton, vfiParseOptions_of_not_mem hcomma, read_room h₂]

-- ---------------------------------------------------------------------------
-- The parser in the buffer
-- ---------------------------------------------------------------------------

/-- The strings and numbers left by the parse are those of the parser on strings. -/
structure Reads (r : Parsed) (d : VfiDescParam) : Prop where
  name : d.name = some (read r.chars r.name)
  location : d.location = r.location.map (read r.chars)
  offset : d.offset = r.offset
  extent : d.extent = r.extent
  query : d.query = r.query

variable {desc : List Char}

theorem newBuf_strings (h : '\x00' ∉ desc) : Strings (newBuf desc).chars 0 [desc] := by
  obtain ⟨k, hk⟩ : ∃ k, ((desc.length + 1) / 4 + 1) * 4 - desc.length = k + 1 :=
    ⟨((desc.length + 1) / 4 + 1) * 4 - desc.length - 1, by omega⟩
  refine ⟨⟨[], List.replicate k '\x00', ?_, rfl⟩, fun s hs => ?_⟩
  · rw [newBuf, hk, List.replicate_succ]
    simp
  · rw [List.mem_singleton.mp hs]
    exact h

theorem schemeText_length (desc : List Char) : (schemeText desc).length = nameStart desc := by
  have hlength := congrArg List.length (schemeText_append desc)
  rw [List.length_append] at hlength
  unfold nameStart
  cases hfind : strstr desc "://".toList with
  | none =>
    have hafter : afterScheme desc = desc := by rw [afterScheme, hfind]
    rw [hafter] at hlength
    exact Nat.add_eq_right.mp hlength
  | some ops =>
    have hafter : (afterScheme desc).length = ops.length - 3 := by
      rw [afterScheme, hfind, List.length_drop]
    have hle : 3 ≤ ops.length := strstr_length_le hfind
    have hops := (strstr_suffix hfind).length_le
    dsimp only
    omega

/-- The name, the location and the options lie in this order. -/
theorem parsePath_strings (h : '\x00' ∉ desc) :
    ∃ chars start, parsePath (newBuf desc) =
        (chars,
          (Vfi.nameRemainder (afterScheme desc) '?').2.map fun _ =>
            start + room ((splitLocation (Vfi.nameRemainder (afterScheme desc) '?').1).1 ::
              (splitLocation (Vfi.nameRemainder (afterScheme desc) '?').1).2.toList),
          start,
          (splitLocation (Vfi.nameRemainder (afterScheme desc) '?').1).2.map fun _ =>
            start + room [(splitLocation (Vfi.nameRemainder (afterScheme desc) '?').1).1]) ∧
      Strings chars start ((splitLocation (Vfi.nameRemainder (afterScheme desc) '?').1).1 ::
        ((splitLocation (Vfi.nameRemainder (afterScheme desc) '?').1).2.toList ++
          (Vfi.nameRemainder (afterScheme desc) '?').2.toList)) := by
  have h₀ := newBuf_strings h
  have hread : read (newBuf desc).chars 0 = desc := read_room (l := []) h₀
  have h₁ : Strings (newBuf desc).chars (nameStart desc) [afterScheme desc] := by
    rw [← schemeText_append desc] at h₀
    have hsuffix := h₀.suffix
    rw [schemeText_append, Nat.zero_add, schemeText_length] at hsuffix
    exact hsuffix
  obtain ⟨chars₂, hcut, h₂⟩ := nameRemainder_strings (l := []) h₁ '?'
  have hfuel :
      (Vfi.nameRemainder (afterScheme desc) '?').1.length ≤ (newBuf desc).chars.length := by
    have hle := h₁.room_le
    have hpath := room_nameRemainder [] (afterScheme desc) '?'
    rw [List.nil_append, room_cons] at hpath
    rw [List.nil_append] at hpath
    omega
  obtain ⟨chars₃, start, hskip, h₃, hroom⟩ := skipDots_strings h₂ hfuel
  refine ⟨chars₃, start, ?_, ?_⟩
  · unfold parsePath
    rw [room_nil, Nat.add_zero] at hcut
    rw [hread]
    dsimp only
    rw [hcut]
    dsimp only
    rw [hskip, hroom]
    rfl
  · rw [List.append_nil] at h₃
    exact h₃

/-- The distance from the name that an error is given by. -/
theorem fieldStart_room (leading : List (List Char)) (text : List Char)
    (others : List (Option (List Char))) :
    fieldStart text (leading.map some ++ others) =
      room (leading ++ text :: others.filterMap id) := by
  have hothers : (others.map fun s => (s.map (·.length + 1)).getD 0).sum =
      room (others.filterMap id) := by
    induction others with
    | nil => rfl
    | cons o others ih =>
      cases o with
      | none => simpa using ih
      | some s => simp [room_cons, ih]
  have hleading : ((leading.map some).map fun s => (s.map (·.length + 1)).getD 0).sum =
      room leading := by
    rw [List.map_map]
    rfl
  rw [fieldStart, List.map_append, List.sum_append, hothers, hleading, room_append, room_cons]
  omega

theorem beforeOffset_eq (r : Range) :
    beforeOffset r = (if r.extentFirst then [r.sextent] else []).filterMap id := by
  unfold beforeOffset
  split
  · cases r.sextent with
    | none => rfl
    | some s => rfl
  · rfl

theorem beforeExtent_eq (r : Range) :
    beforeExtent r = (if r.extentFirst then [] else [r.soffset]).filterMap id := by
  unfold beforeExtent
  split
  · rfl
  · cases r.soffset with
    | none => rfl
    | some s => rfl

theorem extent_place {leading : List (List Char)} {r : Range}
    (h : Strings chars p (leading ++ r.text :: (rangeStrings r ++ ys))) :
    ∀ s ∈ r.sextent, ∃ ys, Strings chars p ((leading ++ r.text :: beforeExtent r) ++ s :: ys) := by
  intro s hs
  obtain ⟨text, soffset, sextent, extentFirst⟩ := r
  obtain rfl : sextent = some s := hs
  cases extentFirst with
  | true =>
    refine ⟨soffset.toList ++ ys, ?_⟩
    rw [List.append_assoc]
    exact h
  | false =>
    refine ⟨ys, ?_⟩
    rw [List.append_assoc]
    have hrange : rangeStrings ⟨text, soffset, some s, false⟩ = soffset.toList ++ [s] := rfl
    rw [hrange, List.append_assoc] at h
    exact h

theorem offset_place {leading : List (List Char)} {r : Range}
    (h : Strings chars p (leading ++ r.text :: (rangeStrings r ++ ys))) :
    ∀ s ∈ r.soffset, ∃ ys, Strings chars p ((leading ++ r.text :: beforeOffset r) ++ s :: ys) := by
  intro s hs
  obtain ⟨text, soffset, sextent, extentFirst⟩ := r
  obtain rfl : soffset = some s := hs
  cases extentFirst with
  | false =>
    refine ⟨sextent.toList ++ ys, ?_⟩
    rw [List.append_assoc]
    exact h
  | true =>
    refine ⟨ys, ?_⟩
    rw [List.append_assoc]
    have hrange : rangeStrings ⟨text, some s, sextent, true⟩ = sextent.toList ++ [s] := rfl
    rw [hrange, List.append_assoc] at h
    exact h

/-- The strings before the range and its name: the location follows the name. -/
def leading (name : List Char) (location : Option (List Char)) : List (List Char) :=
  if location.isSome then [name] else []

theorem count_comma_argc {path options : List Char}
    (h : Vfi.nameRemainder (afterScheme desc) '?' = (path, some options)) :
    options.count ',' + 2 ≤ argc desc := by
  have hjoin := (nameRemainder_join (afterScheme desc) '?').2
  rw [h] at hjoin
  have hsub : List.Sublist ('?' :: options) desc := by
    have hsuffix : List.IsSuffix ('?' :: options) (afterScheme desc) := ⟨path, hjoin.symm⟩
    have hscheme : List.IsSuffix (afterScheme desc) desc := ⟨_, schemeText_append desc⟩
    exact (hsuffix.trans hscheme).sublist
  have hcount := hsub.countP_le (p := fun c => decide (c = '?' ∨ c = ','))
  have hle : options.count ',' ≤ options.countP fun c => decide (c = '?' ∨ c = ',') := by
    rw [List.count]
    refine List.countP_mono_left fun c _ hc => ?_
    rw [beq_iff_eq] at hc
    exact decide_eq_true (.inr hc)
  rw [List.countP_cons_of_pos (by decide)] at hcount
  unfold argc
  omega

/-- The options, if there are any, behind the other strings. -/
theorem optionalQuery_strings {options : Option (List Char)} {slots : Nat}
    (h : Strings chars p (l ++ options.toList)) (hpos : 1 ≤ slots)
    (hslots : ∀ s ∈ options, s.count ',' + 2 ≤ slots) :
    ∃ (chars' : List Char) (queries : List Nat) (k : Nat) (zs : List (List Char)),
      vfiParseOptions slots chars (options.map fun _ => p + room l) =
        some (chars', queries.map some ++ List.replicate (k + 1) none) ∧
      Strings chars' p (l ++ zs) ∧
      queries.map (read chars') = (options.map Vfi.vfiParseOptions).getD [] := by
  cases options with
  | none =>
    obtain ⟨k, rfl⟩ : ∃ k, slots = k + 1 := ⟨slots - 1, by omega⟩
    exact ⟨chars, [], k, [], rfl, h, rfl⟩
  | some s => exact vfiParseOptions_strings h (hslots s rfl)

/-- The code after both assertions. -/
theorem vfiAssert_numberError {startOffset startExtent : Nat} {badOffset badExtent : Option Nat}
    {stopOffset stopExtent : Option Nat} {name : Nat}
    (hextent : vfiAssert build chars name stopExtent 0 =
      match badExtent with
      | some stop => if build.debug then ((name + startExtent + stop : Nat) : Int) - name else 0
      | none => 0)
    (hoffset : ∀ ret, vfiAssert build chars name stopOffset ret =
      match badOffset with
      | some stop => if build.debug then ((name + startOffset + stop : Nat) : Int) - name else ret
      | none => ret) :
    vfiAssert build chars name stopOffset (vfiAssert build chars name stopExtent 0) =
      ((numberError build startOffset startExtent badOffset badExtent).getD 0 : Nat) := by
  rw [hoffset, hextent]
  unfold numberError
  by_cases hdebug : build.debug = true
  · simp only [if_pos hdebug]
    cases badOffset with
    | some stop =>
      dsimp only [Option.getD_some]
      omega
    | none =>
      cases badExtent with
      | none => rfl
      | some stop =>
        dsimp only [Option.map_some, Option.getD_some]
        omega
  · simp only [if_neg hdebug]
    cases badOffset with
    | some stop =>
      cases badExtent with
      | none => rfl
      | some stop => rfl
    | none =>
      cases badExtent with
      | none => rfl
      | some stop => rfl

theorem takeWhile_queries (queries : List Nat) (k : Nat) :
    (queries.map some ++ List.replicate (k + 1) none).takeWhile Option.isSome =
      queries.map some := by
  rw [List.takeWhile_append_of_pos, List.replicate_succ, List.takeWhile_cons_of_neg (by decide),
    List.append_nil]
  intro query hquery
  obtain ⟨q, -, rfl⟩ := List.mem_map.mp hquery
  rfl

theorem place_leading (start : Nat) (name : List Char) (location : Option (List Char)) :
    (location.map fun _ => start + room [name]).getD start =
      start + room (leading name location) := by
  cases location with
  | none => rfl
  | some location => rfl

theorem leading_map_some (name : List Char) (location : Option (List Char)) :
    (if location.isSome then [some name] else []) = (leading name location).map some := by
  cases location with
  | none => rfl
  | some location => rfl

/-- Where the options begin, behind the pieces of the last field. -/
theorem room_leading (name : List Char) (location : Option (List Char)) :
    room (name :: location.toList) =
      room (leading name location ++ (Vfi.splitRange (location.getD name)).text ::
        rangeStrings (Vfi.splitRange (location.getD name))) := by
  rw [room_append, room_splitRange]
  cases location with
  | none => exact (Nat.zero_add _).symm
  | some location => rfl

theorem strings_leading {name : List Char} {location : Option (List Char)} {chars : List Char}
    {start : Nat} {ys : List (List Char)}
    (h : Strings chars start (name :: (location.toList ++ ys))) :
    Strings chars start (leading name location ++ location.getD name :: ys) := by
  cases location <;> exact h

/-- The last field, which is the location or else the name, was cut to `text`. -/
theorem read_leading {name text : List Char} {location : Option (List Char)} {chars : List Char}
    {start : Nat} {ys : List (List Char)}
    (h : Strings chars start (leading name location ++ text :: ys)) :
    read chars start = (if location.isSome then name else text) ∧
      (location.map fun _ => start + room [name]).map (read chars) =
        location.map fun _ => text := by
  cases location with
  | none => exact ⟨read_room (l := []) h, rfl⟩
  | some location =>
    exact ⟨read_room (l := []) h, congrArg some (read_room (l := [name]) h)⟩

/-- The parser in the buffer leaves the strings, numbers and errors of the parser on strings, and
a NULL behind the options. -/
theorem parse_reads (build : Build) (h : '\x00' ∉ desc) :
    ∃ r, parse build (newBuf desc) = some r ∧
      (∃ (queries : List Nat) (k : Nat),
        r.slots = queries.map some ++ List.replicate (k + 1) none) ∧
      match parseDesc build desc with
      | .ok d => r.ret = 0 ∧ Reads r d
      | .error ret => r.ret = ret := by
  obtain ⟨chars, start, hpath, h₁⟩ := parsePath_strings h
  have hslots : (newBuf desc).slots.length = argc desc := List.length_replicate
  have hpos : 1 ≤ argc desc := Nat.le_add_right _ _
  have hcommas : ∀ s ∈ (Vfi.nameRemainder (afterScheme desc) '?').2, s.count ',' + 2 ≤ argc desc :=
    fun s hs => count_comma_argc (Prod.ext rfl hs)
  unfold parse parseDesc
  rw [hpath, hslots]
  dsimp only
  generalize Vfi.nameRemainder (afterScheme desc) '?' = cut at *
  obtain ⟨path, options⟩ := cut
  dsimp only at *
  generalize splitLocation path = split at *
  obtain ⟨name, location⟩ := split
  dsimp only at *
  obtain ⟨chars₂, hsplit, h₂⟩ := splitRange_strings (strings_leading h₁)
  rw [place_leading, hsplit, room_leading]
  dsimp only
  generalize Vfi.splitRange (location.getD name) = r at *
  have hextent := parseNumber_strings build start 0 (extent_place h₂)
  have hoffset := fun ret => parseNumber_strings build start ret (offset_place h₂)
  generalize parseNumber build chars₂ (r.sextent.map _) = extent at *
  generalize parseNumber build chars₂ (r.soffset.map _) = offset at *
  obtain ⟨extent, stopExtent⟩ := extent
  obtain ⟨offset, stopOffset⟩ := offset
  dsimp only at *
  obtain ⟨chars₃, queries, k, zs, hloop, h₃, hqueries⟩ :=
    optionalQuery_strings (l := leading name location ++ r.text :: rangeStrings r)
      (by simpa using h₂) hpos hcommas
  have hret := vfiAssert_numberError hextent.2 fun ret => (hoffset ret).2
  rw [hloop]
  refine ⟨_, rfl, ⟨queries, k, rfl⟩, ?_⟩
  rw [leading_map_some, fieldStart_room, fieldStart_room, ← beforeOffset_eq, ← beforeExtent_eq]
  generalize numberError build _ _ _ _ = code at hret ⊢
  cases code with
  | some code => exact hret
  | none =>
    have hfields := read_leading (by simpa using h₃)
    refine ⟨hret, ⟨?_, ?_, ?_, ?_, ?_⟩⟩
    · exact congrArg some hfields.1.symm
    · exact hfields.2.symm
    · exact congrArg UInt64.ofNat (hoffset 0).1.symm
    · exact congrArg UInt32.ofNat hextent.1.symm
    · unfold Parsed.query
      dsimp only
      rw [takeWhile_queries, List.map_map]
      exact hqueries.symm

-- ---------------------------------------------------------------------------
-- The parser keeps the size of its buffer
-- ---------------------------------------------------------------------------

theorem nameRemainder_length (chars : List Char) (name : Nat) (c : Char) :
    (nameRemainder chars name c).1.length = chars.length := by
  unfold nameRemainder
  split
  · rfl
  · exact List.length_set

theorem remainderOf_length (chars : List Char) (name : Option Nat) (c : Char) :
    (remainderOf chars name c).1.length = chars.length := by
  cases name with
  | none => rfl
  | some name => exact nameRemainder_length chars name c

theorem skipDots_length (fuel : Nat) (chars : List Char) (name : Nat) (location : Option Nat) :
    (skipDots fuel chars name location).1.length = chars.length := by
  induction fuel generalizing chars name location with
  | zero => rfl
  | succ fuel ih =>
    cases location with
    | none => rfl
    | some location =>
      rw [skipDots]
      split
      · exact (ih _ _ _).trans (nameRemainder_length chars location '.')
      · rfl

theorem parsePath_length (b : Buf) : (parsePath b).1.length = b.chars.length := by
  unfold parsePath
  dsimp only
  rw [skipDots_length, nameRemainder_length, nameRemainder_length]

theorem splitRange_length (chars : List Char) (name : Nat) :
    (splitRange chars name).1.length = chars.length := by
  have hhash : (nameRemainder (nameRemainder chars name ':').1 name '#').1.length =
      chars.length := by
    rw [nameRemainder_length, nameRemainder_length]
  unfold splitRange
  dsimp only
  split
  · split
    · rw [remainderOf_length, remainderOf_length]
      exact hhash
    · rw [remainderOf_length]
      exact hhash
  · split
    · rw [remainderOf_length]
      exact hhash
    · exact hhash

theorem parseOption_length (chars : List Char) (query : Nat) :
    (parseOption chars query).length = chars.length := by
  unfold parseOption
  split
  · rfl
  · dsimp only
    split
    · exact List.length_set
    · rw [List.length_set, List.length_set]

theorem vfiParseOptions_length {slots : Nat} {query : Option Nat} {result : List Char}
    {queries : List (Option Nat)}
    (h : vfiParseOptions slots chars query = some (result, queries)) :
    result.length = chars.length ∧ queries.length = slots := by
  induction slots generalizing chars query queries with
  | zero => cases h
  | succ slots ih =>
    cases query with
    | none =>
      cases h
      exact ⟨rfl, List.length_replicate⟩
    | some query =>
      rw [vfiParseOptions] at h
      dsimp only at h
      obtain ⟨⟨rest, others⟩, hrest, heq⟩ := Option.map_eq_some_iff.mp h
      cases heq
      obtain ⟨hchars, hothers⟩ := ih hrest
      rw [parseOption_length, nameRemainder_length] at hchars
      exact ⟨hchars, congrArg (· + 1) hothers⟩

theorem parse_length {b : Buf} {r : Parsed} (h : parse build b = some r) :
    r.chars.length = b.chars.length ∧ r.slots.length = b.slots.length := by
  unfold parse at h
  dsimp only at h
  obtain ⟨⟨rest, queries⟩, hqueries, rfl⟩ := Option.map_eq_some_iff.mp h
  obtain ⟨hchars, hslots⟩ := vfiParseOptions_length hqueries
  rw [splitRange_length, parsePath_length] at hchars
  exact ⟨hchars, hslots⟩

end Vfi.DescMemory
