import Vfi.DescMemory
import Vfi.Lib.FlatMemory

/-!
# The slots for the options

The parser in the bytes of the one buffer that `vfi_str_dup` allocates: the copy
of the string, and behind it the array of pointers to the options. The places
that the parser stores to are recorded. It leaves the characters and slots of
the parser that keeps these apart, whose last slot it cannot pass:
`parseDesc_refines`.
-/

namespace Vfi.QuerySlots

open FlatMemory

/-- `sizeof(char *)`. -/
def ptrSize : Nat := 4

/-- The bytes of a buffer; a pointer is a place in it. -/
abbrev Mem := List (Memval Char Nat)

-- ---------------------------------------------------------------------------
-- The copy
-- ---------------------------------------------------------------------------

/-- What `vfi_str_dup` leaves: the buffer and what it writes to the descriptor,
with `last` for its `end`. -/
structure Dup where
  ret : Mem
  buflen : Nat
  query : Nat
  last : Nat
deriving DecidableEq, Repr

def strncpy (mem : Mem) (name : List Char) (n : Nat) : Option Mem :=
  store mem 0 ((name.take n ++ List.replicate (n - name.length) '\x00').map .byte)

def countArgs (name : List Char) : Nat :=
  name.foldl (fun argc c => if c = '?' ∨ c = ',' then argc + 1 else argc) 1

/-- `kzalloc` says whether there is memory of a size. -/
def vfiStrDup (kzalloc : Nat → Bool) (name : List Char) : Option Dup :=
  let oldsize := min name.length 4096 + 1
  if oldsize > 4096 then none
  else
    let argc := countArgs name
    let size := (((oldsize >>> 2) + 1) <<< 2) + (argc <<< 2)
    if size > 4096 then none
    else if kzalloc size then
      let query := ((oldsize >>> 2) + 1) <<< 2
      (strncpy (List.replicate size (.byte '\x00')) name oldsize).map fun ret =>
        { ret, buflen := size, query, last := query + ptrSize * (argc - 1) }
    else none

-- ---------------------------------------------------------------------------
-- Loads and stores of the parser
-- ---------------------------------------------------------------------------

/-- The buffer, with the places of the characters and of the slots stored so far. -/
structure Run where
  mem : Mem
  charStores : List Nat := []
  slotStores : List Nat := []
deriving DecidableEq, Repr

def Run.string (run : Run) (p : Nat) : Option (List Char) := takeString '\x00' (run.mem.drop p)

def Run.slot (run : Run) (place : Nat) : Option (Option Nat) :=
  (load run.mem place ptrSize).bind (decode '\x00')

def Run.putChar (run : Run) (place : Nat) (c : Char) : Option Run :=
  (store run.mem place [.byte c]).map fun mem =>
    { run with mem, charStores := run.charStores ++ [place] }

def Run.putSlot (run : Run) (place : Nat) (p : Option Nat) : Option Run :=
  (store run.mem place (encode '\x00' ptrSize p)).map fun mem =>
    { run with mem, slotStores := run.slotStores ++ [place] }

-- ---------------------------------------------------------------------------
-- The parser
-- ---------------------------------------------------------------------------

/-- The remainder is also what the caller's pointer is set to. -/
def nameRemainder (run : Run) (name : Nat) (c : Char) : Option (Run × Option Nat) := do
  match Vfi.nameRemainder (← run.string name) c with
  | (_, none) => some (run, none)
  | (head, some _) =>
    let run ← run.putChar (name + head.length) '\x00'
    some (run, some (name + head.length + 1))

def remainderOf (run : Run) (name : Option Nat) (c : Char) : Option (Run × Option Nat) :=
  match name with
  | none => some (run, none)
  | some name => nameRemainder run name c

/-- The loop that skips the dots before the name. -/
def skipDots : Nat → Run → Nat → Option Nat → Option (Run × Nat × Option Nat)
  | 0, _, _, _ => none
  | fuel + 1, run, name, location => do
    match ← run.string name, location with
    | [], some location =>
      let (run, next) ← nameRemainder run location '.'
      skipDots fuel run location next
    | _, location => some (run, name, location)

/-- A field that was not found may be in the other one. -/
def orRemainder (run : Run) (field other : Option Nat) (c : Char) : Option (Run × Option Nat) :=
  match field with
  | none => remainderOf run other c
  | some p => some (run, some p)

def splitRange (run : Run) (name : Nat) : Option (Run × Option Nat × Option Nat) := do
  let (run, sextent) ← nameRemainder run name ':'
  let (run, soffset) ← nameRemainder run name '#'
  let (run, sextent) ← orRemainder run sextent soffset ':'
  let (run, soffset) ← orRemainder run soffset sextent '#'
  some (run, soffset, sextent)

/-- The number at a pointer, and where its conversion stopped. -/
def parseNumber (build : Build) (run : Run) : Option Nat → Option (Nat × Option Nat)
  | none => some (0, none)
  | some s => do
    let text ← run.string s
    let (value, rest) := simpleStrtoul build text
    some (value, some (s + (text.length - rest.length)))

/-- The assertion on where a conversion stopped; what it makes of `ret`. -/
def vfiAssert (build : Build) (run : Run) (name : Nat) (stop : Option Nat) (ret : Int) :
    Option Int :=
  match stop with
  | none => some ret
  | some stop => do
    let rest ← run.string stop
    some (if build.debug ∧ rest ≠ [] then stop - name else ret)

/-- The parentheses of the option in a slot. -/
def parseOption (run : Run) (query : Nat) : Option Run := do
  let q ← (← run.slot query)
  match Vfi.nameRemainder (← run.string q) '(' with
  | (_, none) => some run
  | (var, some _) =>
    let run ← run.putChar (q + var.length) '='
    match Vfi.nameRemainder (← run.string (q + var.length)) ')' with
    | (_, none) => some run
    | (val, some _) => run.putChar (q + var.length + val.length) '\x00'

/-- The loop over the slots, from one of them on. -/
def vfiParseOptions : Nat → Run → Nat → Option Run
  | 0, _, _ => none
  | fuel + 1, run, query => do
    match ← run.slot query with
    | none => some run
    | some q =>
      let (run, next) ← nameRemainder run q ','
      let run ← run.putSlot (query + ptrSize) next
      let run ← parseOption run query
      vfiParseOptions fuel run (query + ptrSize)

structure Result where
  run : Run
  ret : Int
  name : Nat
  location : Option Nat
  soffset : Option Nat
  sextent : Option Nat
  offset : UInt64
  extent : UInt32
deriving DecidableEq, Repr

/-- The first query, the name and the location. -/
def parsePath (fuel : Nat) (dup : Dup) : Option (Run × Nat × Option Nat) := do
  let run : Run := { mem := dup.ret }
  let start := DescMemory.nameStart (← run.string 0)
  let (run, query) ← nameRemainder run start '?'
  let run ← run.putSlot dup.query query
  let (run, location) ← nameRemainder run start '.'
  skipDots fuel run start location

/-- `_vfi_parse_desc` up to the options it acts on itself, which it only reads. -/
def parseDesc (build : Build) (fuel : Nat) (dup : Dup) : Option Result := do
  let (run, name, location) ← parsePath fuel dup
  let (run, soffset, sextent) ← splitRange run (location.getD name)
  let (extent, sextent) ← parseNumber build run sextent
  let ret ← vfiAssert build run name sextent 0
  let (offset, soffset) ← parseNumber build run soffset
  let ret ← vfiAssert build run name soffset ret
  let run ← vfiParseOptions fuel run dup.query
  some
    { run, ret, name, location, soffset, sextent
      offset := .ofNat offset, extent := .ofNat extent }

-- ---------------------------------------------------------------------------
-- Buffers that hold characters and slots
-- ---------------------------------------------------------------------------

/-- A buffer of characters, which from `n` on are NULs, and slots. What was stored to was a
character before `n` or one of the given slots. -/
structure Image (n : Nat) (chars : List Char) (slots : List (Option Nat)) (stored : List Nat)
    (run : Run) : Prop where
  mem : run.mem = layout '\x00' ptrSize chars slots
  room : n < chars.length
  plain : ∀ i c, chars[i]? = some c → c ≠ '\x00' → i < n
  charStores : ∀ place ∈ run.charStores, place < n
  slotStores : run.slotStores = stored

variable {build : Build} {n p place : Nat} {chars : List Char} {slots done rest : List (Option Nat)}
  {old p' : Option Nat} {stored : List Nat} {run : Run} {c : Char} {head tail : List Char}

theorem Image.nul_mem (h : Image n chars slots stored run) (hp : p ≤ n) :
    '\x00' ∈ chars.drop p := by
  have hroom := h.room
  have hn : chars[n]? = some chars[n] := List.getElem?_eq_getElem hroom
  have hnul : chars[n] = '\x00' := by
    by_contra hc
    exact Nat.lt_irrefl n (h.plain n _ hn hc)
  rw [List.mem_iff_getElem?]
  refine ⟨n - p, ?_⟩
  rw [List.getElem?_drop, Nat.add_sub_of_le hp, hn, hnul]

theorem Image.string (h : Image n chars slots stored run) (hp : p ≤ n) :
    run.string p = some (DescMemory.read chars p) := by
  rw [Run.string, h.mem]
  exact takeString_layout '\x00' slots (hp.trans h.room.le) (h.nul_mem hp)

theorem Image.slot (h : Image n chars (done ++ p' :: rest) stored run) :
    run.slot (chars.length + ptrSize * done.length) = some p' := by
  rw [Run.slot, h.mem]
  exact load_layout '\x00' (by decide) chars done p' rest

theorem Image.slot_getElem {i : Nat} (h : Image n chars slots stored run)
    (hi : slots[i]? = some p') : run.slot (chars.length + ptrSize * i) = some p' := by
  obtain ⟨hlt, rfl⟩ := List.getElem?_eq_some_iff.mp hi
  have hsplit : slots = slots.take i ++ slots[i] :: slots.drop (i + 1) := by
    rw [← List.drop_eq_getElem_cons hlt, List.take_append_drop]
  have hlength : (slots.take i).length = i := List.length_take_of_le hlt.le
  rw [hsplit] at h
  have hslot := h.slot
  rwa [hlength] at hslot

/-- A store over a character that is not the end of the string. -/
theorem Image.putChar (h : Image n chars slots stored run) (hp : p < n) (c : Char) :
    ∃ run', run.putChar p c = some run' ∧ Image n (chars.set p c) slots stored run' := by
  have hstore := store_layout_byte '\x00' ptrSize slots (hp.trans h.room) c
  refine ⟨⟨layout '\x00' ptrSize (chars.set p c) slots, run.charStores ++ [p], run.slotStores⟩,
    ?_, rfl, ?_, ?_, ?_, h.slotStores⟩
  · rw [Run.putChar, h.mem, hstore]
    rfl
  · rw [List.length_set]
    exact h.room
  · intro i x hx hne
    rcases eq_or_ne p i with rfl | hpi
    · exact hp
    · rw [List.getElem?_set_ne hpi] at hx
      exact h.plain i x hx hne
  · intro place hplace
    rcases List.mem_append.mp hplace with hbefore | hnew
    · exact h.charStores place hbefore
    · rwa [List.mem_singleton.mp hnew]

theorem Image.putSlot (done : List (Option Nat))
    (h : Image n chars (done ++ old :: rest) stored run) (v : Option Nat) :
    ∃ run', run.putSlot (chars.length + ptrSize * done.length) v = some run' ∧
      Image n chars (done ++ v :: rest) (stored ++ [chars.length + ptrSize * done.length])
        run' := by
  have hstore := store_layout_slot '\x00' ptrSize chars done old v rest
  refine ⟨⟨layout '\x00' ptrSize chars (done ++ v :: rest), run.charStores, run.slotStores ++ _⟩,
    ?_, rfl, h.room, h.plain, h.charStores, congrArg (· ++ _) h.slotStores⟩
  rw [Run.putSlot, h.mem, hstore]
  rfl

theorem Image.read_lt (h : Image n chars slots stored run) {i : Nat}
    (hi : i < (DescMemory.read chars p).length) : p + i < n := by
  have hne : (DescMemory.read chars p)[i] ≠ '\x00' := by
    simpa using List.mem_takeWhile_imp (List.getElem_mem hi)
  have hat : (DescMemory.read chars p)[i]? = some (DescMemory.read chars p)[i] :=
    List.getElem?_eq_getElem hi
  obtain ⟨after, hafter⟩ : List.IsPrefix (DescMemory.read chars p) (chars.drop p) :=
    List.takeWhile_prefix _
  have hchars : (chars.drop p)[i]? = some (DescMemory.read chars p)[i] := by
    rw [← hafter, List.getElem?_append_left hi, hat]
  rw [List.getElem?_drop] at hchars
  exact h.plain _ _ hchars hne

theorem Image.read_length_le (h : Image n chars slots stored run) (hp : p ≤ n) :
    p + (DescMemory.read chars p).length ≤ n := by
  rcases Nat.eq_zero_or_pos (DescMemory.read chars p).length with hzero | hpos
  · rwa [hzero]
  · have hlast := h.read_lt (Nat.sub_one_lt_of_lt hpos)
    omega

theorem Image.found (h : Image n chars slots stored run)
    (hcut : Vfi.nameRemainder (DescMemory.read chars p) c = (head, some tail)) :
    p + head.length < n := by
  have hjoin := (nameRemainder_join (DescMemory.read chars p) c).2
  rw [hcut] at hjoin
  refine h.read_lt ?_
  rw [hjoin]
  simp

-- ---------------------------------------------------------------------------
-- The parser in the bytes does what the parser on characters and slots does
-- ---------------------------------------------------------------------------

variable {name query : Nat} {location : Option Nat}

theorem nameRemainder_image (h : Image n chars slots stored run) (hname : name ≤ n) (c : Char) :
    ∃ run', nameRemainder run name c =
        some (run', (DescMemory.nameRemainder chars name c).2) ∧
      Image n (DescMemory.nameRemainder chars name c).1 slots stored run' ∧
      ∀ q ∈ (DescMemory.nameRemainder chars name c).2, name < q ∧ q ≤ n := by
  unfold nameRemainder DescMemory.nameRemainder
  rw [h.string hname, Option.bind_eq_bind, Option.bind_some]
  cases hcut : Vfi.nameRemainder (DescMemory.read chars name) c with
  | mk head remainder =>
    cases remainder with
    | none => exact ⟨run, rfl, h, nofun⟩
    | some tail =>
      have hplace := h.found hcut
      obtain ⟨run', hput, himage⟩ := h.putChar hplace '\x00'
      refine ⟨run', ?_, himage, ?_⟩
      · dsimp only
        rw [hput]
        rfl
      · rintro q ⟨⟩
        omega

theorem remainderOf_image (h : Image n chars slots stored run) (hname : ∀ q ∈ location, q ≤ n)
    (c : Char) :
    ∃ run', remainderOf run location c =
        some (run', (DescMemory.remainderOf chars location c).2) ∧
      Image n (DescMemory.remainderOf chars location c).1 slots stored run' ∧
      ∀ q ∈ (DescMemory.remainderOf chars location c).2, q ≤ n := by
  cases location with
  | none => exact ⟨run, rfl, h, nofun⟩
  | some name =>
    obtain ⟨run', heq, himage, hq⟩ := nameRemainder_image h (hname name rfl) c
    exact ⟨run', heq, himage, fun q hmem => (hq q hmem).2⟩

/-- Each dot takes the name further, so there are at most as many as characters. -/
theorem skipDots_image (fuel steps : Nat) (h : Image n chars slots stored run) (hname : name ≤ n)
    (hlocation : ∀ q ∈ location, name < q ∧ q ≤ n) (hfuel : n < name + fuel)
    (hsteps : n < name + steps) :
    ∃ run', skipDots fuel run name location =
        some (run', (DescMemory.skipDots steps chars name location).2) ∧
      Image n (DescMemory.skipDots steps chars name location).1 slots stored run' ∧
      (DescMemory.skipDots steps chars name location).2.1 ≤ n ∧
      ∀ q ∈ (DescMemory.skipDots steps chars name location).2.2, q ≤ n := by
  induction fuel generalizing chars run name location steps with
  | zero => omega
  | succ fuel ih =>
    obtain ⟨steps, rfl⟩ := Nat.exists_eq_add_of_lt (show 0 < steps by omega)
    rw [Nat.zero_add] at *
    unfold skipDots
    rw [h.string hname, Option.bind_eq_bind, Option.bind_some]
    cases location with
    | none =>
      refine ⟨run, ?_, h, hname, nofun⟩
      split
      · contradiction
      · rfl
    | some location =>
      obtain ⟨hlt, hle⟩ := hlocation location rfl
      rw [DescMemory.skipDots]
      cases hread : DescMemory.read chars name with
      | nil =>
        obtain ⟨run', heq, himage, hnext⟩ := nameRemainder_image h hle '.'
        rw [if_pos rfl]
        dsimp only
        rw [heq]
        exact ih steps himage hle hnext (by omega) (by omega)
      | cons c s =>
        rw [if_neg (List.cons_ne_nil c s)]
        exact ⟨run, rfl, h, hname, fun q hq => (hlocation q hq).2⟩

/-- `orRemainder` on the characters. -/
def remainderOr (chars : List Char) (field other : Option Nat) (c : Char) :
    List Char × Option Nat :=
  match field with
  | none => DescMemory.remainderOf chars other c
  | some p => (chars, some p)

theorem orRemainder_image {field other : Option Nat} (h : Image n chars slots stored run)
    (hfield : ∀ q ∈ field, q ≤ n) (hother : ∀ q ∈ other, q ≤ n) (c : Char) :
    ∃ run', orRemainder run field other c = some (run', (remainderOr chars field other c).2) ∧
      Image n (remainderOr chars field other c).1 slots stored run' ∧
      ∀ q ∈ (remainderOr chars field other c).2, q ≤ n := by
  cases field with
  | none => exact remainderOf_image h hother c
  | some p => exact ⟨run, rfl, h, hfield⟩

theorem splitRange_eq (chars : List Char) (name : Nat) :
    DescMemory.splitRange chars name =
      let (chars, sextent) := DescMemory.nameRemainder chars name ':'
      let (chars, soffset) := DescMemory.nameRemainder chars name '#'
      let (chars, sextent) := remainderOr chars sextent soffset ':'
      let (chars, soffset) := remainderOr chars soffset sextent '#'
      (chars, soffset, sextent) := by
  unfold DescMemory.splitRange
  dsimp only
  cases (DescMemory.nameRemainder chars name ':').2 with
  | none =>
    cases (DescMemory.nameRemainder (DescMemory.nameRemainder chars name ':').1 name '#').2 with
    | none => rfl
    | some soffset => rfl
  | some sextent =>
    cases (DescMemory.nameRemainder (DescMemory.nameRemainder chars name ':').1 name '#').2 with
    | none => rfl
    | some soffset => rfl

theorem splitRange_image (h : Image n chars slots stored run) (hname : name ≤ n) :
    ∃ run', splitRange run name = some (run', (DescMemory.splitRange chars name).2) ∧
      Image n (DescMemory.splitRange chars name).1 slots stored run' ∧
      (∀ q ∈ (DescMemory.splitRange chars name).2.1, q ≤ n) ∧
      ∀ q ∈ (DescMemory.splitRange chars name).2.2, q ≤ n := by
  obtain ⟨run₁, heq₁, h₁, hcolon⟩ := nameRemainder_image h hname ':'
  obtain ⟨run₂, heq₂, h₂, hhash⟩ := nameRemainder_image h₁ hname '#'
  have hextent := fun q hq => (hcolon q hq).2
  have hoffset := fun q hq => (hhash q hq).2
  obtain ⟨run₃, heq₃, h₃, hsextent⟩ := orRemainder_image h₂ hextent hoffset ':'
  obtain ⟨run₄, heq₄, h₄, hsoffset⟩ := orRemainder_image h₃ hoffset hsextent '#'
  rw [splitRange_eq]
  refine ⟨run₄, ?_, h₄, hsoffset, hsextent⟩
  simp only [splitRange, heq₁, heq₂, heq₃, heq₄, Option.bind_eq_bind, Option.bind_some]

theorem parseNumber_image {field : Option Nat} (build : Build)
    (h : Image n chars slots stored run) (hfield : ∀ q ∈ field, q ≤ n) :
    parseNumber build run field = some (DescMemory.parseNumber build chars field) ∧
      ∀ q ∈ (DescMemory.parseNumber build chars field).2, q ≤ n := by
  cases field with
  | none => exact ⟨rfl, nofun⟩
  | some s =>
    have hs := hfield s rfl
    refine ⟨?_, ?_⟩
    · rw [parseNumber, h.string hs]
      rfl
    · rintro q ⟨⟩
      have hlength := h.read_length_le hs
      omega

theorem vfiAssert_image {stop : Option Nat} (build : Build) (h : Image n chars slots stored run)
    (hstop : ∀ q ∈ stop, q ≤ n) (name : Nat) (ret : Int) :
    vfiAssert build run name stop ret = some (DescMemory.vfiAssert build chars name stop ret) := by
  cases stop with
  | none => rfl
  | some stop =>
    rw [vfiAssert, h.string (hstop stop rfl)]
    rfl

theorem parseOption_image (h : Image n chars (done ++ some p :: rest) stored run) (hp : p ≤ n) :
    ∃ run', parseOption run (chars.length + ptrSize * done.length) = some run' ∧
      Image n (DescMemory.parseOption chars p) (done ++ some p :: rest) stored run' := by
  unfold parseOption DescMemory.parseOption
  simp only [h.slot, h.string hp, Option.bind_eq_bind, Option.bind_some]
  cases hopen : Vfi.nameRemainder (DescMemory.read chars p) '(' with
  | mk var remainder =>
    cases remainder with
    | none => exact ⟨run, rfl, h⟩
    | some val =>
      have hvar := h.found hopen
      obtain ⟨run₁, hput₁, h₁⟩ := h.putChar hvar '='
      dsimp only
      rw [hput₁, Option.bind_some, h₁.string hvar.le, Option.bind_some]
      cases hclose : Vfi.nameRemainder
        (DescMemory.read (chars.set (p + var.length) '=') (p + var.length)) ')' with
      | mk val remainder =>
        cases remainder with
        | none => exact ⟨run₁, rfl, h₁⟩
        | some tail => exact h₁.putChar (h₁.found hclose) '\x00'

/-- One option: the rest of the string goes to the next slot. -/
theorem vfiParseOptions_step {q : Nat}
    (h : Image n chars (done ++ some q :: old :: rest) stored run)
    (hq : q ≤ n) (fuel : Nat) :
    ∃ run', vfiParseOptions (fuel + 1) run (chars.length + ptrSize * done.length) =
        vfiParseOptions fuel run' (chars.length + ptrSize * (done.length + 1)) ∧
      Image n (DescMemory.parseOption (DescMemory.nameRemainder chars q ',').1 q)
        ((done ++ [some q]) ++ (DescMemory.nameRemainder chars q ',').2 :: rest)
        (stored ++ [chars.length + ptrSize * (done.length + 1)]) run' ∧
      ∀ p ∈ (DescMemory.nameRemainder chars q ',').2, p ≤ n := by
  obtain ⟨run₁, hcut, h₁, hnext⟩ := nameRemainder_image h hq ','
  have hlength := DescMemory.nameRemainder_length chars q ','
  have hdone : (done ++ [some q]).length = done.length + 1 := List.length_append
  have hsplit (v : Option Nat) : done ++ some q :: v :: rest = (done ++ [some q]) ++ v :: rest := by
    rw [List.append_assoc, List.singleton_append]
  rw [hsplit] at h₁
  obtain ⟨run₂, hput, h₂⟩ := h₁.putSlot _ (DescMemory.nameRemainder chars q ',').2
  rw [← hsplit] at h₂
  obtain ⟨run₃, hoption, h₃⟩ := parseOption_image h₂ hq
  rw [hsplit] at h₃
  rw [hlength, hdone] at hput h₃
  rw [hlength] at hoption
  refine ⟨run₃, ?_, h₃, fun p hp => (hnext p hp).2⟩
  have hnextSlot : chars.length + ptrSize * done.length + ptrSize =
      chars.length + ptrSize * (done.length + 1) := by
    rw [Nat.mul_succ, Nat.add_assoc]
  simp only [vfiParseOptions, h.slot, hcut, hnextSlot, hput, hoption, Option.bind_eq_bind,
    Option.bind_some]

/-- The slots from one on that the loop stores to. -/
def slotPlaces (query first count : Nat) : List Nat :=
  (List.range count).map fun i => query + ptrSize * (first + i)

theorem slotPlaces_succ (query first count : Nat) :
    slotPlaces query first (count + 1) =
      (query + ptrSize * first) :: slotPlaces query (first + 1) count := by
  unfold slotPlaces
  rw [List.range_succ_eq_map, List.map_cons, List.map_map]
  congr 1
  apply List.map_congr_left
  intro i _
  rw [Function.comp_apply, Nat.succ_eq_add_one, Nat.add_comm i, Nat.add_assoc]

theorem slotPlaces_bounds {query count room place : Nat} (h : place ∈ slotPlaces query 0 count)
    (hroom : query + ptrSize * count ≤ room) : query ≤ place ∧ place + ptrSize ≤ room := by
  obtain ⟨i, hi, rfl⟩ := List.mem_map.mp h
  have hcount : ptrSize * (i + 1) ≤ ptrSize * count :=
    Nat.mul_le_mul_left ptrSize (List.mem_range.mp hi)
  rw [Nat.mul_succ] at hcount
  rw [Nat.zero_add]
  omega

/-- The loop stores to one slot after the other, and ends with the NULL it stored last. -/
theorem vfiParseOptions_image {left fuel : Nat} {query : Option Nat} {result : List Char}
    {queries : List (Option Nat)} (done : List (Option Nat)) (hquery : ∀ q ∈ query, q ≤ n)
    (h : Image n chars (done ++ query :: List.replicate left none) stored run)
    (hparse : DescMemory.vfiParseOptions (left + 1) chars query = some (result, queries))
    (hfuel : left < fuel) :
    ∃ (run' : Run) (options : List Nat) (k : Nat),
      vfiParseOptions fuel run (chars.length + ptrSize * done.length) = some run' ∧
      queries = options.map some ++ List.replicate (k + 1) none ∧ (∀ q ∈ options, q ≤ n) ∧
      Image n result (done ++ queries)
        (stored ++ slotPlaces chars.length (done.length + 1) options.length) run' := by
  induction fuel generalizing chars done query stored run left queries with
  | zero => cases hfuel
  | succ fuel ih =>
    cases query with
    | none =>
      cases hparse
      refine ⟨run, [], left, ?_, rfl, nofun, ?_⟩
      · rw [vfiParseOptions, h.slot]
        rfl
      · rw [List.replicate_succ, List.length_nil, slotPlaces, List.range_zero, List.map_nil,
          List.append_nil]
        exact h
    | some q =>
      cases left with
      | zero => cases hparse
      | succ left =>
        have hq := hquery q rfl
        rw [DescMemory.vfiParseOptions] at hparse
        obtain ⟨⟨result', others⟩, hothers, heq⟩ := Option.map_eq_some_iff.mp hparse
        cases heq
        obtain ⟨run₁, hstep, h₁, hnext⟩ := vfiParseOptions_step h hq fuel
        obtain ⟨run₂, options, k, hloop, hqueries, hoptions, h₂⟩ :=
          ih (done ++ [some q]) hnext h₁ hothers (Nat.lt_of_succ_lt_succ hfuel)
        rw [DescMemory.parseOption_length, DescMemory.nameRemainder_length, List.length_append,
          List.length_singleton] at hloop h₂
        refine ⟨run₂, q :: options, k, hstep.trans hloop, ?_, ?_, ?_⟩
        · rw [hqueries]
          rfl
        · rintro q' hq'
          rcases List.mem_cons.mp hq' with rfl | hrest
          · exact hq
          · exact hoptions q' hrest
        · rw [List.length_cons, slotPlaces_succ]
          simpa using h₂

-- ---------------------------------------------------------------------------
-- From the copy to the last option
-- ---------------------------------------------------------------------------

theorem nameStart_le (desc : List Char) : DescMemory.nameStart desc ≤ desc.length := by
  have hlength := congrArg List.length (schemeText_append desc)
  rw [List.length_append, DescMemory.schemeText_length] at hlength
  omega

variable {left fuel : Nat} {b : DescMemory.Buf} {dup : Dup}

theorem parsePath_image
    (h : Image n b.chars (List.replicate (left + 1) none) [] { mem := dup.ret })
    (hquery : dup.query = b.chars.length) (hfuel : n < fuel) :
    ∃ run, parsePath fuel dup = some (run, (DescMemory.parsePath b).2.2) ∧
      Image n (DescMemory.parsePath b).1
        ((DescMemory.parsePath b).2.1 :: List.replicate left none) [dup.query] run ∧
      (∀ q ∈ (DescMemory.parsePath b).2.1, q ≤ n) ∧ (DescMemory.parsePath b).2.2.1 ≤ n ∧
      ∀ q ∈ (DescMemory.parsePath b).2.2.2, q ≤ n := by
  have hstart : DescMemory.nameStart (DescMemory.read b.chars 0) ≤ n := by
    have hlength := h.read_length_le (Nat.zero_le n)
    have hle := nameStart_le (DescMemory.read b.chars 0)
    omega
  obtain ⟨run₁, hcut₁, h₁, hquestion⟩ := nameRemainder_image h hstart '?'
  rw [List.replicate_succ] at h₁
  obtain ⟨run₂, hput, h₂⟩ := Image.putSlot [] h₁
    (DescMemory.nameRemainder b.chars (DescMemory.nameStart (DescMemory.read b.chars 0)) '?').2
  rw [DescMemory.nameRemainder_length, List.length_nil, Nat.mul_zero, Nat.add_zero, ← hquery]
    at hput h₂
  obtain ⟨run₃, hcut₃, h₃, hdot⟩ := nameRemainder_image h₂ hstart '.'
  obtain ⟨run₄, hskip, h₄, hname, hlocation⟩ := skipDots_image fuel
    b.chars.length h₃ hstart hdot (Nat.lt_add_left _ hfuel) (Nat.lt_add_left _ h.room)
  refine ⟨run₄, ?_, h₄, fun q hq => (hquestion q hq).2, hname, hlocation⟩
  simp only [parsePath, h.string (Nat.zero_le n), hcut₁, hput, hcut₃, Option.bind_eq_bind,
    Option.bind_some]
  exact hskip

/-- What the parser on characters and slots leaves, with the buffer as bytes. -/
def Result.of (run : Run) (r : DescMemory.Parsed) : Result :=
  ⟨run, r.ret, r.name, r.location, r.soffset, r.sextent, r.offset, r.extent⟩

theorem parseDesc_refines {r : DescMemory.Parsed}
    (h : Image n b.chars (List.replicate (left + 1) none) [] { mem := dup.ret })
    (hquery : dup.query = b.chars.length) (hslots : b.slots.length = left + 1)
    (hparse : DescMemory.parse build b = some r) (hchars : n < fuel) (hleft : left < fuel) :
    ∃ (run : Run) (options : List Nat) (k : Nat),
      parseDesc build fuel dup = some (.of run r) ∧
      r.slots = options.map some ++ List.replicate (k + 1) none ∧ (∀ q ∈ options, q ≤ n) ∧
      Image n r.chars r.slots (slotPlaces dup.query 0 (options.length + 1)) run := by
  obtain ⟨run₁, hpath, h₁, hfirst, hname, hlocation⟩ := parsePath_image h hquery hchars
  have hlength := DescMemory.parsePath_length b
  unfold DescMemory.parse at hparse
  generalize DescMemory.parsePath b = path at *
  obtain ⟨chars₁, query, name, location⟩ := path
  dsimp only at *
  have hfield : location.getD name ≤ n := by
    cases location with
    | none => exact hname
    | some location => exact hlocation location rfl
  obtain ⟨run₂, hsplit, h₂, hsoffset, hsextent⟩ := splitRange_image h₁ hfield
  have hlength₂ := (DescMemory.splitRange_length chars₁ (location.getD name)).trans hlength
  generalize DescMemory.splitRange chars₁ (location.getD name) = range at *
  obtain ⟨chars₂, soffset, sextent⟩ := range
  dsimp only at *
  obtain ⟨hextent, hstopExtent⟩ := parseNumber_image build h₂ hsextent
  obtain ⟨hoffset, hstopOffset⟩ := parseNumber_image build h₂ hsoffset
  generalize DescMemory.parseNumber build chars₂ sextent = extent at *
  generalize DescMemory.parseNumber build chars₂ soffset = offset at *
  obtain ⟨⟨chars₃, slots⟩, hloop, rfl⟩ := Option.map_eq_some_iff.mp hparse
  rw [hslots] at hloop
  obtain ⟨run₃, options, k, hrun, hqueries, hoptions, h₃⟩ :=
    vfiParseOptions_image [] hfirst h₂ hloop hleft
  rw [hlength₂, ← hquery, List.length_nil, Nat.mul_zero, Nat.add_zero] at hrun
  rw [hlength₂, ← hquery, List.length_nil, Nat.zero_add, List.singleton_append] at h₃
  refine ⟨run₃, options, k, ?_, hqueries, hoptions, ?_⟩
  · simp only [parseDesc, hpath, hsplit, hextent, hoffset, hrun,
      vfiAssert_image build h₂ hstopExtent, vfiAssert_image build h₂ hstopOffset,
      Option.bind_eq_bind, Option.bind_some]
    rfl
  · rw [slotPlaces_succ, Nat.mul_zero, Nat.add_zero]
    exact h₃

-- ---------------------------------------------------------------------------
-- The copy holds the string and empty slots
-- ---------------------------------------------------------------------------

variable {kzalloc : Nat → Bool} {desc : List Char}

theorem countArgs_eq (desc : List Char) : countArgs desc = argc desc := by
  have hfold : ∀ (s : List Char) (argc : Nat),
      s.foldl (fun argc c => if c = '?' ∨ c = ',' then argc + 1 else argc) argc =
        argc + s.countP fun c => c = '?' ∨ c = ',' := by
    intro s
    induction s with
    | nil => exact fun argc => rfl
    | cons c s ih =>
      intro argc
      rw [List.foldl_cons, ih, List.countP_cons]
      by_cases hc : c = '?' ∨ c = ','
      · simp [hc, Nat.add_assoc, Nat.add_comm 1]
      · simp [hc]
  exact hfold desc 1

/-- The buffer of a string, as `vfi_str_dup` leaves it. -/
def dupOf (desc : List Char) : Dup :=
  let b := DescMemory.newBuf desc
  { ret := layout '\x00' ptrSize b.chars (List.replicate b.slots.length none)
    buflen := b.size
    query := b.chars.length
    last := b.chars.length + ptrSize * (b.slots.length - 1) }

theorem length_newBuf (desc : List Char) :
    (DescMemory.newBuf desc).chars.length = ((desc.length + 1) / 4 + 1) * 4 := by
  rw [DescMemory.newBuf, List.length_append, List.length_replicate]
  omega

theorem length_lt_newBuf (desc : List Char) :
    desc.length + 1 ≤ (DescMemory.newBuf desc).chars.length := by
  rw [length_newBuf]
  omega

theorem strncpy_zero {size : Nat} (h : desc.length + 1 ≤ size) :
    strncpy (List.replicate size (.byte '\x00')) desc (desc.length + 1) =
      some (desc.map .byte ++ List.replicate (size - desc.length) (.byte '\x00')) := by
  obtain ⟨k, rfl⟩ := Nat.exists_eq_add_of_le h
  have hcells : (desc.take (desc.length + 1) ++
      List.replicate (desc.length + 1 - desc.length) '\x00').map (Memval.byte (π := Nat)) =
        desc.map .byte ++ [.byte '\x00'] := by
    rw [List.take_of_length_le (Nat.le_succ _), Nat.add_sub_cancel_left]
    simp
  have hrest : desc.length + 1 + k - desc.length = k + 1 := by omega
  rw [strncpy, hcells, store_eq_some (by simp), hrest, List.replicate_succ]
  simp

theorem dupOf_ret (desc : List Char) :
    (dupOf desc).ret = desc.map .byte ++
      List.replicate ((DescMemory.newBuf desc).size - desc.length) (.byte '\x00') := by
  have hlength := length_newBuf desc
  have hlt := length_lt_newBuf desc
  have hroom : ((desc.length + 1) / 4 + 1) * 4 - desc.length + ptrSize * argc desc =
      (DescMemory.newBuf desc).size - desc.length := by
    have hslots : (DescMemory.newBuf desc).slots.length = argc desc := List.length_replicate
    rw [DescMemory.Buf.size, hslots, ptrSize]
    omega
  rw [dupOf]
  dsimp only
  rw [layout_zero, DescMemory.newBuf, List.map_append, List.map_replicate, List.length_replicate,
    List.append_assoc, ← List.replicate_add, hroom]
  rfl

theorem size_newBuf (desc : List Char) :
    (DescMemory.newBuf desc).size = ((desc.length + 1) / 4 + 1) * 4 + argc desc * 4 := by
  rw [← length_newBuf, DescMemory.Buf.size, Nat.mul_comm (argc desc)]
  congr 2
  exact List.length_replicate

theorem vfiStrDup_isSome :
    (Vfi.vfiStrDup desc).isSome ↔
      desc.length + 1 ≤ 4096 ∧ (DescMemory.newBuf desc).size ≤ 4096 := by
  rw [size_newBuf, Vfi.vfiStrDup, ← argc]
  split
  · next hlong => simpa using by omega
  · next hshort => simpa using by omega

/-- The copy is made of the strings that the parser on strings accepts. -/
theorem vfiStrDup_eq_some :
    vfiStrDup kzalloc desc = some dup ↔
      (Vfi.vfiStrDup desc).isSome ∧ kzalloc (DescMemory.newBuf desc).size ∧ dup = dupOf desc := by
  rw [vfiStrDup_isSome]
  unfold vfiStrDup
  by_cases hlong : desc.length + 1 ≤ 4096
  · have hmin : min desc.length 4096 = desc.length := by omega
    have hquery : ((desc.length + 1) >>> 2 + 1) <<< 2 = (DescMemory.newBuf desc).chars.length := by
      rw [length_newBuf, Nat.shiftRight_eq_div_pow, Nat.shiftLeft_eq]
    have hsize : (DescMemory.newBuf desc).chars.length + argc desc <<< 2 =
        (DescMemory.newBuf desc).size := by
      rw [length_newBuf, size_newBuf, Nat.shiftLeft_eq]
    have hcopy : strncpy (List.replicate (DescMemory.newBuf desc).size (.byte '\x00')) desc
        (desc.length + 1) = some (dupOf desc).ret := by
      rw [dupOf_ret]
      exact strncpy_zero ((length_lt_newBuf desc).trans (Nat.le_add_right _ _))
    have hslots : (DescMemory.newBuf desc).slots.length = argc desc := List.length_replicate
    simp only [hmin, countArgs_eq, hquery, hsize, hcopy, if_neg (Nat.not_lt.mpr hlong)]
    by_cases hroom : (DescMemory.newBuf desc).size ≤ 4096
    · rw [if_neg (Nat.not_lt.mpr hroom)]
      cases kzalloc (DescMemory.newBuf desc).size with
      | true => simp [hlong, hroom, dupOf, hslots, eq_comm]
      | false => simp
    · rw [if_pos (Nat.lt_of_not_le hroom)]
      simp [hroom]
  · have hmin : min desc.length 4096 + 1 > 4096 := by omega
    simp [hlong, hmin]

theorem image_dupOf (desc : List Char) :
    Image desc.length (DescMemory.newBuf desc).chars (List.replicate (argc desc) none) []
      { mem := (dupOf desc).ret } := by
  refine ⟨?_, length_lt_newBuf desc, ?_, nofun, rfl⟩
  · rw [dupOf]
    dsimp only
    congr 2
    exact List.length_replicate
  · intro i c hc hne
    by_contra hi
    rw [DescMemory.newBuf, List.getElem?_append_right (Nat.le_of_not_lt hi),
      List.getElem?_replicate] at hc
    simp only [Option.ite_none_right_eq_some] at hc
    exact hne (Option.some.inj hc.2).symm

theorem parseDesc_dupOf {fuel : Nat} (build : Build) (hdesc : '\x00' ∉ desc)
    (hfuel : (dupOf desc).buflen ≤ fuel) :
    ∃ (run : Run) (options : List Nat) (r : DescMemory.Parsed),
      parseDesc build fuel (dupOf desc) = some (.of run r) ∧
      (∃ k, r.slots = options.map some ++ List.replicate (k + 1) none) ∧
      (∀ q ∈ options, q ≤ desc.length) ∧ r.chars.length = (dupOf desc).query ∧
      r.slots.length = argc desc ∧
      Image desc.length r.chars r.slots (slotPlaces (dupOf desc).query 0 (options.length + 1))
        run := by
  have himage := image_dupOf desc
  have hslots : (DescMemory.newBuf desc).slots.length = argc desc := List.length_replicate
  have hlt := length_lt_newBuf desc
  obtain ⟨r, hparse, -, -⟩ := DescMemory.parse_reads build hdesc
  obtain ⟨hchars, hlength⟩ := DescMemory.parse_length hparse
  obtain ⟨left, hleft⟩ : ∃ left, argc desc = left + 1 := ⟨_, Nat.add_comm 1 _⟩
  have hbuflen : (dupOf desc).buflen = (DescMemory.newBuf desc).chars.length + 4 * (left + 1) := by
    rw [← hleft, ← hslots]
    rfl
  rw [hleft] at himage
  obtain ⟨run, options, k, hrun, hqueries, hoptions, h⟩ :=
    parseDesc_refines himage rfl (hslots.trans hleft) hparse (by omega : desc.length < fuel)
      (by omega : left < fuel)
  exact ⟨run, options, r, hrun, ⟨k, hqueries⟩, hoptions, hchars, hlength.trans hslots, h⟩

/-- The slots lie at the end of the buffer, behind the string, and there are always as many as the
parser fills: one after the other from the first, the last of them with NULL. -/
theorem parseDesc_slots (build : Build) {name : List Char} (hname : '\x00' ∉ name)
    (hdup : vfiStrDup kzalloc name = some dup) :
    (name.length + 1 ≤ dup.query ∧ ptrSize ∣ dup.query ∧
      dup.query + ptrSize * argc name = dup.buflen ∧ dup.ret.length = dup.buflen) ∧
    ∀ fuel, dup.buflen ≤ fuel → ∃ r k, parseDesc build fuel dup = some r ∧ k < argc name ∧
      r.run.slotStores = slotPlaces dup.query 0 (k + 1) ∧
      (∀ place ∈ r.run.slotStores, dup.query ≤ place ∧ place + ptrSize ≤ dup.buflen) ∧
      (∀ place ∈ r.run.charStores, place < name.length) ∧
      r.run.slot (dup.query + ptrSize * k) = some none ∧
      ∀ i < k, ∃ p ≤ name.length, r.run.slot (dup.query + ptrSize * i) = some (some p) := by
  obtain ⟨-, -, rfl⟩ := vfiStrDup_eq_some.mp hdup
  have hslots : (DescMemory.newBuf name).slots.length = argc name := List.length_replicate
  have hbuflen : (dupOf name).query + ptrSize * argc name = (dupOf name).buflen := by
    rw [← hslots]
    rfl
  refine ⟨⟨length_lt_newBuf name, ?_, hbuflen, ?_⟩, fun fuel hfuel => ?_⟩
  · exact Dvd.intro_left _ (length_newBuf name).symm
  · rw [← hbuflen, dupOf]
    dsimp only
    rw [length_layout, List.length_replicate, hslots]
  · obtain ⟨run, options, r, hrun, ⟨k, hqueries⟩, hoptions, hchars, hlength, h⟩ :=
      parseDesc_dupOf build hname hfuel
    have hcount : options.length < argc name := by
      rw [← hlength, hqueries]
      simp
    have hroom : (dupOf name).query + ptrSize * (options.length + 1) ≤ (dupOf name).buflen := by
      rw [← hbuflen]
      exact Nat.add_le_add_left (Nat.mul_le_mul_left ptrSize hcount) _
    rw [← hchars] at *
    refine ⟨_, options.length, hrun, hcount, h.slotStores, fun place hplace => ?_, h.charStores,
      ?_, fun i hi => ?_⟩
    · exact slotPlaces_bounds (h.slotStores ▸ hplace) hroom
    · refine h.slot_getElem ?_
      rw [hqueries]
      simp
    · refine ⟨options[i], hoptions _ (List.getElem_mem hi), h.slot_getElem ?_⟩
      rw [hqueries, List.getElem?_append_left (by simpa using hi)]
      simp [hi]

/-- A name with a place in it and two options. -/
def twoOptions : List Char := "smb.node#10:20?a(1),b".toList

theorem parseDesc_slots_twoOptions :
    ∃ r k, parseDesc ⟨32, false⟩ (dupOf twoOptions).buflen (dupOf twoOptions) = some r ∧
      k < argc twoOptions ∧ r.run.slotStores = slotPlaces (dupOf twoOptions).query 0 (k + 1) ∧
      r.run.slot ((dupOf twoOptions).query + ptrSize * k) = some none := by
  have hdup : vfiStrDup (fun _ => true) twoOptions = some (dupOf twoOptions) :=
    vfiStrDup_eq_some.mpr ⟨by decide, rfl, rfl⟩
  obtain ⟨r, k, hrun, hk, hstores, -, -, hnull, -⟩ :=
    (parseDesc_slots ⟨32, false⟩ (by decide) hdup).2 _ le_rfl
  exact ⟨r, k, hrun, hk, hstores, hnull⟩

end Vfi.QuerySlots
