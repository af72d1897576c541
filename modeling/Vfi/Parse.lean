import Vfi.Desc

/-!
# The command parser

The functions of `vfi_parse.c` on the characters of a string up to its NUL.
`name_remainder` and the options parser write NULs into their string; here they
return the strings that this leaves.
-/

namespace Vfi

/-- How the driver is built: the width of `unsigned long`, and whether
`VFI_ASSERT` is compiled in, which makes a malformed number an error. -/
structure Build where
  longBits : Nat
  debug : Bool
deriving DecidableEq, Repr

/-- What follows the first occurrence of `needle`, which comes first. -/
def strstr : List Char → List Char → Option (List Char)
  | [], needle => if needle = [] then some [] else none
  | c :: s, needle => if needle.isPrefixOf (c :: s) then some (c :: s) else strstr s needle

def nameRemainder (s : List Char) (c : Char) : List Char × Option (List Char) :=
  match s.dropWhile (· ≠ c) with
  | [] => (s, none)
  | _ :: remainder => (s.takeWhile (· ≠ c), some remainder)

/-- A NULL string has no remainder. -/
def remainderOf (s : Option (List Char)) (c : Char) : Option (List Char) × Option (List Char) :=
  match s with
  | none => (none, none)
  | some s => let (head, remainder) := nameRemainder s c; (some head, remainder)

def hexValue (c : Char) : Option Nat :=
  if '0' ≤ c ∧ c ≤ '9' then some (c.toNat - '0'.toNat)
  else if 'a' ≤ c ∧ c ≤ 'f' then some (c.toNat - 'a'.toNat + 10)
  else if 'A' ≤ c ∧ c ≤ 'F' then some (c.toNat - 'A'.toNat + 10)
  else none

def hexDigits (bits : Nat) (value : Nat) : List Char → Nat × List Char
  | [] => (value, [])
  | c :: s =>
    match hexValue c with
    | some digit => hexDigits bits ((value * 16 + digit) % 2 ^ bits) s
    | none => (value, c :: s)

/-- The kernel's conversion to base 16, with the rest it stops at. -/
def simpleStrtoul (build : Build) : List Char → Nat × List Char
  | '0' :: 'x' :: s => hexDigits build.longBits 0 s
  | '0' :: 'X' :: s => hexDigits build.longBits 0 s
  | s => hexDigits build.longBits 0 s

/-- One option, with `var(val)` rewritten to `var=val`. -/
def parseOption (s : List Char) : List Char :=
  match nameRemainder s '(' with
  | (_, none) => s
  | (var, some val) => var ++ '=' :: (nameRemainder val ')').1

def vfiParseOptions (query : List Char) : List (List Char) :=
  (query.splitOn ',').map parseOption

def vfiGetOption (desc : VfiDescParam) (needle : List Char) : Option (List Char) :=
  match desc.query.findSome? (strstr · needle) with
  | none => none
  | some var =>
    match strstr var ['='] with
    | some val => some (val.drop 1)
    | none => some var

/-- The string from its first `://` on, or all of it. -/
def afterScheme (s : List Char) : List Char :=
  match strstr s "://".toList with
  | some rest => rest.drop 3
  | none => s

/-- The name and the location; leading dots are skipped. -/
def splitLocation (s : List Char) : List Char × Option (List Char) :=
  nameRemainder (s.dropWhile (· = '.')) '.'

/-- The parts of `text#offset:extent` or `text:extent#offset`. -/
structure Range where
  text : List Char
  soffset : Option (List Char)
  sextent : Option (List Char)
  extentFirst : Bool
deriving DecidableEq, Repr

def splitRange (s : List Char) : Range :=
  let (s, sextent) := nameRemainder s ':'
  let (text, soffset) := nameRemainder s '#'
  let (soffset, sextent) :=
    match sextent with
    | none => remainderOf soffset ':'
    | some _ => (soffset, sextent)
  match soffset with
  | none => let (sextent, soffset) := remainderOf sextent '#'; ⟨text, soffset, sextent, true⟩
  | some _ => ⟨text, soffset, sextent, false⟩

/-- A number, and how far into the field the conversion stopped, if not at its end. -/
def parseNumber (build : Build) : Option (List Char) → Nat × Option Nat
  | none => (0, none)
  | some s =>
    let (value, rest) := simpleStrtoul build s
    (value, if rest = [] then none else some (s.length - rest.length))

/-- Where in the descriptor a field starts that follows `text` and the given
other parts, each of them ended by one separator. -/
def fieldStart (text : List Char) (others : List (Option (List Char))) : Nat :=
  text.length + 1 + (others.map fun s => (s.map (·.length + 1)).getD 0).sum

/-- With `VFI_ASSERT` compiled in, a malformed number is an error: the distance
from the name to the character the conversion stopped at. -/
def numberError (build : Build) (startOffset startExtent : Nat) (badOffset badExtent : Option Nat) :
    Option Nat :=
  if build.debug then
    match badOffset with
    | some stop => some (startOffset + stop)
    | none => badExtent.map (startExtent + ·)
  else none

def parseDesc (build : Build) (desc : List Char) : Except Int VfiDescParam :=
  let (path, options) := nameRemainder (afterScheme desc) '?'
  let (name, location) := splitLocation path
  let range := splitRange (location.getD name)
  let (extent, badExtent) := parseNumber build range.sextent
  let (offset, badOffset) := parseNumber build range.soffset
  let leading := if location.isSome then [some name] else []
  let startOffset :=
    fieldStart range.text (leading ++ if range.extentFirst then [range.sextent] else [])
  let startExtent :=
    fieldStart range.text (leading ++ if range.extentFirst then [] else [range.soffset])
  match numberError build startOffset startExtent badOffset badExtent with
  | some ret => .error ret
  | none =>
    .ok
      { name := some (if location.isSome then name else range.text)
        location := location.map fun _ => range.text
        offset := UInt64.ofNat offset
        extent := UInt32.ofNat extent
        query := (options.map vfiParseOptions).getD [] }

/-- The copy must fit a page together with the slots for its options. -/
def vfiStrDup (name : List Char) : Option (List Char) :=
  let oldsize := name.length + 1
  let argc := 1 + name.countP fun c => c = '?' ∨ c = ','
  if oldsize > 4096 ∨ (oldsize / 4 + 1) * 4 + argc * 4 > 4096 then none else some name

def vfiParseDesc (build : Build) (desc : List Char) : Except Int VfiDescParam :=
  match vfiStrDup desc with
  | none => .error (-einval)
  | some mydesc => parseDesc build mydesc

/-- The terms of `xfer/dst=src`; one that is missing is left zeroed. -/
def vfiParseBind (build : Build) (desc : List Char) : Except Int VfiBindParam :=
  match vfiStrDup desc with
  | none => .error (-enomem)
  | some myxfer => do
    let start := afterScheme myxfer
    let (head, mydst) := nameRemainder start '/'
    let scheme := myxfer.take (myxfer.length - start.length)
    match mydst with
    | none => return { xfer := ← vfiParseDesc build (scheme ++ head), dst := {}, src := {} }
    | some mydst =>
      let (mydst, mysrc) := nameRemainder mydst '='
      let src ← (mysrc.map (vfiParseDesc build)).getD (.ok {})
      let dst ← vfiParseDesc build mydst
      return { xfer := ← vfiParseDesc build (scheme ++ head), dst, src }

-- ---------------------------------------------------------------------------
-- A failed parse returns an error
-- ---------------------------------------------------------------------------

variable {build : Build} {desc : List Char} {ret : Int}

theorem numberError_pos {startOffset startExtent code : Nat} {badOffset badExtent : Option Nat}
    (hoffset : 0 < startOffset) (hextent : 0 < startExtent)
    (h : numberError build startOffset startExtent badOffset badExtent = some code) : 0 < code := by
  unfold numberError at h
  split at h
  · split at h
    · obtain rfl := Option.some.inj h
      exact Nat.add_pos_left hoffset _
    · obtain ⟨stop, -, rfl⟩ := Option.map_eq_some_iff.mp h
      exact Nat.add_pos_left hextent _
  · cases h

theorem fieldStart_pos (text : List Char) (others : List (Option (List Char))) :
    0 < fieldStart text others :=
  Nat.add_pos_left (Nat.succ_pos _) _

theorem vfiParseDesc_error (h : vfiParseDesc build desc = .error ret) : ret ≠ 0 := by
  unfold vfiParseDesc at h
  split at h
  · obtain rfl := Except.error.inj h
    decide
  · unfold parseDesc at h
    dsimp only at h
    split at h
    · next code hcode =>
      obtain rfl := Except.error.inj h
      exact_mod_cast (numberError_pos (fieldStart_pos _ _) (fieldStart_pos _ _) hcode).ne'
    · cases h

theorem optional_error {desc : Option (List Char)} {zeroed : VfiDescParam}
    (h : (desc.map (vfiParseDesc build)).getD (.ok zeroed) = .error ret) : ret ≠ 0 := by
  cases desc with
  | none => cases h
  | some desc => exact vfiParseDesc_error h

theorem bind_error {α β : Type} {x : Except Int α} {f : α → Except Int β}
    (hx : ∀ ret, x = .error ret → ret ≠ 0) (hf : ∀ a ret, f a = .error ret → ret ≠ 0)
    (h : (x >>= f) = .error ret) : ret ≠ 0 := by
  cases x with
  | error code =>
    obtain rfl := Except.error.inj h
    exact hx code rfl
  | ok a => exact hf a ret h

theorem vfiParseBind_error (h : vfiParseBind build desc = .error ret) : ret ≠ 0 := by
  unfold vfiParseBind at h
  split at h
  · obtain rfl := Except.error.inj h
    decide
  · dsimp only at h
    split at h
    · exact bind_error (fun _ => vfiParseDesc_error) (fun _ _ h => by cases h) h
    · refine bind_error (fun _ => optional_error) (fun src code hdst => ?_) h
      refine bind_error (fun _ => vfiParseDesc_error) (fun dst code hxfer => ?_) hdst
      exact bind_error (fun _ => vfiParseDesc_error) (fun _ _ h => by cases h) hxfer

end Vfi
