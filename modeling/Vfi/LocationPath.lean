import Vfi.DescMemory
import Vfi.Lib.KeyedList
import Mathlib.Logic.Function.Basic

/-!
# Locations by their paths

`find_vfi_location` finds a location by its name and the path of its parents,
which it parses once more on every level. The locations are kobjects in ksets
with counts of references. What the function finds and what it leaves of the
counts: `dottedPath`.
-/

namespace Vfi.LocationPath

open CString DescMemory

-- ---------------------------------------------------------------------------
-- Locations
-- ---------------------------------------------------------------------------

/-- A location, with the addresses of the locations in its kset. -/
structure Location where
  name : List Char
  ops : VfiOps
  kset : List Nat
  refs : Nat
deriving DecidableEq, Repr

/-- The kset of `vfi_subsys`, and the locations at their addresses. -/
structure Subsys where
  kset : List Nat
  location : Nat → Location

def Subsys.modify (s : Subsys) (loc : Nat) (f : Location → Location) : Subsys :=
  { s with location := Function.update s.location loc (f (s.location loc)) }

def Subsys.get (s : Subsys) (loc : Nat) : Subsys :=
  s.modify loc fun l => { l with refs := l.refs + 1 }

/-- The last put takes the location out of its kset. -/
def Subsys.release (s : Subsys) (loc : Nat) : Subsys where
  kset := s.kset.filter (· ≠ loc)
  location other := { s.location other with kset := (s.location other).kset.filter (· ≠ loc) }

def vfiLocationPut (s : Subsys) (loc : Nat) : Subsys :=
  let put := s.modify loc fun l => { l with refs := l.refs - 1 }
  if (s.location loc).refs ≤ 1 then put.release loc else put

def ksetFindObj (s : Subsys) (kset : List Nat) (name : Option (List Char)) :
    Option Nat × Subsys :=
  match kset.find? fun loc => some (s.location loc).name = name with
  | none => (none, s)
  | some loc => (some loc, s.get loc)

-- ---------------------------------------------------------------------------
-- The search
-- ---------------------------------------------------------------------------

/-- What a find returns, what it has stored for its caller, and what it leaves. -/
structure Found where
  ret : Int
  newloc : Option Nat
  subsys : Subsys

/-- The end of a find: an error if there is no location. -/
def Found.of (newloc : Option Nat × Subsys) : Found where
  ret := if newloc.1.isSome then 0 else -einval
  newloc := newloc.1
  subsys := newloc.2

def findVfiName (s : Subsys) (loc : Option Nat) (params : VfiDescParam) : Found :=
  match loc with
  | some loc => .of (ksetFindObj s (s.location loc).kset params.name)
  | none => .of (ksetFindObj s s.kset params.name)

/-- The `location_find` of the operations on public locations. -/
abbrev FabricFind := Subsys → Nat → VfiDescParam → Found

def locationFind (fabricFind : FabricFind) (s : Subsys) (loc : Nat) (params : VfiDescParam) :
    Found :=
  match (s.location loc).ops with
  | .vfiLocalOps => findVfiName s (some loc) params
  | .vfiFabricOps => fabricFind s loc params

theorem nameRemainder_length (s : List Char) (c : Char) :
    s.length = (Vfi.nameRemainder s c).1.length +
      ((Vfi.nameRemainder s c).2.map fun t => t.length + 1).getD 0 := by
  have hjoin := congrArg List.length (nameRemainder_join s c).2
  rw [List.length_append] at hjoin
  cases hrest : (Vfi.nameRemainder s c).2 with
  | none => simpa [hrest] using hjoin
  | some rest => simpa [hrest] using hjoin

theorem nameRemainder_head_le (s : List Char) (c : Char) :
    (Vfi.nameRemainder s c).1.length ≤ s.length :=
  (nameRemainder_length s c).symm ▸ Nat.le_add_right _ _

theorem splitRange_length_le (s : List Char) : (Vfi.splitRange s).text.length ≤ s.length := by
  have htext : (Vfi.splitRange s).text =
      (Vfi.nameRemainder (Vfi.nameRemainder s ':').1 '#').1 := by
    unfold Vfi.splitRange
    dsimp only
    split <;> rfl
  rw [htext]
  exact (nameRemainder_head_le _ _).trans (nameRemainder_head_le s ':')

theorem afterScheme_length_le (s : List Char) : (afterScheme s).length ≤ s.length := by
  have hlength := congrArg List.length (schemeText_append s)
  rw [List.length_append] at hlength
  exact hlength ▸ Nat.le_add_left _ _

theorem splitLocation_length_lt {s location : List Char}
    (h : (Vfi.splitLocation s).2 = some location) : location.length < s.length := by
  have hlength := nameRemainder_length (s.dropWhile (· = '.')) '.'
  have hdrop := (List.dropWhile_suffix (l := s) fun c => decide (c = '.')).length_le
  rw [Vfi.splitLocation] at h
  rw [h] at hlength
  simp only [Option.map_some, Option.getD_some] at hlength
  omega

/-- The location that is parsed from a text is shorter than the text. -/
theorem location_length_lt {build : Build} {text : List Char} {params : VfiDescParam}
    (htext : text ≠ []) (h : vfiParseDesc build text = .ok params) :
    (params.location.getD []).length < text.length := by
  unfold vfiParseDesc at h
  split at h
  · cases h
  · next copy hcopy =>
    obtain rfl : copy = text := by
      have hdup := vfiStrDup_eq_some (Option.isSome_of_mem hcopy)
      exact Option.some.inj (hcopy.symm.trans hdup)
    unfold parseDesc at h
    dsimp only at h
    split at h
    · cases h
    · obtain rfl := Except.ok.inj h
      cases hlocation : (Vfi.splitLocation (Vfi.nameRemainder (afterScheme copy) '?').1).2 with
      | none => exact List.length_pos_of_ne_nil htext
      | some location =>
        calc (Vfi.splitRange location).text.length
          _ ≤ location.length := splitRange_length_le location
          _ < (Vfi.nameRemainder (afterScheme copy) '?').1.length :=
            splitLocation_length_lt hlocation
          _ ≤ (afterScheme copy).length := nameRemainder_head_le _ _
          _ ≤ copy.length := afterScheme_length_le copy

/-- Without a location to start from, the parents are found before the location. -/
def findVfiLocation (build : Build) (fabricFind : FabricFind) (s : Subsys) (loc : Option Nat)
    (params : VfiDescParam) : Found :=
  match loc with
  | some loc => locationFind fabricFind s loc params
  | none =>
    if _ : params.location.getD [] = [] then
      .of (ksetFindObj s s.kset params.name)
    else
      match _ : vfiParseDesc build (params.location.getD []) with
      | .error _ => .of (none, s)
      | .ok tmpparams =>
        let tmp := findVfiLocation build fabricFind s none tmpparams
        match if tmp.ret = 0 then tmp.newloc else none with
        | none => .of (none, tmp.subsys)
        | some tmploc =>
          let found := locationFind fabricFind tmp.subsys tmploc params
          .of (found.newloc, vfiLocationPut found.subsys tmploc)
termination_by (params.location.getD []).length
decreasing_by exact location_length_lt ‹_› ‹_›

/-- A descriptor, with pointers into the characters of its buffer. -/
structure PathDesc where
  chars : List Char
  name : Nat
  location : Option Nat
  offset : UInt64
  extent : UInt32
  query : List Nat
deriving DecidableEq, Repr

/-- What the pointers stand for. -/
def PathDesc.strings (desc : PathDesc) : VfiDescParam where
  name := some (read desc.chars desc.name)
  location := desc.location.map (read desc.chars)
  offset := desc.offset
  extent := desc.extent
  query := desc.query.map (read desc.chars)

def strchr (chars : List Char) (p : Nat) (c : Char) : Option Nat :=
  ((read chars p).idxOf? c).map (p + ·)

/-- The first part of the location takes the place of the name, and the dot behind it is cut. -/
def shiftLocation (desc : PathDesc) : Option Nat × PathDesc :=
  match desc.location with
  | none => (none, desc)
  | some locstr =>
    match strchr desc.chars locstr '.' with
    | some newLocstr =>
      (some newLocstr, { desc with
        name := locstr
        location := some (newLocstr + 1)
        chars := desc.chars.set newLocstr '\x00' })
    | none => (none, { desc with name := locstr, location := none })

def locateVfiLocation (build : Build) (fabricFind : FabricFind) (s : Subsys) (loc : Option Nat)
    (desc : PathDesc) : Found × PathDesc :=
  let oldLocstr := desc.location
  let oldNamestr := desc.name
  let offset := desc.offset
  let extent := desc.extent
  let (newLocstr, desc) := shiftLocation desc
  let found := findVfiLocation build fabricFind s loc desc.strings
  let desc := { desc with location := oldLocstr, name := oldNamestr, offset, extent }
  match newLocstr with
  | some newLocstr => (found, { desc with chars := desc.chars.set newLocstr '.' })
  | none => (found, desc)

-- ---------------------------------------------------------------------------
-- Trees
-- ---------------------------------------------------------------------------

/-- The location under a name that lies in the locations of the names after it. -/
inductive Resolves (s : Subsys) : List (List Char) → Nat → Prop where
  | root {loc : Nat} : loc ∈ s.kset → Resolves s [(s.location loc).name] loc
  | child {names : List (List Char)} {parent loc : Nat} :
      Resolves s names parent → loc ∈ (s.location parent).kset →
        Resolves s ((s.location loc).name :: names) loc

def Subsys.Siblings (s : Subsys) (kset : List Nat) : Prop :=
  (kset.map fun loc => some (s.location loc).name).Nodup

/-- The locations under `vfi_subsys`: all are private, and referred to by their ksets. -/
structure Tree (s : Subsys) : Prop where
  roots : s.Siblings s.kset
  siblings : ∀ names loc, Resolves s names loc → s.Siblings (s.location loc).kset
  ops : ∀ names loc, Resolves s names loc → (s.location loc).ops = .vfiLocalOps
  refs : ∀ names loc, Resolves s names loc → 1 ≤ (s.location loc).refs

/-- The location of the path is found and gets a reference, or there is none and nothing
has changed. -/
structure Finds (s : Subsys) (names : List (List Char)) (found : Found) : Prop where
  present : ∀ loc, Resolves s names loc → found = ⟨0, some loc, s.get loc⟩
  absent : (∀ loc, ¬ Resolves s names loc) → found = ⟨-einval, none, s⟩

/-- The path as a location string. -/
def dotted (words : List Word) : List Char := ['.'].intercalate (words.map Word.chars)

variable {build : Build} {fabricFind : FabricFind} {s : Subsys} {loc parent : Nat}
  {name : List Char} {names : List (List Char)}

-- ---------------------------------------------------------------------------
-- References
-- ---------------------------------------------------------------------------

@[simp] theorem get_kset : (s.get loc).kset = s.kset := rfl

theorem get_location (s : Subsys) (loc other : Nat) :
    (s.get loc).location other =
      if other = loc then { s.location other with refs := (s.location other).refs + 1 }
      else s.location other := by
  by_cases h : other = loc
  · subst h
    simp [Subsys.get, Subsys.modify]
  · simp [Subsys.get, Subsys.modify, h]

@[simp] theorem get_name (s : Subsys) (loc other : Nat) :
    ((s.get loc).location other).name = (s.location other).name := by
  rw [get_location]
  split <;> rfl

@[simp] theorem get_children (s : Subsys) (loc other : Nat) :
    ((s.get loc).location other).kset = (s.location other).kset := by
  rw [get_location]
  split <;> rfl

@[simp] theorem get_ops (s : Subsys) (loc other : Nat) :
    ((s.get loc).location other).ops = (s.location other).ops := by
  rw [get_location]
  split <;> rfl

theorem refs_le_get (s : Subsys) (loc other : Nat) :
    (s.location other).refs ≤ ((s.get loc).location other).refs := by
  rw [get_location]
  split
  · exact Nat.le_succ _
  · exact le_rfl

theorem get_comm (s : Subsys) (loc other : Nat) :
    (s.get loc).get other = (s.get other).get loc := by
  unfold Subsys.get Subsys.modify
  by_cases h : other = loc
  · subst h
    rfl
  · simp only [Function.update_of_ne h, Function.update_of_ne (Ne.symm h)]
    rw [Function.update_comm h]

/-- A put takes back a get of a location that is referred to. -/
theorem put_get (h : 1 ≤ (s.location loc).refs) : vfiLocationPut (s.get loc) loc = s := by
  have hmany : ¬ ((s.get loc).location loc).refs ≤ 1 := by
    rw [get_location, if_pos rfl]
    exact Nat.not_le.mpr (Nat.lt_add_of_pos_left h)
  unfold vfiLocationPut
  rw [if_neg hmany]
  simp [Subsys.get, Subsys.modify]

-- ---------------------------------------------------------------------------
-- Names and paths
-- ---------------------------------------------------------------------------

theorem siblings_get {kset : List Nat} : (s.get loc).Siblings kset ↔ s.Siblings kset := by
  simp only [Subsys.Siblings, get_name]

theorem resolves_nil : ¬ Resolves s [] loc := nofun

theorem resolves_singleton :
    Resolves s [name] loc ↔ loc ∈ s.kset ∧ (s.location loc).name = name := by
  constructor
  · rintro (hloc | ⟨hparent, -⟩)
    · exact ⟨hloc, rfl⟩
    · exact absurd hparent resolves_nil
  · rintro ⟨hloc, rfl⟩
    exact .root hloc

theorem resolves_cons {first : List Char} :
    Resolves s (name :: first :: names) loc ↔
      ∃ parent, Resolves s (first :: names) parent ∧
        loc ∈ (s.location parent).kset ∧ (s.location loc).name = name := by
  constructor
  · rintro (_ | ⟨hparent, hloc⟩)
    exact ⟨_, hparent, hloc, rfl⟩
  · rintro ⟨parent, hparent, hloc, rfl⟩
    exact .child hparent hloc

theorem ksetFindObj_mem {kset : List Nat} (h : s.Siblings kset) (hloc : loc ∈ kset) :
    ksetFindObj s kset (some (s.location loc).name) = (some loc, s.get loc) := by
  have hfind := (KeyedList.find_eq_some_iff h).mpr ⟨hloc, rfl⟩
  rw [ksetFindObj, hfind]

theorem ksetFindObj_not_mem {kset : List Nat}
    (h : ∀ loc ∈ kset, (s.location loc).name ≠ name) :
    ksetFindObj s kset (some name) = (none, s) := by
  have hfind : kset.find? (fun loc => some (s.location loc).name = some name) = none := by
    simpa using h
  rw [ksetFindObj, hfind]

/-- A path leads to one location. -/
theorem Tree.resolves_unique (tree : Tree s) {other : Nat} (h : Resolves s names loc)
    (hother : Resolves s names other) : loc = other := by
  induction h generalizing other with
  | root hloc =>
    obtain ⟨hmem, hname⟩ := resolves_singleton.mp hother
    exact List.inj_on_of_nodup_map tree.roots hloc hmem (congrArg some hname.symm)
  | @child names parent loc hparent hloc ih =>
    cases names with
    | nil => exact absurd hparent resolves_nil
    | cons first names =>
      obtain ⟨parent', hparent', hmem, hname⟩ := resolves_cons.mp hother
      obtain rfl := ih hparent'
      exact List.inj_on_of_nodup_map (tree.siblings _ _ hparent) hloc hmem
        (congrArg some hname.symm)

/-- A find in the kset that the names of the path lead to. -/
theorem finds_kset {kset : List Nat} (hkset : s.Siblings kset)
    (h : ∀ loc, Resolves s (name :: names) loc ↔ loc ∈ kset ∧ (s.location loc).name = name) :
    Finds s (name :: names) (.of (ksetFindObj s kset (some name))) where
  present loc hloc := by
    obtain ⟨hmem, rfl⟩ := (h loc).mp hloc
    rw [ksetFindObj_mem hkset hmem]
    rfl
  absent hnone := by
    rw [ksetFindObj_not_mem fun loc hmem hname => hnone loc ((h loc).mpr ⟨hmem, hname⟩)]
    rfl

/-- With a parent found, the location is found in its kset, and the parent is put. -/
theorem Tree.finds_child (tree : Tree s) {first : List Char} {params : VfiDescParam}
    (hname : params.name = some name) (hparent : Resolves s (first :: names) parent) :
    let found := locationFind fabricFind (s.get parent) parent params
    Finds s (name :: first :: names) (.of (found.newloc, vfiLocationPut found.subsys parent)) := by
  have hchild : ∀ loc, Resolves s (name :: first :: names) loc ↔
      loc ∈ (s.location parent).kset ∧ (s.location loc).name = name := by
    intro loc
    rw [resolves_cons]
    constructor
    · rintro ⟨parent', hparent', hloc⟩
      rwa [tree.resolves_unique hparent hparent']
    · exact fun hloc => ⟨parent, hparent, hloc⟩
  have hkset : (s.get parent).Siblings (s.location parent).kset :=
    siblings_get.mpr (tree.siblings _ _ hparent)
  have hrefs := tree.refs _ _ hparent
  have hfind : locationFind fabricFind (s.get parent) parent params =
      .of (ksetFindObj (s.get parent) (s.location parent).kset (some name)) := by
    rw [locationFind, get_ops, tree.ops _ _ hparent, findVfiName, get_children, hname]
  rw [hfind]
  constructor
  · intro loc hloc
    obtain ⟨hmem, rfl⟩ := (hchild loc).mp hloc
    rw [← get_name s parent, ksetFindObj_mem hkset hmem]
    dsimp only [Found.of]
    rw [get_comm, put_get (hrefs.trans (refs_le_get s loc parent))]
    rfl
  · intro hnone
    have hother : ∀ loc ∈ (s.location parent).kset,
        ((s.get parent).location loc).name ≠ name := by
      intro loc hmem hloc
      rw [get_name] at hloc
      exact hnone loc ((hchild loc).mpr ⟨hmem, hloc⟩)
    rw [ksetFindObj_not_mem hother]
    dsimp only [Found.of]
    rw [put_get hrefs]
    rfl

/-- The text of a path, and the descriptor it is parsed as. -/
def pathText (name : Word) (words : List Word) : DescText := { name, location := words }

theorem pathText_text (name : Word) (words : List Word) :
    (pathText name words).text = dotted (name :: words) := by
  cases words with
  | nil => simp [pathText, DescText.text, DescText.opText, DescText.pathText, DescText.rangeText,
      DescText.offsetText, DescText.extentText, DescText.optionsText, dotted]
  | cons word words => simp [pathText, DescText.text, DescText.opText, DescText.pathText,
      DescText.rangeText, DescText.offsetText, DescText.extentText, DescText.optionsText, dotted,
      DescText.locationText]

theorem vfiParseDesc_dotted (build : Build) (name : Word) (words : List Word)
    (hroom : (vfiStrDup (dotted (name :: words))).isSome) :
    vfiParseDesc build (dotted (name :: words)) = .ok ((pathText name words).denote build) := by
  rw [← pathText_text] at hroom ⊢
  exact (pathText name words).vfiParseDesc_denote build hroom

theorem denote_location (build : Build) (name : Word) (words : List Word) :
    ((pathText name words).denote build).location.getD [] = dotted words := by
  cases words with
  | nil => rfl
  | cons word words => rfl

theorem dotted_cons (name word : Word) (words : List Word) :
    dotted (name :: word :: words) = name.chars ++ '.' :: dotted (word :: words) := by
  simp [dotted]

theorem dotted_singleton (name : Word) : dotted [name] = name.chars := by
  simp [dotted]

theorem dotted_ne_nil (name : Word) (words : List Word) : dotted (name :: words) ≠ [] := by
  cases words with
  | nil =>
    rw [dotted_singleton]
    exact name.ne_nil
  | cons word words =>
    rw [dotted_cons]
    exact List.append_ne_nil_of_left_ne_nil name.ne_nil _

theorem dotted_sublist (name : Word) (words : List Word) :
    List.Sublist (dotted words) (dotted (name :: words)) := by
  cases words with
  | nil => exact List.nil_sublist _
  | cons word words =>
    rw [dotted_cons]
    exact (List.sublist_cons_self _ _).trans (List.sublist_append_right _ _)

variable {params tmpparams : VfiDescParam} {s' : Subsys}

theorem findVfiLocation_root (h : params.location.getD [] = []) :
    findVfiLocation build fabricFind s none params =
      .of (ksetFindObj s s.kset params.name) := by
  rw [findVfiLocation, dif_pos h]

theorem findVfiLocation_path (hlocation : params.location.getD [] ≠ [])
    (hparse : vfiParseDesc build (params.location.getD []) = .ok tmpparams) :
    findVfiLocation build fabricFind s none params =
      let tmp := findVfiLocation build fabricFind s none tmpparams
      match if tmp.ret = 0 then tmp.newloc else none with
      | none => .of (none, tmp.subsys)
      | some tmploc =>
        let found := locationFind fabricFind tmp.subsys tmploc params
        .of (found.newloc, vfiLocationPut found.subsys tmploc) := by
  rw [findVfiLocation, dif_neg hlocation]
  split
  · next herror =>
    rw [hparse] at herror
    cases herror
  · next parsed hparsed =>
    obtain rfl := Except.ok.inj (hparse.symm.trans hparsed)
    rfl

/-- The search by a path, by induction on the path. -/
theorem Tree.finds (tree : Tree s) (words : List Word) (hname : params.name = some name)
    (hlocation : params.location.getD [] = dotted words)
    (hroom : (Vfi.vfiStrDup (dotted words)).isSome) :
    Finds s (name :: words.map Word.chars) (findVfiLocation build fabricFind s none params) := by
  induction words generalizing name params with
  | nil =>
    rw [findVfiLocation_root hlocation, hname]
    exact finds_kset tree.roots fun loc => resolves_singleton
  | cons word words ih =>
    have hparse : vfiParseDesc build (params.location.getD []) =
        .ok ((pathText word words).denote build) := by
      rw [hlocation]
      exact vfiParseDesc_dotted build word words hroom
    have htmp : Finds s (word.chars :: words.map Word.chars)
        (findVfiLocation build fabricFind s none ((pathText word words).denote build)) :=
      ih rfl (denote_location build word words)
        (vfiStrDup_sublist hroom (dotted_sublist word words))
    rw [findVfiLocation_path (hlocation ▸ dotted_ne_nil word words) hparse]
    by_cases hparent : ∃ parent, Resolves s (word.chars :: words.map Word.chars) parent
    · obtain ⟨parent, hparent⟩ := hparent
      rw [htmp.present parent hparent]
      exact tree.finds_child hname hparent
    · rw [htmp.absent fun parent h => hparent ⟨parent, h⟩]
      constructor
      · intro loc hloc
        obtain ⟨parent, h, -⟩ := resolves_cons.mp hloc
        exact absurd ⟨parent, h⟩ hparent
      · exact fun _ => rfl

-- ---------------------------------------------------------------------------
-- The descriptor is restored
-- ---------------------------------------------------------------------------

variable {desc : PathDesc} {p : Nat}

theorem dot_not_mem (word : Word) : '.' ∉ word.chars :=
  fun h => word.plain _ h (by decide)

theorem read_string {chars t : List Char} {ys : List (List Char)}
    (h : Holds '\x00' chars p (t :: ys)) : read chars p = t :=
  Holds.read (l := []) h

theorem strchr_word {chars : List Char} (word : Word)
    (h : Holds '\x00' chars p [dotted [word]]) : strchr chars p '.' = none := by
  rw [strchr, read_string h, dotted_singleton, List.idxOf?_eq_none_iff.mpr (dot_not_mem word)]
  rfl

theorem strchr_dotted {chars : List Char} (name word : Word) (words : List Word)
    (h : Holds '\x00' chars p [dotted (name :: word :: words)]) :
    strchr chars p '.' = some (p + name.chars.length) := by
  have hdot : List.findIdx? (fun c => c == '.') name.chars = none := by
    simpa using fun c hc => ne_of_mem_of_not_mem hc (dot_not_mem name)
  rw [strchr, read_string h, dotted_cons, List.idxOf?, List.findIdx?_append, hdot]
  simp [List.findIdx?_cons]

/-- The NUL that is written over the dot makes two strings of the location. -/
theorem holds_cut {chars : List Char} (name word : Word) (words : List Word)
    (h : Holds '\x00' chars p [dotted (name :: word :: words)]) :
    Holds '\x00' (chars.set (p + name.chars.length) '\x00') p
      [name.chars, dotted (word :: words)] := by
  rw [dotted_cons] at h
  exact Holds.cut (l := []) h

theorem set_restored {chars : List Char} (name word : Word) (words : List Word)
    (h : Holds '\x00' chars p [dotted (name :: word :: words)]) :
    (chars.set (p + name.chars.length) '\x00').set (p + name.chars.length) '.' = chars := by
  rw [dotted_cons] at h
  obtain ⟨before, after, rfl, rfl⟩ := h.at_place
  have hlength : (before ++ name.chars).length = before.length + name.chars.length :=
    List.length_append
  have hchars : before ++ ([name.chars ++ '.' :: dotted (word :: words)].flatMap (· ++ ['\x00']) ++
      after) = (before ++ name.chars) ++ '.' :: (dotted (word :: words) ++ '\x00' :: after) := by
    simp
  rw [List.set_set, hchars, ← hlength, List.set_append_right _ _ le_rfl, Nat.sub_self]
  rfl

theorem shift_word (word : Word) (hlocation : desc.location = some p)
    (h : Holds '\x00' desc.chars p [dotted [word]]) :
    shiftLocation desc = (none, { desc with name := p, location := none }) := by
  rw [shiftLocation, hlocation]
  dsimp only
  rw [strchr_word word h]

theorem shift_dotted (name word : Word) (words : List Word) (hlocation : desc.location = some p)
    (h : Holds '\x00' desc.chars p [dotted (name :: word :: words)]) :
    shiftLocation desc = (some (p + name.chars.length), { desc with
      name := p
      location := some (p + name.chars.length + 1)
      chars := desc.chars.set (p + name.chars.length) '\x00' }) := by
  rw [shiftLocation, hlocation]
  dsimp only
  rw [strchr_dotted name word words h]

/-- While the find runs, the parts of the location stand for name and location. -/
theorem shift_strings (name : Word) (words : List Word) (hlocation : desc.location = some p)
    (h : Holds '\x00' desc.chars p [dotted (name :: words)]) :
    (shiftLocation desc).2.strings.name = some name.chars ∧
      (shiftLocation desc).2.strings.location.getD [] = dotted words := by
  cases words with
  | nil =>
    rw [shift_word name hlocation h]
    refine ⟨?_, rfl⟩
    rw [PathDesc.strings, read_string h, dotted_singleton]
  | cons word words =>
    rw [shift_dotted name word words hlocation h]
    have hcut := holds_cut name word words h
    have hrest := Holds.drop (l := [name.chars]) hcut
    refine ⟨?_, ?_⟩
    · rw [PathDesc.strings, read_string hcut]
    · rw [PathDesc.strings, Option.map_some, Option.getD_some]
      exact read_string hrest

/-- After the find, the descriptor is as before. -/
theorem locateVfiLocation_eq (name : Word) (words : List Word) (hlocation : desc.location = some p)
    (h : Holds '\x00' desc.chars p [dotted (name :: words)]) :
    locateVfiLocation build fabricFind s none desc =
      (findVfiLocation build fabricFind s none (shiftLocation desc).2.strings, desc) := by
  unfold locateVfiLocation
  cases words with
  | nil =>
    rw [shift_word name hlocation h]
  | cons word words =>
    rw [shift_dotted name word words hlocation h]
    dsimp only
    rw [set_restored name word words h]

/-- A location is found by its path, or the path leads nowhere, and only the count of the one
found has changed. To locate is to find by the location alone. -/
theorem dottedPath (build : Build) (fabricFind : FabricFind) (tree : Tree s) (words : List Word)
    (hroom : (Vfi.vfiStrDup (dotted words)).isSome) :
    (∀ params name, params.name = some name → params.location.getD [] = dotted words →
      Finds s (name :: words.map Word.chars) (findVfiLocation build fabricFind s none params)) ∧
    ∀ (desc : PathDesc) p, words ≠ [] → desc.location = some p →
      Holds '\x00' desc.chars p [dotted words] →
      (locateVfiLocation build fabricFind s none desc).2 = desc ∧
        Finds s (words.map Word.chars) (locateVfiLocation build fabricFind s none desc).1 := by
  refine ⟨fun params name hname hlocation => tree.finds words hname hlocation hroom, ?_⟩
  intro desc p hwords hlocation h
  cases words with
  | nil => exact absurd rfl hwords
  | cons name words =>
    obtain ⟨hname, hlocation'⟩ := shift_strings name words hlocation h
    rw [locateVfiLocation_eq name words hlocation h]
    exact ⟨rfl, tree.finds words hname hlocation'
      (vfiStrDup_sublist hroom (dotted_sublist name words))⟩

def net : Word := ⟨"net".toList, by decide, plain_of_all (by decide)⟩

/-- `fred.net` -/
def netSubsys : Subsys where
  kset := [1]
  location loc :=
    if loc = 1 then ⟨net.chars, .vfiLocalOps, [2], 1⟩ else ⟨"fred".toList, .vfiLocalOps, [], 1⟩

theorem netSubsys_tree : Tree netSubsys where
  roots := List.nodup_singleton _
  siblings names loc _ := by
    unfold netSubsys
    dsimp only
    split
    · exact List.nodup_singleton _
    · exact List.nodup_nil
  ops names loc _ := by
    unfold netSubsys
    dsimp only
    split <;> rfl
  refs names loc _ := by
    unfold netSubsys
    dsimp only
    split <;> exact le_rfl

def fredDesc : PathDesc where
  chars := "fred\x00net\x00".toList
  name := 0
  location := some 5
  offset := 16
  extent := 32
  query := []

theorem dottedPath_net :
    let find := findVfiLocation ⟨64, false⟩ (fun s _ _ => ⟨-einval, none, s⟩) netSubsys none
    let locate := locateVfiLocation ⟨64, false⟩ (fun s _ _ => ⟨-einval, none, s⟩) netSubsys none
    find { name := some "fred".toList, location := some "net".toList } =
        ⟨0, some 2, netSubsys.get 2⟩ ∧
      locate fredDesc = (⟨0, some 1, netSubsys.get 1⟩, fredDesc) := by
  intro find locate
  have hpath := dottedPath ⟨64, false⟩ (fun s _ _ => ⟨-einval, none, s⟩) netSubsys_tree [net]
    (by decide)
  have hroot : Resolves netSubsys [net.chars] 1 :=
    resolves_singleton.mpr ⟨List.mem_cons_self, rfl⟩
  have hfred : Resolves netSubsys ["fred".toList, net.chars] 2 :=
    resolves_cons.mpr ⟨1, hroot, List.mem_cons_self, rfl⟩
  refine ⟨(hpath.1 _ _ rfl rfl).present 2 hfred, ?_⟩
  obtain ⟨hdesc, hfinds⟩ := hpath.2 fredDesc 5 (List.cons_ne_nil _ _) rfl
    ⟨⟨"fred\x00".toList, [], rfl, rfl⟩, by decide⟩
  exact Prod.ext (hfinds.present 1 hroot) hdesc

end Vfi.LocationPath
