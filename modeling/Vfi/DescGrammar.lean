import Vfi.Parse

/-!
# The descriptor grammar

The texts of the grammar in `vfi_parse.h`, as trees whose words avoid the
separators, and the descriptor each denotes. The parser reads every such text as
its descriptor.
-/

namespace Vfi

-- ---------------------------------------------------------------------------
-- Texts
-- ---------------------------------------------------------------------------

/-- The characters with a meaning to the parser, and the NUL that ends a string. -/
def special : List Char := ['.', '#', ':', '?', ',', '(', ')', '=', '/', '\x00']

structure Word where
  chars : List Char
  ne_nil : chars ≠ []
  plain : ∀ c ∈ chars, c ∉ special

theorem plain_of_all {s : List Char} (h : s.all fun c => c ∉ special) : ∀ c ∈ s, c ∉ special :=
  fun c hc => of_decide_eq_true (List.all_eq_true.mp h c hc)

structure Hexstr where
  chars : List Char
  ne_nil : chars ≠ []
  digits : ∀ c ∈ chars, (hexValue c).isSome

theorem digits_of_all {s : List Char} (h : s.all fun c => (hexValue c).isSome) :
    ∀ c ∈ s, (hexValue c).isSome :=
  List.all_eq_true.mp h

def hexNat (s : List Char) : Nat := s.foldl (fun value c => value * 16 + (hexValue c).getD 0) 0

/-- `var` or `var(val)` -/
structure DescOption where
  var : Word
  val : Option Word

def DescOption.text (o : DescOption) : List Char :=
  o.var.chars ++ (o.val.map fun val => '(' :: val.chars ++ [')']).getD []

/-- The option as the query array holds it. -/
def DescOption.value (o : DescOption) : List Char :=
  o.var.chars ++ (o.val.map fun val => '=' :: val.chars).getD []

/-- `[op://]name[.loc]*` with offset and extent in either order, and options. -/
structure DescText where
  op : Option Word := none
  name : Word
  location : List Word := []
  offset : Option Hexstr := none
  extent : Option Hexstr := none
  extentFirst : Bool := false
  options : List DescOption := []

namespace DescText

variable (d : DescText)

def opText : List Char := (d.op.map fun op => op.chars ++ "://".toList).getD []

def offsetText : List Char := (d.offset.map fun s => '#' :: s.chars).getD []

def extentText : List Char := (d.extent.map fun s => ':' :: s.chars).getD []

def rangeText : List Char :=
  if d.extentFirst then d.extentText ++ d.offsetText else d.offsetText ++ d.extentText

def locationText : List Char := ['.'].intercalate (d.location.map Word.chars)

def pathText : List Char :=
  d.name.chars ++ (if d.location = [] then [] else '.' :: d.locationText) ++ d.rangeText

def optionsText : List Char :=
  if d.options = [] then [] else '?' :: [','].intercalate (d.options.map DescOption.text)

def text : List Char := d.opText ++ (d.pathText ++ d.optionsText)

/-- What the text denotes, with numbers cut off at the width of `unsigned long`. -/
def denote (build : Build) : VfiDescParam where
  name := some d.name.chars
  location := if d.location = [] then none else some d.locationText
  offset := .ofNat ((d.offset.elim 0 fun s => hexNat s.chars) % 2 ^ build.longBits)
  extent := .ofNat ((d.extent.elim 0 fun s => hexNat s.chars) % 2 ^ build.longBits)
  query := d.options.map DescOption.value

end DescText

-- ---------------------------------------------------------------------------
-- Splitting
-- ---------------------------------------------------------------------------

section Splitting

variable {s t : List Char} {c : Char}

theorem separator_after (h : c ∉ s) (x : Char) (hx : x ∈ s) : decide (x ≠ c) = true := by
  simpa using ne_of_mem_of_not_mem hx h

theorem nameRemainder_of_not_mem (h : c ∉ s) : nameRemainder s c = (s, none) := by
  have hall : (s ++ []).dropWhile (fun x => decide (x ≠ c)) = [] :=
    List.dropWhile_append_of_pos (separator_after h)
  rw [List.append_nil] at hall
  rw [nameRemainder, hall]

theorem nameRemainder_append (h : c ∉ s) : nameRemainder (s ++ c :: t) c = (s, some t) := by
  have hpos := separator_after h
  rw [nameRemainder, List.dropWhile_append_of_pos hpos, List.takeWhile_append_of_pos hpos]
  simp

theorem strstr_of_not_mem {needle : List Char} (hc : c ∈ needle) (h : c ∉ s) :
    strstr s needle = none := by
  induction s with
  | nil => simp [strstr, List.ne_nil_of_mem hc]
  | cons x s ih =>
    have hprefix : needle.isPrefixOf (x :: s) = false := by
      rw [Bool.eq_false_iff]
      exact fun hpre => h ((List.isPrefixOf_iff_prefix.mp hpre).subset hc)
    rw [strstr, hprefix]
    exact ih fun hmem => h (List.mem_cons_of_mem x hmem)

theorem strstr_append (needle t : List Char) (h : c ∉ s) :
    strstr (s ++ c :: needle ++ t) (c :: needle) = some (c :: needle ++ t) := by
  induction s with
  | nil => simp [strstr]
  | cons x s ih =>
    have hne : c ≠ x := List.ne_of_not_mem_cons h
    have hprefix : (c :: needle).isPrefixOf (x :: (s ++ c :: needle ++ t)) = false := by
      simp [List.isPrefixOf, hne]
    rw [List.cons_append, List.cons_append, strstr, hprefix]
    exact ih (List.not_mem_of_not_mem_cons h)

theorem strstr_prefix {needle : List Char} (t : List Char) (h : needle ≠ []) :
    strstr (needle ++ t) needle = some (needle ++ t) := by
  obtain ⟨c, rest, rfl⟩ := List.exists_cons_of_ne_nil h
  have hprefix : (c :: rest).isPrefixOf (c :: (rest ++ t)) = true :=
    List.isPrefixOf_iff_prefix.mpr (List.prefix_append (c :: rest) t)
  rw [List.cons_append, strstr, if_pos hprefix]

theorem infix_of_strstr {needle rest : List Char} (h : strstr s needle = some rest) :
    List.IsInfix needle s := by
  induction s with
  | nil =>
    by_cases hnil : needle = []
    · rw [hnil]
    · simp [strstr, hnil] at h
  | cons c s ih =>
    rw [strstr] at h
    split at h
    · next hprefix => exact (List.isPrefixOf_iff_prefix.mp hprefix).isInfix
    · exact (ih h).trans (List.suffix_cons c s).isInfix

/-- A scheme needs two slashes. -/
theorem strstr_scheme (h : s.count '/' < 2) : strstr s "://".toList = none := by
  cases hfind : strstr s "://".toList with
  | none => rfl
  | some rest =>
    have hle := (infix_of_strstr hfind).sublist.count_le '/'
    have htwo : "://".toList.count '/' = 2 := by decide
    omega

variable {needle : List Char}

theorem nameRemainder_join (s : List Char) (c : Char) :
    c ∉ (nameRemainder s c).1 ∧
      s = (nameRemainder s c).1 ++ ((nameRemainder s c).2.map (c :: ·)).getD [] := by
  by_cases hmem : c ∈ s
  · obtain ⟨t, u, rfl, ht⟩ := List.eq_append_cons_of_mem hmem
    rw [nameRemainder_append ht]
    exact ⟨ht, rfl⟩
  · rw [nameRemainder_of_not_mem hmem]
    exact ⟨hmem, (List.append_nil s).symm⟩

theorem strstr_suffix {rest : List Char} (h : strstr s needle = some rest) :
    List.IsSuffix rest s := by
  induction s with
  | nil =>
    rw [strstr] at h
    obtain rfl := Option.some.inj (Option.ite_none_right_eq_some.mp h).2
    exact List.suffix_rfl
  | cons c s ih =>
    rw [strstr] at h
    split at h
    · obtain rfl := Option.some.inj h
      exact List.suffix_rfl
    · exact (ih h).trans (List.suffix_cons c s)

theorem drop_of_suffix {rest : List Char} (h : List.IsSuffix rest s) :
    s.drop (s.length - rest.length) = rest := by
  obtain ⟨t, rfl⟩ := h
  rw [List.length_append, Nat.add_sub_cancel, List.drop_left]

theorem strstr_nil (s : List Char) : strstr s [] = some s := by
  cases s with
  | nil => rfl
  | cons c s => rfl

theorem strstr_of_isPrefixOf (s t : List Char) : strstr (s ++ t) s = some (s ++ t) := by
  by_cases hnil : s = []
  · rw [hnil, strstr_nil]
  · exact strstr_prefix t hnil

theorem isPrefixOf_append_cons (hc : c ∉ needle) :
    needle.isPrefixOf (s ++ c :: t) = needle.isPrefixOf s := by
  induction needle generalizing s with
  | nil => rfl
  | cons x needle ih =>
    have hx : x ≠ c := fun heq => hc (heq ▸ List.mem_cons_self)
    cases s with
    | nil =>
      rw [List.nil_append, List.isPrefixOf_cons_cons, List.isPrefixOf_cons_nil, beq_false_of_ne hx,
        Bool.false_and]
    | cons y s =>
      rw [List.cons_append, List.isPrefixOf_cons_cons, List.isPrefixOf_cons_cons,
        ih fun hmem => hc (List.mem_cons_of_mem x hmem)]

/-- A needle without the separator is found on one side of it. -/
theorem strstr_append_cons (hc : c ∉ needle) (hne : needle ≠ []) :
    strstr (s ++ c :: t) needle =
      ((strstr s needle).map (· ++ c :: t)).or (strstr t needle) := by
  induction s with
  | nil =>
    have hhead := isPrefixOf_append_cons (s := []) (t := t) hc
    have hempty : needle.isPrefixOf [] = false := by
      cases needle with
      | nil => exact absurd rfl hne
      | cons x needle => rfl
    rw [List.nil_append, hempty] at hhead
    have hnil : strstr [] needle = none := if_neg hne
    have hcons : strstr (c :: t) needle = strstr t needle := by
      rw [strstr, hhead]
      rfl
    rw [List.nil_append, hnil, hcons]
    rfl
  | cons x s ih =>
    have hhead := isPrefixOf_append_cons (s := x :: s) (t := t) hc
    rw [List.cons_append] at hhead
    rw [List.cons_append, strstr, hhead, ih, strstr]
    split
    · rfl
    · rfl

theorem strstr_length_le {rest : List Char} (h : strstr s needle = some rest) :
    needle.length ≤ rest.length := by
  induction s with
  | nil =>
    obtain ⟨rfl, -⟩ := Option.ite_none_right_eq_some.mp h
    exact Nat.zero_le _
  | cons c s ih =>
    rw [strstr] at h
    split at h
    · next hprefix =>
      obtain rfl := Option.some.inj h
      exact (List.isPrefixOf_iff_prefix.mp hprefix).length_le
    · exact ih h

theorem afterScheme_append (hc : c ∉ "://".toList)
    (ht : strstr t "://".toList = none) : afterScheme (s ++ c :: t) = afterScheme s ++ c :: t := by
  rw [afterScheme, strstr_append_cons hc (by decide), ht, Option.or_none, afterScheme]
  cases hfind : strstr s "://".toList with
  | none => rfl
  | some rest =>
    have hlength : 3 ≤ rest.length := strstr_length_le hfind
    dsimp only [Option.map_some]
    rw [List.drop_append_of_le_length hlength]

end Splitting

-- ---------------------------------------------------------------------------
-- The separators of a text
-- ---------------------------------------------------------------------------

/-- The special characters of `s` are among the allowed ones. -/
def Uses (allowed : List Char) (s : List Char) : Prop := ∀ c ∈ s, c ∈ special → c ∈ allowed

section Uses

variable {allowed more s t : List Char} {c : Char}

theorem Uses.not_mem (h : Uses allowed s) (hc : c ∈ special) (hout : c ∉ allowed) : c ∉ s :=
  fun hmem => hout (h c hmem hc)

theorem Uses.mono (h : Uses allowed s) (hsub : allowed ⊆ more) : Uses more s :=
  fun c hmem hc => hsub (h c hmem hc)

theorem uses_nil (allowed : List Char) : Uses allowed [] := nofun

theorem Uses.cons (hc : c ∈ allowed) (h : Uses allowed s) : Uses allowed (c :: s) := by
  intro x hx hspecial
  rcases List.mem_cons.mp hx with rfl | hx
  · exact hc
  · exact h x hx hspecial

theorem Uses.append (h : Uses allowed s) (h' : Uses allowed t) : Uses allowed (s ++ t) := by
  intro x hx hspecial
  rcases List.mem_append.mp hx with hx | hx
  · exact h x hx hspecial
  · exact h' x hx hspecial

theorem uses_optional {α : Type} {o : Option α} {f : α → List Char}
    (h : ∀ a, Uses allowed (f a)) : Uses allowed ((o.map f).getD []) := by
  cases o with
  | none => exact uses_nil allowed
  | some a => exact h a

theorem Uses.intercalate {ls : List (List Char)} (hs : Uses allowed s)
    (h : ∀ l ∈ ls, Uses allowed l) : Uses allowed (s.intercalate ls) := by
  induction ls with
  | nil => exact uses_nil allowed
  | cons l ls ih =>
    have hl := h l List.mem_cons_self
    have hls := ih fun l' hmem => h l' (List.mem_cons_of_mem l hmem)
    cases ls with
    | nil => rwa [List.intercalate_singleton]
    | cons l' ls =>
      rw [List.intercalate_cons_cons]
      exact (hl.append hs).append hls

theorem Word.uses (w : Word) (allowed : List Char) : Uses allowed w.chars :=
  fun c hmem hc => absurd hc (w.plain c hmem)

theorem hexValue_special (hc : c ∈ special) : hexValue c = none := by
  have hall : special.all fun c => hexValue c = none := by decide
  exact of_decide_eq_true (List.all_eq_true.mp hall c hc)

theorem Hexstr.uses (s : Hexstr) (allowed : List Char) : Uses allowed s.chars := by
  intro c hmem hc
  have hdigit := s.digits c hmem
  rw [hexValue_special hc] at hdigit
  cases hdigit

end Uses

-- ---------------------------------------------------------------------------
-- Numbers
-- ---------------------------------------------------------------------------

theorem hexDigits_eq (bits value : Nat) {s : List Char} (h : ∀ c ∈ s, (hexValue c).isSome) :
    hexDigits bits (value % 2 ^ bits) s =
      (s.foldl (fun value c => value * 16 + (hexValue c).getD 0) value % 2 ^ bits, []) := by
  induction s generalizing value with
  | nil => rfl
  | cons c s ih =>
    obtain ⟨digit, hdigit⟩ := Option.isSome_iff_exists.mp (h c List.mem_cons_self)
    have hstep : (value % 2 ^ bits * 16 + digit) % 2 ^ bits = (value * 16 + digit) % 2 ^ bits := by
      rw [Nat.add_mod, Nat.mul_mod, Nat.mod_mod, ← Nat.mul_mod, ← Nat.add_mod]
    rw [hexDigits, hdigit]
    dsimp only
    rw [hstep, ih _ fun x hx => h x (List.mem_cons_of_mem c hx), List.foldl_cons, hdigit]
    rfl

theorem Hexstr.simpleStrtoul (build : Build) (s : Hexstr) :
    simpleStrtoul build s.chars = (hexNat s.chars % 2 ^ build.longBits, []) := by
  have hzero : hexDigits build.longBits 0 s.chars = (hexNat s.chars % 2 ^ build.longBits, []) := by
    have heq := hexDigits_eq build.longBits 0 s.digits
    rwa [Nat.zero_mod] at heq
  have hdigits := s.digits
  unfold Vfi.simpleStrtoul
  split
  · next rest heq =>
    exact absurd (hdigits 'x' (by simp [heq])) (by decide)
  · next rest heq =>
    exact absurd (hdigits 'X' (by simp [heq])) (by decide)
  · exact hzero

/-- An optional field is read in full. -/
theorem parseNumber_hexstr (build : Build) (s : Option Hexstr) :
    parseNumber build (s.map Hexstr.chars) =
      ((s.elim 0 fun s => hexNat s.chars) % 2 ^ build.longBits, none) := by
  cases s with
  | none => simp [parseNumber]
  | some s => simp [parseNumber, s.simpleStrtoul]

-- ---------------------------------------------------------------------------
-- The parser reads every text
-- ---------------------------------------------------------------------------

namespace DescText

variable (d : DescText) (build : Build)

theorem rangeText_uses : Uses ['#', ':'] d.rangeText := by
  have hoffset : Uses ['#', ':'] d.offsetText := uses_optional fun s => (s.uses _).cons (by decide)
  have hextent : Uses ['#', ':'] d.extentText := uses_optional fun s => (s.uses _).cons (by decide)
  unfold rangeText
  split
  · exact hextent.append hoffset
  · exact hoffset.append hextent

theorem locationText_uses : Uses ['.'] d.locationText := by
  refine ((uses_nil ['.']).cons (by decide)).intercalate fun l hl => ?_
  obtain ⟨w, -, rfl⟩ := List.mem_map.mp hl
  exact w.uses _

theorem pathText_uses : Uses ['.', '#', ':'] d.pathText := by
  refine ((d.name.uses _).append ?_).append (d.rangeText_uses.mono (by decide))
  split
  · exact uses_nil _
  · exact (d.locationText_uses.mono (by decide)).cons (by decide)

theorem option_uses (o : DescOption) : Uses ['(', ')'] o.text := by
  refine (o.var.uses _).append (uses_optional fun val => Uses.cons (by decide) ?_)
  exact (val.uses _).append ((uses_nil _).cons (by decide))

theorem optionsText_uses : Uses ['?', ',', '(', ')'] d.optionsText := by
  unfold optionsText
  split
  · exact uses_nil _
  · refine Uses.cons (by decide) (((uses_nil _).cons (by decide)).intercalate fun l hl => ?_)
    obtain ⟨o, -, rfl⟩ := List.mem_map.mp hl
    exact (option_uses o).mono (by decide)

theorem afterScheme_text : afterScheme d.text = d.pathText ++ d.optionsText := by
  have hslash : '/' ∉ d.pathText ++ d.optionsText := by
    rw [List.mem_append, not_or]
    exact ⟨d.pathText_uses.not_mem (by decide) (by decide),
      d.optionsText_uses.not_mem (by decide) (by decide)⟩
  unfold afterScheme text opText
  cases d.op with
  | none =>
    rw [strstr_of_not_mem (c := '/') (by decide) (by simpa using hslash)]
    rfl
  | some op =>
    have hop : ':' ∉ op.chars := (op.uses []).not_mem (by decide) (by decide)
    have hscheme : "://".toList = ':' :: ['/', '/'] := rfl
    have hfind := strstr_append ['/', '/'] (d.pathText ++ d.optionsText) hop
    simp only [Option.map_some, Option.getD_some, hscheme, hfind]
    rfl

theorem dropWhile_word (w : Word) (s : List Char) :
    (w.chars ++ s).dropWhile (fun c => decide (c = '.')) = w.chars ++ s := by
  obtain ⟨c, rest, hchars⟩ := List.exists_cons_of_ne_nil w.ne_nil
  have hc : c ≠ '.' := by
    rintro rfl
    exact w.plain '.' (by simp [hchars]) (by decide)
  rw [hchars, List.cons_append, List.dropWhile_cons_of_neg (by simpa using hc)]

theorem splitLocation_path :
    splitLocation d.pathText =
      if d.location = [] then (d.name.chars ++ d.rangeText, none)
      else (d.name.chars, some (d.locationText ++ d.rangeText)) := by
  have hname : '.' ∉ d.name.chars := (d.name.uses []).not_mem (by decide) (by decide)
  have hrange : '.' ∉ d.rangeText := d.rangeText_uses.not_mem (by decide) (by decide)
  unfold splitLocation pathText
  rw [List.append_assoc, dropWhile_word]
  split
  · rw [List.nil_append, nameRemainder_of_not_mem]
    rw [List.mem_append, not_or]
    exact ⟨hname, hrange⟩
  · rw [List.cons_append, nameRemainder_append hname]

theorem splitRange_text {t : List Char} (ht : Uses ['.'] t) :
    ∃ first, splitRange (t ++ d.rangeText) =
      ⟨t, d.offset.map Hexstr.chars, d.extent.map Hexstr.chars, first⟩ := by
  have hhash : '#' ∉ t := ht.not_mem (by decide) (by decide)
  have hcolon : ':' ∉ t := ht.not_mem (by decide) (by decide)
  unfold rangeText offsetText extentText
  cases d.offset with
  | none =>
    cases d.extent with
    | none =>
      exact ⟨true, by simp [splitRange, nameRemainder_of_not_mem, remainderOf, hhash, hcolon]⟩
    | some e =>
      have he : '#' ∉ e.chars := (e.uses []).not_mem (by decide) (by decide)
      refine ⟨true, ?_⟩
      simp [splitRange, nameRemainder_append hcolon, nameRemainder_of_not_mem, remainderOf, hhash,
        he]
  | some o =>
    have ho : ':' ∉ o.chars := (o.uses []).not_mem (by decide) (by decide)
    have hbefore : ':' ∉ t ++ '#' :: o.chars := by
      simp [hcolon, ho]
    cases d.extent with
    | none =>
      refine ⟨false, ?_⟩
      simp [splitRange, nameRemainder_append hhash, nameRemainder_of_not_mem hbefore,
        nameRemainder_of_not_mem ho, remainderOf]
    | some e =>
      have he : '#' ∉ e.chars := (e.uses []).not_mem (by decide) (by decide)
      cases d.extentFirst with
      | false =>
        refine ⟨false, ?_⟩
        have hsplit := nameRemainder_append (t := e.chars) hbefore
        rw [List.append_assoc, List.cons_append] at hsplit
        simp [splitRange, hsplit, nameRemainder_append hhash]
      | true =>
        refine ⟨true, ?_⟩
        simp [splitRange, nameRemainder_append hcolon, nameRemainder_of_not_mem hhash,
          nameRemainder_append he, remainderOf]

theorem parseOption_text (o : DescOption) : parseOption o.text = o.value := by
  have hvar : '(' ∉ o.var.chars := (o.var.uses []).not_mem (by decide) (by decide)
  unfold parseOption DescOption.text DescOption.value
  cases o.val with
  | none => simp [nameRemainder_of_not_mem hvar]
  | some val =>
    have hval : ')' ∉ val.chars := (val.uses []).not_mem (by decide) (by decide)
    simp [nameRemainder_append hvar, nameRemainder_append hval]

theorem vfiParseOptions_text (h : d.options ≠ []) :
    vfiParseOptions ([','].intercalate (d.options.map DescOption.text)) =
      d.options.map DescOption.value := by
  have hcomma : ∀ l ∈ d.options.map DescOption.text, ',' ∉ l := by
    intro l hl
    obtain ⟨o, -, rfl⟩ := List.mem_map.mp hl
    exact (option_uses o).not_mem (by decide) (by decide)
  rw [vfiParseOptions, List.splitOn_intercalate ',' hcomma (by simpa using h), List.map_map]
  exact List.map_congr_left fun o _ => parseOption_text o

theorem split_options : nameRemainder (afterScheme d.text) '?' =
    (d.pathText, if d.options = [] then none
      else some ([','].intercalate (d.options.map DescOption.text))) := by
  have hpath : '?' ∉ d.pathText := d.pathText_uses.not_mem (by decide) (by decide)
  rw [afterScheme_text, optionsText]
  split
  · rw [List.append_nil, nameRemainder_of_not_mem hpath]
  · rw [nameRemainder_append hpath]

theorem query_text : ((if d.options = [] then none
      else some ([','].intercalate (d.options.map DescOption.text))).map vfiParseOptions).getD [] =
    d.options.map DescOption.value := by
  split
  · next hnil => rw [hnil]; rfl
  · next hne => exact d.vfiParseOptions_text hne

theorem numberError_none (startOffset startExtent : Nat) :
    numberError build startOffset startExtent none none = none := by
  simp [numberError]

theorem parseDesc_text : parseDesc build d.text = .ok (d.denote build) := by
  unfold parseDesc denote
  by_cases hlocation : d.location = []
  · obtain ⟨first, hrange⟩ := d.splitRange_text (d.name.uses ['.'])
    simp only [split_options, splitLocation_path, hlocation, ↓reduceIte, Option.getD_none, hrange,
      parseNumber_hexstr, numberError_none, query_text]
    rfl
  · obtain ⟨first, hrange⟩ := d.splitRange_text d.locationText_uses
    simp only [split_options, splitLocation_path, hlocation, ↓reduceIte, Option.getD_some, hrange,
      parseNumber_hexstr, numberError_none, query_text]
    rfl

end DescText

-- ---------------------------------------------------------------------------
-- The query array
-- ---------------------------------------------------------------------------

/-- The slots `vfi_str_dup` makes room for. -/
def argc (name : List Char) : Nat := 1 + name.countP fun c => c = '?' ∨ c = ','

/-- The slots as `vfi_parse_options` leaves them, the first one given. The buffer was
zeroed, and there is no result where the last slot is passed. -/
def storeOptions : Nat → Option (List Char) → Option (List (Option (List Char)))
  | 0, _ => none
  | slots + 1, none => some (List.replicate (slots + 1) none)
  | slots + 1, some query =>
    let (option, rest) := nameRemainder query ','
    (storeOptions slots rest).map (some (parseOption option) :: ·)

def queryArray (desc : List Char) : Option (List (Option (List Char))) :=
  storeOptions (argc desc) (nameRemainder (afterScheme desc) '?').2

theorem storeOptions_text (o : DescOption) (options : List DescOption) :
    storeOptions (options.length + 2)
        (some ([','].intercalate ((o :: options).map DescOption.text))) =
      some ((o :: options).map (fun o => some o.value) ++ [none]) := by
  induction options generalizing o with
  | nil =>
    have hcomma : ',' ∉ o.text := (DescText.option_uses o).not_mem (by decide) (by decide)
    simp [storeOptions, nameRemainder_of_not_mem hcomma, DescText.parseOption_text]
  | cons o' options ih =>
    have hcomma : ',' ∉ o.text := (DescText.option_uses o).not_mem (by decide) (by decide)
    rw [List.map_cons, List.map_cons, List.intercalate_cons_cons, ← List.map_cons, storeOptions,
      List.append_assoc, List.singleton_append, nameRemainder_append hcomma]
    dsimp only
    rw [List.length_cons, ih, DescText.parseOption_text]
    rfl

theorem Uses.countP_eq_zero {allowed s : List Char} (h : Uses allowed s) (hmark : '?' ∉ allowed)
    (hcomma : ',' ∉ allowed) : s.countP (fun c => decide (c = '?' ∨ c = ',')) = 0 := by
  rw [List.countP_eq_zero]
  intro c hc hsep
  rcases of_decide_eq_true hsep with rfl | rfl
  · exact h.not_mem (by decide) hmark hc
  · exact h.not_mem (by decide) hcomma hc

theorem countP_options (o : DescOption) (options : List DescOption) :
    ([','].intercalate ((o :: options).map DescOption.text)).countP
        (fun c => decide (c = '?' ∨ c = ',')) = options.length := by
  have hone := (DescText.option_uses o).countP_eq_zero (by decide) (by decide)
  induction options generalizing o with
  | nil => rwa [List.map_singleton, List.intercalate_singleton]
  | cons o' options ih =>
    have hrest := ih o' ((DescText.option_uses o').countP_eq_zero (by decide) (by decide))
    rw [List.map_cons, List.map_cons, List.intercalate_cons_cons, ← List.map_cons,
      List.countP_append, List.countP_append, hone, hrest]
    simp [Nat.add_comm]

namespace DescText

variable (d : DescText)

theorem argc_text : argc d.text = d.options.length + 1 := by
  have hop : Uses [':', '/'] d.opText := uses_optional fun op =>
    (op.uses _).append (by intro c hc _; exact List.mem_cons.mpr (by simpa using hc))
  have hpath := d.pathText_uses.countP_eq_zero (by decide) (by decide)
  rw [argc, text, List.countP_append, List.countP_append,
    hop.countP_eq_zero (by decide) (by decide), hpath, optionsText]
  cases hoptions : d.options with
  | nil => simp
  | cons o options =>
    rw [if_neg (List.cons_ne_nil o options), List.countP_cons_of_pos (by decide), countP_options]
    simp [Nat.add_comm]

theorem queryArray_text :
    queryArray d.text = some (d.options.map (fun o => some o.value) ++ [none]) := by
  rw [queryArray, argc_text, split_options]
  cases hoptions : d.options with
  | nil => rfl
  | cons o options =>
    rw [if_neg (List.cons_ne_nil o options)]
    exact storeOptions_text o options

end DescText

-- ---------------------------------------------------------------------------
-- Binds
-- ---------------------------------------------------------------------------

theorem vfiStrDup_eq_some {s : List Char} (h : (vfiStrDup s).isSome) : vfiStrDup s = some s := by
  unfold vfiStrDup at h ⊢
  dsimp only at h ⊢
  split at h
  · cases h
  · next hfits => rw [if_neg hfits]

theorem vfiParseDesc_eq {build : Build} {s : List Char} (h : (vfiStrDup s).isSome) :
    vfiParseDesc build s = parseDesc build s := by
  rw [vfiParseDesc, vfiStrDup_eq_some h]

theorem vfiStrDup_of_parse {build : Build} {s : List Char} {bind : VfiBindParam}
    (h : vfiParseBind build s = .ok bind) : (vfiStrDup s).isSome := by
  cases hdup : vfiStrDup s with
  | some t => rfl
  | none =>
    rw [vfiParseBind, hdup] at h
    cases h

/-- A part of a text that fits is one. -/
theorem vfiStrDup_sublist {s t : List Char} (h : (vfiStrDup t).isSome) (hsub : List.Sublist s t) :
    (vfiStrDup s).isSome := by
  have hlength := hsub.length_le
  have hcount := hsub.countP_le (p := fun c => decide (c = '?' ∨ c = ','))
  unfold vfiStrDup at h ⊢
  dsimp only at h ⊢
  split at h
  · cases h
  · rw [if_neg]
    · rfl
    · omega

theorem DescText.vfiParseDesc_denote (d : DescText) (build : Build)
    (hdup : (vfiStrDup d.text).isSome) :
    vfiParseDesc build d.text = .ok (d.denote build) := by
  rw [vfiParseDesc, vfiStrDup_eq_some hdup]
  exact d.parseDesc_text build

theorem DescText.text_uses {d : DescText} (hop : d.op = none) :
    Uses ['.', '#', ':', '?', ',', '(', ')'] d.text := by
  rw [DescText.text, DescText.opText, hop]
  exact (d.pathText_uses.mono (by decide)).append (d.optionsText_uses.mono (by decide))

/-- A bind is read term by term. -/
theorem vfiParseBind_text (build : Build) (x d s : DescText) (hx : x.op = none) (hd : d.op = none)
    (hs : s.op = none) (hdup : (vfiStrDup (x.text ++ '/' :: d.text ++ '=' :: s.text)).isSome) :
    vfiParseBind build (x.text ++ '/' :: d.text ++ '=' :: s.text) =
      .ok { xfer := x.denote build, dst := d.denote build, src := s.denote build } := by
  have hxslash : '/' ∉ x.text := (DescText.text_uses hx).not_mem (by decide) (by decide)
  have hdslash : '/' ∉ d.text := (DescText.text_uses hd).not_mem (by decide) (by decide)
  have hsslash : '/' ∉ s.text := (DescText.text_uses hs).not_mem (by decide) (by decide)
  have hequal : '=' ∉ d.text := (DescText.text_uses hd).not_mem (by decide) (by decide)
  have hscheme : strstr (x.text ++ '/' :: d.text ++ '=' :: s.text) "://".toList = none := by
    apply strstr_scheme
    simp [List.count_eq_zero_of_not_mem, hxslash, hdslash, hsslash]
  have hstart : afterScheme (x.text ++ '/' :: d.text ++ '=' :: s.text) =
      x.text ++ '/' :: d.text ++ '=' :: s.text := by
    rw [afterScheme, hscheme]
  have hslash : nameRemainder (x.text ++ '/' :: d.text ++ '=' :: s.text) '/' =
      (x.text, some (d.text ++ '=' :: s.text)) := by
    rw [List.append_assoc, List.cons_append, nameRemainder_append hxslash]
  have hxparse := x.vfiParseDesc_denote build (vfiStrDup_sublist hdup (by simp))
  have hdinfix : List.IsInfix d.text (x.text ++ '/' :: d.text ++ '=' :: s.text) :=
    ⟨x.text ++ ['/'], '=' :: s.text, by simp⟩
  have hssuffix : List.IsSuffix s.text (x.text ++ '/' :: d.text ++ '=' :: s.text) :=
    ⟨x.text ++ '/' :: d.text ++ ['='], by simp⟩
  have hdparse := d.vfiParseDesc_denote build (vfiStrDup_sublist hdup hdinfix.sublist)
  have hsparse := s.vfiParseDesc_denote build (vfiStrDup_sublist hdup hssuffix.sublist)
  unfold vfiParseBind
  rw [vfiStrDup_eq_some hdup]
  simp only [hstart, hslash, nameRemainder_append hequal, Nat.sub_self, List.take_zero,
    List.nil_append, Option.map_some, Option.getD_some, hxparse, hdparse, hsparse]
  rfl

theorem optional_lt {bound : Nat} {o : Option Hexstr} (hpos : 0 < bound)
    (h : ∀ s ∈ o, hexNat s.chars < bound) : (o.elim 0 fun s => hexNat s.chars) < bound := by
  cases o with
  | none => exact hpos
  | some s => exact h s rfl

/-- The parser reads every text of the grammar that fits as what it denotes, and the
query array ends at a NULL after its options. -/
theorem vfiParseDesc_text (build : Build) (d : DescText)
    (hbuild : build.longBits = 32 ∨ build.longBits = 64) (hdup : (vfiStrDup d.text).isSome)
    (hoffset : ∀ s ∈ d.offset, hexNat s.chars < 2 ^ build.longBits)
    (hextent : ∀ s ∈ d.extent, hexNat s.chars < 2 ^ 32) :
    ∃ desc, vfiParseDesc build d.text = .ok desc ∧
      desc.name = some d.name.chars ∧
      desc.location = (if d.location = [] then none else some d.locationText) ∧
      desc.offset.toNat = (d.offset.elim 0 fun s => hexNat s.chars) ∧
      desc.extent.toNat = (d.extent.elim 0 fun s => hexNat s.chars) ∧
      desc.query = d.options.map DescOption.value ∧
      queryArray d.text = some (d.options.map (fun o => some o.value) ++ [none]) := by
  refine ⟨d.denote build, d.vfiParseDesc_denote build hdup, rfl, rfl, ?_, ?_, rfl,
    d.queryArray_text⟩
  · have hlt := optional_lt (Nat.two_pow_pos build.longBits) hoffset
    have hle : 2 ^ build.longBits ≤ 2 ^ 64 :=
      Nat.pow_le_pow_right (by decide) (by omega)
    rw [DescText.denote, UInt64.toNat_ofNat', Nat.mod_eq_of_lt hlt,
      Nat.mod_eq_of_lt (Nat.lt_of_lt_of_le hlt hle)]
  · have hlt := optional_lt (Nat.two_pow_pos 32) hextent
    have hle : 2 ^ 32 ≤ 2 ^ build.longBits :=
      Nat.pow_le_pow_right (by decide) (by omega)
    rw [DescText.denote, UInt32.toNat_ofNat', Nat.mod_eq_of_lt (Nat.lt_of_lt_of_le hlt hle),
      Nat.mod_eq_of_lt hlt]

/-- `smb_create://fred.radar.fabric:1000#c0?discontig,map_address(a8)` -/
def fredText : DescText where
  op := some ⟨"smb_create".toList, by decide, plain_of_all (by decide)⟩
  name := ⟨"fred".toList, by decide, plain_of_all (by decide)⟩
  location := [⟨"radar".toList, by decide, plain_of_all (by decide)⟩,
    ⟨"fabric".toList, by decide, plain_of_all (by decide)⟩]
  offset := some ⟨"c0".toList, by decide, digits_of_all (by decide)⟩
  extent := some ⟨"1000".toList, by decide, digits_of_all (by decide)⟩
  extentFirst := true
  options := [⟨⟨"discontig".toList, by decide, plain_of_all (by decide)⟩, none⟩,
    ⟨⟨"map_address".toList, by decide, plain_of_all (by decide)⟩,
      some ⟨"a8".toList, by decide, plain_of_all (by decide)⟩⟩]

theorem vfiParseDesc_text_fred :
    ∃ desc, vfiParseDesc { longBits := 32, debug := true } fredText.text = .ok desc ∧
      desc.name = some "fred".toList ∧ desc.location = some "radar.fabric".toList ∧
      desc.offset.toNat = 0xc0 ∧ desc.extent.toNat = 0x1000 ∧
      desc.query = ["discontig".toList, "map_address=a8".toList] ∧
      queryArray fredText.text =
        some [some "discontig".toList, some "map_address=a8".toList, none] :=
  vfiParseDesc_text { longBits := 32, debug := true } fredText (.inl rfl) (by decide)
    (by rintro s ⟨⟩; decide) (by rintro s ⟨⟩; decide)

end Vfi
