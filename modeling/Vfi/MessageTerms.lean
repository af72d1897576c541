import Vfi.OptionLookup

/-!
# The terms of a message

Requests and replies print one term or the three of a bind, each with the parts
of its place that its format has, and options behind it. A term of words is
parsed to what was printed of it: `Body.parse` for a request, and `Body.hear`
for a reply.
-/

namespace Vfi.FabricExchange

open Ops

-- ---------------------------------------------------------------------------
-- Terms
-- ---------------------------------------------------------------------------

/-- `%s`, and as many of `.%s`, `#%llx`, `:%x` and options as a format has. -/
structure Term where
  desc : VfiDescParam
  located : Bool := true
  offset : Bool := false
  extent : Bool := false
  options : List (String × List Char) := []

def printOption (o : String × List Char) : List Char := o.1.toList ++ '(' :: o.2 ++ [')']

namespace Term

def path (t : Term) : List Char :=
  fmtS t.desc.name ++ (if t.located then '.' :: fmtS t.desc.location else []) ++
    ((if t.offset then '#' :: fmtX t.desc.offset.toNat else []) ++
      (if t.extent then ':' :: fmtX t.desc.extent.toNat else []))

def text (t : Term) : List Char :=
  t.path ++ (if t.options = [] then [] else '?' :: [','].intercalate (t.options.map printOption))

/-- What was printed, as a descriptor. -/
def value (t : Term) : VfiDescParam where
  name := t.desc.name
  location := if t.located then t.desc.location else none
  offset := if t.offset then t.desc.offset else 0
  extent := if t.extent then t.desc.extent else 0
  query := t.options.map fun o => o.1.toList ++ '=' :: o.2

def add (t : Term) (options : List (String × List Char)) : Term :=
  { t with options := t.options ++ options }

def component (desc : VfiDescParam) (options : List (String × List Char) := []) : Term where
  desc := desc
  options := options

def place (desc : VfiDescParam) : Term where
  desc := desc
  offset := true

def fragment (desc : VfiDescParam) (options : List (String × List Char) := []) : Term where
  desc := desc
  offset := true
  extent := true
  options := options

/-- The range alone. -/
def named (desc : VfiDescParam) : Term where
  desc := desc
  located := false
  offset := true
  extent := true

end Term

def IsWord (s : List Char) : Prop := s ≠ [] ∧ ∀ c ∈ s, c ∉ special

instance (s : List Char) : Decidable (IsWord s) :=
  decidable_of_iff (s ≠ [] ∧ (s.all fun c => c ∉ special) = true)
    ⟨fun h => ⟨h.1, plain_of_all h.2⟩, fun h => ⟨h.1, by simpa using h.2⟩⟩

/-- Words with dots between them. -/
def IsPath (s : List Char) : Prop := ∀ word ∈ s.splitOn '.', IsWord word

/-- The names of a term are words, and its offset is one of `unsigned long`. -/
structure Term.Legible (build : Build) (t : Term) : Prop where
  name : ∃ name ∈ t.desc.name, IsWord name
  location : t.located → ∃ location ∈ t.desc.location, IsPath location
  offset : t.offset → t.desc.offset.toNat < 2 ^ build.longBits
  options : ∀ o ∈ t.options, IsWord o.1.toList ∧ IsWord o.2

-- ---------------------------------------------------------------------------
-- The tree of a term
-- ---------------------------------------------------------------------------

def IsWord.word {s : List Char} (h : IsWord s) : Word := ⟨s, h.1, h.2⟩

def wordsOf (l : List (List Char)) (h : ∀ s ∈ l, IsWord s) : List Word :=
  l.pmap (fun _ hs => hs.word) h

theorem wordsOf_chars (l : List (List Char)) (h : ∀ s ∈ l, IsWord s) :
    (wordsOf l h).map Word.chars = l := by
  simp [wordsOf, List.map_pmap, IsWord.word]

theorem wordsOf_eq_nil (l : List (List Char)) (h : ∀ s ∈ l, IsWord s) :
    wordsOf l h = [] ↔ l = [] := by
  simp [wordsOf]

def optionsOf (l : List (String × List Char))
    (h : ∀ o ∈ l, IsWord o.1.toList ∧ IsWord o.2) : List DescOption :=
  l.pmap (fun _ ho => ⟨ho.1.word, some ho.2.word⟩) h

section Options

variable (l : List (String × List Char)) (h : ∀ o ∈ l, IsWord o.1.toList ∧ IsWord o.2)

theorem optionsOf_text : (optionsOf l h).map DescOption.text = l.map printOption := by
  simp [optionsOf, List.map_pmap, DescOption.text, printOption, IsWord.word]

theorem optionsOf_value : (optionsOf l h).map DescOption.value =
    l.map fun o => o.1.toList ++ '=' :: o.2 := by
  simp [optionsOf, List.map_pmap, DescOption.value, IsWord.word]

theorem optionsOf_eq_nil : optionsOf l h = [] ↔ l = [] := by
  simp [optionsOf]

theorem optionsOf_valued : ∀ o ∈ optionsOf l h, o.val.isSome := by
  intro o ho
  obtain ⟨_, _, rfl⟩ := List.mem_pmap.mp ho
  rfl

end Options

/-- The tree of the grammar for a term. -/
structure TreeOf (build : Build) (t : Term) (tree : DescText) : Prop where
  op : tree.op = none
  text : tree.text = t.text
  denote : tree.denote build = t.value
  options : tree.options.length = t.options.length
  valued : ∀ o ∈ tree.options, o.val.isSome

variable {build : Build} {t : Term}

/-- The words of a location that is printed, and none of one that is not. -/
theorem Term.Legible.words (h : t.Legible build) : ∃ words : List Word,
    (words = [] ↔ t.located = false) ∧ (t.located = true →
      t.desc.location = some (['.'].intercalate (words.map Word.chars))) := by
  cases hlocated : t.located with
  | false => exact ⟨[], by simp, nofun⟩
  | true =>
    obtain ⟨location, hlocation, hpath⟩ := h.location hlocated
    have hwords : ∀ word ∈ location.splitOn '.', IsWord word := hpath
    refine ⟨wordsOf (location.splitOn '.') hwords, ?_, fun _ => ?_⟩
    · simp [wordsOf_eq_nil, List.splitOn_ne_nil]
    · rw [wordsOf_chars, List.intercalate_splitOn]
      exact hlocation

theorem Term.Legible.tree (hwide : 32 ≤ build.longBits) (h : t.Legible build) :
    ∃ tree, TreeOf build t tree := by
  obtain ⟨name, hname, hword⟩ := h.name
  obtain ⟨words, hempty, hwords⟩ := h.words
  have hoffset : t.offset → t.desc.offset.toNat % 2 ^ build.longBits = t.desc.offset.toNat :=
    fun ho => Nat.mod_eq_of_lt (h.offset ho)
  have hextent : t.desc.extent.toNat % 2 ^ build.longBits = t.desc.extent.toNat :=
    Nat.mod_eq_of_lt
      (Nat.lt_of_lt_of_le t.desc.extent.toNat_lt (Nat.pow_le_pow_right (by decide) hwide))
  refine ⟨{
    name := hword.word
    location := words
    offset := if t.offset then some (hexstr t.desc.offset.toNat) else none
    extent := if t.extent then some (hexstr t.desc.extent.toNat) else none
    options := optionsOf t.options h.options }, rfl, ?_, ?_, ?_, optionsOf_valued _ _⟩
  · cases hlocated : t.located <;> cases ho : t.offset <;> cases he : t.extent <;>
      simp_all [DescText.text, DescText.opText, DescText.pathText, DescText.locationText,
        DescText.rangeText, DescText.offsetText, DescText.extentText, DescText.optionsText,
        Term.text, Term.path, fmtS, hexstr, IsWord.word, optionsOf_text, optionsOf_eq_nil]
  · cases hlocated : t.located <;> cases ho : t.offset <;> cases he : t.extent <;>
      simp_all [DescText.denote, DescText.locationText, Term.value, hexstr, hexNat_fmtX,
        IsWord.word, optionsOf_value]
  · simp [optionsOf]

-- ---------------------------------------------------------------------------
-- One term or three
-- ---------------------------------------------------------------------------

inductive Body where
  | one (term : Term)
  | bind (xfer dst src : Term)

/-- What is parsed of a message. -/
inductive Parsed where
  | desc (desc : VfiDescParam)
  | bind (bind : VfiBindParam)
deriving DecidableEq, Repr

/-- The descriptor that takes the options at the end of the text. -/
def Parsed.options : Parsed → VfiDescParam
  | .desc d => d
  | .bind b => b.src

/-- With `vfi_parse_bind` or with `vfi_parse_desc`. -/
def parseAs (bind : Bool) (build : Build) (s : List Char) : Except Int Parsed :=
  if bind then (vfiParseBind build s).map .bind else (vfiParseDesc build s).map .desc

namespace Body

def text : Body → List Char
  | .one t => t.text
  | .bind x d s => x.text ++ '/' :: d.text ++ '=' :: s.text

def value : Body → Parsed
  | .one t => .desc t.value
  | .bind x d s => .bind ⟨x.value, d.value, s.value⟩

def isBind : Body → Bool
  | .one _ => false
  | .bind _ _ _ => true

def terms : Body → List Term
  | .one t => [t]
  | .bind x d s => [x, d, s]

/-- The term at the end, which takes what options are added. -/
def last : Body → Term
  | .one t => t
  | .bind _ _ s => s

def add : Body → List (String × List Char) → Body
  | .one t, options => .one (t.add options)
  | .bind x d s, options => .bind x d (s.add options)

def Legible (build : Build) (b : Body) : Prop := ∀ t ∈ b.terms, t.Legible build

/-- The number of all options. -/
def argc (b : Body) : Nat := (b.terms.map fun t => t.options.length).sum

end Body

theorem TreeOf.argc {tree : DescText} (h : TreeOf build t tree) :
    argc t.text = t.options.length + 1 := by
  rw [← h.text, tree.argc_text, h.options]

variable {b : Body}

/-- A text has room for a slot for each option and one more. -/
theorem Body.Legible.argc (hwide : 32 ≤ build.longBits) (h : b.Legible build) :
    Vfi.argc b.text = b.argc + 1 := by
  cases b with
  | one t =>
    obtain ⟨tree, htree⟩ := (h t (by simp [Body.terms])).tree hwide
    rw [Body.text, htree.argc]
    simp [Body.argc, Body.terms]
  | bind x d s =>
    obtain ⟨xt, hx⟩ := (h x (by simp [Body.terms])).tree hwide
    obtain ⟨dt, hd⟩ := (h d (by simp [Body.terms])).tree hwide
    obtain ⟨st, hs⟩ := (h s (by simp [Body.terms])).tree hwide
    have hxargc := hx.argc
    have hdargc := hd.argc
    have hsargc := hs.argc
    unfold Vfi.argc at *
    rw [Body.text, List.countP_append, List.countP_append, List.countP_cons_of_neg (by decide),
      List.countP_cons_of_neg (by decide), Body.argc, Body.terms]
    simp only [List.map_cons, List.map_nil, List.sum_cons, List.sum_nil]
    omega

/-- The parser that reads as many terms as a text has reads all that was printed. -/
theorem Body.Legible.parse (hwide : 32 ≤ build.longBits) (h : b.Legible build)
    (hdup : (vfiStrDup b.text).isSome) : parseAs b.isBind build b.text = .ok b.value := by
  cases b with
  | one t =>
    obtain ⟨tree, htree⟩ := (h t (by simp [Body.terms])).tree hwide
    simp only [Body.text, ← htree.text] at hdup ⊢
    rw [parseAs, Body.isBind, if_neg Bool.false_ne_true, tree.vfiParseDesc_denote build hdup,
      htree.denote]
    rfl
  | bind x d s =>
    obtain ⟨xt, hx⟩ := (h x (by simp [Body.terms])).tree hwide
    obtain ⟨dt, hd⟩ := (h d (by simp [Body.terms])).tree hwide
    obtain ⟨st, hs⟩ := (h s (by simp [Body.terms])).tree hwide
    simp only [Body.text, ← hx.text, ← hd.text, ← hs.text] at hdup ⊢
    rw [parseAs, Body.isBind, if_pos rfl, vfiParseBind_text build xt dt st hx.op hd.op hs.op hdup,
      hx.denote, hd.denote, hs.denote]
    rfl

-- ---------------------------------------------------------------------------
-- Replies
-- ---------------------------------------------------------------------------

/-- What follows the parenthesis of an option is skipped. -/
theorem vfiParseOptions_newline {options : List DescOption} (hne : options ≠ [])
    (hvalued : ∀ o ∈ options, o.val.isSome) :
    vfiParseOptions ([','].intercalate (options.map DescOption.text) ++ ['\n']) =
      options.map DescOption.value := by
  induction options with
  | nil => exact absurd rfl hne
  | cons o options ih =>
    have hcomma : ',' ∉ o.text := (DescText.option_uses o).not_mem (by decide) (by decide)
    obtain ⟨val, hval⟩ := Option.isSome_iff_exists.mp (hvalued o List.mem_cons_self)
    cases options with
    | nil =>
      have hopen : '(' ∉ o.var.chars := (o.var.uses []).not_mem (by decide) (by decide)
      have hclose : ')' ∉ val.chars := (val.uses []).not_mem (by decide) (by decide)
      have hline : ',' ∉ o.text ++ ['\n'] := by simp [hcomma]
      have htext : o.text ++ ['\n'] = o.var.chars ++ '(' :: (val.chars ++ ')' :: ['\n']) := by
        simp [DescOption.text, hval]
      rw [List.map_singleton, List.intercalate_singleton, vfiParseOptions,
        List.splitOn_eq_singleton hline, List.map_singleton, List.map_singleton, htext, parseOption,
        nameRemainder_append hopen]
      simp [nameRemainder_append hclose, DescOption.value, hval]
    | cons o' options =>
      have hrest := ih (List.cons_ne_nil _ _) fun o ho => hvalued o (List.mem_cons_of_mem _ ho)
      rw [List.map_cons, List.map_cons, List.intercalate_cons_cons, ← List.map_cons,
        List.append_assoc, List.append_assoc, List.singleton_append, vfiParseOptions,
        List.splitOn_append_cons_self_of_not_mem hcomma, List.map_cons,
        DescText.parseOption_text, ← vfiParseOptions, hrest]
      rfl

theorem parseDesc_newline {tree : DescText} (hne : tree.options ≠ [])
    (hvalued : ∀ o ∈ tree.options, o.val.isSome) :
    parseDesc build (tree.text ++ ['\n']) = .ok (tree.denote build) := by
  have hpath : '?' ∉ tree.pathText := tree.pathText_uses.not_mem (by decide) (by decide)
  have hscheme : afterScheme (tree.text ++ ['\n']) = afterScheme tree.text ++ ['\n'] :=
    afterScheme_append (by decide) (by decide)
  rw [← tree.parseDesc_text build]
  unfold parseDesc
  rw [hscheme, tree.afterScheme_text, DescText.optionsText, if_neg hne, List.append_assoc,
    List.cons_append, nameRemainder_append hpath, nameRemainder_append hpath]
  dsimp only [Option.map_some, Option.getD_some]
  rw [vfiParseOptions_newline hne hvalued, tree.vfiParseOptions_text hne]

/-- The text of a reply: an operation, what it printed, and the end of the line. -/
def replyText (cmd : List Char) (b : Body) : List Char :=
  cmd ++ "://".toList ++ (b.text ++ ['\n'])

theorem text_op (tree : DescText) (hop : tree.op = none) (op : Word) :
    DescText.text { tree with op := some op } = op.chars ++ "://".toList ++ tree.text := by
  have htext : tree.text = tree.pathText ++ tree.optionsText := by
    rw [DescText.text, DescText.opText, hop]
    rfl
  rw [htext]
  rfl

/-- A reply is parsed to what was printed, with any operation before it. -/
theorem Body.Legible.hear (hwide : 32 ≤ build.longBits) (h : b.Legible build)
    (hoptions : b.last.options ≠ []) (op : Word)
    (hdup : (vfiStrDup (replyText op.chars b)).isSome) :
    parseAs b.isBind build (replyText op.chars b) = .ok b.value := by
  have hlast : ∀ {tree}, TreeOf build b.last tree → tree.options ≠ [] := by
    intro tree htree hnil
    have hlength := htree.options
    rw [hnil, List.length_nil, eq_comm, List.length_eq_zero_iff] at hlength
    exact hoptions hlength
  cases b with
  | one t =>
    obtain ⟨tree, htree⟩ := (h t (by simp [Body.terms])).tree hwide
    have htext : replyText op.chars (.one t) =
        DescText.text { tree with op := some op } ++ ['\n'] := by
      rw [text_op tree htree.op, htree.text, replyText, Body.text, List.append_assoc _ t.text]
    have hne : tree.options ≠ [] := hlast htree
    have hparse : parseDesc build (DescText.text { tree with op := some op } ++ ['\n']) =
        .ok (tree.denote build) := parseDesc_newline hne htree.valued
    rw [parseAs, Body.isBind, if_neg Bool.false_ne_true, vfiParseDesc_eq hdup, htext, hparse,
      htree.denote]
    rfl
  | bind x d s =>
    obtain ⟨xt, hx⟩ := (h x (by simp [Body.terms])).tree hwide
    obtain ⟨dt, hd⟩ := (h d (by simp [Body.terms])).tree hwide
    obtain ⟨st, hs⟩ := (h s (by simp [Body.terms])).tree hwide
    have htext : replyText op.chars (.bind x d s) =
        DescText.text { xt with op := some op } ++ '/' :: dt.text ++
          '=' :: (st.text ++ ['\n']) := by
      rw [text_op xt hx.op, hx.text, hd.text, hs.text, replyText, Body.text]
      simp
    rw [htext] at hdup ⊢
    have hsrc : vfiParseDesc build (st.text ++ ['\n']) = .ok (st.denote build) := by
      have hsuffix := (List.suffix_cons '=' (st.text ++ ['\n'])).trans
        (List.suffix_append (DescText.text { xt with op := some op } ++ '/' :: dt.text) _)
      rw [vfiParseDesc_eq (vfiStrDup_sublist hdup hsuffix.sublist)]
      exact parseDesc_newline (hlast hs) hs.valued
    have hxdenote : DescText.denote { xt with op := some op } build = x.value := hx.denote
    rw [parseAs, Body.isBind, if_pos rfl, vfiParseBind_src build rfl hd.op hdup, hsrc, hxdenote,
      hd.denote, hs.denote]
    rfl

-- ---------------------------------------------------------------------------
-- The names before parentheses
-- ---------------------------------------------------------------------------

/-- Every parenthesis is opened behind one of the names. -/
def Opens (names : List (List Char)) (s : List Char) : Prop :=
  ∀ a b, s = a ++ '(' :: b → ∃ n ∈ names, List.IsSuffix n a

/-- Neither name can stand before a parenthesis for the other. -/
def Apart (n n' : List Char) : Prop := ¬ List.IsSuffix n n' ∧ ¬ List.IsSuffix n' n

instance (n n' : List Char) : Decidable (Apart n n') := inferInstanceAs (Decidable (_ ∧ _))

section Opens

variable {names more : List (List Char)} {s r : List Char}

theorem opens_of_not_mem (h : '(' ∉ s) : Opens names s := by
  rintro a b rfl
  exact absurd (List.mem_append_right a List.mem_cons_self) h

theorem Opens.mono (h : Opens names s) (hsub : names ⊆ more) : Opens more s := by
  intro a b heq
  obtain ⟨n, hn, hsuffix⟩ := h a b heq
  exact ⟨n, hsub hn, hsuffix⟩

theorem Opens.append (hs : Opens names s) (hr : Opens names r) : Opens names (s ++ r) := by
  intro a b heq
  rcases List.append_eq_append_iff.mp heq with ⟨a', rfl, hr'⟩ | ⟨c, rfl, hc⟩
  · obtain ⟨n, hn, hsuffix⟩ := hr a' b hr'
    exact ⟨n, hn, hsuffix.trans (List.suffix_append s a')⟩
  · cases c with
    | nil =>
      obtain ⟨n, hn, hsuffix⟩ := hr [] b hc.symm
      exact ⟨n, hn, hsuffix.trans List.nil_suffix⟩
    | cons x c =>
      obtain ⟨rfl, -⟩ := List.cons.inj hc
      exact hs a c rfl

theorem opens_option {name : String} {value : List Char} (hname : '(' ∉ name.toList)
    (hvalue : '(' ∉ value) : Opens [name.toList] (printOption (name, value)) := by
  intro a b heq
  have hrest : '(' ∉ value ++ [')'] := by simp [hvalue]
  rw [printOption, List.append_assoc, List.cons_append] at heq
  refine ⟨name.toList, List.mem_singleton_self _, ?_⟩
  rcases List.append_eq_append_iff.mp heq with ⟨a', rfl, hr⟩ | ⟨c, hc, hb⟩
  · cases a' with
    | nil => simp
    | cons x a' =>
      have hmem : '(' ∈ a' ++ '(' :: b := List.mem_append_right a' List.mem_cons_self
      exact absurd ((List.cons.inj hr).2 ▸ hmem) hrest
  · cases c with
    | nil => simp [hc]
    | cons x c =>
      obtain ⟨rfl, -⟩ := List.cons.inj hb
      exact absurd (hc ▸ List.mem_append_right a List.mem_cons_self) hname

/-- A name that is none of these, nor ends with one or ends one, stands before no parenthesis. -/
theorem Opens.strstr_eq_none (h : Opens names s) {name : List Char}
    (hname : ∀ n ∈ names, Apart n name) :
    strstr s (name ++ ['(']) = none := by
  cases hfind : strstr s (name ++ ['(']) with
  | none => rfl
  | some rest =>
    obtain ⟨a, b, rfl⟩ := infix_of_strstr hfind
    obtain ⟨n, hn, hsuffix⟩ := h (a ++ name) b (by simp)
    rcases List.suffix_or_suffix_of_suffix hsuffix (List.suffix_append a name) with hs | hs
    · exact absurd hs (hname n hn).1
    · exact absurd hs (hname n hn).2

theorem opens_intercalate {ls : List (List Char)} (h : ∀ l ∈ ls, Opens names l) :
    Opens names ([','].intercalate ls) := by
  induction ls with
  | nil => exact opens_of_not_mem List.not_mem_nil
  | cons l ls ih =>
    have hl := h l List.mem_cons_self
    have hls := ih fun l' hmem => h l' (List.mem_cons_of_mem l hmem)
    cases ls with
    | nil => rwa [List.intercalate_singleton]
    | cons l' ls =>
      rw [List.intercalate_cons_cons]
      exact (hl.append (opens_of_not_mem (by decide))).append hls

end Opens

theorem IsWord.uses {s : List Char} (h : IsWord s) (allowed : List Char) : Uses allowed s :=
  h.word.uses allowed

theorem Term.Legible.path_uses (h : t.Legible build) : Uses ['.', '#', ':'] t.path := by
  obtain ⟨name, hname, hword⟩ := h.name
  refine Uses.append (Uses.append ?_ ?_) (Uses.append ?_ ?_)
  · rw [show t.desc.name = some name from hname]
    exact hword.uses _
  · split
    · next ht =>
      obtain ⟨location, hlocation, hpath⟩ := h.location ht
      have hsplit : ['.'].intercalate (location.splitOn '.') = location :=
        List.intercalate_splitOn '.'
      rw [show t.desc.location = some location from hlocation, fmtS, Option.getD_some, ← hsplit]
      exact (Uses.intercalate ((uses_nil _).cons (by decide)) fun word hmem =>
        (hpath word hmem).uses _).cons (by decide)
    · exact uses_nil _
  · split
    · exact ((hexstr _).uses _).cons (by decide)
    · exact uses_nil _
  · split
    · exact ((hexstr _).uses _).cons (by decide)
    · exact uses_nil _

def Term.names (t : Term) : List (List Char) := t.options.map fun o => o.1.toList

def Body.names (b : Body) : List (List Char) := b.terms.flatMap Term.names

theorem Term.Legible.opens (h : t.Legible build) : Opens t.names t.text := by
  have hpath : '(' ∉ t.path := h.path_uses.not_mem (by decide) (by decide)
  refine (opens_of_not_mem hpath).append ?_
  split
  · exact opens_of_not_mem List.not_mem_nil
  · have hoptions : Opens t.names ([','].intercalate (t.options.map printOption)) := by
      refine opens_intercalate fun l hl => ?_
      obtain ⟨o, ho, rfl⟩ := List.mem_map.mp hl
      obtain ⟨hname, hvalue⟩ := h.options o ho
      refine (opens_option ((hname.uses []).not_mem (by decide) List.not_mem_nil)
        ((hvalue.uses []).not_mem (by decide) List.not_mem_nil)).mono ?_
      exact List.cons_subset.mpr ⟨List.mem_map_of_mem ho, List.nil_subset _⟩
    exact (opens_of_not_mem (s := ['?']) (by decide)).append hoptions

theorem Body.Legible.opens (h : b.Legible build) : Opens b.names b.text := by
  have hterm : ∀ t ∈ b.terms, Opens b.names t.text := fun t ht =>
    (h t ht).opens.mono fun n hn => List.mem_flatMap.mpr ⟨t, ht, hn⟩
  cases b with
  | one t => exact hterm t (List.mem_singleton_self t)
  | bind x d s =>
    have hx := hterm x (by simp [Body.terms])
    have hd := hterm d (by simp [Body.terms])
    have hs := hterm s (by simp [Body.terms])
    have hslash : Opens (Body.bind x d s).names ['/'] := opens_of_not_mem (by decide)
    have hequal : Opens (Body.bind x d s).names ['='] := opens_of_not_mem (by decide)
    simpa [Body.text] using hx.append (hslash.append (hd.append (hequal.append hs)))

-- ---------------------------------------------------------------------------
-- One more option
-- ---------------------------------------------------------------------------

/-- What stands before an option that is added. -/
def Term.mark (t : Term) : Char := if t.options = [] then '?' else ','

theorem intercalate_concat (l : List (List Char)) (hne : l ≠ []) (s : List Char) :
    [','].intercalate (l ++ [s]) = [','].intercalate l ++ ',' :: s := by
  induction l with
  | nil => exact absurd rfl hne
  | cons x l ih =>
    cases l with
    | nil => simp
    | cons y l =>
      have hrest := ih (List.cons_ne_nil y l)
      simp only [List.cons_append, List.intercalate_cons_cons] at hrest ⊢
      rw [hrest]
      simp

theorem Term.text_add (t : Term) (o : String × List Char) :
    (t.add [o]).text = t.text ++ t.mark :: printOption o := by
  have hpath : (t.add [o]).path = t.path := rfl
  have hne : t.options ++ [o] ≠ [] := by simp
  rw [Term.text, Term.text, hpath, Term.add, if_neg hne, Term.mark]
  split
  · next hnil => simp [hnil]
  · next hsome =>
    have hmap : t.options.map printOption ≠ [] := by simpa using hsome
    rw [List.map_append, List.map_singleton, intercalate_concat _ hmap]
    simp

theorem Body.text_add (b : Body) (o : String × List Char) :
    (b.add [o]).text = b.text ++ b.last.mark :: printOption o := by
  cases b with
  | one t => exact t.text_add o
  | bind x d s => simp [Body.add, Body.text, Body.last, s.text_add o]

theorem Body.add_add (b : Body) (l l' : List (String × List Char)) :
    (b.add l).add l' = b.add (l ++ l') := by
  cases b with
  | one t => simp [Body.add, Term.add]
  | bind x d s => simp [Body.add, Term.add]

/-- An option that is added is found behind its mark. -/
theorem Opens.strstr_added {names : List (List Char)} {s : List Char} (h : Opens names s)
    {name : String} (hname : ∀ n ∈ names, Apart n name.toList) {mark : Char}
    (hmark : mark ∉ name.toList ++ ['(']) (value rest : List Char) :
    strstr (s ++ mark :: (printOption (name, value) ++ rest)) (name.toList ++ ['(']) =
      some (printOption (name, value) ++ rest) := by
  have htext : printOption (name, value) ++ rest =
      name.toList ++ ['('] ++ (value ++ ([')'] ++ rest)) := by
    simp [printOption]
  rw [strstr_append_cons hmark (by simp), h.strstr_eq_none hname, htext,
    strstr_prefix _ (by simp)]
  rfl

theorem vfiGetOption_added {d : VfiDescParam} {key value : List Char} {more : List (List Char)}
    (hkey : '=' ∉ key) (hne : key ≠ []) (hquery : ∀ option ∈ d.query, strstr option key = none) :
    vfiGetOption { d with query := d.query ++ (key ++ '=' :: value) :: more } key =
      some value := by
  have hfind := strstr_prefix ('=' :: value) hne
  have hequal := strstr_append [] value hkey
  rw [List.append_assoc, List.singleton_append] at hequal
  rw [vfiGetOption_append, vfiGetOption_eq_none.mpr hquery, Option.none_or, vfiGetOption_cons,
    hfind]
  dsimp only
  rw [hequal]
  rfl

/-- The options that are there are at the end, if anywhere. -/
def Body.EndsWithOptions (b : Body) : Prop := b.last.options = [] → ∀ t ∈ b.terms, t.options = []

theorem Term.Legible.mark_not_mem (h : t.Legible build) (hnil : t.options = []) :
    '?' ∉ t.text := by
  rw [Term.text, if_pos hnil, List.append_nil]
  exact h.path_uses.not_mem (by decide) (by decide)

theorem Term.mark_mem (hne : t.options ≠ []) : '?' ∈ t.text := by
  rw [Term.text, if_neg hne]
  exact List.mem_append_right _ List.mem_cons_self

/-- The mark is the one that `vfi_fabric_call` chooses. -/
theorem Body.Legible.mark (h : b.Legible build) (hends : b.EndsWithOptions) {cmd : List Char}
    (hcmd : '?' ∉ cmd) :
    (if (strstr (cmd ++ b.text) ['?']).isSome then ',' else '?') = b.last.mark := by
  unfold Term.mark
  by_cases hnil : b.last.options = []
  · have htext : '?' ∉ b.text := by
      have hterm : ∀ t ∈ b.terms, '?' ∉ t.text := fun t ht =>
        (h t ht).mark_not_mem (hends hnil t ht)
      cases b with
      | one t => exact hterm t (List.mem_singleton_self t)
      | bind x d s => simpa [Body.text, Body.terms] using hterm
    have hnone : strstr (cmd ++ b.text) ['?'] = none :=
      strstr_of_not_mem List.mem_cons_self (by simp [hcmd, htext])
    rw [hnone, if_pos hnil]
    rfl
  · have htext : '?' ∈ b.text := by
      cases b with
      | one t => exact Term.mark_mem hnil
      | bind x d s => exact List.mem_append_right _ (List.mem_cons_of_mem _ (Term.mark_mem hnil))
    obtain ⟨before, after, heq, hbefore⟩ :=
      List.eq_append_cons_of_mem (List.mem_append_right cmd htext)
    have hsome := strstr_append [] after hbefore
    rw [List.append_assoc, List.singleton_append] at hsome
    rw [heq, hsome, if_neg hnil]
    rfl

end Vfi.FabricExchange
