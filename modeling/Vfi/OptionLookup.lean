import Vfi.SrcCoverage
import Mathlib.Data.List.TakeWhile

/-!
# Looking up an option

`vfi_get_option` takes the first option with the name anywhere in its text.
When that is the option of that name, and when `vfi_fabric_dst_create` reads
the code of a reply that has an event name before it: `optionLookup_iff`.
-/

namespace Vfi

-- ---------------------------------------------------------------------------
-- The option found
-- ---------------------------------------------------------------------------

/-- Where a string starts: in which option, and at which of its characters. -/
structure OptionPtr where
  option : Nat
  char : Nat
deriving DecidableEq, Repr

/-- `vfi_get_option` from the option with the given number on. -/
def getOptionFrom (i : Nat) : List (List Char) → List Char → Option OptionPtr
  | [], _ => none
  | var :: query, needle =>
    match strstr var needle with
    | none => getOptionFrom (i + 1) query needle
    | some foundVar =>
      match strstr foundVar ['='] with
      | some foundVal => some ⟨i, var.length - foundVal.length + 1⟩
      | none => some ⟨i, var.length - foundVar.length⟩

def getOptionPtr (query : List (List Char)) (needle : List Char) : Option OptionPtr :=
  getOptionFrom 0 query needle

/-- The name in `var` or `var=val`. -/
def optionName (option : List Char) : List Char := (nameRemainder option '=').1

/-- Where the value starts; an option without one stands for itself. -/
def valueAt (option : List Char) : Nat :=
  if '=' ∈ option then (optionName option).length + 1 else 0

/-- The value of the first option of exactly that name. -/
def exactOptionFrom (i : Nat) : List (List Char) → List Char → Option OptionPtr
  | [], _ => none
  | option :: query, name =>
    if optionName option = name then some ⟨i, valueAt option⟩
    else exactOptionFrom (i + 1) query name

def exactOptionPtr (query : List (List Char)) (name : List Char) : Option OptionPtr :=
  exactOptionFrom 0 query name

/-- The first option that contains the name, if there is one, has it as its name. -/
def FirstExact (query : List (List Char)) (name : List Char) : Prop :=
  ∀ option, query.find? (fun option => (strstr option name).isSome) = some option →
    optionName option = name

variable {query : List (List Char)} {option needle : List Char} {i : Nat}

theorem vfiGetOption_cons (desc : VfiDescParam) (var : List Char) (query : List (List Char))
    (needle : List Char) :
    vfiGetOption { desc with query := var :: query } needle =
      match strstr var needle with
      | none => vfiGetOption { desc with query := query } needle
      | some foundVar =>
        match strstr foundVar ['='] with
        | some foundVal => some (foundVal.drop 1)
        | none => some foundVar := by
  unfold vfiGetOption
  dsimp only
  rw [List.findSome?_cons]
  cases strstr var needle with
  | none => rfl
  | some foundVar => rfl

/-- What the pointer points to is what `vfi_get_option` is modelled to return. -/
theorem vfiGetOption_eq (desc : VfiDescParam) (needle : List Char) :
    vfiGetOption desc needle = (getOptionPtr desc.query needle).map fun ptr =>
      (desc.query.getD ptr.option []).drop ptr.char := by
  have hfrom : ∀ query before : List (List Char),
      vfiGetOption { desc with query := query } needle =
        (getOptionFrom before.length query needle).map fun ptr =>
          ((before ++ query).getD ptr.option []).drop ptr.char := by
    intro query
    induction query with
    | nil => exact fun _ => rfl
    | cons var query ih =>
      intro before
      have hvar : (before ++ var :: query).getD before.length [] = var := by
        rw [List.getD_eq_getElem?_getD, List.getElem?_append_right (Nat.le_refl _), Nat.sub_self]
        rfl
      have hrest := ih (before ++ [var])
      rw [List.length_append, List.append_assoc, List.length_singleton] at hrest
      rw [vfiGetOption_cons, getOptionFrom]
      cases hfind : strstr var needle with
      | none => exact hrest
      | some foundVar =>
        have hfound := strstr_suffix hfind
        dsimp only
        cases hval : strstr foundVar ['='] with
        | none =>
          dsimp only
          rw [Option.map_some, hvar, drop_of_suffix hfound]
        | some foundVal =>
          dsimp only
          rw [Option.map_some, hvar, ← List.drop_drop,
            drop_of_suffix ((strstr_suffix hval).trans hfound)]
  exact hfrom desc.query []

/-- An option found at its own name gives its value. -/
theorem getOptionFrom_name (hneedle : '=' ∉ needle) (h : optionName option = needle) :
    getOptionFrom i (option :: query) needle = some ⟨i, valueAt option⟩ := by
  have hjoin := (nameRemainder_join option '=').2
  unfold optionName at h
  rw [h] at hjoin
  rw [getOptionFrom, valueAt, optionName, h]
  cases hval : (nameRemainder option '=').2 with
  | none =>
    obtain rfl : option = needle := by rw [hjoin, hval]; exact List.append_nil needle
    have hfind := strstr_of_isPrefixOf option []
    rw [List.append_nil] at hfind
    rw [hfind]
    dsimp only
    rw [strstr_of_not_mem List.mem_cons_self hneedle, if_neg hneedle, Nat.sub_self]
  | some val =>
    obtain rfl : option = needle ++ '=' :: val := by rw [hjoin, hval]; rfl
    have hequal := strstr_append [] val hneedle
    rw [List.append_assoc] at hequal
    have hmem : '=' ∈ needle ++ '=' :: val := List.mem_append_right _ List.mem_cons_self
    rw [strstr_of_isPrefixOf]
    dsimp only
    rw [List.singleton_append] at hequal
    rw [hequal, if_pos hmem]
    simp only [List.length_append, List.length_cons, Nat.add_sub_cancel]

theorem exactOptionFrom_le {ptr : OptionPtr} (h : exactOptionFrom i query needle = some ptr) :
    i ≤ ptr.option := by
  induction query generalizing i with
  | nil => cases h
  | cons option query ih =>
    rw [exactOptionFrom] at h
    split at h
    · obtain rfl := Option.some.inj h
      exact Nat.le_refl i
    · exact Nat.le_of_succ_le (ih h)

theorem getOptionFrom_found {found : List Char} (h : strstr option needle = some found) :
    ∃ char, getOptionFrom i (option :: query) needle = some ⟨i, char⟩ := by
  rw [getOptionFrom, h]
  dsimp only
  split
  · exact ⟨_, rfl⟩
  · exact ⟨_, rfl⟩

/-- The option found is the one of that name exactly when no option with another name has the
name in its text before it. -/
theorem getOptionFrom_iff (hneedle : '=' ∉ needle) :
    getOptionFrom i query needle = exactOptionFrom i query needle ↔ FirstExact query needle := by
  induction query generalizing i with
  | nil => exact iff_of_true rfl nofun
  | cons option query ih =>
    unfold FirstExact
    cases hfind : strstr option needle with
    | some found =>
      rw [List.find?_cons_of_pos (p := fun option => (strstr option needle).isSome)
        (by rw [hfind]; rfl), exactOptionFrom]
      by_cases hname : optionName option = needle
      · rw [if_pos hname, getOptionFrom_name hneedle hname]
        exact iff_of_true rfl fun _ heq => Option.some.inj heq ▸ hname
      · rw [if_neg hname]
        refine iff_of_false (fun heq => ?_) fun h => hname (h option rfl)
        have hfound : ∃ char, getOptionFrom i (option :: query) needle = some ⟨i, char⟩ :=
          getOptionFrom_found hfind
        obtain ⟨char, hptr⟩ := hfound
        have hle := exactOptionFrom_le (heq.symm.trans hptr)
        exact Nat.not_succ_le_self i hle
    | none =>
      have hname : optionName option ≠ needle := by
        intro hname
        have hjoin := (nameRemainder_join option '=').2
        unfold optionName at hname
        rw [hname] at hjoin
        rw [hjoin, strstr_of_isPrefixOf] at hfind
        cases hfind
      rw [List.find?_cons_of_neg (p := fun option => (strstr option needle).isSome)
        (by rw [hfind]; decide), getOptionFrom, exactOptionFrom, hfind, if_neg hname]
      exact ih

-- ---------------------------------------------------------------------------
-- The code of a reply
-- ---------------------------------------------------------------------------

/-- What `vfi_fabric_dst_create` calls. -/
structure DstCalls (δ : Type) where
  build : Build
  fabricCall : List Char → Int × Option (List Char)
  localDstFind : VfiBindParam → Int × Option δ
  dstCreate : VfiBindParam → Int × Option δ

/-- `dst_create://%s.%s#%llx:%x/%s.%s#%llx:%x=%s.%s#%llx:%x?event_name(%s)` -/
def dstCall (desc : VfiBindParam) (srcEventName : List Char) : List Char :=
  Ops.bindCall Ops.dstCreate desc ++ "?event_name(".toList ++ srcEventName ++ [')']

/-- The destination fragment of a reply, found here or else created. -/
def DstCalls.make (calls : DstCalls δ) (reply : VfiBindParam) : Int × Option δ :=
  match calls.localDstFind reply with
  | (ret, some dst) => (ret, some dst)
  | (_, none) => calls.dstCreate reply

/-- There is no result where `sscanf` is given NULL. -/
def vfiFabricDstCreate (calls : DstCalls δ) (desc : VfiBindParam) : Option (Int × Option δ) :=
  match vfiGetOption desc.src "event_name".toList with
  | none => some (-einval, none)
  | some srcEventName =>
    let (ret, skb) := calls.fabricCall (dstCall desc srcEventName)
    match skb with
    | none => some (ret, none)
    | some skb =>
      match vfiParseBind calls.build skb with
      | .error _ => some (-einval, none)
      | .ok reply =>
        match vfiGetOption reply.src "result".toList with
        | none => none
        | some result =>
          let ret := (scanD result).getD (-einval)
          if scanD result = some 0 then some (calls.make reply) else some (ret, none)

/-- A code is read from the reply, and it is `r`. -/
def ReadsBack (build : Build) (skb : List Char) (r : Int) : Prop :=
  ∃ reply result, vfiParseBind build skb = .ok reply ∧
    vfiGetOption reply.src "result".toList = some result ∧ scanD result = some r

/-- The code read decides what `vfi_fabric_dst_create` does. -/
theorem vfiFabricDstCreate_reads {calls : DstCalls δ} {desc : VfiBindParam} {code r : Int}
    {srcEventName skb : List Char}
    (hevent : vfiGetOption desc.src "event_name".toList = some srcEventName)
    (hcall : calls.fabricCall (dstCall desc srcEventName) = (code, some skb))
    (h : ReadsBack calls.build skb r) :
    ∃ reply, vfiParseBind calls.build skb = .ok reply ∧
      vfiFabricDstCreate calls desc = some (if r = 0 then calls.make reply else (r, none)) := by
  obtain ⟨reply, result, hparse, hresult, hscan⟩ := h
  refine ⟨reply, hparse, ?_⟩
  simp only [vfiFabricDstCreate, hevent, hcall, hparse, hresult, hscan, Option.some.injEq,
    Option.getD_some]
  split
  · rfl
  · rfl

/-- The codes of C. -/
def IsInt (r : Int) : Prop := -2 ^ 31 ≤ r ∧ r < 2 ^ 31

/-- The reply of `dst_create` that ends with the code `r`. -/
def dstReply (params : VfiBindParam) (outcome : Ops.Outcome VfiBindParam) (r : Int) : List Char :=
  (Ops.dstCreate.reply params { outcome with ret := r }).text

/-- A source term with the name of an event. -/
def eventTerm (src : VfiDescParam) (event : List Char) : List Char :=
  Ops.fmtFragment src ++ "?event_name(".toList ++ event ++ [')']

/-- The term is parsed to options that do not contain `result`. -/
def Unmasked (build : Build) (src : VfiDescParam) (event : List Char) : Prop :=
  ∃ d, vfiParseDesc build (eventTerm src event) = .ok d ∧ d.query ≠ [] ∧
    ∀ option ∈ d.query, strstr option "result".toList = none

-- ---------------------------------------------------------------------------
-- Decimal numbers
-- ---------------------------------------------------------------------------

theorem fmtD_natCast (n : Nat) : Ops.fmtD n = Nat.toDigits 10 n := by
  simp [Ops.fmtD, toString, Int.repr, Nat.repr]

theorem fmtD_negSucc (n : Nat) : Ops.fmtD (Int.negSucc n) = '-' :: Nat.toDigits 10 (n + 1) := by
  simp [Ops.fmtD, toString, Int.repr, Nat.repr]

theorem toDigits_isDigit (n : Nat) : ∀ c ∈ Nat.toDigits 10 n, c.isDigit = true :=
  fun _ hc => Nat.isDigit_of_mem_toDigits (by decide) (by decide) hc

theorem fmtD_chars (r : Int) : ∀ c ∈ Ops.fmtD r, c = '-' ∨ c.isDigit = true := by
  cases r with
  | ofNat n =>
    intro c hc
    rw [Int.ofNat_eq_natCast, fmtD_natCast] at hc
    exact .inr (toDigits_isDigit n c hc)
  | negSucc n =>
    intro c hc
    rw [fmtD_negSucc] at hc
    exact (List.mem_cons.mp hc).imp_right (toDigits_isDigit (n + 1) c)

theorem not_mem_fmtD {c : Char} (r : Int) (hminus : c ≠ '-') (hdigit : c.isDigit = false) :
    c ∉ Ops.fmtD r := by
  intro hc
  rcases fmtD_chars r c hc with rfl | hc
  · exact hminus rfl
  · rw [hdigit] at hc
    cases hc

/-- The value `sscanf` makes of digits. -/
def decNat (s : List Char) : Int := s.foldl (fun n c => n * 10 + (c.toNat - '0'.toNat)) 0

theorem decNat_toDigits (n : Nat) : decNat (Nat.toDigits 10 n) = n := by
  have hzero : '0'.toNat = 48 := rfl
  induction n using Nat.strongRecOn with
  | ind n ih =>
    rcases Nat.lt_or_ge n 10 with hlt | hge
    · have hdigit := Nat.toNat_digitChar_of_lt_ten hlt
      rw [Nat.toDigits_of_lt_base hlt, decNat, List.foldl_cons, List.foldl_nil, hdigit, hzero]
      omega
    · have hlast := ih (n / 10) (by omega)
      have hdigit := Nat.toNat_digitChar_of_lt_ten (Nat.mod_lt n (by decide : 0 < 10))
      unfold decNat at hlast ⊢
      rw [Nat.toDigits_of_base_le (by decide) hge, List.foldl_append, hlast, List.foldl_cons,
        List.foldl_nil, hdigit, hzero]
      omega

theorem takeWhile_digits (n : Nat) :
    (Nat.toDigits 10 n).takeWhile Char.isDigit = Nat.toDigits 10 n :=
  List.takeWhile_eq_self_iff.mpr (toDigits_isDigit n)

theorem dropWhile_digits (n : Nat) :
    (Nat.toDigits 10 n).dropWhile Char.isWhitespace = Nat.toDigits 10 n ∧
      (Nat.toDigits 10 n).head? ≠ some '-' := by
  obtain ⟨c, cs, hdigits⟩ := List.exists_cons_of_ne_nil (Nat.toDigits_ne_nil (n := n) (b := 10))
  have hc := toDigits_isDigit n c (by rw [hdigits]; exact List.mem_cons_self)
  have hne : ∀ d : Char, d.isDigit = false → c ≠ d := by
    rintro d hd rfl
    rw [hd] at hc
    cases hc
  have hspace : c.isWhitespace = false := by
    simp [Char.isWhitespace, hne ' ' (by decide), hne '\t' (by decide), hne '\r' (by decide),
      hne '\n' (by decide)]
  rw [hdigits]
  refine ⟨List.dropWhile_cons_of_neg (by rw [hspace]; decide), ?_⟩
  rw [List.head?_cons, ne_eq, Option.some.injEq]
  exact hne '-' (by decide)

/-- An `int` that was printed is read back. -/
theorem scanD_fmtD {r : Int} (h : IsInt r) : scanD (Ops.fmtD r) = some r := by
  obtain ⟨hlow, hhigh⟩ := h
  have hbmod : Int.bmod r (2 ^ 32) = r := Int.bmod_eq_of_le (by omega) (by omega)
  cases r with
  | ofNat n =>
    obtain ⟨hspace, hminus⟩ := dropWhile_digits n
    rw [Int.ofNat_eq_natCast] at hbmod ⊢
    rw [fmtD_natCast, scanD]
    simp only [hspace, hminus, if_false, takeWhile_digits, Nat.toDigits_ne_nil]
    rw [← decNat, decNat_toDigits, hbmod]
  | negSucc n =>
    have hminus : ¬ Char.isWhitespace '-' = true := by decide
    rw [fmtD_negSucc, scanD]
    simp only [List.dropWhile_cons_of_neg hminus, List.head?_cons, if_true, List.tail_cons,
      takeWhile_digits, Nat.toDigits_ne_nil, if_false]
    rw [← decNat, decNat_toDigits]
    exact congrArg some hbmod

-- ---------------------------------------------------------------------------
-- A term with more options
-- ---------------------------------------------------------------------------

theorem vfiParseOptions_append (s t : List Char) :
    vfiParseOptions (s ++ ',' :: t) = vfiParseOptions s ++ vfiParseOptions t := by
  rw [vfiParseOptions, List.splitOn_append_cons_self, List.map_append]
  rfl

/-- Options added to a term that has some are added to those it is parsed to. -/
theorem parseDesc_append (build : Build) {s t : List Char} (hmark : '?' ∈ afterScheme s)
    (ht : strstr t "://".toList = none) :
    parseDesc build (s ++ ',' :: t) = (parseDesc build s).map fun d =>
      { d with query := d.query ++ vfiParseOptions t } := by
  obtain ⟨path, options, hs, hpath⟩ := List.eq_append_cons_of_mem hmark
  have hshort := nameRemainder_append (t := options) hpath
  have hlong := nameRemainder_append (t := options ++ ',' :: t) hpath
  unfold parseDesc
  rw [afterScheme_append (by decide) ht, hs, List.append_assoc, List.cons_append, hshort, hlong]
  dsimp only [Option.map_some, Option.getD_some]
  rw [vfiParseOptions_append]
  split
  · rfl
  · rfl

theorem parseDesc_query_nil {build : Build} {s : List Char} {d : VfiDescParam}
    (hmark : '?' ∉ afterScheme s) (h : parseDesc build s = .ok d) : d.query = [] := by
  unfold parseDesc at h
  rw [nameRemainder_of_not_mem hmark] at h
  dsimp only at h
  split at h
  · cases h
  · obtain rfl := Except.ok.inj h
    rfl

theorem parseDesc_query_ne_nil {build : Build} {s : List Char} {d : VfiDescParam}
    (hmark : '?' ∈ afterScheme s) (h : parseDesc build s = .ok d) : d.query ≠ [] := by
  obtain ⟨path, options, hs, hpath⟩ := List.eq_append_cons_of_mem hmark
  unfold parseDesc at h
  rw [hs, nameRemainder_append hpath] at h
  dsimp only at h
  split at h
  · cases h
  · obtain rfl := Except.ok.inj h
    rw [Option.map_some, Option.getD_some, vfiParseOptions, ne_eq, List.map_eq_nil_iff]
    exact List.splitOn_ne_nil _ _

/-- A bind with a scheme is read term by term, whatever its source. -/
theorem vfiParseBind_src (build : Build) {x d : DescText} {op : Word} {src : List Char}
    (hx : x.op = some op) (hd : d.op = none)
    (hdup : (vfiStrDup (x.text ++ '/' :: d.text ++ '=' :: src)).isSome) :
    vfiParseBind build (x.text ++ '/' :: d.text ++ '=' :: src) =
      (vfiParseDesc build src).map fun src => ⟨x.denote build, d.denote build, src⟩ := by
  have hop : ':' ∉ op.chars := (op.uses []).not_mem (by decide) (by decide)
  have hxslash : '/' ∉ x.pathText ++ x.optionsText := by
    rw [List.mem_append, not_or]
    exact ⟨x.pathText_uses.not_mem (by decide) (by decide),
      x.optionsText_uses.not_mem (by decide) (by decide)⟩
  have hequal : '=' ∉ d.text := (DescText.text_uses hd).not_mem (by decide) (by decide)
  have htext : x.text ++ '/' :: d.text ++ '=' :: src = op.chars ++ ':' :: ['/', '/'] ++
      (x.pathText ++ x.optionsText ++ '/' :: (d.text ++ '=' :: src)) := by
    simp [DescText.text, DescText.opText, hx]
  have hscheme : op.chars ++ ':' :: ['/', '/'] ++ (x.pathText ++ x.optionsText) = x.text := by
    simp [DescText.text, DescText.opText, hx]
  have hstart : afterScheme (x.text ++ '/' :: d.text ++ '=' :: src) =
      x.pathText ++ x.optionsText ++ '/' :: (d.text ++ '=' :: src) := by
    have hfind := strstr_append ['/', '/']
      (x.pathText ++ x.optionsText ++ '/' :: (d.text ++ '=' :: src)) hop
    have hneedle : "://".toList = ':' :: ['/', '/'] := rfl
    rw [htext, afterScheme, hneedle, hfind]
    rfl
  have htake : (x.text ++ '/' :: d.text ++ '=' :: src).take
      ((x.text ++ '/' :: d.text ++ '=' :: src).length -
        (x.pathText ++ x.optionsText ++ '/' :: (d.text ++ '=' :: src)).length) =
      op.chars ++ ':' :: ['/', '/'] := by
    rw [htext, List.length_append, Nat.add_sub_cancel, List.take_left]
  have hxparse := x.vfiParseDesc_denote build (vfiStrDup_sublist hdup (by simp))
  have hdinfix : List.IsInfix d.text (x.text ++ '/' :: d.text ++ '=' :: src) :=
    ⟨x.text ++ ['/'], '=' :: src, by simp⟩
  have hdparse := d.vfiParseDesc_denote build (vfiStrDup_sublist hdup hdinfix.sublist)
  unfold vfiParseBind
  rw [vfiStrDup_eq_some hdup]
  simp only [hstart, nameRemainder_append hxslash, nameRemainder_append hequal, htake, hscheme,
    Option.map_some, Option.getD_some, hxparse, hdparse]
  cases vfiParseDesc build src with
  | error code => rfl
  | ok src => rfl

-- ---------------------------------------------------------------------------
-- The reply of dst_create
-- ---------------------------------------------------------------------------

/-- What follows the event name in the reply. -/
def replyTail (tag : Word) (r : Int) : List Char :=
  "result".toList ++ '(' :: (Ops.fmtD r ++ [')']) ++
    ',' :: ("reply(".toList ++ tag.chars ++ [')', '\n'])

theorem replyTail_eq (tag : Word) (r : Int) :
    replyTail tag r = "result".toList ++ '(' :: (Ops.fmtD r ++ [')']) ++
      ',' :: ("reply(".toList ++ tag.chars ++ [')', '\n']) :=
  rfl

theorem fmtD_uses (r : Int) (allowed : List Char) : Uses allowed (Ops.fmtD r) := by
  intro c hmem hc
  have hspecial : special.all fun c => c ≠ '-' ∧ c.isDigit = false := by decide
  obtain ⟨hminus, hdigit⟩ := of_decide_eq_true (List.all_eq_true.mp hspecial c hc)
  exact absurd hmem (not_mem_fmtD r hminus hdigit)

theorem plain_uses {s : List Char} (allowed : List Char) (h : s.all fun c => c ∉ special) :
    Uses allowed s :=
  fun c hmem hc => absurd hc (plain_of_all h c hmem)

theorem replyTail_uses (tag : Word) (r : Int) : Uses ['(', ')', ','] (replyTail tag r) := by
  have hclose : Uses ['(', ')', ','] [')'] := (uses_nil _).cons (by decide)
  have hcode := (fmtD_uses r _).append hclose
  have hreply : Uses ['(', ')', ','] ("reply(".toList ++ tag.chars ++ [')', '\n']) := by
    refine Uses.append (Uses.append ?_ (tag.uses _)) ?_
    · exact (plain_uses _ (by decide : "reply".toList.all fun c => c ∉ special)).append
        ((uses_nil _).cons (by decide : '(' ∈ _))
    · exact (plain_uses _ (by decide : ['\n'].all fun c => c ∉ special)).cons (by decide)
  exact ((plain_uses _ (by decide)).append (hcode.cons (by decide))).append
    (hreply.cons (by decide))

theorem replyTail_options (tag : Word) (r : Int) :
    ∃ rest, vfiParseOptions (replyTail tag r) =
      ("result".toList ++ '=' :: Ops.fmtD r) :: rest := by
  have hcode : ',' ∉ Ops.fmtD r := not_mem_fmtD r (by decide) (by decide)
  have hclose : ')' ∉ Ops.fmtD r := not_mem_fmtD r (by decide) (by decide)
  have hfirst : ',' ∉ "result".toList ++ '(' :: (Ops.fmtD r ++ [')']) := by
    simp [hcode]
  have hoption : parseOption ("result".toList ++ '(' :: (Ops.fmtD r ++ [')'])) =
      "result".toList ++ '=' :: Ops.fmtD r := by
    unfold parseOption
    rw [nameRemainder_append (by decide)]
    dsimp only
    rw [nameRemainder_append hclose]
  refine ⟨vfiParseOptions ("reply(".toList ++ tag.chars ++ [')', '\n']), ?_⟩
  rw [replyTail_eq, vfiParseOptions, List.splitOn_append_cons_self_of_not_mem hfirst, List.map_cons,
    hoption]
  rfl

theorem vfiGetOption_append {d : VfiDescParam} {query rest : List (List Char)} :
    vfiGetOption { d with query := query ++ rest } needle =
      (vfiGetOption { d with query := query } needle).or
        (vfiGetOption { d with query := rest } needle) := by
  induction query with
  | nil => rfl
  | cons var query ih =>
    rw [List.cons_append, vfiGetOption_cons, vfiGetOption_cons, ih]
    cases strstr var needle with
    | none => rfl
    | some foundVar =>
      dsimp only
      split
      · rfl
      · rfl

theorem vfiGetOption_eq_none {d : VfiDescParam} :
    vfiGetOption d needle = none ↔ ∀ option ∈ d.query, strstr option needle = none := by
  unfold vfiGetOption
  rw [← List.findSome?_eq_none_iff]
  split
  · next hnone => exact iff_of_true rfl hnone
  · next var hsome =>
    refine iff_of_false ?_ (by rw [hsome]; nofun)
    split
    · nofun
    · nofun

theorem vfiGetOption_result (d : VfiDescParam) (r : Int) (rest : List (List Char)) :
    vfiGetOption { d with query := ("result".toList ++ '=' :: Ops.fmtD r) :: rest }
      "result".toList = some (Ops.fmtD r) := by
  have hfind := strstr_of_isPrefixOf "result".toList ('=' :: Ops.fmtD r)
  have hequal := strstr_append [] (Ops.fmtD r) (by decide : '=' ∉ "result".toList)
  rw [List.append_assoc, List.singleton_append] at hequal
  rw [vfiGetOption_cons, hfind]
  dsimp only
  rw [hequal]
  rfl

variable {build : Build} {params : VfiBindParam} {outcome : Ops.Outcome VfiBindParam}
  {event : List Char} {tag : Word} {src : VfiDescParam} {r : Int}

/-- The source of the reply is parsed like the term with the event name, and then has the code
among its options. -/
theorem vfiParseDesc_reply
    (hdup : (vfiStrDup (eventTerm src event ++ ',' :: replyTail tag r)).isSome)
    (hmark : '?' ∈ afterScheme (eventTerm src event)) :
    vfiParseDesc build (eventTerm src event ++ ',' :: replyTail tag r) =
      (vfiParseDesc build (eventTerm src event)).map fun d =>
        { d with query := d.query ++ vfiParseOptions (replyTail tag r) } := by
  have hscheme : strstr (replyTail tag r) "://".toList = none :=
    strstr_of_not_mem (c := '/') (by decide)
      ((replyTail_uses tag r).not_mem (by decide) (by decide))
  have hshort := vfiStrDup_sublist hdup (List.sublist_append_left _ _)
  rw [vfiParseDesc, vfiStrDup_eq_some hdup, vfiParseDesc, vfiStrDup_eq_some hshort]
  exact parseDesc_append build hmark hscheme

/-- The name of the operation, which starts the reply. -/
def dstCreateWord : Word := ⟨"dst_create".toList, by decide, plain_of_all (by decide)⟩

/-- What the reply prints. -/
structure Printed (params : VfiBindParam) (outcome : Ops.Outcome VfiBindParam)
    (src : VfiDescParam) (event : List Char) (tag : Word) : Prop where
  xfer : Ops.Separated (outcome.bind.getD outcome.params).xfer
  dst : Ops.Separated (outcome.bind.getD outcome.params).dst
  src : (outcome.bind.getD outcome.params).src = src
  event : vfiGetOption params.src "event_name".toList = some event
  tag : vfiGetOption params.src "request".toList = some tag.chars

theorem reply_join (cmd scheme x d s name event result code reply tag : List Char) :
    cmd ++ scheme ++ (x ++ '/' :: d ++ '=' :: s ++ ['?'] ++ name ++ event ++ [')', ',']) ++
        (result ++ ['(']) ++ code ++ (')' :: ',' :: reply) ++ tag ++ ')' :: ['\n'] =
      cmd ++ scheme ++ x ++ '/' :: d ++ '=' :: (s ++ '?' :: name ++ event ++ [')'] ++
        ',' :: (result ++ '(' :: (code ++ [')']) ++ ',' :: (reply ++ tag ++ [')', '\n']))) := by
  simp

theorem Printed.text (h : Printed params outcome src event tag) (r : Int) :
    dstReply params outcome r = "dst_create".toList ++ "://".toList ++
      Ops.fmtFragment (outcome.bind.getD outcome.params).xfer ++
        '/' :: Ops.fmtFragment (outcome.bind.getD outcome.params).dst ++
          '=' :: (eventTerm src event ++ ',' :: replyTail tag r) := by
  have hbefore : dstReply params outcome r =
      "dst_create".toList ++ "://".toList ++
        (Ops.fmtBind (outcome.bind.getD outcome.params) ++ ['?'] ++ "event_name(".toList ++
          Ops.fmtS (vfiGetOption params.src "event_name".toList) ++ "),".toList) ++
        "result(".toList ++ Ops.fmtD r ++ "),reply(".toList ++
        Ops.fmtS (vfiGetOption params.src "request".toList) ++ ')' :: ['\n'] := rfl
  have hmark : "?event_name(".toList = '?' :: "event_name(".toList := rfl
  have hclose : "),".toList = [')', ','] := rfl
  have hresult : "result(".toList = "result".toList ++ ['('] := rfl
  have hreply : "),reply(".toList = ')' :: ',' :: "reply(".toList := rfl
  rewrite [hbefore, h.event, h.tag, eventTerm, replyTail_eq, hmark, hclose, hresult, hreply,
    Ops.fmtBind, h.src]
  exact reply_join _ _ _ _ _ _ _ _ _ _ _

theorem Printed.parse (h : Printed params outcome src event tag) (build : Build)
    (hdup : (vfiStrDup (dstReply params outcome r)).isSome) :
    ∃ xfer dst, vfiParseBind build (dstReply params outcome r) =
      (vfiParseDesc build (eventTerm src event ++ ',' :: replyTail tag r)).map fun src =>
        ⟨xfer, dst, src⟩ := by
  obtain ⟨nx, lx, hlx, hnx, hlocx⟩ := h.xfer
  obtain ⟨nd, ld, hld, hnd, hlocd⟩ := h.dst
  have htext : dstReply params outcome r =
      DescText.text { Ops.fragmentText nx lx (outcome.bind.getD outcome.params).xfer [] with
          op := some dstCreateWord } ++
        '/' :: (Ops.fragmentText nd ld (outcome.bind.getD outcome.params).dst []).text ++
          '=' :: (eventTerm src event ++ ',' :: replyTail tag r) := by
    have hxtext : DescText.text { Ops.fragmentText nx lx
        (outcome.bind.getD outcome.params).xfer [] with op := some dstCreateWord } =
        "dst_create".toList ++ "://".toList ++
          ((Ops.fragmentText nx lx (outcome.bind.getD outcome.params).xfer []).pathText ++ []) :=
      rfl
    have hdtext : (Ops.fragmentText nd ld (outcome.bind.getD outcome.params).dst []).text =
        [] ++ ((Ops.fragmentText nd ld (outcome.bind.getD outcome.params).dst []).pathText ++ []) :=
      rfl
    rw [h.text, hxtext, hdtext, Ops.pathText_fragment hlx hnx hlocx,
      Ops.pathText_fragment hld hnd hlocd, List.append_nil, List.append_nil, List.nil_append]
  rw [htext] at hdup ⊢
  exact ⟨_, _, vfiParseBind_src build rfl rfl hdup⟩

/-- The options of the source after those that the event name makes. -/
theorem vfiGetOption_reply {d : VfiDescParam} (r : Int) :
    vfiGetOption { d with query := d.query ++ vfiParseOptions (replyTail tag r) }
        "result".toList =
      some ((vfiGetOption d "result".toList).getD (Ops.fmtD r)) := by
  obtain ⟨rest, htail⟩ := replyTail_options tag r
  rw [vfiGetOption_append, htail, vfiGetOption_result]
  cases vfiGetOption d "result".toList with
  | none => rfl
  | some result => rfl

/-- The source term of a reply that fits, and its part for the event, fit too. -/
theorem Printed.dup (h : Printed params outcome src event tag)
    (hdup : (vfiStrDup (dstReply params outcome r)).isSome) :
    (vfiStrDup (eventTerm src event ++ ',' :: replyTail tag r)).isSome ∧
      (vfiStrDup (eventTerm src event)).isSome := by
  have hsuffix : List.IsSuffix (eventTerm src event ++ ',' :: replyTail tag r)
      (dstReply params outcome r) := by
    rw [h.text r]
    exact (List.suffix_cons '=' _).trans (List.suffix_append _ _)
  have hlong := vfiStrDup_sublist hdup hsuffix.sublist
  exact ⟨hlong, vfiStrDup_sublist hlong (List.sublist_append_left _ _)⟩

theorem Printed.readsBack_marked (h : Printed params outcome src event tag)
    (hdup : (vfiStrDup (dstReply params outcome r)).isSome)
    (hmark : '?' ∈ afterScheme (eventTerm src event)) :
    ReadsBack build (dstReply params outcome r) r ↔
      ∃ d, vfiParseDesc build (eventTerm src event) = .ok d ∧ d.query ≠ [] ∧
        scanD ((vfiGetOption d "result".toList).getD (Ops.fmtD r)) = some r := by
  obtain ⟨xfer, dst, hbind⟩ := h.parse build hdup
  obtain ⟨hlong, hshort⟩ := h.dup hdup
  unfold ReadsBack
  rw [hbind, vfiParseDesc_reply hlong hmark, vfiParseDesc_eq hshort]
  cases hparse : parseDesc build (eventTerm src event) with
  | error code =>
    refine iff_of_false ?_ ?_
    · rintro ⟨reply, result, hreply, -⟩
      cases hreply
    · rintro ⟨d, hd, -⟩
      cases hd
  | ok d =>
    have hne := parseDesc_query_ne_nil hmark hparse
    constructor
    · rintro ⟨reply, result, hreply, hresult, hscan⟩
      obtain rfl := Except.ok.inj hreply
      rw [vfiGetOption_reply, Option.some.injEq] at hresult
      exact ⟨d, rfl, hne, hresult ▸ hscan⟩
    · rintro ⟨d', hd, -, hscan⟩
      obtain rfl := Except.ok.inj hd
      exact ⟨_, _, rfl, vfiGetOption_reply r, hscan⟩

/-- Without a mark the reply has no options, and so no result. -/
theorem Printed.not_readsBack (h : Printed params outcome src event tag)
    (hdup : (vfiStrDup (dstReply params outcome r)).isSome)
    (hmark : '?' ∉ afterScheme (eventTerm src event)) :
    ¬ ReadsBack build (dstReply params outcome r) r := by
  obtain ⟨xfer, dst, hbind⟩ := h.parse build hdup
  have hmark' : '?' ∉ afterScheme (eventTerm src event ++ ',' :: replyTail tag r) := by
    have htail : '?' ∉ replyTail tag r := (replyTail_uses tag r).not_mem (by decide) (by decide)
    have hscheme : strstr (replyTail tag r) "://".toList = none :=
      strstr_of_not_mem (c := '/') (by decide)
        ((replyTail_uses tag r).not_mem (by decide) (by decide))
    rw [afterScheme_append (by decide) hscheme]
    simp [hmark, htail]
  unfold ReadsBack
  rw [hbind, vfiParseDesc_eq (h.dup hdup).1]
  rintro ⟨reply, result, hreply, hresult, -⟩
  cases hparse : parseDesc build (eventTerm src event ++ ',' :: replyTail tag r) with
  | error code =>
    rw [hparse] at hreply
    cases hreply
  | ok d =>
    rw [hparse] at hreply
    obtain rfl := Except.ok.inj hreply
    rw [vfiGetOption, parseDesc_query_nil hmark' hparse] at hresult
    cases hresult

/-- What `sscanf` is given is the code, unless an option that the event name makes has `result`
in it. -/
theorem Printed.readsBack_iff (h : Printed params outcome src event tag)
    (hdup : (vfiStrDup (dstReply params outcome r)).isSome) :
    ReadsBack build (dstReply params outcome r) r ↔
      ∃ d, vfiParseDesc build (eventTerm src event) = .ok d ∧ d.query ≠ [] ∧
        scanD ((vfiGetOption d "result".toList).getD (Ops.fmtD r)) = some r := by
  by_cases hmark : '?' ∈ afterScheme (eventTerm src event)
  · exact h.readsBack_marked hdup hmark
  · refine iff_of_false (h.not_readsBack hdup hmark) ?_
    rw [vfiParseDesc_eq (h.dup hdup).2]
    rintro ⟨d, hd, hne, -⟩
    exact hne (parseDesc_query_nil hmark hd)

/-- No code but the one it holds is read from an option of the event name. -/
theorem Printed.unmasked (h : Printed params outcome src event tag)
    (hfits : ∀ r, IsInt r → (vfiStrDup (dstReply params outcome r)).isSome)
    (hreads : ∀ r, IsInt r → ReadsBack build (dstReply params outcome r) r) :
    Unmasked build src event := by
  have hzero : IsInt 0 := ⟨by decide, by decide⟩
  have hone : IsInt 1 := ⟨by decide, by decide⟩
  obtain ⟨d, hd, hne, hscan⟩ := (h.readsBack_iff (hfits 0 hzero)).mp (hreads 0 hzero)
  obtain ⟨d', hd', -, hscan'⟩ := (h.readsBack_iff (hfits 1 hone)).mp (hreads 1 hone)
  obtain rfl := Except.ok.inj (hd.symm.trans hd')
  refine ⟨d, hd, hne, vfiGetOption_eq_none.mp ?_⟩
  cases hresult : vfiGetOption d "result".toList with
  | none => rfl
  | some result =>
    rw [hresult, Option.getD_some] at hscan hscan'
    cases Option.some.inj (hscan.symm.trans hscan')

/-- The name of an event as an option. -/
def eventOption (event : Word) : DescOption :=
  ⟨⟨"event_name".toList, by decide, plain_of_all (by decide)⟩, some event⟩

theorem eventTerm_text {name event : Word} {location : List Word} (hlocation : location ≠ [])
    (hname : src.name = some name.chars)
    (hloc : src.location = some (['.'].intercalate (location.map Word.chars))) :
    eventTerm src event.chars =
      (Ops.fragmentText name location src [eventOption event]).text := by
  have hoptions : (Ops.fragmentText name location src [eventOption event]).optionsText =
      '?' :: ("event_name".toList ++ ('(' :: event.chars ++ [')'])) :=
    congrArg ('?' :: ·) List.intercalate_singleton
  have hop : (Ops.fragmentText name location src [eventOption event]).opText = [] := rfl
  have hmark : "?event_name(".toList = '?' :: ("event_name".toList ++ ['(']) := rfl
  rewrite [DescText.text, hop, hoptions, Ops.pathText_fragment hlocation hname hloc, eventTerm,
    hmark]
  generalize "event_name".toList = var
  simp

/-- For an event name without separators, its own text decides. -/
theorem unmasked_word_iff (build : Build) (event : Word) (hsrc : Ops.Separated src)
    (hdup : (vfiStrDup (eventTerm src event.chars)).isSome) :
    Unmasked build src event.chars ↔ strstr event.chars "result".toList = none := by
  obtain ⟨name, location, hlocation, hname, hloc⟩ := hsrc
  rw [eventTerm_text hlocation hname hloc] at hdup
  have hparse := (Ops.fragmentText name location src [eventOption event]).vfiParseDesc_denote build
    hdup
  have hquery : ((Ops.fragmentText name location src [eventOption event]).denote build).query =
      ["event_name".toList ++ '=' :: event.chars] := rfl
  have hvar : strstr "event_name".toList "result".toList = none := by decide
  have hfind := strstr_append_cons (s := "event_name".toList) (t := event.chars)
    (by decide : '=' ∉ "result".toList) (by decide)
  rw [hvar, Option.map_none, Option.none_or] at hfind
  unfold Unmasked
  rw [eventTerm_text hlocation hname hloc, hparse]
  constructor
  · rintro ⟨d, hd, -, hnone⟩
    obtain rfl := Except.ok.inj hd
    rw [hquery] at hnone
    exact hfind.symm.trans (hnone _ List.mem_cons_self)
  · intro hnone
    refine ⟨_, rfl, by rw [hquery]; exact List.cons_ne_nil _ _, fun option hoption => ?_⟩
    rw [hquery, List.mem_singleton] at hoption
    rw [hoption, hfind, hnone]

/-- Lookup is by exact name exactly where the first option with the name in its text has that
name; and the reply of `dst_create` is read back with every code exactly where it fits and none
of the options that the event name makes has `result` in it. -/
theorem optionLookup_iff {query : List (List Char)} {name : List Char} (hname : '=' ∉ name)
    (h : Printed params outcome src event tag) :
    (getOptionPtr query name = exactOptionPtr query name ↔ FirstExact query name) ∧
      ((∀ r, IsInt r → ReadsBack build (dstReply params outcome r) r) ↔
        (∀ r, IsInt r → (vfiStrDup (dstReply params outcome r)).isSome) ∧
          Unmasked build src event) := by
  refine ⟨getOptionFrom_iff hname, fun hreads => ?_, ?_⟩
  · have hfits : ∀ r, IsInt r → (vfiStrDup (dstReply params outcome r)).isSome := by
      intro r hr
      obtain ⟨reply, result, hparse, -⟩ := hreads r hr
      exact vfiStrDup_of_parse hparse
    exact ⟨hfits, h.unmasked hfits hreads⟩
  · rintro ⟨hfits, d, hd, hne, hnone⟩ r hr
    refine (h.readsBack_iff (hfits r hr)).mpr ⟨d, hd, hne, ?_⟩
    rw [vfiGetOption_eq_none.mpr hnone]
    exact scanD_fmtD hr

/-- A reply about one-letter components, with the event `done`. -/
def doneParams : VfiBindParam where
  xfer := Ops.letters 'x' 'p' 0
  dst := Ops.letters 'd' 'q' 0
  src := { Ops.letters 's' 'r' 0 with query := ["event_name=done".toList, "request=c0".toList] }

theorem printed_done :
    Printed doneParams { ret := 0, params := doneParams } doneParams.src "done".toList
      Ops.tagText where
  xfer := Ops.separated_letters 0 (by decide) (by decide)
  dst := Ops.separated_letters 0 (by decide) (by decide)
  src := rfl
  event := by decide
  tag := by decide

theorem optionLookup_iff_done :
    (getOptionPtr ["event_name=done".toList, "result=0".toList] "result".toList =
        exactOptionPtr ["event_name=done".toList, "result=0".toList] "result".toList ↔
      FirstExact ["event_name=done".toList, "result=0".toList] "result".toList) ∧
    ((∀ r, IsInt r →
        ReadsBack ⟨32, true⟩ (dstReply doneParams { ret := 0, params := doneParams } r) r) ↔
      (∀ r, IsInt r →
          (vfiStrDup (dstReply doneParams { ret := 0, params := doneParams } r)).isSome) ∧
        Unmasked ⟨32, true⟩ doneParams.src "done".toList) :=
  optionLookup_iff (by decide) printed_done

/-- An event with the name `result`. -/
theorem option_masked : ¬ ∀ query name, '=' ∉ name →
    getOptionPtr query name = exactOptionPtr query name := by
  intro h
  exact absurd (h ["event_name=result".toList, "result=0".toList] "result".toList (by decide))
    (by decide)

end Vfi
