import Vfi.DescGrammar

/-!
# The terms of a bind

A bind is `xfer/dst=src`, three required terms. `vfi_parse_bind` skips the
branch of a separator it does not find, and leaves the terms behind it zeroed.
When it returns 0 for three terms only: `threeTerms_iff`.
-/

namespace Vfi

-- ---------------------------------------------------------------------------
-- The terms of a text
-- ---------------------------------------------------------------------------

/-- `op://`, or nothing. -/
def schemeText (s : List Char) : List Char := s.take (s.length - (afterScheme s).length)

/-- After the scheme there is a `/` and later a `=`. The scheme goes with the first term. -/
structure BindTerms (s xfer dst src : List Char) : Prop where
  cut : ∃ name, afterScheme s = name ++ '/' :: dst ++ '=' :: src ∧ '/' ∉ name ∧
    xfer = schemeText s ++ name
  equal : '=' ∉ dst

def HasTerms (s : List Char) : Prop := ∃ xfer dst src, BindTerms s xfer dst src

/-- The parse gives 0 only for three terms, each parsed by itself, and an error for a text that
lacks a separator. -/
structure ThreeTerms (build : Build) (s : List Char) : Prop where
  ok : ∀ x, vfiParseBind build s = .ok x → ∃ xfer dst src, BindTerms s xfer dst src ∧
    vfiParseDesc build xfer = .ok x.xfer ∧ vfiParseDesc build dst = .ok x.dst ∧
      vfiParseDesc build src = .ok x.src
  missing : ¬ HasTerms s → ∃ ret, vfiParseBind build s = .error ret ∧ ret ≠ 0

/-- The part of a term that has its offset and extent. -/
def rangeText (desc : List Char) : List Char :=
  let (name, location) := splitLocation (nameRemainder (afterScheme desc) '?').1
  location.getD name

/-- The offset and the extent are numbers to their ends, or nothing looks whether they are. -/
def NumbersOk (build : Build) (desc : List Char) : Prop :=
  build.debug = true → (parseNumber build (splitRange (rangeText desc)).soffset).2 = none ∧
    (parseNumber build (splitRange (rangeText desc)).sextent).2 = none

/-- The terms that the separators there are cut. -/
def presentTerms (s : List Char) : List (List Char) :=
  let (name, rest) := nameRemainder (afterScheme s) '/'
  (schemeText s ++ name) ::
    match rest with
    | none => []
    | some rest => let (dst, src) := nameRemainder rest '='; dst :: src.toList

/-- The text cannot be copied, or one of its terms has a malformed number. -/
def Refused (build : Build) (s : List Char) : Prop :=
  vfiStrDup s = none ∨ ∃ term ∈ presentTerms s, ¬ NumbersOk build term

variable {build : Build} {s xfer dst src : List Char}

theorem schemeText_append (s : List Char) : schemeText s ++ afterScheme s = s := by
  have hsuffix : List.IsSuffix (afterScheme s) s := by
    unfold afterScheme
    cases hfind : strstr s "://".toList with
    | none => exact List.suffix_rfl
    | some rest => exact (List.drop_suffix 3 rest).trans (strstr_suffix hfind)
  unfold schemeText
  generalize afterScheme s = rest at hsuffix ⊢
  obtain ⟨scheme, rfl⟩ := hsuffix
  rw [List.length_append, Nat.add_sub_cancel, List.take_left]

theorem BindTerms.text (h : BindTerms s xfer dst src) : s = xfer ++ '/' :: dst ++ '=' :: src := by
  obtain ⟨name, hcut, -, rfl⟩ := h.cut
  have hs := schemeText_append s
  rw [hcut] at hs
  simpa using hs.symm

theorem parseDesc_ok_iff (desc : List Char) :
    (∃ d, parseDesc build desc = .ok d) ↔ NumbersOk build desc := by
  unfold parseDesc NumbersOk rangeText
  dsimp only
  generalize splitRange _ = range
  generalize parseNumber build range.sextent = extent
  generalize parseNumber build range.soffset = offset
  obtain ⟨extent, badExtent⟩ := extent
  obtain ⟨offset, badOffset⟩ := offset
  dsimp only
  split
  · next code hcode =>
    refine iff_of_false (fun ⟨d, hd⟩ => by cases hd) fun hnumbers => ?_
    unfold numberError at hcode
    split at hcode
    · next hdebug =>
      obtain ⟨hoffset, hextent⟩ := hnumbers hdebug
      rw [hoffset, hextent] at hcode
      cases hcode
    · cases hcode
  · next hnone =>
    refine iff_of_true ⟨_, rfl⟩ fun hdebug => ?_
    unfold numberError at hnone
    rw [if_pos hdebug] at hnone
    cases badOffset with
    | some stop => cases hnone
    | none => exact ⟨rfl, Option.map_eq_none_iff.mp hnone⟩

theorem vfiParseDesc_ok_iff {desc : List Char} (h : (vfiStrDup desc).isSome) :
    (∃ d, vfiParseDesc build desc = .ok d) ↔ NumbersOk build desc := by
  rw [vfiParseDesc_eq h]
  exact parseDesc_ok_iff desc

theorem bind_eq_ok {α β : Type} {a : Except Int α} {f : α → Except Int β} {x : β} :
    (a >>= f) = .ok x ↔ ∃ d, a = .ok d ∧ f d = .ok x := by
  cases a with
  | error ret =>
    refine iff_of_false nofun ?_
    rintro ⟨d, hd, -⟩
    cases hd
  | ok d =>
    constructor
    · exact fun hx => ⟨d, rfl, hx⟩
    · rintro ⟨d', hd, hx⟩
      obtain rfl := Except.ok.inj hd
      exact hx

-- ---------------------------------------------------------------------------
-- What the parse is for each shape of text
-- ---------------------------------------------------------------------------

theorem vfiParseBind_xfer (hdup : (vfiStrDup s).isSome) (hslash : '/' ∉ afterScheme s) :
    vfiParseBind build s = (vfiParseDesc build s).map fun xfer => ⟨xfer, {}, {}⟩ := by
  unfold vfiParseBind
  rw [vfiStrDup_eq_some hdup]
  dsimp only
  rw [nameRemainder_of_not_mem hslash]
  dsimp only
  rw [← schemeText, schemeText_append]
  cases vfiParseDesc build s with
  | error ret => rfl
  | ok xfer => rfl

theorem vfiParseBind_dst {name : List Char} (hdup : (vfiStrDup s).isSome)
    (hcut : afterScheme s = name ++ '/' :: dst) (hslash : '/' ∉ name) (hequal : '=' ∉ dst) :
    vfiParseBind build s = do
      let dst ← vfiParseDesc build dst
      let xfer ← vfiParseDesc build (schemeText s ++ name)
      return ⟨xfer, dst, {}⟩ := by
  unfold vfiParseBind
  rw [vfiStrDup_eq_some hdup]
  dsimp only
  rw [← schemeText, hcut, nameRemainder_append hslash]
  dsimp only
  rw [nameRemainder_of_not_mem hequal]
  rfl

theorem vfiParseBind_terms (hdup : (vfiStrDup s).isSome) (h : BindTerms s xfer dst src) :
    vfiParseBind build s = do
      let src ← vfiParseDesc build src
      let dst ← vfiParseDesc build dst
      let xfer ← vfiParseDesc build xfer
      return ⟨xfer, dst, src⟩ := by
  obtain ⟨name, hcut, hslash, rfl⟩ := h.cut
  unfold vfiParseBind
  rw [vfiStrDup_eq_some hdup]
  dsimp only
  rw [← schemeText, hcut, List.append_assoc, List.cons_append, nameRemainder_append hslash]
  dsimp only
  rw [nameRemainder_append h.equal]
  rfl

/-- Which separators a text has, and the terms they cut. -/
inductive Shape (s : List Char) : Prop
  | xfer : '/' ∉ afterScheme s → presentTerms s = [s] → Shape s
  | dst {name dst : List Char} : afterScheme s = name ++ '/' :: dst → '/' ∉ name → '=' ∉ dst →
      presentTerms s = [schemeText s ++ name, dst] → Shape s
  | terms {xfer dst src : List Char} : BindTerms s xfer dst src →
      presentTerms s = [xfer, dst, src] → Shape s

theorem shape (s : List Char) : Shape s := by
  by_cases hslash : '/' ∈ afterScheme s
  · obtain ⟨name, rest, hcut, hname⟩ := List.eq_append_cons_of_mem hslash
    by_cases hequal : '=' ∈ rest
    · obtain ⟨dst, src, rfl, hdst⟩ := List.eq_append_cons_of_mem hequal
      have hbind : BindTerms s (schemeText s ++ name) dst src := by
        refine ⟨⟨name, ?_, hname, rfl⟩, hdst⟩
        rw [hcut, List.append_assoc, List.cons_append]
      refine .terms hbind ?_
      rw [presentTerms, hcut, nameRemainder_append hname]
      dsimp only
      rw [nameRemainder_append hdst]
      rfl
    · refine .dst hcut hname hequal ?_
      rw [presentTerms, hcut, nameRemainder_append hname]
      dsimp only
      rw [nameRemainder_of_not_mem hequal]
      rfl
  · refine .xfer hslash ?_
    rw [presentTerms, nameRemainder_of_not_mem hslash]
    dsimp only
    rw [schemeText_append]

/-- Every term can be copied where the text can. -/
theorem presentTerms_sublist {term : List Char} (h : term ∈ presentTerms s) :
    List.Sublist term s := by
  cases shape s with
  | xfer _ hterms =>
    rw [hterms, List.mem_singleton] at h
    rw [h]
  | @dst name dst hcut _ _ hterms =>
    have hs := schemeText_append s
    rw [hcut] at hs
    rw [hterms, List.mem_pair] at h
    rcases h with rfl | rfl
    · have hsub := (List.sublist_append_left name ('/' :: dst)).append_left (schemeText s)
      rwa [hs] at hsub
    · have hsuffix : List.IsSuffix term (schemeText s ++ (name ++ '/' :: term)) :=
        ((List.suffix_cons '/' term).trans (List.suffix_append name _)).trans
          (List.suffix_append (schemeText s) _)
      rw [hs] at hsuffix
      exact hsuffix.sublist
  | @terms xfer dst src hbind hterms =>
    have hs := hbind.text
    rw [hterms, List.mem_cons, List.mem_pair] at h
    rcases h with rfl | rfl | rfl
    · rw [hs, List.append_assoc]
      exact List.sublist_append_left _ _
    · have hinfix : List.IsInfix term (xfer ++ '/' :: term ++ '=' :: src) :=
        ⟨xfer ++ ['/'], '=' :: src, by simp⟩
      rw [hs]
      exact hinfix.sublist
    · rw [hs]
      exact ((List.suffix_cons '=' term).trans (List.suffix_append _ _)).sublist

theorem not_refused_iff (hdup : (vfiStrDup s).isSome) :
    ¬ Refused build s ↔ ∀ term ∈ presentTerms s, ∃ d, vfiParseDesc build term = .ok d := by
  have hok : ∀ term ∈ presentTerms s,
      (∃ d, vfiParseDesc build term = .ok d) ↔ NumbersOk build term :=
    fun term hterm => vfiParseDesc_ok_iff (vfiStrDup_sublist hdup (presentTerms_sublist hterm))
  have hsome : vfiStrDup s ≠ none := by
    rw [vfiStrDup_eq_some hdup]
    nofun
  simp only [Refused, not_or, not_exists, not_and, not_not]
  constructor
  · exact fun h term hterm => (hok term hterm).mpr (h.2 term hterm)
  · exact fun h => ⟨hsome, fun term hterm => (hok term hterm).mp (h term hterm)⟩

/-- The parse gives 0 exactly for a text that can be copied and whose terms can be read. -/
theorem vfiParseBind_ok_iff : (∃ x, vfiParseBind build s = .ok x) ↔ ¬ Refused build s := by
  cases hdup : vfiStrDup s with
  | none =>
    refine iff_of_false ?_ (not_not.mpr (.inl hdup))
    rintro ⟨x, hx⟩
    rw [vfiParseBind, hdup] at hx
    cases hx
  | some copy =>
    have hdup : (vfiStrDup s).isSome := by
      rw [hdup]
      rfl
    rw [not_refused_iff hdup]
    cases shape s with
    | xfer hslash hterms =>
      rw [vfiParseBind_xfer hdup hslash, hterms]
      simp only [List.forall_mem_cons, List.not_mem_nil, false_implies, implies_true,
        and_true]
      cases vfiParseDesc build s with
      | error ret =>
        constructor
        · rintro ⟨x, hx⟩
          cases hx
        · rintro ⟨d, hd⟩
          cases hd
      | ok xfer => exact iff_of_true ⟨_, rfl⟩ ⟨_, rfl⟩
    | dst hcut hname hequal hterms =>
      rw [vfiParseBind_dst hdup hcut hname hequal, hterms]
      simp only [bind_eq_ok, List.forall_mem_cons, List.not_mem_nil, false_implies, implies_true,
        and_true]
      constructor
      · rintro ⟨x, d, hd, e, he, -⟩
        exact ⟨⟨e, he⟩, d, hd⟩
      · rintro ⟨⟨e, he⟩, d, hd⟩
        exact ⟨_, d, hd, e, he, rfl⟩
    | terms hbind hterms =>
      rw [vfiParseBind_terms hdup hbind, hterms]
      simp only [bind_eq_ok, List.forall_mem_cons, List.not_mem_nil, false_implies, implies_true,
        and_true]
      constructor
      · rintro ⟨x, c, hc, d, hd, e, he, -⟩
        exact ⟨⟨e, he⟩, ⟨d, hd⟩, c, hc⟩
      · rintro ⟨⟨e, he⟩, ⟨d, hd⟩, c, hc⟩
        exact ⟨_, c, hc, d, hd, e, he, rfl⟩

/-- A bind that parses is parsed term by term. -/
theorem BindTerms.parse {x : VfiBindParam} (h : BindTerms s xfer dst src)
    (hx : vfiParseBind build s = .ok x) :
    vfiParseDesc build xfer = .ok x.xfer ∧ vfiParseDesc build dst = .ok x.dst ∧
      vfiParseDesc build src = .ok x.src := by
  rw [vfiParseBind_terms (vfiStrDup_of_parse hx) h] at hx
  obtain ⟨c, hc, hx⟩ := bind_eq_ok.mp hx
  obtain ⟨d, hd, hx⟩ := bind_eq_ok.mp hx
  obtain ⟨e, he, hx⟩ := bind_eq_ok.mp hx
  obtain rfl := Except.ok.inj hx
  exact ⟨he, hd, hc⟩

/-- The parse of a bind asks for three terms exactly where both separators are there, or else
the text or a term that it cuts is refused. -/
theorem threeTerms_iff (build : Build) (s : List Char) :
    ThreeTerms build s ↔ HasTerms s ∨ Refused build s := by
  by_cases hterms : HasTerms s
  · refine iff_of_true ⟨fun x hx => ?_, fun hno => absurd hterms hno⟩ (.inl hterms)
    obtain ⟨xfer, dst, src, h⟩ := hterms
    exact ⟨xfer, dst, src, h, h.parse hx⟩
  · constructor
    · intro h
      refine .inr (not_not.mp fun hparsed => ?_)
      obtain ⟨x, hx⟩ := vfiParseBind_ok_iff.mpr hparsed
      obtain ⟨ret, hret, -⟩ := h.missing hterms
      rw [hx] at hret
      cases hret
    · intro h
      have hrefused := h.resolve_left hterms
      have hfails : ∀ x, vfiParseBind build s ≠ .ok x :=
        fun x hx => vfiParseBind_ok_iff.mp ⟨x, hx⟩ hrefused
      refine ⟨fun x hx => absurd hx (hfails x), fun _ => ?_⟩
      cases hparse : vfiParseBind build s with
      | ok x => exact absurd hparse (hfails x)
      | error ret => exact ⟨ret, rfl, vfiParseBind_error hparse⟩

/-- A bind of one term is accepted. -/
theorem oneTerm_accepted : ¬ ∀ (build : Build) (s : List Char), ThreeTerms build s := by
  intro h
  have hparse : vfiParseBind ⟨32, true⟩ "x.p".toList =
      .ok ⟨{ name := some ['x'], location := some ['p'] }, {}, {}⟩ := by
    decide
  obtain ⟨xfer, dst, src, hterms, -⟩ := (h ⟨32, true⟩ "x.p".toList).ok _ hparse
  have hslash := congrArg (List.count '/') hterms.text
  simp at hslash

end Vfi
