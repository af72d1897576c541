import Vfi.SmbCreate

/-!
# Allocating the pages of an SMB

`vfi_alloc_pages` has one counter for its three ways to get pages. It holds the
pages obtained, counts the page that failed as well, or is the error code of
`get_user_pages`; one comparison and one countdown then read it. When that
leaves all pages or none: `allOrNothing_iff`.
-/

namespace Vfi.PageAlloc

/-- How far the fetching came: the counter `page`, the array, and the pages obtained. -/
structure Fetch where
  page : Int
  ary : List (Option Nat)
  got : List Nat
deriving DecidableEq, Repr

section Model

variable (calls : SmbCalls) (smb : NewSmb)

/-- The loop for scattered pages, with so many pages to go. -/
def discontigLoop (allocPage : Nat → Option Nat) : Nat → Fetch → Fetch
  | 0, f => f
  | n + 1, f =>
    match allocPage f.page.toNat with
    | some frame => discontigLoop allocPage n
        ⟨f.page + 1, f.ary.set f.page.toNat (some frame), f.got ++ [frame]⟩
    | none => { f with ary := f.ary.set f.page.toNat none }

/-- The default loop, with that remainder. -/
def defaultLoop (allocPage : Nat → Option Nat) : Nat → Fetch → Fetch
  | 0, f => f
  | remainder + 1, f =>
    match allocPage f.page.toNat with
    | some frame => defaultLoop allocPage remainder
        ⟨f.page + 1, f.ary.set f.page.toNat (some frame), f.got ++ [frame]⟩
    -- The counter has moved on when the page is looked at.
    | none => { f with page := f.page + 1, ary := f.ary.set f.page.toNat none }

def fetch : Fetch :=
  let zeroed : Fetch := ⟨0, List.replicate smb.numPages.toNat none, []⟩
  if smb.address ≠ 0 then
    match vfiGetOption smb.desc "mytid".toList with
    | none => zeroed
    | some stid =>
      match calls.getUserPages stid smb.address smb.numPages with
      | .ok frames => ⟨frames.length, frames.map some ++ zeroed.ary.drop frames.length, frames⟩
      | .error code => { zeroed with page := code }
  else if (vfiGetOption smb.desc "discontig".toList).isSome then
    discontigLoop calls.allocPage smb.numPages.toNat zeroed
  else defaultLoop calls.allocPage smb.numPages.toNat zeroed

/-- `while (n--)` over the array: the pages it passes to their release, in order. -/
def countdown (ary : List (Option Nat)) : Nat → List (Option Nat)
  | 0 => []
  | n + 1 => ary.getD n none :: countdown ary n

/-- The countdown from `page`. A negative counter takes it below the array. -/
def freePages (f : Fetch) : Option (List (Option Nat)) :=
  if 0 ≤ f.page ∧ f.page ≤ f.ary.length then some (countdown f.ary f.page.toNat) else none

/-- What `vfi_alloc_pages` returns and leaves, the pages it obtained, and what it freed. -/
structure AllocEnd where
  ret : Int
  smb : NewSmb
  got : List Nat := []
  freed : List (Option Nat) := []
deriving DecidableEq, Repr

def vfiAllocPages : Option AllocEnd :=
  if smb.pages.isSome then some { ret := -einval, smb }
  else
    let smb := { smb with numPages := pageCount smb.size smb.desc.offset.toUInt32 }
    if ¬ calls.kzalloc then some { ret := -enomem, smb }
    else
      let f := fetch calls smb
      if f.page = smb.numPages.toNat then
        some { ret := 0, smb := { smb with pages := some f.ary }, got := f.got }
      else
        (freePages f).map fun freed =>
          { ret := -enomem, smb := { smb with numPages := 0 }, got := f.got, freed }

/-- The pages released, in order. -/
def vfiDeallocPages : Option (List (Option Nat)) :=
  match smb.pages with
  | some pages => some (countdown pages smb.numPages.toNat)
  | none => if smb.numPages = 0 then some [] else none

end Model

/-- `get_user_pages` returns the number of pages pinned, at most those asked for, or a negative
code. -/
structure GetUserPages (calls : SmbCalls) : Prop where
  le : ∀ tid address n frames, calls.getUserPages tid address n = .ok frames →
    frames.length ≤ n.toNat
  neg : ∀ tid address n code, calls.getUserPages tid address n = .error code → code < 0

/-- The SMB has all its pages, and their release releases each once. -/
structure Whole (e : AllocEnd) : Prop where
  pages : e.smb.pages = some (e.got.map some)
  numPages : e.got.length = e.smb.numPages.toNat
  freed : e.freed = []
  released : ∃ pages, vfiDeallocPages e.smb = some pages ∧ pages.Perm (e.got.map some)

/-- The SMB has no pages: those obtained were freed once each, and nothing else was. -/
structure Undone (e : AllocEnd) : Prop where
  ret : e.ret < 0
  freed : e.freed.Perm (e.got.map some)
  pages : e.smb.pages = none
  numPages : e.smb.numPages = 0

/-- The allocation ends, with all pages and 0 or with none and an error. -/
def AllOrNothing (calls : SmbCalls) (smb : NewSmb) : Prop :=
  ∃ e, vfiAllocPages calls smb = some e ∧ (e.ret = 0 → Whole e) ∧ (e.ret ≠ 0 → Undone e)

/-- The failures that the counter misreads do not happen. -/
structure NoMisread (calls : SmbCalls) (smb : NewSmb) : Prop where
  kzalloc : calls.kzalloc ∨ pageCount smb.size smb.desc.offset.toUInt32 = 0
  user : calls.kzalloc → smb.address ≠ 0 → ∀ stid,
    vfiGetOption smb.desc "mytid".toList = some stid → ∀ code,
      calls.getUserPages stid smb.address (pageCount smb.size smb.desc.offset.toUInt32) ≠
        .error code
  default : calls.kzalloc → smb.address = 0 →
    vfiGetOption smb.desc "discontig".toList = none →
      ∀ i < (pageCount smb.size smb.desc.offset.toUInt32).toNat, (calls.allocPage i).isSome

variable {calls : SmbCalls} {smb : NewSmb} {f : Fetch} {n : Nat}

-- ---------------------------------------------------------------------------
-- The loops
-- ---------------------------------------------------------------------------

/-- The array holds the pages obtained, and NULL behind them. -/
structure Filled (n : Nat) (f : Fetch) : Prop where
  ary : f.ary = f.got.map some ++ List.replicate (n - f.got.length) none
  le : f.got.length ≤ n

theorem filled_zeroed (n : Nat) (page : Int) : Filled n ⟨page, List.replicate n none, []⟩ :=
  ⟨by simp, Nat.zero_le n⟩

theorem Filled.length (h : Filled n f) : f.ary.length = n := by
  have := h.le
  rw [h.ary, List.length_append, List.length_map, List.length_replicate]
  omega

theorem Filled.set_some (h : Filled n f) (hlt : f.got.length < n) (page : Int) (frame : Nat) :
    Filled n ⟨page, f.ary.set f.got.length (some frame), f.got ++ [frame]⟩ := by
  obtain ⟨k, hk⟩ : ∃ k, n - f.got.length = k + 1 := ⟨n - f.got.length - 1, by omega⟩
  refine ⟨?_, ?_⟩
  · have hrest : n - (f.got ++ [frame]).length = k := by
      rw [List.length_append, List.length_singleton]
      omega
    dsimp only
    rw [h.ary, hk, hrest, List.set_append_right _ _ (by rw [List.length_map]), List.length_map,
      Nat.sub_self, List.replicate_succ, List.set_cons_zero, List.map_append, List.append_assoc]
    rfl
  · rw [List.length_append, List.length_singleton]
    omega

theorem Filled.set_none (h : Filled n f) (page : Int) :
    Filled n ⟨page, f.ary.set f.got.length none, f.got⟩ := by
  refine ⟨?_, h.le⟩
  dsimp only
  rw [h.ary, List.set_append_right _ _ (by rw [List.length_map]), List.length_map, Nat.sub_self]
  cases n - f.got.length with
  | zero => rfl
  | succ k => rfl

/-- Before each page that is still to be got, the counter is the number of those that were. -/
structure Fetching (n remainder : Nat) (f : Fetch) : Prop where
  filled : Filled n f
  page : f.page = f.got.length
  rest : f.got.length + remainder = n

variable {remainder : Nat}

theorem fetching_zeroed (n : Nat) : Fetching n n ⟨0, List.replicate n none, []⟩ :=
  ⟨filled_zeroed n 0, rfl, Nat.zero_add n⟩

theorem Fetching.index (h : Fetching n remainder f) : f.page.toNat = f.got.length := by
  rw [h.page, Int.toNat_natCast]

theorem Fetching.lt (h : Fetching n (remainder + 1) f) : f.got.length < n := by
  have := h.rest
  omega

/-- A page is got. -/
theorem Fetching.next (h : Fetching n (remainder + 1) f) (frame : Nat) :
    Fetching n remainder
      ⟨f.page + 1, f.ary.set f.got.length (some frame), f.got ++ [frame]⟩ := by
  have hlength : (f.got ++ [frame]).length = f.got.length + 1 := by
    rw [List.length_append, List.length_singleton]
  refine ⟨h.filled.set_some h.lt _ frame, ?_, ?_⟩
  · rw [hlength, h.page, Int.natCast_succ]
  · rw [hlength, ← h.rest]
    omega

theorem discontigLoop_filled (allocPage : Nat → Option Nat) (h : Fetching n remainder f) :
    Filled n (discontigLoop allocPage remainder f) ∧
      (discontigLoop allocPage remainder f).page =
        (discontigLoop allocPage remainder f).got.length := by
  induction remainder generalizing f with
  | zero => exact ⟨h.filled, h.page⟩
  | succ remainder ih =>
    unfold discontigLoop
    rw [h.index]
    split
    · next frame _ => exact ih (h.next frame)
    · exact ⟨h.filled.set_none _, h.page⟩

/-- The default loop gets all its pages, or counts the one it did not get. -/
theorem defaultLoop_filled (allocPage : Nat → Option Nat) (h : Fetching n remainder f) :
    Filled n (defaultLoop allocPage remainder f) ∧
      ((∀ i < n, f.got.length ≤ i → (allocPage i).isSome) ∧
          (defaultLoop allocPage remainder f).page = n ∧
          (defaultLoop allocPage remainder f).got.length = n ∨
        (¬ ∀ i < n, f.got.length ≤ i → (allocPage i).isSome) ∧
          (defaultLoop allocPage remainder f).page =
            (defaultLoop allocPage remainder f).got.length + 1 ∧
          (defaultLoop allocPage remainder f).got.length < n) := by
  induction remainder generalizing f with
  | zero =>
    have hrest := h.rest
    refine ⟨h.filled, .inl ⟨fun i hi hle => ?_, ?_, hrest⟩⟩
    · omega
    · rw [defaultLoop, h.page, ← hrest]
      rfl
  | succ remainder ih =>
    have hlt := h.lt
    unfold defaultLoop
    rw [h.index]
    split
    · next frame hframe =>
      have hlength : (f.got ++ [frame]).length = f.got.length + 1 := by
        rw [List.length_append, List.length_singleton]
      have hall : (∀ i < n, f.got.length + 1 ≤ i → (allocPage i).isSome) ↔
          ∀ i < n, f.got.length ≤ i → (allocPage i).isSome := by
        constructor
        · intro hsome i hi hle
          rcases Nat.eq_or_lt_of_le hle with heq | hlt
          · rw [← heq, hframe]
            rfl
          · exact hsome i hi hlt
        · exact fun hsome i hi hle => hsome i hi (by omega)
      have hloop := ih (h.next frame)
      rw [hlength, hall] at hloop
      exact hloop
    · next hframe =>
      refine ⟨h.filled.set_none _, .inr ⟨fun hall => ?_, by rw [h.page], hlt⟩⟩
      have hsome := hall f.got.length hlt (Nat.le_refl _)
      rw [hframe] at hsome
      cases hsome

-- ---------------------------------------------------------------------------
-- The counter
-- ---------------------------------------------------------------------------

theorem countdown_eq (ary : List (Option Nat)) (h : n ≤ ary.length) :
    countdown ary n = (ary.take n).reverse := by
  induction n with
  | zero => rfl
  | succ n ih =>
    rw [countdown, ih (by omega), List.take_succ_eq_append_getElem h, List.reverse_append,
      List.getD_eq_getElem?_getD, List.getElem?_eq_getElem h]
    rfl

/-- What the counter says of the pages obtained, when the fetching is over. -/
inductive Counted (calls : SmbCalls) (smb : NewSmb) (n : Nat) (f : Fetch) : Prop
  /-- It is their number. -/
  | exact : NoMisread calls smb → f.page = f.got.length → Filled n f → Counted calls smb n f
  /-- It includes one that failed. -/
  | failed : ¬ NoMisread calls smb → f.page = f.got.length + 1 → f.got.length < n →
      Filled n f → Counted calls smb n f
  /-- It is an error code. -/
  | error : ¬ NoMisread calls smb → f.page < 0 → Counted calls smb n f

theorem fetch_counted (hcalls : GetUserPages calls) (hkzalloc : calls.kzalloc) (smb : NewSmb)
    (hn : n = (pageCount smb.size smb.desc.offset.toUInt32).toNat) :
    Counted calls smb n
      (fetch calls { smb with numPages := pageCount smb.size smb.desc.offset.toUInt32 }) := by
  subst hn
  unfold fetch
  dsimp only
  split
  · next haddress =>
    split
    · next htid =>
      refine .exact ⟨.inl hkzalloc, fun _ _ stid hstid => ?_, fun _ hzero => absurd hzero haddress⟩
        rfl (filled_zeroed _ _)
      rw [htid] at hstid
      cases hstid
    · next stid htid =>
      split
      · next frames hframes =>
        refine .exact ⟨.inl hkzalloc, fun _ _ stid' hstid' code hcode => ?_,
          fun _ hzero => absurd hzero haddress⟩ rfl ⟨?_, hcalls.le _ _ _ _ hframes⟩
        · obtain rfl := Option.some.inj (htid.symm.trans hstid')
          rw [hframes] at hcode
          cases hcode
        · rw [List.drop_replicate]
      · next code hcode =>
        exact .error (fun h => h.user hkzalloc haddress stid htid code hcode)
          (hcalls.neg _ _ _ _ hcode)
  · next haddress =>
    have haddress := not_not.mp haddress
    split
    · next hdiscontig =>
      obtain ⟨hfilled, hpage⟩ := discontigLoop_filled calls.allocPage (fetching_zeroed _)
      refine .exact ⟨.inl hkzalloc, fun _ hne => absurd haddress hne, fun _ _ hnone => ?_⟩ hpage
        hfilled
      rw [hnone] at hdiscontig
      cases hdiscontig
    · next hdefault =>
      obtain ⟨hfilled, ⟨hall, hpage, hgot⟩ | ⟨hfails, hpage, hgot⟩⟩ :=
        defaultLoop_filled calls.allocPage (fetching_zeroed _)
      · exact .exact ⟨.inl hkzalloc, fun _ hne => absurd haddress hne,
          fun _ _ _ i hi => hall i hi (Nat.zero_le i)⟩ (by rw [hpage, hgot]) hfilled
      · refine .failed (fun h => hfails fun i hi _ => ?_) hpage hgot hfilled
        exact h.default hkzalloc haddress (Option.not_isSome_iff_eq_none.mp hdefault) i hi

theorem freePages_eq (h : Filled n f) (k : Nat) (hpage : f.page = k) (hk : k ≤ n) :
    freePages f = some (f.ary.take k).reverse := by
  have hlength := h.length
  have hindex : f.page.toNat = k := by omega
  unfold freePages
  rw [if_pos (by omega), hindex, countdown_eq _ (by omega)]

theorem Filled.take (h : Filled n f) : f.ary.take f.got.length = f.got.map some := by
  rw [h.ary, List.take_left' (List.length_map _)]

/-- The pages of a full array are released once each. -/
theorem Filled.whole (h : Filled n f) (hgot : f.got.length = n) {new : NewSmb}
    (hpages : new.pages = some f.ary) (hnum : new.numPages.toNat = n) :
    Whole ⟨0, new, f.got, []⟩ := by
  have hary : f.ary = f.got.map some := by
    rw [h.ary, hgot, Nat.sub_self, List.replicate_zero, List.append_nil]
  refine ⟨by rw [← hary]; exact hpages, by rw [hgot]; exact hnum.symm, rfl, ?_⟩
  refine ⟨(f.got.map some).reverse, ?_, List.reverse_perm _⟩
  rw [vfiDeallocPages, hpages, hnum]
  dsimp only
  rw [countdown_eq _ (by rw [h.length]), ← hgot, h.take]

/-- An array with a NULL among the pages counted is not the array of the pages obtained. -/
theorem Filled.not_perm (h : Filled n f) (hlt : f.got.length < n) :
    ¬ ((f.ary.take (f.got.length + 1)).reverse).Perm (f.got.map some) := by
  intro hperm
  have hlength := hperm.length_eq
  rw [List.length_reverse, List.length_take, h.length, List.length_map] at hlength
  omega

/-- Without an array the allocation fails, and is undone if no pages were asked for. -/
theorem allOrNothing_noArray (hpages : smb.pages = none) (hkzalloc : ¬ calls.kzalloc = true) :
    AllOrNothing calls smb ↔ NoMisread calls smb := by
  have hnone : ¬ smb.pages.isSome := by simp [hpages]
  have henomem : -enomem ≠ 0 := by decide
  have hneg : -enomem < 0 := by decide
  unfold AllOrNothing vfiAllocPages
  rw [if_neg hnone]
  dsimp only
  rw [if_pos hkzalloc]
  constructor
  · rintro ⟨e, he, -, hundone⟩
    obtain rfl := Option.some.inj he
    have hzero := (hundone henomem).numPages
    exact ⟨.inr hzero, fun h => absurd h hkzalloc, fun h => absurd h hkzalloc⟩
  · intro hno
    have hzero := hno.kzalloc.resolve_left hkzalloc
    exact ⟨_, rfl, fun hret => absurd hret henomem, fun _ =>
      ⟨hneg, List.Perm.refl _, hpages, hzero⟩⟩

/-- The allocation gives all pages or none exactly where its counter is not misread: there is
an array, `get_user_pages` gives no error code, and the default loop gets every page. -/
theorem allOrNothing_iff (hcalls : GetUserPages calls) (hpages : smb.pages = none) :
    AllOrNothing calls smb ↔ NoMisread calls smb := by
  by_cases hkzalloc : calls.kzalloc = true
  · have hnone : ¬ smb.pages.isSome := by simp [hpages]
    have henomem : -enomem ≠ 0 := by decide
    have hneg : -enomem < 0 := by decide
    unfold AllOrNothing vfiAllocPages
    rw [if_neg hnone]
    dsimp only
    rw [if_neg (not_not.mpr hkzalloc)]
    have hcount := fetch_counted hcalls hkzalloc smb rfl
    generalize fetch calls { smb with numPages := pageCount smb.size smb.desc.offset.toUInt32 } = f
      at hcount ⊢
    generalize hn : (pageCount smb.size smb.desc.offset.toUInt32).toNat = n at hcount ⊢
    cases hcount with
    | exact hno hpage hfilled =>
      refine iff_of_true ?_ hno
      have hle := hfilled.le
      split
      · next hall =>
        exact ⟨_, rfl, fun _ => hfilled.whole (by omega) rfl hn, fun hret => absurd rfl hret⟩
      · next hsome =>
        rw [freePages_eq hfilled f.got.length hpage hle, hfilled.take]
        exact ⟨_, rfl, fun hret => absurd hret henomem, fun _ =>
          ⟨hneg, List.reverse_perm _, hpages, rfl⟩⟩
    | failed hno hpage hgot hfilled =>
      refine iff_of_false ?_ hno
      rintro ⟨e, he, hwhole, hundone⟩
      split at he
      · obtain rfl := Option.some.inj he
        have hlength := (hwhole rfl).numPages
        dsimp only at hlength
        omega
      · rw [freePages_eq hfilled (f.got.length + 1) (by omega) hgot] at he
        obtain rfl := Option.some.inj he
        exact hfilled.not_perm hgot (hundone henomem).freed
    | error hno hpage =>
      refine iff_of_false ?_ hno
      rintro ⟨e, he, -⟩
      rw [if_neg (by omega), freePages, if_neg (by omega)] at he
      cases he
  · exact allOrNothing_noArray hpages hkzalloc

/-- Two pages, from an allocator that has one. -/
def twoPages : NewSmb := { desc := {}, size := 0x2000 }

def onePage : SmbCalls where
  smbCreate := 0
  kzalloc := true
  allocPage := fun page => if page = 0 then some 7 else none
  getUserPages := fun _ _ _ => .ok []

theorem onePage_pins : GetUserPages onePage where
  le := by
    intro _ _ n frames h
    obtain rfl := Except.ok.inj h
    exact Nat.zero_le _
  neg := nofun

theorem allOrNothing_iff_discontig :
    let smb := { twoPages with desc.query := ["discontig".toList] }
    AllOrNothing onePage smb ↔ NoMisread onePage smb :=
  allOrNothing_iff onePage_pins rfl

/-- The page that failed was the last one: the counter is right, and the page is NULL. -/
theorem lastPage_null : ¬ ∀ (calls : SmbCalls) (smb : NewSmb), GetUserPages calls →
    smb.pages = none → AllOrNothing calls smb := by
  intro h
  obtain ⟨e, he, hwhole, -⟩ := h onePage twoPages onePage_pins rfl
  have hend : vfiAllocPages onePage twoPages =
      some ⟨0, { twoPages with pages := some [some 7, none], numPages := 2 }, [7], []⟩ := by
    decide
  obtain rfl := Option.some.inj (he.symm.trans hend)
  exact absurd (hwhole rfl).pages (by decide)

-- ---------------------------------------------------------------------------
-- The creation of an SMB
-- ---------------------------------------------------------------------------

theorem discontigLoop_ary (allocPage : Nat → Option Nat) (h : Fetching n remainder f) :
    (discontigLoop allocPage remainder f).ary.take
        (discontigLoop allocPage remainder f).page.toNat =
      f.got.map some ++ allocEach allocPage true remainder f.got.length := by
  induction remainder generalizing f with
  | zero =>
    rw [discontigLoop, h.index, h.filled.take, allocEach, List.append_nil]
  | succ remainder ih =>
    unfold discontigLoop allocEach
    rw [h.index]
    cases allocPage f.got.length with
    | some frame =>
      dsimp only
      rw [ih (h.next frame), List.length_append, List.length_singleton, List.map_append,
        List.append_assoc]
      rfl
    | none =>
      dsimp only
      rw [if_pos rfl, List.append_nil, h.index]
      exact (h.filled.set_none 0).take

theorem defaultLoop_ary (allocPage : Nat → Option Nat) (h : Fetching n remainder f) :
    (defaultLoop allocPage remainder f).ary.take (defaultLoop allocPage remainder f).page.toNat =
      f.got.map some ++ allocEach allocPage false remainder f.got.length := by
  induction remainder generalizing f with
  | zero =>
    rw [defaultLoop, h.index, h.filled.take, allocEach, List.append_nil]
  | succ remainder ih =>
    unfold defaultLoop allocEach
    rw [h.index]
    cases allocPage f.got.length with
    | some frame =>
      dsimp only
      rw [ih (h.next frame), List.length_append, List.length_singleton, List.map_append,
        List.append_assoc]
      rfl
    | none =>
      have hpage := h.page
      have hrest := h.rest
      have hnext : (f.page + 1).toNat = f.got.length + 1 := by omega
      have hleft : n - f.got.length = remainder + 1 := by omega
      have hnull := (h.filled.set_none 0).ary
      dsimp only at hnull ⊢
      rw [hnext, hnull, hleft, List.replicate_succ, List.take_append, List.length_map]
      simp

/-- The array up to the counter, unless that is an error code. -/
def Fetch.counted (f : Fetch) : Except Int (List (Option Nat)) :=
  if 0 ≤ f.page then .ok (f.ary.take f.page.toNat) else .error f.page

theorem Fetch.counted_of_nonneg (h : 0 ≤ f.page) : f.counted = .ok (f.ary.take f.page.toNat) :=
  if_pos h

theorem Fetch.counted_of_neg (h : f.page < 0) : f.counted = .error f.page :=
  if_neg (Int.not_le.mpr h)

/-- What is counted of the array is what the creation of an SMB is modelled with. -/
theorem fetch_counted_eq (hcalls : GetUserPages calls) (smb : NewSmb) :
    (if smb.address ≠ 0 then
        match vfiGetOption smb.desc "mytid".toList with
        | some stid => (calls.getUserPages stid smb.address smb.numPages).map (·.map some)
        | none => .ok []
      else .ok (allocEach calls.allocPage (vfiGetOption smb.desc "discontig".toList).isSome
        smb.numPages.toNat 0) : Except Int (List (Option Nat))) = (fetch calls smb).counted := by
  unfold fetch
  dsimp only
  by_cases haddress : smb.address ≠ 0
  · rw [if_pos haddress, if_pos haddress]
    cases htid : vfiGetOption smb.desc "mytid".toList with
    | none => rfl
    | some stid =>
      dsimp only
      cases hpages : calls.getUserPages stid smb.address smb.numPages with
      | error code =>
        rw [Fetch.counted_of_neg (hcalls.neg stid smb.address smb.numPages code hpages)]
        rfl
      | ok frames =>
        rw [Fetch.counted_of_nonneg (Int.natCast_nonneg _), Int.toNat_natCast,
          List.take_left' (List.length_map _)]
        rfl
  · rw [if_neg haddress, if_neg haddress]
    cases hdiscontig : (vfiGetOption smb.desc "discontig".toList).isSome with
    | false =>
      have hary := defaultLoop_ary calls.allocPage (fetching_zeroed smb.numPages.toNat)
      rw [if_neg (by decide), Fetch.counted_of_nonneg, hary]
      · rfl
      · obtain ⟨-, ⟨-, hpage, -⟩ | ⟨-, hpage, -⟩⟩ :=
          defaultLoop_filled calls.allocPage (fetching_zeroed smb.numPages.toNat)
        · omega
        · omega
    | true =>
      have hary := discontigLoop_ary calls.allocPage (fetching_zeroed smb.numPages.toNat)
      have hpage :=
        (discontigLoop_filled calls.allocPage (fetching_zeroed smb.numPages.toNat)).2
      rw [if_pos rfl, Fetch.counted_of_nonneg (by omega), hary]
      rfl

/-- `vfi_alloc_pages` of the creation of an SMB is this one, and faults where a NULL page is
freed. -/
theorem vfiAllocPages_eq (hcalls : GetUserPages calls) (smb : NewSmb) :
    Vfi.vfiAllocPages calls smb = (vfiAllocPages calls smb).bind fun e =>
      if none ∈ e.freed then none else some (e.ret, e.smb) := by
  unfold Vfi.vfiAllocPages vfiAllocPages
  split
  · rfl
  · dsimp only
    by_cases hkzalloc : calls.kzalloc = true
    · rw [if_neg (not_not.mpr hkzalloc), if_neg (not_not.mpr hkzalloc)]
      have hary := fetch_counted_eq hcalls
        { smb with numPages := pageCount smb.size smb.desc.offset.toUInt32 }
      have hcount := fetch_counted hcalls hkzalloc smb rfl
      dsimp only at hary
      erw [hary]
      generalize fetch calls
        { smb with numPages := pageCount smb.size smb.desc.offset.toUInt32 } = f
        at hcount ⊢
      have hpage : f.page < 0 ∨ ∃ k : Nat, f.page = k ∧
          k ≤ (pageCount smb.size smb.desc.offset.toUInt32).toNat ∧
            Filled (pageCount smb.size smb.desc.offset.toUInt32).toNat f := by
        cases hcount with
        | exact _ hpage hfilled => exact .inr ⟨_, hpage, hfilled.le, hfilled⟩
        | failed _ hpage hlt hfilled => exact .inr ⟨_, hpage, hlt, hfilled⟩
        | error _ hpage => exact .inl hpage
      rcases hpage with hneg | ⟨k, hpage, hk, hfilled⟩
      · rw [Fetch.counted_of_neg hneg, if_neg (by omega), freePages, if_neg (by omega)]
        rfl
      · have hlength := hfilled.length
        have hindex : f.page.toNat = k := by omega
        have htake : (f.ary.take k).length = k := by
          rw [List.length_take]
          omega
        rw [Fetch.counted_of_nonneg (by omega), freePages_eq hfilled k hpage hk, hindex]
        dsimp only
        rw [htake, hpage]
        by_cases hall : k = (pageCount smb.size smb.desc.offset.toUInt32).toNat
        · have hall' : (k : Int) = (pageCount smb.size smb.desc.offset.toUInt32).toNat := by omega
          rw [if_pos hall, if_pos hall', List.take_of_length_le (by omega)]
          rfl
        · have hall' : (k : Int) ≠ (pageCount smb.size smb.desc.offset.toUInt32).toNat := by omega
          rw [if_neg hall, if_neg hall']
          exact if_congr List.mem_reverse.symm rfl rfl
    · rw [if_pos hkzalloc, if_pos hkzalloc]
      rfl

end Vfi.PageAlloc
