import Vfi.BindCreate

/-!
# Deleting binds by range

`vfi_local_bind_delete` and `vfi_local_bind_lose` walk the binds of an xfer and
are meant to remove those whose offset lies in the range of the specification. Both
compare with `<=` against a 64-bit sum, and so reach the bind that starts where
the range ends; and both only put references, so that a bind stays while there is
another one to it: `rangeDelete_iff`.
-/

namespace Vfi.BindCreate

section Model

variable {α δ : Type}

/-- The name under which a bind is in the kset of its xfer. -/
def keyOf (desc : VfiDescParam) : Key := ⟨desc.offset, desc.extent⟩

/-- The test of both loops. -/
def inSpec (spec : VfiDescParam) (offset : UInt64) : Bool :=
  offset ≥ spec.offset && (spec.extent = 0 || offset ≤ spec.offset + spec.extent.toUInt64)

/-- One put for the find, and one for the reference the bind holds. -/
def findAndPutSmb (calls : Calls δ) (s : State α δ) (desc : VfiDescParam) : State α δ :=
  match findVfiSmb calls s desc with
  | .ok (_, s) => smbPut (smbPut s desc) desc
  | .error _ => s

/-- A bind after the `dsts_delete` of its destination, which leaves of its destinations what
`remain` says. -/
def Bind.dstsDelete (remain : δ → Option δ) (bind : Bind α δ) : Bind α δ :=
  { bind with dsts := bind.dsts.bind remain }

/-- The body of the loop of `vfi_local_bind_delete`, at the entry named `key`. There is no
result where the bind goes with its destinations, since it is used after that. -/
def bindDeleteEntry (calls : Calls δ) (remain : δ → Option δ) (spec : VfiDescParam)
    (s : State α δ) (key : Key) : Option (State α δ) :=
  match s.binds key with
  | none => some s
  | some bind =>
    if inSpec spec bind.desc.xfer.offset then
      match bind.setDsts (bind.dstsDelete remain).dsts with
      | none => none
      | some left =>
        let s := s.setBind key (some left)
        let s := findAndPutSmb calls s bind.desc.dst
        let s := findAndPutSmb calls s bind.desc.src
        some (vfiBindDelete s (keyOf bind.desc.xfer))
    else some s

/-- `kset` names the entries of the list when the walk starts: it keeps the next entry
while it deletes one. -/
def vfiLocalBindDelete (calls : Calls δ) (remain : δ → Option δ) (kset : List Key)
    (spec : VfiDescParam) (s : State α δ) : Option (State α δ) :=
  kset.foldlM (bindDeleteEntry calls remain spec) s

def bindLoseEntry (spec : VfiDescParam) (s : State α δ) (key : Key) : State α δ :=
  match s.binds key with
  | none => s
  | some bind =>
    if inSpec spec bind.desc.xfer.offset then vfiBindDelete s (keyOf bind.desc.xfer) else s

def vfiLocalBindLose (kset : List Key) (spec : VfiDescParam) (s : State α δ) : State α δ :=
  kset.foldl (bindLoseEntry spec) s

end Model

variable {α δ : Type} {calls : Calls δ} {remain : δ → Option δ} {s t : State α δ}
  {spec : VfiDescParam} {key : Key} {bind : Bind α δ}

/-- The binds of an xfer: a list of their names without repetition, each bind under its own
and with a reference to it. -/
structure Kset (s : State α δ) where
  keys : List Key
  nodup : keys.Nodup
  mem_keys : ∀ key, key ∈ keys ↔ (s.binds key).isSome
  named : ∀ key bind, s.binds key = some bind → keyOf bind.desc.xfer = key
  counted : ∀ key bind, s.binds key = some bind → 0 < bind.refs

/-- The offset lies in `[o, o + e)`, or from `o` on if the extent is 0. -/
def InRange (spec : VfiDescParam) (offset : UInt64) : Prop :=
  spec.offset.toNat ≤ offset.toNat ∧
    (spec.extent = 0 ∨ offset.toNat < spec.offset.toNat + spec.extent.toNat)

instance (spec : VfiDescParam) (offset : UInt64) : Decidable (InRange spec offset) :=
  inferInstanceAs (Decidable (_ ∧ _))

/-- The binds in the range are gone, and the others untouched. -/
def Removes (spec : VfiDescParam) (s t : State α δ) : Prop :=
  ∀ key, t.binds key = if InRange spec key.offset then none else s.binds key

/-- A bind at this offset does not show that the loops compare with `<=`, nor that they add
in 64 bits. -/
def ClearAt (spec : VfiDescParam) (offset : UInt64) : Prop :=
  spec.extent = 0 ∨
    if spec.offset.toNat + spec.extent.toNat < 2 ^ 64 then
      offset.toNat ≠ spec.offset.toNat + spec.extent.toNat
    else offset.toNat < spec.offset.toNat

/-- No bind starts where the range ends; and where the end of the range is past 64 bits, none
starts in the range at all. -/
def ClearEnd (spec : VfiDescParam) (s : State α δ) : Prop :=
  ∀ key, (s.binds key).isSome → ClearAt spec key.offset

/-- To the binds in the range there is one reference, counted when `f` was done to them. -/
def OneReference (f : Bind α δ → Bind α δ) (spec : VfiDescParam) (s : State α δ) : Prop :=
  ∀ key bind, s.binds key = some bind → InRange spec key.offset → (f bind).refs = 1

-- ---------------------------------------------------------------------------
-- One entry
-- ---------------------------------------------------------------------------

@[simp] theorem smbPut_binds (s : State α δ) (desc : VfiDescParam) :
    (smbPut s desc).binds = s.binds := rfl

@[simp] theorem findAndPutSmb_binds (s : State α δ) (desc : VfiDescParam) :
    (findAndPutSmb calls s desc).binds = s.binds := by
  unfold findAndPutSmb
  split
  · next hfind => exact (findVfiSmb_frame hfind).2
  · rfl

theorem vfiBindDelete_binds (s : State α δ) (key : Key) :
    (vfiBindDelete s key).binds = Function.update s.binds key ((s.binds key).bind Bind.put) :=
  rfl

/-- What the loops make of the bind under the name of an entry, where `release` does what they
do to one that meets their test. -/
def afterEntry (release : Bind α δ → Option (Option (Bind α δ))) (spec : VfiDescParam) :
    Option (Bind α δ) → Option (Option (Bind α δ))
  | none => some none
  | some bind => if inSpec spec bind.desc.xfer.offset then release bind else some (some bind)

/-- `vfi_local_bind_delete` takes the destinations of a bind first. -/
def Bind.delete (remain : δ → Option δ) (bind : Bind α δ) : Option (Option (Bind α δ)) :=
  (bind.setDsts (bind.dstsDelete remain).dsts).map Bind.put

theorem bindLoseEntry_binds (h : ∀ bind ∈ s.binds key, keyOf bind.desc.xfer = key) :
    (some (bindLoseEntry spec s key)).map State.binds =
      (afterEntry (fun bind => some bind.put) spec (s.binds key)).map
        (Function.update s.binds key) := by
  unfold bindLoseEntry
  cases hkey : s.binds key with
  | none => exact congrArg some (Function.update_eq_self_iff.mpr hkey.symm).symm
  | some bind =>
    rw [afterEntry]
    dsimp only
    split
    · rw [Option.map_some, vfiBindDelete_binds, h bind hkey, hkey, Option.bind_some,
        Option.map_some]
    · exact congrArg some (Function.update_eq_self_iff.mpr hkey.symm).symm

theorem bindDeleteEntry_binds (h : ∀ bind ∈ s.binds key, keyOf bind.desc.xfer = key) :
    (bindDeleteEntry calls remain spec s key).map State.binds =
      (afterEntry (Bind.delete remain) spec (s.binds key)).map (Function.update s.binds key) := by
  unfold bindDeleteEntry
  cases hkey : s.binds key with
  | none => exact congrArg some (Function.update_eq_self_iff.mpr hkey.symm).symm
  | some bind =>
    rw [afterEntry]
    dsimp only
    split
    · rw [Bind.delete]
      cases hleft : bind.setDsts (bind.dstsDelete remain).dsts with
      | none => rfl
      | some left =>
        simp only [Option.map_some, vfiBindDelete_binds, h bind hkey, findAndPutSmb_binds,
          State.setBind, Function.update_self, Option.bind_some, Function.update_idem]
    · exact congrArg some (Function.update_eq_self_iff.mpr hkey.symm).symm

-- ---------------------------------------------------------------------------
-- The walk
-- ---------------------------------------------------------------------------

/-- A walk over distinct names gives each what is wanted exactly where its body does so at
each of them. -/
theorem foldlM_binds {body : State α δ → Key → Option (State α δ)}
    {after : Option (Bind α δ) → Option (Option (Bind α δ))}
    (hbody : ∀ s key, (∀ bind ∈ s.binds key, keyOf bind.desc.xfer = key) →
      (body s key).map State.binds = (after (s.binds key)).map (Function.update s.binds key))
    {keys : List Key} (hnodup : keys.Nodup)
    (hnamed : ∀ key ∈ keys, ∀ bind ∈ s.binds key, keyOf bind.desc.xfer = key)
    (want : Key → Option (Bind α δ)) :
    (∃ t, keys.foldlM body s = some t ∧ ∀ key, t.binds key = want key) ↔
      ∀ key, (key ∈ keys → after (s.binds key) = some (want key)) ∧
        (key ∉ keys → s.binds key = want key) := by
  induction keys generalizing s with
  | nil => simp [pure]
  | cons first rest ih =>
    obtain ⟨hfirst, hrest⟩ := List.nodup_cons.mp hnodup
    have hstep := hbody s first (hnamed first List.mem_cons_self)
    rw [List.foldlM_cons]
    cases hafter : after (s.binds first) with
    | none =>
      rw [hafter, Option.map_none, Option.map_eq_none_iff] at hstep
      refine iff_of_false ?_ fun h => ?_
      · rintro ⟨t, ht, -⟩
        rw [hstep] at ht
        cases ht
      · have := (h first).1 List.mem_cons_self
        rw [hafter] at this
        cases this
    | some left =>
      rw [hafter] at hstep
      obtain ⟨s', hs', hbinds⟩ := Option.map_eq_some_iff.mp hstep
      have hother : ∀ other ≠ first, s'.binds other = s.binds other := fun other hne => by
        rw [hbinds, Function.update_of_ne hne]
      have hself : s'.binds first = left := by rw [hbinds, Function.update_self]
      have hne : ∀ other ∈ rest, other ≠ first := fun other hmem heq => hfirst (heq ▸ hmem)
      have hih := ih (s := s') hrest fun other hmem bind hbind =>
        hnamed other (List.mem_cons_of_mem _ hmem) bind (hother other (hne other hmem) ▸ hbind)
      rw [hs', Option.bind_eq_bind, Option.bind_some, hih]
      refine forall_congr' fun key => ?_
      by_cases hkey : key = first
      · subst hkey
        simp [hfirst, hself, hafter]
      · rw [hother key hkey]
        simp [hkey]

theorem Kset.foldlM_iff (kset : Kset s) {body : State α δ → Key → Option (State α δ)}
    {release : Bind α δ → Option (Option (Bind α δ))}
    (hbody : ∀ s key, (∀ bind ∈ s.binds key, keyOf bind.desc.xfer = key) →
      (body s key).map State.binds =
        (afterEntry release spec (s.binds key)).map (Function.update s.binds key)) :
    (∃ t, kset.keys.foldlM body s = some t ∧ Removes spec s t) ↔
      ∀ key bind, s.binds key = some bind →
        (if inSpec spec key.offset then release bind else some (some bind)) =
          some (if InRange spec key.offset then none else some bind) := by
  refine (foldlM_binds hbody kset.nodup (fun key _ bind => kset.named key bind) _).trans
    (forall_congr' fun key => ?_)
  have hmem := kset.mem_keys key
  cases hkey : s.binds key with
  | none =>
    rw [hkey] at hmem
    simp [hmem]
  | some bind =>
    rw [hkey] at hmem
    have hoffset : bind.desc.xfer.offset = key.offset := by rw [← kset.named key bind hkey, keyOf]
    simp [hmem, afterEntry, hoffset]

-- ---------------------------------------------------------------------------
-- The range
-- ---------------------------------------------------------------------------

theorem inSpec_iff (spec : VfiDescParam) (offset : UInt64) : inSpec spec offset = true ↔
    spec.offset.toNat ≤ offset.toNat ∧ (spec.extent = 0 ∨
      offset.toNat ≤ (spec.offset.toNat + spec.extent.toNat) % 2 ^ 64) := by
  simp only [inSpec, Bool.and_eq_true, Bool.or_eq_true, decide_eq_true_eq, ge_iff_le,
    UInt64.le_iff_toNat_le, UInt64.toNat_add, UInt32.toNat_toUInt64]

theorem inSpec_iff_inRange (spec : VfiDescParam) (offset : UInt64) :
    (inSpec spec offset = true ↔ InRange spec offset) ↔ ClearAt spec offset := by
  have hoffset := offset.toNat_lt
  have hspec := spec.offset.toNat_lt
  have hextent := spec.extent.toNat_lt
  rw [inSpec_iff, InRange, ClearAt, ← UInt32.toNat_inj]
  have hzero : (0 : UInt32).toNat = 0 := rfl
  rw [hzero]
  split
  · rw [Nat.mod_eq_of_lt (by assumption)]
    omega
  · omega

/-- A loop does what it should to a bind exactly where its comparison is right, and what it does
to a bind in the range removes it. -/
theorem released_iff {released : Option (Option (Bind α δ))} (hne : released ≠ some (some bind))
    (offset : UInt64) :
    (if inSpec spec offset then released else some (some bind)) =
        some (if InRange spec offset then none else some bind) ↔
      ClearAt spec offset ∧ (InRange spec offset → released = some none) := by
  rw [← inSpec_iff_inRange]
  by_cases hspec : inSpec spec offset = true
  · by_cases hrange : InRange spec offset
    · simp [hspec, hrange]
    · simp [hspec, hrange, hne]
  · by_cases hrange : InRange spec offset
    · simp [hspec, hrange]
    · simp [hspec, hrange]

theorem forall_released_iff {release : Bind α δ → Option (Option (Bind α δ))}
    {f : Bind α δ → Bind α δ} (hne : ∀ bind, release bind ≠ some (some bind))
    (hgone : ∀ key bind, s.binds key = some bind → (release bind = some none ↔ (f bind).refs = 1)) :
    (∀ key bind, s.binds key = some bind →
      (if inSpec spec key.offset then release bind else some (some bind)) =
        some (if InRange spec key.offset then none else some bind)) ↔
      ClearEnd spec s ∧ OneReference f spec s := by
  constructor
  · intro h
    refine ⟨fun key hsome => ?_, fun key bind hbind hrange => ?_⟩
    · obtain ⟨bind, hbind⟩ := Option.isSome_iff_exists.mp hsome
      exact ((released_iff (hne bind) key.offset).mp (h key bind hbind)).1
    · exact (hgone key bind hbind).mp
        (((released_iff (hne bind) key.offset).mp (h key bind hbind)).2 hrange)
  · rintro ⟨hclear, hone⟩ key bind hbind
    refine (released_iff (hne bind) key.offset).mpr ⟨hclear key (by rw [hbind]; rfl), ?_⟩
    exact fun hrange => (hgone key bind hbind).mpr (hone key bind hbind hrange)

theorem Bind.refs_le (bind : Bind α δ) : bind.refs ≤ bind.own + 1 := by
  unfold Bind.refs
  split <;> omega

theorem Bind.own_put {left : Bind α δ} (h : bind.put = some left) : left.own < bind.own := by
  have hle := bind.refs_le
  obtain ⟨hrefs, hleft⟩ := Option.ite_none_left_eq_some.mp h
  rw [← Option.some.inj hleft]
  dsimp only
  omega

theorem Bind.put_ne (bind : Bind α δ) : bind.put ≠ some bind :=
  fun h => absurd (Bind.own_put h) (Nat.lt_irrefl _)

theorem Bind.put_eq_none_iff (h : 0 < bind.refs) : bind.put = none ↔ bind.refs = 1 := by
  unfold Bind.put
  split
  · exact iff_of_true rfl (by omega)
  · exact iff_of_false (fun h => nomatch h) (by omega)

theorem Bind.delete_eq (bind : Bind α δ) : bind.delete remain =
    if (bind.dstsDelete remain).refs = 0 then none else some (bind.dstsDelete remain).put := by
  unfold Bind.delete Bind.setDsts Bind.dstsDelete
  dsimp only
  split <;> rfl

theorem Bind.delete_ne (bind : Bind α δ) : bind.delete remain ≠ some (some bind) := by
  rw [Bind.delete_eq]
  split
  · exact fun h => nomatch h
  · exact fun h => absurd (Bind.own_put (Option.some.inj h)) (Nat.lt_irrefl _)

theorem Bind.delete_eq_none_iff (bind : Bind α δ) :
    bind.delete remain = some none ↔ (bind.dstsDelete remain).refs = 1 := by
  rw [Bind.delete_eq]
  split
  · exact iff_of_false (fun h => nomatch h) (by omega)
  · next hrefs => rw [Option.some.injEq, Bind.put_eq_none_iff (Nat.pos_of_ne_zero hrefs)]

/-- Deleting and losing binds remove the binds in the range, and no others, exactly when no
bind starts where the range ends, and each in the range has one reference: to delete it, when its
destinations are deleted, and to lose it, as it is. -/
theorem rangeDelete_iff (kset : Kset s) :
    ((∃ t, vfiLocalBindDelete calls remain kset.keys spec s = some t ∧ Removes spec s t) ↔
        ClearEnd spec s ∧ OneReference (Bind.dstsDelete remain) spec s) ∧
      (Removes spec s (vfiLocalBindLose kset.keys spec s) ↔
        ClearEnd spec s ∧ OneReference id spec s) := by
  constructor
  · refine (kset.foldlM_iff fun _ _ => bindDeleteEntry_binds).trans ?_
    exact forall_released_iff Bind.delete_ne fun _ bind _ => bind.delete_eq_none_iff
  · have hlose : kset.keys.foldlM (fun s key => some (bindLoseEntry spec s key)) s =
        some (vfiLocalBindLose kset.keys spec s) := List.foldlM_pure ..
    have hwalk : (∃ t, kset.keys.foldlM (fun s key => some (bindLoseEntry spec s key)) s = some t ∧
        Removes spec s t) ↔ _ := kset.foldlM_iff fun _ _ => bindLoseEntry_binds
    simp only [hlose, Option.some.injEq, exists_eq_left'] at hwalk
    refine hwalk.trans (forall_released_iff (fun bind h => ?_) fun key bind hbind => ?_)
    · exact bind.put_ne (Option.some.inj h)
    · rw [Option.some.injEq]
      exact Bind.put_eq_none_iff (kset.counted key bind hbind)

/-- The ranges of two binds do not overlap. -/
def Key.Apart (key other : Key) : Prop :=
  key.offset.toNat + key.extent.toNat ≤ other.offset.toNat ∨
    other.offset.toNat + other.extent.toNat ≤ key.offset.toNat

def Disjoint (s : State α δ) : Prop :=
  ∀ key other, (s.binds key).isSome → (s.binds other).isSome → key ≠ other → key.Apart other

/-- Two binds back to back. -/
def backToBack : State Unit Unit where
  agent := ()
  extent := 0x2000
  binds := fun key =>
    if key = ⟨0x1000, 0x1000⟩ ∨ key = ⟨0x2000, 0x1000⟩ then
      some ⟨⟨{ offset := key.offset, extent := key.extent }, {}, {}⟩, (), (), 1, none⟩
    else none
  smbs := fun _ => none

def backToBackKset : Kset backToBack where
  keys := [⟨0x1000, 0x1000⟩, ⟨0x2000, 0x1000⟩]
  nodup := by decide
  mem_keys := by
    intro key
    simp only [backToBack, List.mem_cons, List.not_mem_nil, or_false]
    split <;> simp_all
  named := by
    intro key bind h
    obtain ⟨-, h⟩ := Option.ite_none_right_eq_some.mp h
    rw [← Option.some.inj h]
    rfl
  counted := by
    intro key bind h
    obtain ⟨-, h⟩ := Option.ite_none_right_eq_some.mp h
    rw [← Option.some.inj h]
    exact Nat.one_pos

theorem rangeDelete_neighbour : ¬ ∀ (calls : Calls Unit) (remain : Unit → Option Unit)
    (s : State Unit Unit) (kset : Kset s) (spec : VfiDescParam), Disjoint s →
      (∃ t, vfiLocalBindDelete calls remain kset.keys spec s = some t ∧ Removes spec s t) ∧
        Removes spec s (vfiLocalBindLose kset.keys spec s) := by
  intro h
  have hdisjoint : Disjoint backToBack := by
    intro key other hkey hother hne
    have hkeys := (backToBackKset.mem_keys key).mpr hkey
    have hothers := (backToBackKset.mem_keys other).mpr hother
    simp only [backToBackKset, List.mem_cons, List.not_mem_nil, or_false] at hkeys hothers
    rcases hkeys with rfl | rfl <;> rcases hothers with rfl | rfl
    · exact absurd rfl hne
    · exact .inl (by decide)
    · exact .inr (by decide)
    · exact absurd rfl hne
  -- The first bind is deleted by its own offset and extent, and the second goes with it.
  have hlose := (h ⟨0, 0, (), 0, ⟨0, true, none, fun _ => rfl⟩⟩ (fun _ => none) backToBack
    backToBackKset { offset := 0x1000, extent := 0x1000 } hdisjoint).2 ⟨0x2000, 0x1000⟩
  have hgone : (vfiLocalBindLose backToBackKset.keys { offset := 0x1000, extent := 0x1000 }
      backToBack).binds ⟨0x2000, 0x1000⟩ = none := rfl
  rw [hgone] at hlose
  exact absurd hlose (by decide)

end Vfi.BindCreate
