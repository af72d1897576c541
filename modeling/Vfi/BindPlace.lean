import Vfi.BindDelete
import Vfi.Lib.Transition

/-!
# Automatic placement of binds

A bind created with offset 0 goes to the end of its xfer: to the sum of all
extents ever added to it, in 32 bits. That place is free of the binds that were
put there in the same way since the sum last passed 4 GiB, and of no others:
`automaticPlacement_iff`.
-/

namespace Vfi.BindCreate

open Transition

variable {α δ : Type}

-- ---------------------------------------------------------------------------
-- What a successful creation does
-- ---------------------------------------------------------------------------

section Success

variable {calls : Calls δ} {s : State α δ} {desc : VfiBindParam}

theorem isSome_ownRefs (s : State α δ) (key : Key) :
    (ownRefs s key).isSome = (s.binds key).isSome := by
  rw [ownRefs, Option.isSome_map]

/-- A creation that gives a bind gives the one it placed, and adds no other. -/
theorem vfiLocalBindCreate_success (h : (vfiLocalBindCreate calls s desc).bind.isSome) :
    (vfiLocalBindCreate calls s desc).bind = some (bindKey desc s) ∧
      ∀ key, ((vfiLocalBindCreate calls s desc).state.binds key).isSome ↔
        key = bindKey desc s ∨ (s.binds key).isSome := by
  revert h
  unfold vfiLocalBindCreate
  simp only [place_extent, place_dst, place_src]
  split
  · exact nofun
  · next s1 hbind =>
    split
    · exact nofun
    · next s2 hdsts =>
      split
      · exact nofun
      · next dsmb s3 hdst =>
        split
        · split
          · exact nofun
          · next ssmb s4 hsrc =>
            split
            · split
              · intro _
                refine ⟨rfl, fun key => ?_⟩
                have hown {r : State α δ} (hr : ownRefs r = ownRefs s1) :
                    ownRefs r (bindKey desc s) ≠ some 0 := by
                  rw [hr, ownRefs_vfiBindCreate hbind, Function.update_self]
                  exact fun h => nomatch h
                have h4 : ownRefs s4 = ownRefs s1 :=
                  (ownRefs_findVfiSmb hsrc).trans ((ownRefs_findVfiSmb hdst).trans
                    (ownRefs_vfiDstsCreate (hown rfl) hdsts))
                have hrefs : ownRefs (inheritAndCreate calls s4 (bindKey desc s) dsmb ssmb) =
                    Function.update (ownRefs s) (bindKey desc s)
                      (some ((ownRefs s (bindKey desc s)).getD 0 + 1)) := by
                  rw [ownRefs_inheritAndCreate (hown h4), h4, ownRefs_vfiBindCreate hbind]
                  rfl
                rw [← isSome_ownRefs, ← isSome_ownRefs, hrefs]
                by_cases hkey : key = bindKey desc s
                · simp [hkey]
                · simp [hkey]
              · exact nofun
            · exact nofun
        · exact nofun

end Success

-- ---------------------------------------------------------------------------
-- Runs of creations
-- ---------------------------------------------------------------------------

/-- A `bind_create` command, and what it meets: the SMBs there are at its time. -/
structure Command (α δ : Type) where
  calls : Calls δ
  smbs : Name → Option (Smb α)
  params : VfiBindParam

/-- A range of the xfer that a command asked for, with the sum of all extents before it if
it was to be placed automatically. -/
structure Placement where
  range : Key
  sum : Option Nat
deriving DecidableEq, Repr

/-- An xfer, and a ledger of what was asked of it. -/
structure Ledger (α δ : Type) where
  xfer : State α δ
  sum : Nat
  placed : List Placement

/-- What the command asks for. Without an offset that is where the sum stands, in 32 bits. -/
def Ledger.request (s : Ledger α δ) (desc : VfiBindParam) : Placement :=
  if desc.xfer.offset = 0 then ⟨⟨.ofNat (s.sum % 2 ^ 32), desc.xfer.extent⟩, some s.sum⟩
  else ⟨⟨desc.xfer.offset, desc.xfer.extent⟩, none⟩

def Ledger.created (s : Ledger α δ) (c : Command α δ) (desc : VfiBindParam) : Result α δ :=
  vfiLocalBindCreate c.calls { s.xfer with smbs := c.smbs } desc

/-- A command that succeeds. -/
def bindCreate (s : Ledger α δ) (c : Command α δ) : Option (Ledger α δ) :=
  match validExtents c.params with
  | none => none
  | some desc =>
    if (s.created c desc).ret = 0 ∧ (s.created c desc).bind.isSome then
      some
        { xfer := (s.created c desc).state
          sum := s.sum + desc.xfer.extent.toNat
          placed := s.request desc :: s.placed }
    else none

/-- An xfer without binds. -/
def newXfer (agent : α) (extent : UInt32) : Ledger α δ :=
  ⟨⟨agent, extent, fun _ => none, fun _ => none⟩, extent.toNat, []⟩

/-- If the command leaves the place of its bind open, the bind is new, and its range is
apart from those of all binds that existed. -/
def Fresh (s : Ledger α δ) (c : Command α δ) (_ : Ledger α δ) : Prop :=
  ∀ desc, validExtents c.params = some desc → desc.xfer.offset = 0 →
    ∃ key, (s.created c desc).bind = some key ∧ s.xfer.binds key = none ∧
      ∀ other, (s.xfer.binds other).isSome → key.Apart other

/-- If the command leaves the place of its bind open, the place where the sum stands is apart
from every range asked for by offset, and from those placed before the sum last passed 4 GiB. -/
def PlaceClear (s : Ledger α δ) (c : Command α δ) (_ : Ledger α δ) : Prop :=
  ∀ desc, validExtents c.params = some desc → desc.xfer.offset = 0 →
    ∀ p ∈ s.placed, (∀ n, p.sum = some n → n / 2 ^ 32 < s.sum / 2 ^ 32) →
      (s.request desc).range.Apart p.range

structure Inv (s : Ledger α δ) : Prop where
  extent : s.xfer.extent.toNat = s.sum % 2 ^ 32
  binds : ∀ key, (s.xfer.binds key).isSome ↔ ∃ p ∈ s.placed, p.range = key
  automatic : ∀ p ∈ s.placed, ∀ n, p.sum = some n →
    p.range.offset.toNat = n % 2 ^ 32 ∧ n + p.range.extent.toNat ≤ s.sum

variable {s t : Ledger α δ} {c : Command α δ} {desc : VfiBindParam}
  {tr : List (Command α δ × Ledger α δ)}

theorem inv_newXfer (agent : α) (extent : UInt32) : Inv (newXfer (δ := δ) agent extent) where
  extent := (Nat.mod_eq_of_lt extent.toNat_lt).symm
  binds := fun key => by simp [newXfer]
  automatic := nofun

/-- The code places the bind where the ledger says. -/
theorem Inv.bindKey_eq (h : Inv s) (smbs : Name → Option (Smb α)) (desc : VfiBindParam) :
    bindKey desc { s.xfer with smbs } = (s.request desc).range := by
  unfold bindKey place Ledger.request
  split
  · have hsum : s.xfer.extent.toUInt64 = UInt64.ofNat (s.sum % 2 ^ 32) := by
      rw [← UInt64.toNat_inj, UInt32.toNat_toUInt64, h.extent, UInt64.toNat_ofNat']
      omega
    rw [← hsum]
  · rfl

theorem Inv.step (h : Inv s) (hstep : bindCreate s c = some t) : Inv t := by
  unfold bindCreate at hstep
  split at hstep
  · cases hstep
  · next desc hdesc =>
    obtain ⟨⟨hret, hbind⟩, ht⟩ := Option.ite_none_right_eq_some.mp hstep
    obtain rfl := Option.some.inj ht
    obtain ⟨-, hbinds⟩ := vfiLocalBindCreate_success hbind
    refine ⟨?_, ?_, ?_⟩
    · dsimp only
      rw [Ledger.created, vfiLocalBindCreate_extent, UInt32.toNat_add, h.extent]
      omega
    · intro key
      rw [Ledger.created, hbinds, h.bindKey_eq, h.binds]
      simp only [List.exists_mem_cons_iff, eq_comm]
    · intro p hp n hn
      rcases List.mem_cons.mp hp with rfl | hp
      · unfold Ledger.request at hn ⊢
        split at hn
        · next hzero =>
          obtain rfl := Option.some.inj hn
          rw [if_pos hzero]
          refine ⟨?_, Nat.le_refl _⟩
          dsimp only
          rw [UInt64.toNat_ofNat']
          omega
        · cases hn
      · obtain ⟨hoffset, hend⟩ := h.automatic p hp n hn
        exact ⟨hoffset, Nat.le_add_right_of_le hend⟩

theorem Key.not_apart_self {key : Key} (h : key.extent ≠ 0) : ¬ key.Apart key := by
  have hpos : key.extent.toNat ≠ 0 := fun hzero => h (UInt32.toNat_inj.mp hzero)
  unfold Key.Apart
  omega

/-- Since the sum last passed 4 GiB it stayed behind the binds that were placed by it. -/
theorem Inv.apart_automatic (h : Inv s) (hzero : desc.xfer.offset = 0) {p : Placement} {n : Nat}
    (hp : p ∈ s.placed) (hn : p.sum = some n) (hturn : s.sum / 2 ^ 32 ≤ n / 2 ^ 32) :
    (s.request desc).range.Apart p.range := by
  obtain ⟨hoffset, hend⟩ := h.automatic p hp n hn
  have hrange : (s.request desc).range.offset.toNat = s.sum % 2 ^ 32 := by
    rw [Ledger.request, if_pos hzero]
    dsimp only
    rw [UInt64.toNat_ofNat']
    omega
  right
  omega

theorem Inv.fresh_iff (h : Inv s) (hstep : bindCreate s c = some t) :
    Fresh s c t ↔ PlaceClear s c t := by
  unfold bindCreate at hstep
  split at hstep
  · cases hstep
  · next desc hdesc =>
    obtain ⟨⟨hret, hbind⟩, -⟩ := Option.ite_none_right_eq_some.mp hstep
    have hkey := (vfiLocalBindCreate_success hbind).1
    rw [h.bindKey_eq] at hkey
    constructor
    · intro hfresh desc' hdesc' hzero p hp _
      obtain rfl := Option.some.inj (hdesc.symm.trans hdesc')
      obtain ⟨key, hmade, -, hapart⟩ := hfresh desc hdesc hzero
      obtain rfl := Option.some.inj (hkey.symm.trans hmade)
      exact hapart p.range ((h.binds p.range).mpr ⟨p, hp, rfl⟩)
    · intro hclear desc' hdesc' hzero
      obtain rfl := Option.some.inj (hdesc.symm.trans hdesc')
      have hapart : ∀ other, (s.xfer.binds other).isSome →
          (s.request desc).range.Apart other := by
        intro other hother
        obtain ⟨p, hp, rfl⟩ := (h.binds other).mp hother
        by_cases hturn : ∀ n, p.sum = some n → n / 2 ^ 32 < s.sum / 2 ^ 32
        · exact hclear desc hdesc hzero p hp hturn
        · simp only [not_forall, Nat.not_lt] at hturn
          obtain ⟨n, hn, hle⟩ := hturn
          exact h.apart_automatic hzero hp hn hle
      refine ⟨(s.request desc).range, hkey, ?_, hapart⟩
      by_contra hold
      refine Key.not_apart_self ?_ (hapart _ (Option.isSome_iff_ne_none.mpr hold))
      rw [Ledger.request, if_pos hzero]
      exact validExtents_ne_zero hdesc

/-- In a run of successful commands every automatically placed bind is new and apart from the
others exactly when the sum never stands on a range that was asked for by offset, or placed
before the sum last passed 4 GiB. -/
theorem automaticPlacement_iff {agent : α} {extent : UInt32}
    (hrun : IsRun bindCreate (newXfer agent extent) tr) :
    Each Fresh (newXfer agent extent) tr ↔ Each PlaceClear (newXfer agent extent) tr :=
  hrun.iff_of_invariant Inv (inv_newXfer agent extent) (fun _ _ _ => Inv.fresh_iff)
    fun _ _ _ h hstep _ => h.step hstep

/-- 4096 bytes of an xfer, at an offset or wherever there is room. -/
def placeAt (offset : UInt64) : Command Unit Unit where
  calls := goodCalls
  smbs := twoSmbs.smbs
  params := { bindOf 4096 with xfer.offset := offset }

def afterPlaceAt (offset : UInt64) : Ledger Unit Unit :=
  (bindCreate (newXfer () 0) (placeAt offset)).getD (newXfer () 0)

theorem automaticPlacement_iff_twice :
    let tr := follow bindCreate (newXfer () 0) [placeAt 0, placeAt 0]
    tr.length = 2 ∧ (Each Fresh (newXfer () 0) tr ↔ Each PlaceClear (newXfer () 0) tr) :=
  ⟨by decide, automaticPlacement_iff (isRun_follow _ _ _)⟩

/-- A bind at offset 0x1000, where the sum stands next. -/
theorem automaticPlacement_clash : ¬ ∀ (agent : Unit) (extent : UInt32)
    (tr : List (Command Unit Unit × Ledger Unit Unit)),
      IsRun bindCreate (newXfer agent extent) tr → Each Fresh (newXfer agent extent) tr := by
  intro h
  have hfirst : bindCreate (newXfer () 0) (placeAt 0x1000) = some (afterPlaceAt 0x1000) := rfl
  obtain ⟨t, hsecond⟩ : ∃ t, bindCreate (afterPlaceAt 0x1000) (placeAt 0) = some t := ⟨_, rfl⟩
  obtain ⟨-, hfresh, -⟩ := h () 0 [(placeAt 0x1000, afterPlaceAt 0x1000), (placeAt 0, t)]
    ⟨hfirst, hsecond, trivial⟩
  obtain ⟨key, hkey, hnew, -⟩ := hfresh (bindOf 4096) (by decide) rfl
  have hplaced : ((afterPlaceAt 0x1000).created (placeAt 0) (bindOf 4096)).bind =
      some ⟨0x1000, 0x1000⟩ := by
    decide
  obtain rfl := Option.some.inj (hkey.symm.trans hplaced)
  exact absurd hnew (by decide)

end Vfi.BindCreate
