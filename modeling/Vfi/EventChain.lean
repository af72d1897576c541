import Vfi.Desc
import Vfi.Lib.NextWalk
import Vfi.Lib.Transition

/-!
# Chains of event lists

`event_chain` sets one next and one previous pointer without looking at those
already there, and `event_start` follows the next pointers for as long as there
are any. When all chains stay finite and linked both ways: `eventChain_iff`.
-/

namespace Vfi.EventChain

open NextWalk StateTransition Transition

variable {ν : Type*} [DecidableEq ν]

/-- The pointers between the event lists, which go by their names. -/
structure Chains (ν : Type*) where
  next : ν → Option ν
  prev : ν → Option ν

/-- Lists that were just created. -/
def init : Chains ν := ⟨fun _ => none, fun _ => none⟩

/-- A command: the name and the `event_name` option of its descriptor. -/
structure Desc (ν : Type*) where
  name : ν
  eventName : Option ν
deriving DecidableEq, Repr

def findVfiEvents (events : List ν) (name : ν) : Option ν :=
  if name ∈ events then some name else none

def vfiLocalEventChain (events : List ν) (c : Chains ν) (desc : Desc ν) : Int × Chains ν :=
  match desc.eventName with
  | none => (-einval, c)
  | some eventName =>
    match findVfiEvents events desc.name with
    | none => (-einval, c)
    | some this =>
      match findVfiEvents events eventName with
      | none => (-einval, c)
      | some next => (0, {
          next := Function.update c.next this (some next)
          prev := Function.update c.prev next (some this) })

/-- The result, and the lists that `vfi_events_start` is called for, at most so many. -/
def vfiLocalEventStart (events : List ν) (c : Chains ν) (fuel : Nat) (name : ν) :
    Option (Int × List ν) :=
  match findVfiEvents events name with
  | none => some (-einval, [])
  | some this => (walk c.next fuel (some this)).map fun started => (0, started)

def step (events : List ν) (c : Chains ν) (desc : Desc ν) : Option (Chains ν) :=
  some (vfiLocalEventChain events c desc).2

/-- The pointers are inverse, and a start of any list ends and starts every list that is reached
once. -/
structure Sound (events : List ν) (c : Chains ν) : Prop where
  inverse : ∀ a b, c.next a = some b ↔ c.prev b = some a
  starts : ∀ a ∈ events, ∃ fuel started, vfiLocalEventStart events c fuel a = some (0, started) ∧
    started.Nodup ∧ ∀ b, b ∈ started ↔ Reaches c.next a b

/-- The command is refused or repeated, or it joins the end of a chain to the start of another. -/
def Joins (events : List ν) (c : Chains ν) (desc : Desc ν) : Prop :=
  ∀ b, desc.eventName = some b → desc.name ∈ events → b ∈ events →
    c.next desc.name = some b ∨
      c.next desc.name = none ∧ c.prev b = none ∧ ¬ Reaches c.next b desc.name

variable {events : List ν} {c t : Chains ν} {desc : Desc ν} {a b : ν}

theorem findVfiEvents_of_mem (h : a ∈ events) : findVfiEvents events a = some a := if_pos h

theorem findVfiEvents_of_not_mem (h : a ∉ events) : findVfiEvents events a = none := if_neg h

-- ---------------------------------------------------------------------------
-- Starting a chain
-- ---------------------------------------------------------------------------

/-- A start ends if the walk does. -/
theorem exists_start_iff (ha : a ∈ events) {l : List ν} :
    (∃ fuel, vfiLocalEventStart events c fuel a = some (0, l)) ↔ Walks c.next (some a) l := by
  simp [walks_iff, vfiLocalEventStart, findVfiEvents_of_mem ha]

theorem sound_iff : Sound events c ↔ (∀ a b, c.next a = some b ↔ c.prev b = some a) ∧
    ∀ a ∈ events, ∃ l, Walks c.next (some a) l := by
  constructor
  · intro h
    refine ⟨h.inverse, fun a ha => ?_⟩
    obtain ⟨fuel, l, hstart, -⟩ := h.starts a ha
    exact ⟨l, (exists_start_iff ha).mp ⟨fuel, hstart⟩⟩
  · rintro ⟨hinverse, hwalks⟩
    refine ⟨hinverse, fun a ha => ?_⟩
    obtain ⟨l, hl⟩ := hwalks a ha
    obtain ⟨fuel, hstart⟩ := (exists_start_iff ha).mpr hl
    exact ⟨fuel, l, hstart, hl.nodup, fun b => hl.mem_iff⟩

theorem sound_init : Sound events (init : Chains ν) := by
  refine sound_iff.mpr ⟨fun a b => by simp [init], fun a _ => ⟨[a], .cons .nil⟩⟩

-- ---------------------------------------------------------------------------
-- One command
-- ---------------------------------------------------------------------------

/-- The chains with one more pointer each way. -/
def Chains.link (c : Chains ν) (a b : ν) : Chains ν where
  next := Function.update c.next a (some b)
  prev := Function.update c.prev b (some a)

/-- A command links two lists that are found, and else changes nothing. -/
theorem step_cases (h : step events c desc = some t) :
    (∃ b, desc.eventName = some b ∧ desc.name ∈ events ∧ b ∈ events ∧ t = c.link desc.name b) ∨
      t = c ∧ ∀ b, desc.eventName = some b → desc.name ∈ events → b ∉ events := by
  obtain rfl := Option.some.inj h
  unfold vfiLocalEventChain
  cases heventName : desc.eventName with
  | none => exact .inr ⟨rfl, by simp⟩
  | some b =>
    by_cases hname : desc.name ∈ events
    · by_cases hb : b ∈ events
      · refine .inl ⟨b, rfl, hname, hb, ?_⟩
        simp [findVfiEvents_of_mem hname, findVfiEvents_of_mem hb, Chains.link]
      · refine .inr ⟨?_, by simpa using fun _ => hb⟩
        simp [findVfiEvents_of_mem hname, findVfiEvents_of_not_mem hb]
    · refine .inr ⟨?_, fun _ _ hmem => absurd hmem hname⟩
      simp [findVfiEvents_of_not_mem hname]

/-- The pointers stay inverse only if none that says otherwise is overwritten. -/
theorem link_inverse (hs : ∀ a b, c.next a = some b ↔ c.prev b = some a)
    (ht : ∀ x y, (c.link a b).next x = some y ↔ (c.link a b).prev y = some x) :
    c.next a = some b ∨ c.next a = none ∧ c.prev b = none := by
  by_cases hab : c.next a = some b
  · exact .inl hab
  · refine .inr ⟨?_, ?_⟩
    · cases hnext : c.next a with
      | none => rfl
      | some y =>
        have hy : y ≠ b := by
          rintro rfl
          exact hab hnext
        have hback := (ht a y).mpr (by simpa [Chains.link, hy] using (hs a y).mp hnext)
        simp [Chains.link, Ne.symm hy] at hback
    · cases hprev : c.prev b with
      | none => rfl
      | some x =>
        have hx : x ≠ a := by
          rintro rfl
          exact hab ((hs x b).mpr hprev)
        have hback := (ht x b).mp (by simpa [Chains.link, hx] using (hs x b).mpr hprev)
        simp [Chains.link, Ne.symm hx] at hback

/-- A pointer that is set again stays as it is. -/
theorem link_self (hs : ∀ a b, c.next a = some b ↔ c.prev b = some a) (h : c.next a = some b) :
    c.link a b = c := by
  unfold Chains.link
  rw [← (hs a b).mp h, Function.update_eq_self, ← h, Function.update_eq_self]

theorem link_keeps_inverse (hs : ∀ a b, c.next a = some b ↔ c.prev b = some a)
    (hnext : c.next a = none) (hprev : c.prev b = none) (x y : ν) :
    (c.link a b).next x = some y ↔ (c.link a b).prev y = some x := by
  by_cases hx : x = a
  · by_cases hy : y = b
    · simp [Chains.link, hx, hy]
    · have hnot : c.prev y ≠ some a := fun h => by simp [(hs a y).mpr h] at hnext
      simp [Chains.link, hx, hy, hnot, Ne.symm hy]
  · by_cases hy : y = b
    · have hnot : c.next x ≠ some b := fun h => by simp [(hs x b).mp h] at hprev
      simp [Chains.link, hx, hy, hnot, Ne.symm hx]
    · simpa [Chains.link, hx, hy] using hs x y

theorem sound_link_iff (hs : Sound events c) (ha : a ∈ events) (hb : b ∈ events) :
    Sound events (c.link a b) ↔
      c.next a = some b ∨ c.next a = none ∧ c.prev b = none ∧ ¬ Reaches c.next b a := by
  constructor
  · intro ht
    rcases link_inverse hs.inverse ht.inverse with hsame | ⟨hnext, hprev⟩
    · exact .inl hsame
    · refine .inr ⟨hnext, hprev, fun hcycle => ?_⟩
      exact not_walks_of_cycle hnext hcycle ((sound_iff.mp ht).2 a ha)
  · rintro (hsame | ⟨hnext, hprev, hcycle⟩)
    · rwa [link_self hs.inverse hsame]
    · refine sound_iff.mpr ⟨link_keeps_inverse hs.inverse hnext hprev, fun x hx => ?_⟩
      obtain ⟨l, hl⟩ := (sound_iff.mp hs).2 x hx
      obtain ⟨m, hm⟩ := (sound_iff.mp hs).2 b hb
      exact hl.link hm fun hmem => hcycle (hm.mem_iff.mp hmem)

theorem sound_step_iff (hs : Sound events c) (h : step events c desc = some t) :
    Sound events t ↔ Joins events c desc := by
  obtain ⟨b, heventName, hname, hb, rfl⟩ | ⟨rfl, hrefused⟩ := step_cases h
  · rw [sound_link_iff hs hname hb]
    simp [Joins, heventName, hname, hb]
  · exact ⟨fun _ b heventName hname hb => absurd hb (hrefused b heventName hname), fun _ => hs⟩

-- ---------------------------------------------------------------------------
-- Runs
-- ---------------------------------------------------------------------------

/-- The chains are sound after every command exactly if every command is refused, repeated, or
joins two chains at their ends. -/
theorem eventChain_iff {tr : List (Desc ν × Chains ν)} (hrun : IsRun (step events) init tr) :
    Each (fun _ _ t => Sound events t) init tr ↔
      Each (fun c desc _ => Joins events c desc) init tr :=
  Each.iff_of_invariant (Sound events) sound_init (fun _ _ _ hs h => sound_step_iff hs h)
    (fun _ _ _ hs h hjoins => (sound_step_iff hs h).mpr hjoins) hrun

/-- Three lists in a chain. -/
theorem eventChain_iff_three :
    Each (fun _ _ t => Sound [0, 1, 2] t) init
      (follow (step [0, 1, 2]) init [⟨1, some 2⟩, ⟨0, some 1⟩]) := by
  refine (eventChain_iff (isRun_follow _ _ _)).mpr ⟨?_, ?_, trivial⟩
  · rintro b hb - -
    obtain rfl := Option.some.inj hb
    have hwalk : Walks (init : Chains Nat).next (some 2) [2] := .cons .nil
    refine .inr ⟨rfl, rfl, fun hreach => ?_⟩
    simp [← hwalk.mem_iff] at hreach
  · rintro b hb - -
    obtain rfl := Option.some.inj hb
    have hwalk : Walks (init.link 1 2 : Chains Nat).next (some 1) [1, 2] := .cons (.cons .nil)
    refine .inr ⟨rfl, rfl, fun hreach => ?_⟩
    exact absurd (hwalk.mem_iff.mpr hreach) (by decide)

/-- A list chained to itself is started again and again. -/
theorem self_chain :
    ¬ Each (fun _ _ t => Sound [0] t) init (follow (step [0]) init [⟨0, some 0⟩]) := by
  rintro ⟨hsound, -⟩
  obtain hlink | ⟨-, -, hcycle⟩ :=
    (sound_link_iff (a := 0) (b := 0) sound_init (by simp) (by simp)).mp hsound
  · simp [init] at hlink
  · exact hcycle .refl

end Vfi.EventChain
