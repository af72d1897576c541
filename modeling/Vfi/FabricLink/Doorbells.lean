import Vfi.FabricLink

/-!
# Doorbells over the network fabric

The id of a doorbell is in the high half of `h_pkt_info`, which goes out in the
byte order of its sender. `doorbells_ring` says what rings in a run.
-/

namespace Vfi.FabricLink

open Transition
open FabricTx (vfiFabricMsg)

-- ---------------------------------------------------------------------------
-- The bytes of an event
-- ---------------------------------------------------------------------------

theorem toNat_and_ffff (x : UInt32) : (x &&& 0xffff).toNat = x.toNat % 2 ^ 16 := by
  rw [UInt32.toNat_and]
  exact Nat.and_two_pow_sub_one_eq_mod _ 16

theorem toNat_swab32 (x : UInt32) : (swab32 x).toNat =
    x.toNat % 256 * 2 ^ 24 + x.toNat / 2 ^ 8 % 256 * 2 ^ 16 + x.toNat / 2 ^ 16 % 256 * 2 ^ 8 +
      x.toNat / 2 ^ 24 := by
  have hlt := x.toNat_lt
  simp only [swab32, UInt32.toNat_ofNat']
  omega

/-- The bytes of a number from the lowest. -/
theorem digits {a b c d : Nat} (ha : a < 256) (hb : b < 256) (hc : c < 256) :
    let x := d * 2 ^ 24 + c * 2 ^ 16 + b * 2 ^ 8 + a
    x % 256 = a ∧ x / 2 ^ 8 % 256 = b ∧ x / 2 ^ 16 % 256 = c ∧ x / 2 ^ 24 = d := by
  intro x
  refine ⟨?_, ?_, ?_, ?_⟩ <;> omega

theorem swab32_swab32 (x : UInt32) : swab32 (swab32 x) = x := by
  have hlt := x.toNat_lt
  have hbyte : ∀ y : Nat, y % 256 < 256 := fun y => Nat.mod_lt y (by decide)
  have hswab := digits (d := x.toNat % 256) (c := x.toNat / 2 ^ 8 % 256)
    (b := x.toNat / 2 ^ 16 % 256) (a := x.toNat / 2 ^ 24) (Nat.div_lt_of_lt_mul hlt)
    (hbyte _) (hbyte _)
  obtain ⟨h0, h1, h2, h3⟩ := hswab
  apply UInt32.toNat_inj.mp
  rw [toNat_swab32, toNat_swab32, h0, h1, h2, h3]
  clear h0 h1 h2 h3
  omega

theorem toNat_vfiFabricSetEvnt (db : UInt32) :
    (vfiFabricSetEvnt db).toNat = 2 ^ 16 * (db &&& 0xffff).toNat + 1 := by
  have hlt : (db &&& 0xffff).toNat < 2 ^ 16 := toNat_and_ffff db ▸ Nat.mod_lt _ (by decide)
  have hshift : ((db &&& 0xffff) <<< 16).toNat = 2 ^ 16 * (db &&& 0xffff).toNat := by
    rw [UInt32.toNat_shiftLeft, Nat.shiftLeft_eq, Nat.mul_comm]
    exact Nat.mod_eq_of_lt (Nat.mul_lt_mul_of_pos_left hlt (by decide))
  rw [vfiFabricSetEvnt, UInt32.toNat_or, hshift]
  exact (Nat.two_pow_add_eq_or_of_lt (by decide) _).symm

theorem toNat_vfiFabricGetEvnt (x : UInt32) : (vfiFabricGetEvnt x).toNat = x.toNat / 2 ^ 16 := by
  have hlt := x.toNat_lt
  rw [vfiFabricGetEvnt, toNat_and_ffff, UInt32.toNat_shiftRight, Nat.shiftRight_eq_div_pow]
  exact Nat.mod_eq_of_lt (Nat.div_lt_of_lt_mul hlt)

theorem native_native (host other : Host) (x : UInt32) : host.native (other.native x) =
    if host.bigEndian = other.bigEndian then x else swab32 x := by
  unfold Host.native
  cases host.bigEndian <;> cases other.bigEndian <;> simp [swab32_swab32]

theorem swab32_zero : swab32 0 = 0 := by decide

theorem up_setEvnt (db : UInt32) : vfiFabricIsMsg (vfiFabricSetEvnt db) = false ∧
    vfiFabricIsEvnt (vfiFabricSetEvnt db) = true ∧
    vfiFabricGetEvnt (vfiFabricSetEvnt db) = db &&& 0xffff := by
  have hset := toNat_vfiFabricSetEvnt db
  refine ⟨?_, ?_, ?_⟩
  · simp only [vfiFabricIsMsg, decide_eq_false_iff_not]
    intro hzero
    rw [hzero] at hset
    exact absurd hset.symm (Nat.succ_ne_zero _)
  · simp only [vfiFabricIsEvnt, decide_eq_true_eq]
    apply UInt32.toNat_inj.mp
    rw [toNat_and_ffff, hset, Nat.mul_add_mod]
    rfl
  · apply UInt32.toNat_inj.mp
    rw [toNat_vfiFabricGetEvnt, hset]
    omega

/-- With its bytes in the other order a doorbell is no event, but for event 256. -/
theorem up_swab32_setEvnt (db : UInt32) : vfiFabricIsMsg (swab32 (vfiFabricSetEvnt db)) = false ∧
    (vfiFabricIsEvnt (swab32 (vfiFabricSetEvnt db)) = true ↔ db &&& 0xffff = 256) ∧
    (db &&& 0xffff = 256 → vfiFabricGetEvnt (swab32 (vfiFabricSetEvnt db)) = 256) := by
  have hlt : (db &&& 0xffff).toNat < 2 ^ 16 := toNat_and_ffff db ▸ Nat.mod_lt _ (by decide)
  have hswab := toNat_swab32 (vfiFabricSetEvnt db)
  rw [toNat_vfiFabricSetEvnt] at hswab
  generalize db &&& 0xffff = evnt at *
  have hevnt : evnt = 256 ↔ evnt.toNat = 256 := by
    rw [← UInt32.toNat_inj]
    rfl
  have hword : (swab32 (vfiFabricSetEvnt db)).toNat =
      2 ^ 24 + (evnt.toNat % 256 * 256 + evnt.toNat / 256) := by
    rw [hswab]
    omega
  refine ⟨?_, ?_, fun h => ?_⟩
  · simp only [vfiFabricIsMsg, decide_eq_false_iff_not]
    intro hzero
    rw [hzero, UInt32.toNat_zero] at hword
    omega
  · simp only [vfiFabricIsEvnt, decide_eq_true_eq, hevnt, ← UInt32.toNat_inj, toNat_and_ffff, hword,
      UInt32.toNat_one]
    clear hword hswab
    have hlow : (2 ^ 24 + (evnt.toNat % 256 * 256 + evnt.toNat / 256)) % 2 ^ 16 =
        evnt.toNat % 256 * 256 + evnt.toNat / 256 := by omega
    rw [hlow]
    clear hlow
    omega
  · apply UInt32.toNat_inj.mp
    rw [toNat_vfiFabricGetEvnt, hword, hevnt.mp h]
    rfl

-- ---------------------------------------------------------------------------
-- What rings
-- ---------------------------------------------------------------------------

section

variable {ν τ ω ρ : Type*} {net : Net ν} {k : ν} {s t : State ν τ ω ρ} {f : Frame ν τ ω ρ}

/-- The node takes the frame. -/
def heard (net : Net ν) (s : State ν τ ω ρ) (k : ν) (f : Frame ν τ ω ρ) : Bool :=
  let (node, fna, _) := vfiRxPacket (net.host k) (s.node k) f.header
  !node.forgets fna f.header.hDstidx.toNat

/-- A location is registered for the address that the frame's sender is found at. -/
def registered (net : Net ν) (s : State ν τ ω ρ) (k : ν) (f : Frame ν τ ω ρ) : Bool :=
  let (node, fna, _) := vfiRxPacket (net.host k) (s.node k) f.header
  (node.regLoc fna).isSome

theorem heard_target (hd : net.Distinct) (hs : Inv net s) (hf : f ∈ s.wire)
    (hheard : heard net s k f) (hregistered : registered net s k f) :
    f.header.hDstidx = 0 ∨ f.header.hDstidx = net.own k := by
  have htake : (vfiRxPacket (net.host k) (s.node k) f.header).1.forgets
      (vfiRxPacket (net.host k) (s.node k) f.header).2.1 f.header.hDstidx.toNat = false := by
    simpa [heard] using hheard
  exact ((hs.node k).rxPacket hd (hs.wire f hf).source).1.target htake
    hregistered

/-- Where the doorbell's id comes through: the nodes have one byte order, or the id has
the same bytes in both. -/
def Legible (net : Net ν) (k : ν) (f : Frame ν τ ω ρ) (db : UInt32) : Prop :=
  (net.host k).bigEndian = (net.host f.sender).bigEndian ∨ db &&& 0xffff = 256

instance (net : Net ν) (k : ν) (f : Frame ν τ ω ρ) (db : UInt32) : Decidable (Legible net k f db) :=
  inferInstanceAs (Decidable (_ ∨ _))

/-- The events a step rings: the low half of the id of a doorbell that is taken. -/
def rings (net : Net ν) (s : State ν τ ω ρ) : Action ν τ ω ρ → List (ν × UInt32)
  | .receive k f _ =>
    match f.payload with
    | .doorbell db => if heard net s k f ∧ Legible net k f db then [(k, db &&& 0xffff)] else []
    | _ => []
  | _ => []

/-- What a frame that is taken is, by its `h_pkt_info`. -/
def upOf (hpi : UInt32) : Up :=
  if vfiFabricIsMsg hpi then .message
  else if vfiFabricIsEvnt hpi then .event (vfiFabricGetEvnt hpi)
  else .forget

theorem vfiRxPacket_up (net : Net ν) (s : State ν τ ω ρ) (k : ν) (f : Frame ν τ ω ρ) :
    (vfiRxPacket (net.host k) (s.node k) f.header).2.2 =
      if heard net s k f then upOf ((net.host k).native f.header.hPktInfo) else .forget := by
  simp only [vfiRxPacket, heard, upOf, Bool.not_eq_true', ← Bool.not_eq_true, ite_not]

theorem FrameOk.native {served : List (Served ν τ ω ρ)} (h : FrameOk net served f) (k : ν) :
    (net.host k).native f.header.hPktInfo =
      if (net.host k).bigEndian = (net.host f.sender).bigEndian then f.payload.pktInfo
      else swab32 f.payload.pktInfo := by
  rw [h.pktInfo, native_native]

/-- A message is one in either byte order. -/
theorem FrameOk.up_message {served : List (Served ν τ ω ρ)} (h : FrameOk net served f) (k : ν)
    (hpayload : f.payload.pktInfo = vfiFabricMsg) :
    upOf ((net.host k).native f.header.hPktInfo) = .message := by
  have hzero : (net.host k).native f.header.hPktInfo = 0 := by
    rw [h.native, hpayload]
    split
    · rfl
    · exact swab32_zero
  rw [hzero]
  rfl

theorem FrameOk.up_doorbell {served : List (Served ν τ ω ρ)} (h : FrameOk net served f) (k : ν)
    {db : UInt32} (hpayload : f.payload = .doorbell db) :
    upOf ((net.host k).native f.header.hPktInfo) =
      if Legible net k f db then .event (db &&& 0xffff) else .forget := by
  rw [h.native, hpayload]
  simp only [Payload.pktInfo, Legible]
  split
  · next hsame =>
    obtain ⟨hmsg, hevnt, hget⟩ := up_setEvnt db
    simp [upOf, hmsg, hevnt, hget, hsame]
  · next hother =>
    obtain ⟨hmsg, hevnt, hget⟩ := up_swab32_setEvnt db
    by_cases hid : db &&& 0xffff = 256
    · simp [upOf, hmsg, hevnt.mpr hid, hget hid, hid]
    · have hnone : vfiFabricIsEvnt (swab32 (vfiFabricSetEvnt db)) = false := by
        rw [← Bool.not_eq_true]
        exact fun hyes => hid (hevnt.mp hyes)
      simp [upOf, hmsg, hnone, hid, hother]

@[simp] theorem transmit_rung {n : ν} {fna : Nat} {pktInfo : UInt32} {payload : Payload τ ω ρ} :
    (s.transmit net n fna pktInfo payload).rung = s.rung := by
  unfold State.transmit
  split <;> rfl

def Up.events (k : ν) : Up → List (ν × UInt32)
  | .event evnt => [(k, evnt)]
  | _ => []

theorem events_eq_rings (h : FrameOk net s.served f) (taken : Bool) :
    (vfiRxPacket (net.host k) (s.node k) f.header).2.2.events k =
      rings net s (.receive k f taken) := by
  rw [vfiRxPacket_up]
  simp only [rings]
  split
  · next hheard =>
    cases hpayload : f.payload with
    | request tag op =>
      rw [h.up_message k (by rw [hpayload]; rfl)]
      rfl
    | reply tag result =>
      rw [h.up_message k (by rw [hpayload]; rfl)]
      rfl
    | doorbell db =>
      rw [h.up_doorbell k hpayload]
      by_cases hlegible : Legible net k f db
      · simp [hlegible, hheard, Up.events]
      · simp [hlegible, Up.events]
  · next hdeaf =>
    cases f.payload with
    | request tag op => rfl
    | reply tag result => rfl
    | doorbell db => simp [hdeaf, Up.events]

variable [DecidableEq ν]

theorem vfiFabricReceive_rung {fna : Nat} {taken : Bool} :
    (vfiFabricReceive k fna f taken s).rung = s.rung := by
  unfold vfiFabricReceive
  split
  · rfl
  · cases taken <;> rfl
  · rfl

theorem vfiFabricCall_rung {n : ν} {l : Nat} {tag : τ} {op : ω} :
    (vfiFabricCall net n l tag op s).rung = s.rung := by
  simp only [vfiFabricCall]
  split
  · exact transmit_rung
  · rfl

theorem receive_rung {taken : Bool} :
    (receive net k f taken s).rung =
      s.rung ++ (vfiRxPacket (net.host k) (s.node k) f.header).2.2.events k := by
  unfold receive
  generalize vfiRxPacket (net.host k) (s.node k) f.header = rx
  obtain ⟨node, fna, up⟩ := rx
  cases up with
  | message => exact vfiFabricReceive_rung.trans (List.append_nil _).symm
  | event evnt => rfl
  | forget => exact (List.append_nil _).symm

variable [DecidableEq τ] [DecidableEq ω] [DecidableEq ρ]

omit [DecidableEq ρ] in
theorem fabricDoRqst_rung {r : Request ν τ ω} {result : Option ρ} :
    (fabricDoRqst net r result s).rung = s.rung := by
  cases result with
  | none => rfl
  | some result => exact transmit_rung

theorem step_rung {a : Action ν τ ω ρ} (hs : Inv net s) (h : step net s a = some t) :
    t.rung = s.rung ++ rings net s a := by
  obtain ⟨⟨henabled, -⟩, rfl⟩ := step_eq_some.mp h
  cases a with
  | create n parent loc | assign n l offset extent | register n l | unregister n l | get n fna
  | put n fna => exact (List.append_nil _).symm
  | call n l tag op => exact vfiFabricCall_rung.trans (List.append_nil _).symm
  | doorbell n fna db =>
    have hsent : (s.transmit net n fna (vfiFabricSetEvnt db) (.doorbell db)).rung = s.rung :=
      transmit_rung
    exact hsent.trans (List.append_nil _).symm
  | receive k f taken =>
    rw [← events_eq_rings (hs.wire f henabled.1)]
    exact receive_rung
  | serve r result => exact fabricDoRqst_rung.trans (List.append_nil _).symm

/-- In every run a doorbell rings, with the low half of its id, exactly where it is taken by a
node that reads it; nothing else rings. Where a location is registered for the address that
the sender is found at, only what is sent to the node's own index, or to index 0, is taken. -/
theorem doorbells_ring {tr : List (Action ν τ ω ρ × State ν τ ω ρ)} (hd : net.Distinct)
    (hr : IsRun (step net) (init net) tr) (hnamed : ∀ entry ∈ tr, net.Named entry.1) :
    Each (fun s a t => t.rung = s.rung ++ rings net s a ∧
      ∀ k f taken, a = .receive k f taken → heard net s k f → registered net s k f →
        f.header.hDstidx = 0 ∨ f.header.hDstidx = net.own k) (init net) tr := by
  refine (isRun_named hr hnamed).of_invariant (Inv net) (inv_init net) fun s a t hs h => ?_
  refine ⟨hs.step hd h.2 h.1, step_rung hs h.1, ?_⟩
  rintro k f taken rfl hheard hregistered
  obtain ⟨⟨⟨hf, -⟩, -⟩, -⟩ := step_eq_some.mp h.1
  exact heard_target hd hs hf hheard hregistered

end

/-- A doorbell for node 2, which has a location registered for node 1, and one for a node 3. -/
def twoBells : List (Action Bool Nat Nat Nat) :=
  let bell (dstidx : UInt32) : Frame Bool Nat Nat Nat :=
    ⟨false, ⟨.replicate 6 0xff, .replicate 6 1, 0xfeed, dstidx, 1, 0x01000120⟩, .doorbell 0x2001⟩
  [.create false none { offset := 2, extent := 1 }, .register false 0,
    .create false none { offset := 3, extent := 1 }, .register false 1,
    .create true none { offset := 1, extent := 2 }, .register true 0,
    .doorbell false 1 0x2001, .doorbell false 2 0x2001, .receive true (bell 2) false,
    .receive true (bell 3) false]

def twoBellsRun := follow (step twoNodes) (init twoNodes) twoBells

example : (final (init twoNodes) twoBellsRun).rung = [(true, 0x2001)] := by decide

/-- A doorbell puts a reference it did not get. The address for node 3 had two, one of them
put in the run: one more doorbell goes out, and the next would read what was released. -/
example :
    let third : Action Bool Nat Nat Nat := .doorbell false 2 0x2001
    (follow (step twoNodes) (final (init twoNodes) twoBellsRun) [third]).length = 1 ∧
      (follow (step twoNodes) (final (init twoNodes) twoBellsRun) [third, third]).length = 1 := by
  decide

theorem doorbells_ring_twoBells :
    Each (fun s a t => t.rung = s.rung ++ rings twoNodes s a ∧
      ∀ k f taken, a = .receive k f taken → heard twoNodes s k f → registered twoNodes s k f →
        f.header.hDstidx = 0 ∨ f.header.hDstidx = twoNodes.own k) (init twoNodes) twoBellsRun := by
  refine doorbells_ring distinct_twoNodes (isRun_follow ..) fun entry hentry => ?_
  have hmem := mem_follow hentry
  simp only [twoBells, List.mem_cons, List.not_mem_nil, or_false] at hmem
  rcases hmem with h | h | h | h | h | h | h | h | h | h <;> rw [h] <;>
    simp [Net.Named, Net.Names, twoNodes]

end Vfi.FabricLink
