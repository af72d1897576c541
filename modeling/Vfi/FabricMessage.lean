import Vfi.BindMessage
import Vfi.ReplySize
import Mathlib.Algebra.BigOperators.Group.List.Basic
import Mathlib.Algebra.Ring.Nat

/-!
# The messages of the fabric operations

`vfi_fabric_call` formats a call and the tag of its request into an `sk_buff`,
with no look at the room. The format of every call in `vfi_fabric_ops.c`, and
when a message fits: `message_fits_iff`.
-/

namespace Vfi.FabricMessage

open Ops

-- ---------------------------------------------------------------------------
-- Formats
-- ---------------------------------------------------------------------------

/-- A part of a format: text, `%s`, `%x` or `%llx`, or `%d`. -/
inductive Piece where
  | lit (text : String)
  | s (value : Option (List Char))
  | x (value : Nat)
  | d (value : Int)
deriving DecidableEq, Repr

def Piece.text : Piece → List Char
  | .lit text => text.toList
  | .s value => fmtS value
  | .x value => fmtX value
  | .d value => fmtD value

/-- What `vsprintf` writes. -/
def vsprintf (format : List Piece) : List Char := format.flatMap Piece.text

def Piece.size : Piece → Nat
  | .lit text => text.length
  | .s value => lenS value
  | .x value => lenX value
  | .d value => lenD value

def formatSize (format : List Piece) : Nat := (format.map Piece.size).sum

/-- `%s.%s` -/
def component (d : VfiDescParam) : List Piece := [.s d.name, .lit ".", .s d.location]

/-- `%s.%s#%llx` -/
def place (d : VfiDescParam) (offset : UInt64) : List Piece :=
  component d ++ [.lit "#", .x offset.toNat]

/-- `%s.%s#%llx:%x` -/
def fragment (d : VfiDescParam) : List Piece := place d d.offset ++ [.lit ":", .x d.extent.toNat]

/-- `%s.%s#%llx:%x/%s.%s#%llx:%x=%s.%s#%llx:%x` -/
def fragments (xfer dst src : VfiDescParam) : List Piece :=
  fragment xfer ++ [.lit "/"] ++ fragment dst ++ [.lit "="] ++ fragment src

def eventName (d : VfiDescParam) : Option (List Char) := vfiGetOption d "event_name".toList

/-- The calls, by the function that makes them, with what they print. -/
inductive FabricCall where
  | locationFind (desc : VfiDescParam)
  | locationFindRoot (desc : VfiDescParam)
  | locationLose (desc : VfiDescParam)
  | locationDelete (desc : VfiDescParam)
  | smbFind (desc : VfiDescParam)
  | smbPut (smb : VfiDescParam)
  | smbLose (smb : VfiDescParam)
  | smbCreate (desc : VfiDescParam)
  | xferFind (desc : VfiDescParam)
  | xferPut (xfer : VfiDescParam)
  | xferLose (xfer : VfiDescParam)
  | xferCreate (desc : VfiDescParam)
  | syncFind (desc : VfiDescParam)
  | syncSend (sync desc : VfiDescParam)
  | syncWait (sync desc : VfiDescParam)
  | syncPut (desc : VfiDescParam)
  | syncCreate (desc : VfiDescParam)
  | syncDelete (desc : VfiDescParam)
  | bindFind (desc : VfiDescParam)
  | bindCreate (desc : VfiBindParam)
  | bindDelete (desc : VfiDescParam)
  | bindLose (desc : VfiDescParam)
  | dstFind (desc : VfiBindParam)
  | dstCreate (desc : VfiBindParam)
  | dstDelete (desc : VfiBindParam)
  | dstsCreate (parent desc : VfiBindParam) (eventId : Int)
  | dstsDelete (desc : VfiBindParam)
  | srcFind (desc : VfiBindParam)
  | srcCreate (desc : VfiBindParam)
  | srcDelete (parent desc : VfiBindParam)
  | srcsCreate (desc : VfiBindParam) (srcReadyEventId : Int)
  | srcsDelete (desc : VfiBindParam)
  | eventStart (desc : VfiDescParam)
  | eventFind (desc : VfiDescParam)
  | eventChain (desc : VfiDescParam)

/-- The format of a call with its arguments. A creation without the event names that it prints is
not called. -/
def FabricCall.format : FabricCall → Option (List Piece)
  | .locationFind desc => some (.lit "location_find://" :: component desc)
  | .locationFindRoot desc => some [.lit "location_find://", .s desc.name]
  | .locationLose desc => some (.lit "location_put://" :: component desc)
  | .locationDelete desc => some (.lit "location_delete://" :: component desc)
  | .smbFind desc => some (.lit "smb_find://" :: component desc)
  | .smbPut smb => some (.lit "smb_put://" :: component smb)
  | .smbLose smb => some (.lit "smb_lose://" :: component smb)
  | .smbCreate desc => some (.lit "smb_create://" :: fragment desc)
  | .xferFind desc => some (.lit "xfer_find://" :: component desc)
  | .xferPut xfer => some (.lit "xfer_put://" :: component xfer)
  | .xferLose xfer => some (.lit "xfer_lose://" :: component xfer)
  | .xferCreate desc => some (.lit "xfer_create://" :: fragment desc)
  | .syncFind desc => some (.lit "sync_find://" :: component desc)
  | .syncSend sync desc => some (.lit "sync_send://" :: place sync desc.offset)
  | .syncWait sync desc => some (.lit "sync_wait://" :: place sync desc.offset)
  | .syncPut desc => some (.lit "sync_put://" :: component desc)
  | .syncCreate desc => some (.lit "sync_create://" :: fragment desc)
  | .syncDelete desc => some (.lit "sync_delete://" :: component desc)
  | .bindFind desc => some (.lit "bind_find://" :: fragment desc)
  | .bindCreate desc => some
      (.lit "bind_create://" :: fragment desc.xfer ++ [.lit "/"] ++ fragment desc.dst ++
        [.lit "?event_name(", .s (eventName desc.dst), .lit ")="] ++ fragment desc.src ++
        [.lit "?event_name(", .s (eventName desc.src), .lit ")"])
  | .bindDelete desc => some (.lit "bind_delete://" :: fragment desc)
  | .bindLose desc => some (.lit "bind_lose://" :: fragment desc)
  | .dstFind desc => some (.lit "dst_find://" :: fragments desc.xfer desc.dst desc.src)
  | .dstCreate desc =>
    if (eventName desc.src).isNone then none
    else some
      (.lit "dst_create://" :: fragments desc.xfer desc.dst desc.src ++
        [.lit "?event_name(", .s (eventName desc.src), .lit ")"])
  | .dstDelete desc => some (.lit "dst_delete://" :: fragments desc.xfer desc.dst desc.src)
  | .dstsCreate parent desc eventId =>
    if (eventName parent.dst).isNone ∨ (eventName parent.src).isNone then none
    else some
      (.lit "dsts_create://" :: fragment desc.xfer ++ [.lit "/"] ++ fragment desc.dst ++
        [.lit "?event_id(", .d eventId, .lit "),event_name(", .s (eventName parent.dst),
          .lit ")="] ++ fragment desc.src ++
        [.lit "?event_name(", .s (eventName parent.src), .lit ")"])
  | .dstsDelete desc => some (.lit "dsts_delete://" :: fragments desc.xfer desc.dst desc.src)
  | .srcFind desc => some (.lit "src_find://" :: fragments desc.xfer desc.dst desc.src)
  | .srcCreate desc => some (.lit "src_create://" :: fragments desc.xfer desc.dst desc.src)
  | .srcDelete parent desc =>
    some (.lit "src_delete://" :: fragments desc.xfer parent.dst desc.src)
  | .srcsCreate desc srcReadyEventId =>
    if (eventName desc.src).isNone then none
    else some
      (.lit "srcs_create://" :: fragments desc.xfer desc.dst desc.src ++
        [.lit "?event_name(", .s (eventName desc.src), .lit "),event_id(", .d srcReadyEventId,
          .lit ")"])
  | .srcsDelete desc => some (.lit "srcs_delete://" :: fragments desc.xfer desc.dst desc.src)
  | .eventStart desc => some (.lit "event_start://" :: component desc)
  | .eventFind desc => some (.lit "event_find://" :: component desc)
  | .eventChain desc => some
      (.lit "event_chain://" :: component desc ++
        [.lit "?event_name(", .s (eventName desc), .lit ")"])

/-- The text that `vfi_fabric_call` writes for a format, with its NUL. -/
def vfiFabricMessage (format : List Piece) (tag : List Char) : List Char :=
  let call := vsprintf format
  let mark := if (strstr call ['?']).isSome then ',' else '?'
  call ++ mark :: "request(".toList ++ tag ++ [')', '\x00']

/-- A message that is sent is in the room of its `sk_buff`, the NUL included. -/
def Fits (call : FabricCall) (tag : List Char) : Prop :=
  ∀ format ∈ call.format, (vfiFabricMessage format tag).length ≤ skbRoom

-- ---------------------------------------------------------------------------
-- When a message fits
-- ---------------------------------------------------------------------------

theorem Piece.length_text (piece : Piece) : piece.text.length = piece.size := by
  cases piece with
  | lit text => exact String.length_toList
  | s value => exact length_fmtS value
  | x value => rfl
  | d value => rfl

theorem length_vsprintf (format : List Piece) : (vsprintf format).length = formatSize format := by
  induction format with
  | nil => rfl
  | cons piece rest ih =>
    rw [vsprintf, List.flatMap_cons, List.length_append, piece.length_text, ← vsprintf, ih,
      formatSize, formatSize, List.map_cons, List.sum_cons]

theorem length_message (format : List Piece) (tag : List Char) :
    (vfiFabricMessage format tag).length = formatSize format + tag.length + 11 := by
  have hrequest : "request(".toList.length = 8 := by decide
  unfold vfiFabricMessage
  dsimp only
  simp only [List.length_append, List.length_cons, List.length_nil, length_vsprintf]
  omega

/-- A message fits exactly when the names and numbers of its format, its text and its tag have
together at most so many characters, with 11 for the mark, `request()` and the NUL. -/
theorem message_fits_iff (call : FabricCall) (tag : List Char) :
    Fits call tag ↔ ∀ format ∈ call.format, formatSize format + tag.length + 11 ≤ skbRoom := by
  unfold Fits
  simp only [length_message]

/-- A message that fits is sent. -/
theorem Fits.sent {call : FabricCall} {tag : List Char} (h : Fits call tag) :
    ∀ format ∈ call.format, (vfiFabricCallText (vsprintf format) tag).isSome := by
  intro format hformat
  have hlength := h format hformat
  rw [length_message] at hlength
  have hrequest : "request(".toList.length = 8 := by decide
  unfold vfiFabricCallText
  dsimp only
  rw [if_pos]
  · rfl
  · simp only [List.length_append, List.length_cons, List.length_nil, length_vsprintf]
    omega

def longName (n : Nat) : Word where
  chars := 'a' :: List.replicate n 'a'
  ne_nil := List.cons_ne_nil _ _
  plain c hc := by
    rw [List.eq_of_mem_replicate (n := n + 1) hc]
    decide

/-- A name of so many characters and one more, at a location of one. -/
def longText (n : Nat) : DescText where
  name := longName n
  location := [⟨['x'], List.cons_ne_nil _ _, plain_of_all (by decide)⟩]

theorem longText_length (n : Nat) : (longText n).text.length = n + 3 := by
  simp [longText, DescText.text, DescText.opText, DescText.pathText, DescText.rangeText,
    DescText.offsetText, DescText.extentText, DescText.optionsText, DescText.locationText, longName]

theorem longText_size (build : Build) (n : Nat) :
    formatSize (.lit "smb_find://" :: component ((longText n).denote build)) = n + 14 := by
  have hcmd : "smb_find://".length = 11 := by decide
  have hdot : ".".length = 1 := by decide
  simp [formatSize, component, Piece.size, lenS, DescText.denote, longText, longName,
    DescText.locationText, hcmd, hdot]
  omega

/-- The parser accepts a name of 1900 characters, and the call that looks for an SMB of this name
does not fit. -/
theorem smbFind_overflows :
    ¬ ∀ (build : Build) (text : List Char) (desc : VfiDescParam) (tag : List Char),
      vfiParseDesc build text = .ok desc → Fits (.smbFind desc) tag := by
  intro h
  have hshort : (longText 1899).text.length ≤ skbRoom := by
    rw [longText_length]
    decide
  have hdup := vfiStrDup_short hshort ((longText 1899).argc_text.trans_le (by decide))
  have hfits := h ⟨64, false⟩ _ _ [] ((longText 1899).vfiParseDesc_denote ⟨64, false⟩ hdup) _ rfl
  rw [length_message, longText_size] at hfits
  exact absurd hfits (by decide)

end Vfi.FabricMessage
