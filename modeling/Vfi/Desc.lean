import Mathlib.Data.UInt

/-!
# Descriptors

`struct vfi_desc_param` and `struct vfi_bind_param` as the operations read
them. Offsets are `u64` and extents `unsigned int`; a character string is the
list of its characters before the terminating NUL.
-/

namespace Vfi

/-- A component named by a command: where it is, which of its bytes are meant,
and the options given with it. `location` is NULL when the command gives none,
and `name` in a descriptor that was zeroed and never filled in. -/
structure VfiDescParam where
  name : Option (List Char) := none
  location : Option (List Char) := none
  offset : UInt64 := 0
  extent : UInt32 := 0
  query : List (List Char) := []
deriving DecidableEq, Repr

structure VfiBindParam where
  xfer : VfiDescParam
  dst : VfiDescParam
  src : VfiDescParam
deriving DecidableEq, Repr

def einval : Int := 22

def enomem : Int := 12

end Vfi
