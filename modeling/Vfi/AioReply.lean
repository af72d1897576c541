import Vfi.Smb

/-!
# The reply to an asynchronous write

`aio_def_write` stores a reply through the pages that `vfi_aio_write` has pinned
at the user's address. Where the reply crosses into the second page it is split
by the alignment of the address it is read from. When it is stored in place:
`aioDefWrite_inPlace_iff`.
-/

namespace Vfi.AioReply

-- ---------------------------------------------------------------------------
-- Copying
-- ---------------------------------------------------------------------------

def pageAlign (address : UInt64) : UInt64 := (address + pageSize - 1) &&& pageMask

/-- The pages from the one of `ki_pos` to the end of so many bytes. -/
def nrPages (kiPos n : UInt64) : UInt64 :=
  (pageAlign (kiPos + n) - (kiPos &&& pageMask)) >>> pageShift

/-- Conversion to `int`. -/
def toInt (x : Int) : Int := x.bmod (2 ^ 32)

/-- Conversion to `size_t`. -/
def toSize (x : Int) : Nat := (UInt64.ofInt x).toNat

/-- A `memcpy` of so many bytes, from an offset in the reply to an offset in the mapping of a
pinned page. -/
structure Memcpy where
  page : Nat
  dest : Nat
  src : Nat
  n : Nat
deriving DecidableEq, Repr

def strlen (chars : List UInt8) : Nat := (chars.takeWhile (· ≠ 0)).length

/-- The copies of a reply, with the bytes from its address on. -/
def copyReply (kiPos reply : UInt64) (chars : List UInt8) : List Memcpy :=
  let ncopy := toInt (strlen chars + 1)
  let dest := (kiPos &&& ~~~pageMask).toNat
  if nrPages kiPos (.ofInt ncopy) = 1 then [⟨0, dest, 0, toSize ncopy⟩]
  else
    let n := toInt (pageSize - (reply - pageAlign reply)).toNat
    [⟨0, dest, 0, toSize n⟩, ⟨1, 0, n.toNat, toSize (ncopy - n)⟩]

/-- The pages that `vfi_aio_write` pins, for a reply of at most 256 bytes. -/
def pinned (kiPos : UInt64) : Nat := (nrPages kiPos 256).toNat

/-- The copies made, and the pages that are marked dirty and released. -/
structure CopyOut where
  copies : List Memcpy
  released : List Nat
deriving DecidableEq, Repr

/-- What is done with a reply; `ki_pos` is where the user wants it, if anywhere. -/
def aioDefWrite (kiPos reply : UInt64) (chars : List UInt8) : CopyOut :=
  if kiPos ≠ 0 then ⟨copyReply kiPos reply chars, List.range (nrPages kiPos 256).toNat⟩
  else ⟨[], []⟩

-- ---------------------------------------------------------------------------
-- The pages
-- ---------------------------------------------------------------------------

/-- The bytes behind the mapping of each pinned page, those of the page first. -/
abbrev Mapped := Nat → Nat → UInt8

def Memcpy.Writes (m : Memcpy) (page i : Nat) : Prop :=
  page = m.page ∧ m.dest ≤ i ∧ i < m.dest + m.n

instance (m : Memcpy) (page i : Nat) : Decidable (m.Writes page i) :=
  inferInstanceAs (Decidable (_ ∧ _ ∧ _))

def memcpy (chars : List UInt8) (mapped : Mapped) (m : Memcpy) : Mapped := fun page i =>
  if m.Writes page i then chars.getD (m.src + (i - m.dest)) 0 else mapped page i

/-- The user's address of a byte of a pinned page. -/
def userAddress (kiPos : UInt64) (page i : Nat) : Nat :=
  kiPos.toNat / 4096 * 4096 + page * 4096 + i

/-- Exactly the bytes at the user's address are written, in pages that are pinned until they
are, and what is there afterwards is the reply. -/
structure InPlace (kiPos : UInt64) (reply chars : List UInt8) (out : CopyOut) : Prop where
  written (page i : Nat) : (∃ m ∈ out.copies, m.Writes page i) ↔
    i < 4096 ∧ kiPos.toNat ≤ userAddress kiPos page i ∧
      userAddress kiPos page i < kiPos.toNat + reply.length
  stored (mapped : Mapped) (page i k : Nat) : i < 4096 → k < reply.length →
    userAddress kiPos page i = kiPos.toNat + k →
    some (out.copies.foldl (memcpy chars) mapped page i) = reply[k]?
  pinned : ∀ m ∈ out.copies, m.page < pinned kiPos
  released : out.released = List.range (AioReply.pinned kiPos)

theorem pageAlign_toNat (x : UInt64) :
    (pageAlign x).toNat = (x.toNat + 4095) % 2 ^ 64 / 4096 * 4096 := by
  have hsize : pageSize.toNat = 4096 := by decide
  have hone : (1 : UInt64).toNat = 1 := rfl
  rw [pageAlign, toNat_and_pageMask, UInt64.toNat_sub, UInt64.toNat_add, hsize, hone]
  omega

/-- The page count is right even where the address wraps. -/
theorem nrPages_toNat {kiPos n : UInt64} (hn : 0 < n.toNat) (hle : n.toNat ≤ 256) :
    (nrPages kiPos n).toNat = (kiPos.toNat % 4096 + n.toNat + 4095) / 4096 := by
  have hki := kiPos.toNat_lt
  rw [nrPages, toNat_shiftRight_pageShift, UInt64.toNat_sub, pageAlign_toNat, toNat_and_pageMask,
    UInt64.toNat_add]
  omega

theorem toInt_of_lt {n : Nat} (h : n < 2 ^ 31) : toInt n = n := by
  unfold toInt
  rw [Int.bmod_eq_of_le] <;> omega

theorem toSize_of_lt {n : Nat} (h : n < 2 ^ 64) : toSize n = n := by
  have hmod : ((n : Int) % 2 ^ 64).toNat = n := by omega
  rw [toSize, UInt64.ofInt, hmod, UInt64.toNat_ofNat_of_lt' h]

theorem toNat_ofInt_of_lt {n : Nat} (h : n < 2 ^ 64) : (UInt64.ofInt n).toNat = n :=
  toSize_of_lt h

/-- A copy that does not end with the page is never shorter than one. -/
theorem split_le (reply : UInt64) :
    ∃ k, k < 4096 ∧ toInt (pageSize - (reply - pageAlign reply)).toNat = (4096 + k : Nat) := by
  have hsize : pageSize.toNat = 4096 := by decide
  have hlt := reply.toNat_lt
  have hval : ∃ k, k < 4096 ∧ (pageSize - (reply - pageAlign reply)).toNat = 4096 + k := by
    rw [UInt64.toNat_sub, UInt64.toNat_sub, pageAlign_toNat, hsize]
    refine ⟨(4096 - reply.toNat % 4096) % 4096, ?_, ?_⟩ <;> omega
  obtain ⟨k, hk, hval⟩ := hval
  refine ⟨k, hk, ?_⟩
  rw [hval]
  apply toInt_of_lt
  omega

-- ---------------------------------------------------------------------------
-- The copies
-- ---------------------------------------------------------------------------

variable {kiPos src : UInt64} {reply behind : List UInt8}

theorem strlen_append (h : 0 ∉ reply) : strlen (reply ++ 0 :: behind) = reply.length := by
  rw [strlen, List.takeWhile_append_of_pos]
  · simp
  · intro c hc
    have hne : c ≠ 0 := ne_of_mem_of_not_mem hc h
    simpa using hne

/-- A reply within the first page is one copy. -/
theorem copyReply_within (hplain : 0 ∉ reply)
    (hfits : kiPos.toNat % 4096 + (reply.length + 1) ≤ 4096) (hlen : reply.length + 1 ≤ 256) :
    copyReply kiPos src (reply ++ 0 :: behind) =
      [⟨0, kiPos.toNat % 4096, 0, reply.length + 1⟩] := by
  have hncopy : toInt (reply.length + 1 : Nat) = (reply.length + 1 : Nat) :=
    toInt_of_lt (by omega)
  have hnat : (UInt64.ofInt (reply.length + 1 : Nat)).toNat = reply.length + 1 :=
    toNat_ofInt_of_lt (by omega)
  have hpages : nrPages kiPos (.ofInt (reply.length + 1 : Nat)) = 1 := by
    rw [← UInt64.toNat_inj, nrPages_toNat, hnat]
    · have hone : (1 : UInt64).toNat = 1 := rfl
      omega
    · omega
    · omega
  unfold copyReply
  rw [strlen_append hplain, ← Nat.cast_succ, hncopy, toNat_and_not_pageMask]
  simp only
  rw [if_pos hpages, toSize_of_lt]
  omega

/-- A reply into the second page begins with a copy of a page or more. -/
theorem copyReply_across (hplain : 0 ∉ reply)
    (hcross : 4096 < kiPos.toNat % 4096 + (reply.length + 1)) (hlen : reply.length + 1 ≤ 256) :
    ∃ n rest, 4096 ≤ n ∧
      copyReply kiPos src (reply ++ 0 :: behind) = ⟨0, kiPos.toNat % 4096, 0, n⟩ :: rest := by
  have hncopy : toInt (reply.length + 1 : Nat) = (reply.length + 1 : Nat) :=
    toInt_of_lt (by omega)
  have hnat : (UInt64.ofInt (reply.length + 1 : Nat)).toNat = reply.length + 1 :=
    toNat_ofInt_of_lt (by omega)
  have hpages : nrPages kiPos (.ofInt (reply.length + 1 : Nat)) ≠ 1 := by
    rw [ne_eq, ← UInt64.toNat_inj, nrPages_toNat, hnat]
    · have hone : (1 : UInt64).toNat = 1 := rfl
      omega
    · omega
    · omega
  obtain ⟨k, hk, hsplit⟩ := split_le src
  unfold copyReply
  rw [strlen_append hplain, ← Nat.cast_succ, hncopy, toNat_and_not_pageMask]
  simp only
  rw [if_neg hpages, hsplit, toSize_of_lt]
  · exact ⟨4096 + k, _, Nat.le_add_right _ _, rfl⟩
  · omega

/-- A single copy within the first page is in place. -/
theorem inPlace_of_single {bytes : List UInt8} (hpos : 0 < bytes.length)
    (hle : bytes.length ≤ 256) (hfits : kiPos.toNat % 4096 + bytes.length ≤ 4096) :
    InPlace kiPos bytes (bytes ++ behind)
      ⟨[⟨0, kiPos.toNat % 4096, 0, bytes.length⟩], List.range (nrPages kiPos 256).toNat⟩ := by
  have hpinned : 0 < pinned kiPos := by
    have htwo : (256 : UInt64).toNat = 256 := rfl
    rw [pinned, nrPages_toNat] <;> omega
  refine ⟨?_, ?_, ?_, rfl⟩
  · intro page i
    simp only [List.mem_singleton, exists_eq_left, Memcpy.Writes, userAddress]
    omega
  · intro mapped page i k hi hk haddress
    unfold userAddress at haddress
    have hwrites : (⟨0, kiPos.toNat % 4096, 0, bytes.length⟩ : Memcpy).Writes page i := by
      refine ⟨?_, ?_, ?_⟩ <;> dsimp only <;> omega
    have hsrc : 0 + (i - kiPos.toNat % 4096) = k := by omega
    rw [List.foldl_cons, List.foldl_nil, memcpy, if_pos hwrites]
    dsimp only
    rw [hsrc, List.getD_eq_getElem?_getD, List.getElem?_append_left hk,
      List.getElem?_eq_getElem hk]
    rfl
  · intro m hm
    rw [List.mem_singleton.mp hm]
    exact hpinned

/-- The reply is stored in place, and nothing else is written, exactly if it does not reach the
user's second page. -/
theorem aioDefWrite_inPlace_iff (kiPos src : UInt64) (reply behind : List UInt8)
    (hki : kiPos ≠ 0) (hplain : 0 ∉ reply) (hlen : reply.length + 1 ≤ 256) :
    InPlace kiPos (reply ++ [0]) (reply ++ 0 :: behind)
        (aioDefWrite kiPos src (reply ++ 0 :: behind)) ↔
      kiPos.toNat % 4096 + (reply.length + 1) ≤ 4096 := by
  have hlength : (reply ++ [0]).length = reply.length + 1 := List.length_append
  have hchars : reply ++ 0 :: behind = (reply ++ [0]) ++ behind := by simp
  rw [aioDefWrite, if_pos hki]
  constructor
  · intro h
    by_contra hcross
    obtain ⟨n, rest, hn, hcopies⟩ := copyReply_across hplain
      (Nat.lt_of_not_le hcross) hlen
    have hwrites : (⟨0, kiPos.toNat % 4096, 0, n⟩ : Memcpy).Writes 0 4096 := by
      refine ⟨rfl, ?_, ?_⟩ <;> dsimp only <;> omega
    -- The byte behind the first page is written.
    have hin := (h.written 0 4096).mp ⟨_, by rw [hcopies]; exact List.mem_cons_self, hwrites⟩
    exact absurd hin.1 (lt_irrefl _)
  · intro hfits
    rw [copyReply_within hplain hfits hlen, hchars, ← hlength]
    rw [← hlength] at hfits hlen
    exact inPlace_of_single (by simp) hlen hfits

/-- A reply in one page. -/
theorem aioDefWrite_inPlace_iff_page :
    InPlace 4096 [79, 75, 0] [79, 75, 0] (aioDefWrite 4096 0xc000f800 [79, 75, 0]) ∧
      ((4096 : UInt64).toNat % 4096 + (2 + 1) ≤ 4096) :=
  ⟨(aioDefWrite_inPlace_iff 4096 0xc000f800 [79, 75] [] (by decide) (by decide) (by decide)).mpr
    (by decide), by decide⟩

/-- A reply of two characters into the last two bytes of a page. -/
theorem split_leaves_page :
    ¬ InPlace 8190 [79, 75, 0] [79, 75, 0] (aioDefWrite 8190 0xc000f800 [79, 75, 0]) := by
  intro h
  have hmem : (⟨0, 4094, 0, 6144⟩ : Memcpy) ∈
      (aioDefWrite 8190 0xc000f800 [79, 75, 0]).copies := by
    decide
  have hin := (h.written 0 4096).mp ⟨_, hmem, by decide⟩
  exact absurd hin.1 (by decide)

end Vfi.AioReply
