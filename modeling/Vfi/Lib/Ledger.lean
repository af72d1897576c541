import Mathlib.Algebra.BigOperators.Group.List.Basic
import Mathlib.Algebra.Ring.Nat
import Mathlib.Data.UInt
import Mathlib.Logic.Function.Basic

/-!
# Ledgers

Each account has a queue of items and a counter of 32 bits that is read with a sign.
What leaves a queue goes to an outbox common to all accounts and is settled there. The
ledger is exact while every counter shows the size of what its account has on the queue
and in the outbox; there is one law for each entry that can be made.
-/

/-- The counter, read with a sign, shows `n`. -/
def Shows (b : UInt32) (n : Nat) : Prop := b.toBitVec.toInt = n

instance (b : UInt32) (n : Nat) : Decidable (Shows b n) :=
  inferInstanceAs (Decidable (b.toBitVec.toInt = n))

section Shows

variable {b k : UInt32} {n : Nat}

theorem shows_iff : Shows b n ↔ b.toNat = n ∧ n < 2 ^ 31 := by
  have hlt := b.toNat_lt
  have htoNat : b.toBitVec.toNat = b.toNat := rfl
  rw [Shows, BitVec.toInt_eq_toNat_cond, htoNat]
  split <;> omega

theorem Shows.add_iff (h : Shows b n) : Shows (b + k) (n + k.toNat) ↔ n + k.toNat < 2 ^ 31 := by
  obtain ⟨hb, hn⟩ := shows_iff.mp h
  rw [shows_iff, UInt32.toNat_add, hb, and_iff_right_iff_imp]
  intro hfits
  exact Nat.mod_eq_of_lt (Nat.lt_trans hfits (by decide))

theorem Shows.sub (h : Shows b (n + k.toNat)) : Shows (b - k) n := by
  obtain ⟨hb, hn⟩ := shows_iff.mp h
  have hle : k ≤ b := UInt32.le_iff_toNat_le.mpr (by omega)
  rw [shows_iff, UInt32.toNat_sub_of_le _ _ hle]
  omega

theorem Shows.eq_iff (h : Shows b n) {m : Nat} : Shows b m ↔ m = n := by
  constructor
  · intro hm
    exact (shows_iff.mp hm).1.symm.trans (shows_iff.mp h).1
  · rintro rfl
    exact h

end Shows

/-- The items have a size, and what is in the outbox names its account. -/
structure Ledger (ι τ : Type*) where
  size : τ → UInt32
  queue : ι → List τ
  count : ι → UInt32
  outbox : List (ι × τ)

namespace Ledger

variable {ι τ : Type*} {l m : Ledger ι τ} {i : ι} {x : τ} {rest : List τ}

def total (l : Ledger ι τ) (items : List τ) : Nat := (items.map fun x => (l.size x).toNat).sum

@[simp] theorem total_nil : l.total [] = 0 := rfl

@[simp] theorem total_cons : l.total (x :: rest) = (l.size x).toNat + l.total rest := by
  simp [total]

@[simp] theorem total_append {items : List τ} :
    l.total (items ++ rest) = l.total items + l.total rest := by
  simp [total]

variable [DecidableEq ι]

def sent (l : Ledger ι τ) (i : ι) : List τ := (l.outbox.filter (·.1 = i)).map Prod.snd

/-- The size of what an account has on its queue and in the outbox. -/
def owed (l : Ledger ι τ) (i : ι) : Nat := l.total (l.queue i) + l.total (l.sent i)

def Exact (l : Ledger ι τ) : Prop := ∀ i, Shows (l.count i) (l.owed i)

-- ---------------------------------------------------------------------------
-- Entries
-- ---------------------------------------------------------------------------

def set (l : Ledger ι τ) (i : ι) (queue : List τ) (count : UInt32) : Ledger ι τ :=
  { l with queue := Function.update l.queue i queue, count := Function.update l.count i count }

/-- An item is queued and counted. -/
def enter (l : Ledger ι τ) (i : ι) (x : τ) : Ledger ι τ :=
  l.set i (l.queue i ++ [x]) (l.count i + l.size x)

/-- An item is queued and not counted. -/
def slip (l : Ledger ι τ) (i : ι) (x : τ) : Ledger ι τ := l.set i (l.queue i ++ [x]) (l.count i)

/-- The queue is replaced, and what has left it is still counted. -/
def lose (l : Ledger ι τ) (i : ι) (rest : List τ) : Ledger ι τ := l.set i rest (l.count i)

/-- An item goes from the queue to the outbox. -/
def send (l : Ledger ι τ) (i : ι) (x : τ) (rest : List τ) : Ledger ι τ :=
  { l.lose i rest with outbox := l.outbox ++ [(i, x)] }

/-- An item is taken from the outbox, and off the counter. -/
def settle (l : Ledger ι τ) (i : ι) (x : τ) (rest : List (ι × τ)) : Ledger ι τ :=
  { l.set i (l.queue i) (l.count i - l.size x) with outbox := rest }

-- ---------------------------------------------------------------------------
-- Their laws
-- ---------------------------------------------------------------------------

/-- The other accounts are untouched, so only the one is to be looked at. -/
theorem Exact.iff_account (h : l.Exact) (hsize : m.size = l.size)
    (hother : ∀ j, j ≠ i → m.queue j = l.queue j ∧ m.count j = l.count j ∧ m.sent j = l.sent j) :
    m.Exact ↔ Shows (m.count i) (m.owed i) := by
  constructor
  · exact fun hm => hm i
  · intro hi j
    by_cases hj : j = i
    · rwa [hj]
    · obtain ⟨hqueue, hcount, hsent⟩ := hother j hj
      have hold := h j
      simp only [owed, total, hqueue, hcount, hsent, hsize] at hold ⊢
      exact hold

@[simp] theorem set_same : l.set i (l.queue i) (l.count i) = l := by
  simp [set]

@[simp] theorem set_set {queue queue' : List τ} {count count' : UInt32} :
    (l.set i queue count).set i queue' count' = l.set i queue' count' := by
  simp [set]

theorem set_other {j : ι} {queue : List τ} {count : UInt32} (h : j ≠ i) :
    (l.set i queue count).queue j = l.queue j ∧ (l.set i queue count).count j = l.count j ∧
      (l.set i queue count).sent j = l.sent j :=
  ⟨Function.update_of_ne h .., Function.update_of_ne h .., rfl⟩

theorem Exact.set_iff {queue : List τ} {count : UInt32} (h : l.Exact) :
    (l.set i queue count).Exact ↔ Shows count (l.total queue + l.total (l.sent i)) := by
  rw [h.iff_account (m := l.set i queue count) rfl fun _ => set_other]
  simp [set, owed, total, sent]

theorem Exact.enter_iff (h : l.Exact) :
    (l.enter i x).Exact ↔ l.owed i + (l.size x).toNat < 2 ^ 31 := by
  have hsum : l.total (l.queue i ++ [x]) + l.total (l.sent i) = l.owed i + (l.size x).toNat := by
    simp [owed]
    omega
  rw [enter, h.set_iff, hsum, (h i).add_iff]

theorem Exact.slip_iff (h : l.Exact) : (l.slip i x).Exact ↔ l.size x = 0 := by
  have hzero : l.size x = 0 ↔ (l.size x).toNat = 0 := UInt32.toNat_inj.symm
  rw [slip, h.set_iff, (h i).eq_iff, hzero]
  simp [owed]

theorem Exact.lose_iff (h : l.Exact)
    (hlost : l.total rest + (l.size x).toNat = l.total (l.queue i)) :
    (l.lose i rest).Exact ↔ l.size x = 0 := by
  have hzero : l.size x = 0 ↔ (l.size x).toNat = 0 := UInt32.toNat_inj.symm
  rw [lose, h.set_iff, (h i).eq_iff, hzero, owed]
  omega

theorem Exact.send (h : l.Exact) (hqueue : l.queue i = x :: rest) : (l.send i x rest).Exact := by
  rw [h.iff_account (i := i) (by rfl)]
  · have hmoved : (l.send i x rest).owed i = l.owed i := by
      simp [Ledger.send, lose, set, owed, total, sent, hqueue, List.filter_append]
      omega
    rw [hmoved]
    simpa [Ledger.send, lose, set] using h i
  · intro j hj
    simp [Ledger.send, lose, set, sent, hj, Ne.symm hj, List.filter_append]

theorem Exact.settle {rest : List (ι × τ)} (h : l.Exact) (hout : l.outbox = (i, x) :: rest) :
    (l.settle i x rest).Exact := by
  rw [h.iff_account (i := i) (by rfl)]
  · have howed : l.owed i = (l.settle i x rest).owed i + (l.size x).toNat := by
      simp [Ledger.settle, set, owed, total, sent, hout]
      omega
    have hold := h i
    rw [howed] at hold
    simpa [Ledger.settle, set] using hold.sub
  · intro j hj
    simp [Ledger.settle, set, sent, hout, hj, Ne.symm hj]

end Ledger
