import Mathlib.Order.Lattice
import Mathlib.Data.List.Basic

/-!
# Chains sorted by a key

A singly linked chain is the list of its nodes. The search stops at the first
key that is too large; linking and unlinking replace what follows a node. On a
sorted chain each operation is determined by its members.
-/

namespace SortedChain

variable {α κ : Type*} [LinearOrder κ] (key : α → κ)

def find (k : κ) : List α → Option α
  | [] => none
  | node :: next =>
    if key node ≤ k then
      if key node = k then some node else find k next
    else none

/-- What follows the node with the given key. -/
def behind (k : κ) : List α → List α
  | [] => []
  | node :: next => if key node = k then next else behind k next

/-- Makes `rest` follow the node with the given key. -/
def setNext (k : κ) (rest : List α) : List α → List α
  | [] => []
  | node :: next => if key node = k then node :: rest else node :: setNext k rest next

def Sorted (c : List α) : Prop := c.Pairwise fun a b => key a < key b

variable {key} {k : κ} {c c' rest : List α} {node : α}

@[simp] theorem sorted_nil : Sorted key ([] : List α) := .nil

@[simp] theorem sorted_cons :
    Sorted key (node :: c) ↔ (∀ n ∈ c, key node < key n) ∧ Sorted key c :=
  List.pairwise_cons

theorem Sorted.find_eq_some_iff (hs : Sorted key c) :
    find key k c = some node ↔ node ∈ c ∧ key node = k := by
  induction c with
  | nil => simp [find]
  | cons head next ih =>
    obtain ⟨hhead, hnext⟩ := sorted_cons.mp hs
    rcases lt_trichotomy (key head) k with hlt | heq | hgt
    · have hne : node ≠ head ∨ key node ≠ k := by
        by_contra! hboth
        exact absurd (hboth.1 ▸ hboth.2) hlt.ne
      simp only [find, hlt.le, hlt.ne, if_true, if_false, ih hnext, List.mem_cons]
      grind
    · simp only [find, heq, le_refl, if_true, Option.some.injEq, List.mem_cons]
      constructor
      · rintro rfl
        exact ⟨.inl rfl, heq⟩
      · rintro ⟨rfl | hmem, hk⟩
        · rfl
        · exact absurd (heq.trans hk.symm) (hhead _ hmem).ne
    · simp only [find, not_le.mpr hgt, if_false, List.mem_cons]
      constructor
      · rintro ⟨⟩
      · rintro ⟨rfl | hmem, hk⟩
        · exact absurd hk hgt.ne'
        · exact absurd hk (hgt.trans (hhead _ hmem)).ne'

theorem Sorted.find_isSome_iff (hs : Sorted key c) :
    (find key k c).isSome ↔ ∃ node ∈ c, key node = k := by
  simp only [Option.isSome_iff_exists, hs.find_eq_some_iff]

/-- Chains with the same nodes of a key find the same node. -/
theorem Sorted.find_congr (hs : Sorted key c) (hs' : Sorted key c')
    (h : ∀ node, key node = k → (node ∈ c ↔ node ∈ c')) : find key k c = find key k c' := by
  refine Option.ext fun node => ?_
  rw [hs.find_eq_some_iff, hs'.find_eq_some_iff]
  exact and_congr_left (h node)

/-- A node that is not the one looked for comes before it. -/
theorem Sorted.head_lt (hs : Sorted key (node :: c)) (hne : key node ≠ k)
    (hk : ∃ n ∈ node :: c, key n = k) : key node < k ∧ ∃ n ∈ c, key n = k := by
  obtain ⟨kth, hmem, hkth⟩ := hk
  have hmem : kth ∈ c := (List.mem_cons.mp hmem).resolve_left fun h => hne (h ▸ hkth)
  exact ⟨hkth ▸ (sorted_cons.mp hs).1 _ hmem, kth, hmem, hkth⟩

theorem Sorted.mem_behind (hs : Sorted key c) (hk : ∃ node ∈ c, key node = k) :
    node ∈ behind key k c ↔ node ∈ c ∧ k < key node := by
  induction c with
  | nil => simp [behind]
  | cons head next ih =>
    obtain ⟨hhead, hnext⟩ := sorted_cons.mp hs
    by_cases heq : key head = k
    · subst heq
      simp only [behind, if_true, List.mem_cons]
      constructor
      · exact fun hmem => ⟨.inr hmem, hhead _ hmem⟩
      · rintro ⟨rfl | hmem, hlt⟩
        · exact absurd hlt (lt_irrefl _)
        · exact hmem
    · obtain ⟨hlt, hk⟩ := hs.head_lt heq hk
      simp only [behind, heq, if_false, List.mem_cons, ih hnext hk]
      constructor
      · exact fun h => ⟨.inr h.1, h.2⟩
      · rintro ⟨rfl | hmem, hgt⟩
        · exact absurd hgt hlt.asymm
        · exact ⟨hmem, hgt⟩

theorem Sorted.behind (hs : Sorted key c) : Sorted key (behind key k c) := by
  induction c with
  | nil => exact hs
  | cons head next ih =>
    have hnext := (sorted_cons.mp hs).2
    unfold SortedChain.behind
    split
    · exact hnext
    · exact ih hnext

theorem Sorted.mem_setNext (hs : Sorted key c) (hk : ∃ node ∈ c, key node = k) :
    node ∈ setNext key k rest c ↔ (node ∈ c ∧ key node ≤ k) ∨ node ∈ rest := by
  induction c with
  | nil => simp at hk
  | cons head next ih =>
    obtain ⟨hhead, hnext⟩ := sorted_cons.mp hs
    by_cases heq : key head = k
    · subst heq
      simp only [setNext, if_true, List.mem_cons]
      constructor
      · rintro (rfl | hmem)
        · exact .inl ⟨.inl rfl, le_rfl⟩
        · exact .inr hmem
      · rintro (⟨rfl | hmem, hle⟩ | hmem)
        · exact .inl rfl
        · exact absurd (hhead _ hmem) (not_lt.mpr hle)
        · exact .inr hmem
    · obtain ⟨hlt, hk⟩ := hs.head_lt heq hk
      simp only [setNext, heq, if_false, List.mem_cons, ih hnext hk]
      constructor
      · rintro (rfl | ⟨hmem, hle⟩ | hmem)
        · exact .inl ⟨.inl rfl, hlt.le⟩
        · exact .inl ⟨.inr hmem, hle⟩
        · exact .inr hmem
      · rintro (⟨rfl | hmem, hle⟩ | hmem)
        · exact .inl rfl
        · exact .inr (.inl ⟨hmem, hle⟩)
        · exact .inr (.inr hmem)

theorem Sorted.setNext (hs : Sorted key c) (hk : ∃ node ∈ c, key node = k)
    (hrest : Sorted key rest) (hlt : ∀ node ∈ rest, k < key node) :
    Sorted key (setNext key k rest c) := by
  induction c with
  | nil => exact hs
  | cons head next ih =>
    obtain ⟨hhead, hnext⟩ := sorted_cons.mp hs
    by_cases heq : key head = k
    · subst heq
      simp only [SortedChain.setNext, if_true, sorted_cons]
      exact ⟨hlt, hrest⟩
    · obtain ⟨hbefore, hk⟩ := hs.head_lt heq hk
      simp only [SortedChain.setNext, heq, if_false, sorted_cons]
      refine ⟨fun node hnode => ?_, ih hnext hk⟩
      rcases (hnext.mem_setNext hk).mp hnode with ⟨hn, -⟩ | hn
      · exact hhead _ hn
      · exact hbefore.trans (hlt _ hn)

section Operations

variable {k₀ : κ}

/-- Linking a node behind its predecessor adds its key. -/
theorem Sorted.link (hs : Sorted key c) (hk : ∃ n ∈ c, key n = k) (hlt : k < key node)
    (hgap : ∀ n ∈ c, k < key n → key node < key n) :
    Sorted key (SortedChain.setNext key k (node :: SortedChain.behind key k c) c) ∧
      ∀ k', find key k' (SortedChain.setNext key k (node :: SortedChain.behind key k c) c) =
        if k' = key node then some node else find key k' c := by
  have hrest : Sorted key (node :: SortedChain.behind key k c) :=
    sorted_cons.mpr ⟨fun n hn => have h := (hs.mem_behind hk).mp hn; hgap n h.1 h.2, hs.behind⟩
  have hsorted := hs.setNext hk hrest fun n hn => by
    rcases List.mem_cons.mp hn with rfl | hn
    · exact hlt
    · exact ((hs.mem_behind hk).mp hn).2
  refine ⟨hsorted, fun k' => ?_⟩
  split
  · next heq =>
    rw [hsorted.find_eq_some_iff, hs.mem_setNext hk]
    exact ⟨.inr List.mem_cons_self, heq.symm⟩
  · next hne =>
    refine hsorted.find_congr hs fun n hn => ?_
    rw [hs.mem_setNext hk, List.mem_cons, hs.mem_behind hk]
    constructor
    · rintro (⟨h, -⟩ | rfl | ⟨h, -⟩)
      · exact h
      · exact absurd hn.symm hne
      · exact h
    · intro h
      rcases le_or_gt (key n) k with hle | hgt
      · exact .inl ⟨h, hle⟩
      · exact .inr (.inr ⟨h, hgt⟩)

/-- Unlinking a node from its predecessor removes its key. -/
theorem Sorted.unlink (hs : Sorted key c) (hk : ∃ n ∈ c, key n = k)
    (hk₀ : ∃ n ∈ c, key n = k₀) (hlt : k < k₀) (hgap : ∀ n ∈ c, k < key n → k₀ ≤ key n) :
    Sorted key (SortedChain.setNext key k (SortedChain.behind key k₀ c) c) ∧
      ∀ k', find key k' (SortedChain.setNext key k (SortedChain.behind key k₀ c) c) =
        if k' = k₀ then none else find key k' c := by
  have hsorted := hs.setNext hk hs.behind fun n hn => hlt.trans ((hs.mem_behind hk₀).mp hn).2
  refine ⟨hsorted, fun k' => ?_⟩
  split
  · next heq =>
    rw [← Option.not_isSome_iff_eq_none, hsorted.find_isSome_iff]
    rintro ⟨n, hn, rfl⟩
    rcases (hs.mem_setNext hk).mp hn with ⟨-, hle⟩ | hn
    · exact absurd (heq ▸ hle) (not_le.mpr hlt)
    · exact absurd heq ((hs.mem_behind hk₀).mp hn).2.ne'
  · next hne =>
    refine hsorted.find_congr hs fun n hn => ?_
    rw [hs.mem_setNext hk, hs.mem_behind hk₀]
    constructor
    · rintro (⟨h, -⟩ | ⟨h, -⟩) <;> exact h
    · intro h
      rcases le_or_gt (key n) k with hle | hgt
      · exact .inl ⟨h, hle⟩
      · exact .inr ⟨h, lt_of_le_of_ne (hgap n h hgt) fun h₀ => hne (hn.symm.trans h₀.symm)⟩

/-- Moving the head on to what follows the least key removes that key. -/
theorem Sorted.unlink_least (hs : Sorted key c) (hk : ∃ n ∈ c, key n = k)
    (hleast : ∀ n ∈ c, k ≤ key n) :
    Sorted key (SortedChain.behind key k c) ∧
      ∀ k', find key k' (SortedChain.behind key k c) =
        if k' = k then none else find key k' c := by
  refine ⟨hs.behind, fun k' => ?_⟩
  split
  · next heq =>
    rw [← Option.not_isSome_iff_eq_none, hs.behind.find_isSome_iff]
    rintro ⟨n, hn, rfl⟩
    exact absurd heq ((hs.mem_behind hk).mp hn).2.ne'
  · next hne =>
    refine hs.behind.find_congr hs fun n hn => ?_
    rw [hs.mem_behind hk]
    exact ⟨And.left,
      fun h => ⟨h, lt_of_le_of_ne (hleast n h) fun h₀ => hne (hn.symm.trans h₀.symm)⟩⟩

end Operations

end SortedChain
