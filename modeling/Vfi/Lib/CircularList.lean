import Mathlib.Data.List.Induction
import Mathlib.Data.List.Nodup
import Mathlib.Logic.Function.Basic

/-!
# Circular doubly linked lists

A list is a ring of nodes through a head that is itself a node. `Ring` reads the
nodes off both links at once; appending a node and splicing in the nodes of
another list keep it, and leave alone the rings that share no node.
-/

namespace CircularList

variable {ν : Type*}

structure Links (ν : Type*) where
  next : ν → ν
  prev : ν → ν

/-- From `head` the next links visit `l` and return, and the previous links undo
them. -/
structure Ring (s : Links ν) (head : ν) (l : List ν) : Prop where
  nodup : (head :: l).Nodup
  next : (head :: l).map s.next = l ++ [head]
  prev : (l ++ [head]).map s.prev = head :: l

variable {s t : Links ν} {head list new x : ν} {l xs : List ν}

/-- A ring depends only on the links of its own nodes. -/
theorem Ring.congr (h : Ring s head l) (hnext : ∀ x ∈ head :: l, t.next x = s.next x)
    (hprev : ∀ x ∈ head :: l, t.prev x = s.prev x) : Ring t head l where
  nodup := h.nodup
  next := (List.map_congr_left hnext).trans h.next
  prev := (List.map_congr_left fun x hx => hprev x (by simpa [or_comm] using hx)).trans h.prev

theorem Ring.first (h : Ring s head (new :: l)) : s.next head = new := (List.cons.inj h.next).1

/-- The ring split at its last node, which is the head of an empty list. -/
theorem Ring.last (h : Ring s head l) : ∃ before, head :: l = before ++ [s.prev head] ∧
    before.map s.next = l ∧ l.map s.prev = before ∧ s.prev head ∉ before := by
  have hprev := h.prev
  rw [List.map_append, List.map_singleton] at hprev
  refine ⟨l.map s.prev, hprev.symm, ?_, rfl, ?_⟩
  · have hnext := h.next
    rw [← hprev, List.map_append, List.map_singleton] at hnext
    exact (List.append_inj' hnext rfl).1
  · have hnodup := h.nodup
    rw [← hprev, List.nodup_append'] at hnodup
    exact fun hmem => hnodup.2.2 hmem List.mem_cons_self

theorem Ring.last_mem (h : Ring s head l) : s.prev head ∈ head :: l := by
  obtain ⟨before, hsplit, -⟩ := h.last
  rw [hsplit]
  exact List.mem_append_right before List.mem_cons_self

theorem Ring.next_last (h : Ring s head l) : s.next (s.prev head) = head := by
  obtain ⟨before, hsplit, hbefore, -⟩ := h.last
  have hnext := h.next
  rw [hsplit, List.map_append, hbefore] at hnext
  simpa using hnext

theorem Ring.last_cons (h : Ring s head (x :: l)) : ∃ before, x :: l = before ++ [s.prev head] ∧
    before.map s.next = l ∧ l.map s.prev = before ∧ s.prev head ∉ before := by
  obtain ⟨before, hsplit, hnext, hprev, hlast⟩ := h.last
  rw [List.map_cons] at hprev
  subst hprev
  rw [List.cons_append] at hsplit
  exact ⟨l.map s.prev, (List.cons.inj hsplit).2, (List.cons.inj hnext).2, rfl,
    List.not_mem_of_not_mem_cons hlast⟩

variable [DecidableEq ν]

def init (s : Links ν) (head : ν) : Links ν where
  next := Function.update s.next head head
  prev := Function.update s.prev head head

def isEmpty (s : Links ν) (head : ν) : Bool := s.next head = head

/-- Links `new` between two neighbours. -/
def add (s : Links ν) (new prev next : ν) : Links ν where
  next := Function.update (Function.update s.next new next) prev new
  prev := Function.update (Function.update s.prev next new) new prev

def addTail (s : Links ν) (new head : ν) : Links ν := add s new (s.prev head) head

/-- Links the nodes of `list` in behind the node `head`. The head of `list` keeps its
own links. -/
def splice (s : Links ν) (list head : ν) : Links ν :=
  if isEmpty s list then s
  else
    let first := s.next list
    let last := s.prev list
    let at' := s.next head
    { next := Function.update (Function.update s.next head first) last at'
      prev := Function.update (Function.update s.prev first head) at' last }

section Update

variable {α : Type*} {f : ν → α} {p : ν} {v : α}

theorem map_update_of_not_mem (h : p ∉ l) : l.map (Function.update f p v) = l.map f := by
  refine List.map_congr_left fun x hx => Function.update_of_ne ?_ _ _
  rintro rfl
  exact h hx

theorem map_update_last (h : p ∉ l) :
    (l ++ [p]).map (Function.update f p v) = l.map f ++ [v] := by
  rw [List.map_append, map_update_of_not_mem h, List.map_singleton, Function.update_self]

end Update

theorem ring_init (s : Links ν) (head : ν) : Ring (init s head) head [] := by
  constructor <;> simp [init]

theorem Ring.init_other (h : Ring s head l) (hx : x ∉ head :: l) : Ring (init s x) head l := by
  have hne : ∀ y ∈ head :: l, y ≠ x := by
    rintro y hy rfl
    exact hx hy
  exact h.congr (fun y hy => Function.update_of_ne (hne y hy) _ _)
    (fun y hy => Function.update_of_ne (hne y hy) _ _)

theorem ring_foldl_init {heads : List ν} (s : Links ν) (h : head ∈ heads) :
    Ring (heads.foldl init s) head [] := by
  induction heads using List.reverseRecOn with
  | nil => cases h
  | append_singleton heads last ih =>
    rw [List.foldl_append, List.foldl_cons, List.foldl_nil]
    by_cases hlast : head = last
    · subst hlast
      exact ring_init _ head
    · have hmem : head ∈ heads := by simpa [hlast] using h
      exact (ih hmem).init_other (by simpa using Ne.symm hlast)

theorem Ring.isEmpty_iff (h : Ring s head l) : isEmpty s head ↔ l = [] := by
  have hnext := h.next
  cases l with
  | nil => simpa [isEmpty] using hnext
  | cons x l =>
    have hx : s.next head = x := h.first
    have hne : x ≠ head := fun heq => (List.nodup_cons.mp h.nodup).1 (heq ▸ List.mem_cons_self)
    simp [isEmpty, hx, hne]

/-- Appending a node that is on the ring not yet. -/
theorem Ring.addTail (h : Ring s head l) (hnew : new ∉ head :: l) :
    Ring (addTail s new head) head (l ++ [new]) := by
  obtain ⟨before, hsplit, hnext, hprev, hlast⟩ := h.last
  obtain ⟨hhead, hl⟩ := List.nodup_cons.mp h.nodup
  have hne : new ≠ head := List.ne_of_not_mem_cons hnew
  have hnewl : new ∉ l := List.not_mem_of_not_mem_cons hnew
  obtain ⟨hbefore, hnewlast⟩ : new ∉ before ∧ new ≠ s.prev head := by
    simpa using show new ∉ before ++ [s.prev head] from hsplit ▸ hnew
  constructor
  · rw [← List.cons_append, List.nodup_append']
    exact ⟨h.nodup, List.nodup_singleton new, by simpa [hnewl] using hne⟩
  · rw [← List.cons_append, hsplit, List.map_append]
    simp only [CircularList.addTail, add, map_update_last hlast,
      map_update_of_not_mem hbefore, hnext, List.map_singleton, Function.update_of_ne hnewlast,
      Function.update_self]
  · rw [← List.cons_append, hsplit, List.append_assoc, List.map_append]
    simp only [CircularList.addTail, add, map_update_of_not_mem hnewl,
      map_update_of_not_mem hhead, hprev, List.cons_append, List.nil_append, List.map_cons,
      List.map_nil, Function.update_self, Function.update_of_ne hne.symm, List.append_assoc]

theorem Ring.addTail_frame (h : Ring s head l) (hx : x ∉ head :: l) (hnew : x ≠ new) :
    (CircularList.addTail s new head).next x = s.next x ∧
      (CircularList.addTail s new head).prev x = s.prev x := by
  have hlast : x ≠ s.prev head := fun heq => hx (heq ▸ h.last_mem)
  have hhead : x ≠ head := List.ne_of_not_mem_cons hx
  simp [CircularList.addTail, add, hlast, hhead, hnew]

theorem Ring.splice_nil (hlist : Ring s list []) : splice s list x = s := by
  have hempty : isEmpty s list = true := hlist.isEmpty_iff.mpr rfl
  rw [splice, if_pos hempty]

theorem Ring.splice_cons (h : Ring s head l) (hlist : Ring s list (x :: xs)) :
    splice s list (s.prev head) =
      { next := Function.update (Function.update s.next (s.prev head) x) (s.prev list) head
        prev := Function.update (Function.update s.prev x (s.prev head)) head (s.prev list) } := by
  have hempty : ¬ isEmpty s list := mt hlist.isEmpty_iff.mp (List.cons_ne_nil x xs)
  rw [splice, if_neg hempty, hlist.first, h.next_last]

/-- Splicing another list in behind the last node appends its nodes. -/
theorem Ring.splice (h : Ring s head l) (hlist : Ring s list xs)
    (hdisj : List.Disjoint (head :: l) (list :: xs)) :
    Ring (splice s list (s.prev head)) head (l ++ xs) := by
  cases xs with
  | nil =>
    rw [hlist.splice_nil, List.append_nil]
    exact h
  | cons x m =>
    obtain ⟨before, hsplit, hnext, hprev, hlast⟩ := h.last
    obtain ⟨between, hnodes, hlistNext, hlistPrev, hlistLast⟩ := hlist.last_cons
    have hdisj' : List.Disjoint (head :: l) (x :: m) := List.disjoint_of_disjoint_cons_right hdisj
    have hnodup : (head :: l ++ x :: m).Nodup := by
      rw [List.nodup_append']
      exact ⟨h.nodup, (List.nodup_cons.mp hlist.nodup).2, hdisj'⟩
    have hhead : head ∉ l ++ x :: m := (List.nodup_cons.mp hnodup).1
    have hx : x ∉ l := fun hmem => hdisj' (List.mem_cons_of_mem head hmem) List.mem_cons_self
    have hxm : x ∉ m := (List.nodup_cons.mp (List.nodup_cons.mp hlist.nodup).2).1
    rw [hsplit, hnodes] at hdisj'
    have hold : s.prev head ∉ between := fun hmem =>
      hdisj' (List.mem_append_right before List.mem_cons_self) (List.mem_append_left _ hmem)
    have hnew : s.prev list ∉ before ++ [s.prev head] ++ between := by
      rw [List.mem_append, not_or]
      exact ⟨fun hmem => hdisj' hmem (List.mem_append_right between List.mem_cons_self), hlistLast⟩
    rw [h.splice_cons hlist]
    constructor
    · exact hnodup
    · rw [← List.cons_append, hsplit, hnodes, ← List.append_assoc, map_update_last hnew,
        List.map_append, map_update_last hlast, map_update_of_not_mem hold, hnext, hlistNext,
        List.append_assoc l, List.singleton_append, ← hnodes]
    · rw [map_update_last hhead, List.map_append, map_update_of_not_mem hx, List.map_cons,
        Function.update_self, map_update_of_not_mem hxm, hprev, hlistPrev, ← List.cons_append,
        hsplit, hnodes]
      simp

theorem Ring.splice_frame (h : Ring s head l) (hlist : Ring s list xs) {y : ν}
    (hy : y ∉ head :: l) (hxs : y ∉ xs) :
    (CircularList.splice s list (s.prev head)).next y = s.next y ∧
      (CircularList.splice s list (s.prev head)).prev y = s.prev y := by
  cases xs with
  | nil =>
    rw [hlist.splice_nil]
    exact ⟨rfl, rfl⟩
  | cons x m =>
    obtain ⟨between, hnodes, -⟩ := hlist.last_cons
    have hlast : y ≠ s.prev head := fun heq => hy (heq ▸ h.last_mem)
    have hhead : y ≠ head := List.ne_of_not_mem_cons hy
    have hfirst : y ≠ x := List.ne_of_not_mem_cons hxs
    have hlistLast : y ≠ s.prev list := by
      rintro rfl
      exact hxs (hnodes ▸ List.mem_append_right between List.mem_cons_self)
    rw [h.splice_cons hlist]
    simp [hlast, hhead, hfirst, hlistLast]

end CircularList
