import Mathlib.Data.List.Basic
import Mathlib.Data.List.Count
import Mathlib.Data.Nat.ModEq
import Mathlib.Tactic.Ring

/-!
# Byte ranges over scattered pages

A buffer of `P`-byte pages lies in memory frame by frame. A range of its bytes
is cut into pieces that are each physically contiguous; `walk` is the loop that
finds such pieces page by page, and joins a page to the piece before it.
-/

namespace PagedRange

variable {P t : Nat} {frame : Nat → Nat} {stop : Nat → Prop}

/-- The address of byte `b` of the buffer. -/
def addr (P : Nat) (frame : Nat → Nat) (b : Nat) : Nat := frame (b / P) * P + b % P

/-- Pages `p` to `q` lie in consecutive frames. -/
def Consecutive (frame : Nat → Nat) (p q : Nat) : Prop :=
  ∀ i, p ≤ i → i < q → frame (i + 1) = frame i + 1

theorem Consecutive.frame_eq (h : Consecutive frame p q) (hle : p ≤ q) :
    frame q = frame p + (q - p) := by
  induction q, hle using Nat.le_induction with
  | base => simp
  | succ q hle ih =>
    rw [h q hle (Nat.lt_succ_self q), ih fun i hp hq => h i hp (Nat.lt_succ_of_lt hq)]
    omega

theorem Consecutive.succ (h : Consecutive frame p q) (hq : frame (q + 1) = frame q + 1) :
    Consecutive frame p (q + 1) := by
  intro i hp hi
  rcases Nat.lt_succ_iff_lt_or_eq.mp hi with hlt | rfl
  · exact h i hp hlt
  · exact hq

theorem Consecutive.mono (h : Consecutive frame p q) (hr : r ≤ q) : Consecutive frame p r :=
  fun i hp hi => h i hp (Nat.lt_of_lt_of_le hi hr)

/-- Inside consecutive frames addresses follow the byte offset. -/
theorem addr_of_consecutive (h : Consecutive frame (s / P) (b / P)) (hle : s ≤ b) :
    addr P frame b = addr P frame s + (b - s) := by
  have hdiv : s / P ≤ b / P := Nat.div_le_div_right hle
  have hs := Nat.div_add_mod s P
  have hb := Nat.div_add_mod b P
  obtain ⟨k, hk⟩ := Nat.exists_eq_add_of_le hdiv
  have hmul : P * (b / P) = P * (s / P) + k * P := by rw [hk]; ring
  have hframe : frame (b / P) * P = frame (s / P) * P + k * P := by
    rw [h.frame_eq hdiv, hk, Nat.add_sub_cancel_left, Nat.add_mul]
  simp only [addr, hframe]
  omega

/-- Distinct frames keep the bytes of the buffer apart. -/
theorem addr_injOn (hP : 0 < P)
    (hinj : ∀ i j, i < n → j < n → frame i = frame j → i = j)
    (hb : b < n * P) (hc : c < n * P) (h : addr P frame b = addr P frame c) : b = c := by
  have hframe : frame (b / P) = frame (c / P) := by
    have hdiv := congrArg (· / P) h
    simpa [addr, Nat.add_comm _ (_ % P), Nat.add_mul_div_right _ _ hP,
      Nat.div_eq_of_lt (Nat.mod_lt _ hP)] using hdiv
  have hpage := hinj _ _ ((Nat.div_lt_iff_lt_mul hP).mpr hb)
    ((Nat.div_lt_iff_lt_mul hP).mpr hc) hframe
  have hmod : b % P = c % P := by
    simp only [addr, hframe] at h
    omega
  rw [← Nat.div_add_mod b P, ← Nat.div_add_mod c P, hpage, hmod]

/-- A piece of the buffer, by byte offset. -/
structure Piece where
  start : Nat
  length : Nat
deriving DecidableEq, Repr

/-- The pieces partition the bytes from `s` to `t` in order. Each is non-empty
and physically contiguous; one that ends before `t` ends at a page where `stop`
allows it. -/
inductive Cuts (P : Nat) (frame : Nat → Nat) (stop : Nat → Prop) (t : Nat) :
    Nat → List Piece → Prop
  | nil : Cuts P frame stop t t []
  | cons : 0 < l → s + l ≤ t → Consecutive frame (s / P) ((s + l - 1) / P) →
      (s + l < t → P ∣ s + l ∧ stop ((s + l) / P)) → Cuts P frame stop t (s + l) rest →
      Cuts P frame stop t s (⟨s, l⟩ :: rest)

theorem Cuts.le (h : Cuts P frame stop t s cs) : s ≤ t := by
  induction h with
  | nil => exact Nat.le_refl _
  | cons _ _ _ _ _ ih => omega

/-- What holds of each piece of a cut. -/
theorem Cuts.piece (h : Cuts P frame stop t s cs) (hc : c ∈ cs) :
    0 < c.length ∧ s ≤ c.start ∧ c.start + c.length ≤ t ∧
      Consecutive frame (c.start / P) ((c.start + c.length - 1) / P) := by
  induction h with
  | nil => simp at hc
  | @cons l s rest hl ht hcon hstop hrest ih =>
    rcases List.mem_cons.mp hc with rfl | hc
    · exact ⟨hl, Nat.le_refl _, ht, hcon⟩
    · obtain ⟨hlen, hstart, hend, hcon⟩ := ih hc
      exact ⟨hlen, by omega, hend, hcon⟩

/-- The pieces are as long as the range. -/
theorem Cuts.sum_length (h : Cuts P frame stop t s cs) : s + (cs.map Piece.length).sum = t := by
  induction h with
  | nil => rfl
  | @cons l s rest hl ht hcon hstop hrest ih =>
    rw [List.map_cons, List.sum_cons, ← Nat.add_assoc]
    exact ih

theorem Cuts.mono (h : Cuts P frame stop t s cs)
    (hframe : ∀ p q, Consecutive frame p q → Consecutive frame' p q) :
    Cuts P frame' stop t s cs := by
  induction h with
  | nil => exact .nil
  | cons hl ht hcon hstop hrest ih => exact .cons hl ht (hframe _ _ hcon) hstop ih

/-- A piece starts with the range, or where a piece may end. -/
theorem Cuts.start_stop (h : Cuts P frame stop t s cs) (hc : c ∈ cs) :
    c.start = s ∨ P ∣ c.start ∧ stop (c.start / P) := by
  induction h with
  | nil => cases hc
  | @cons l s rest hl ht hcon hstop hrest ih =>
    rcases List.mem_cons.mp hc with rfl | hc
    · exact .inl rfl
    · rcases ih hc with hstart | hstart
      · have hlt : s + l < t := by
          have hpiece := hrest.piece hc
          omega
        exact .inr (hstart ▸ hstop hlt)
      · exact .inr hstart

/-- A piece that ends before the range ends where a piece may. -/
theorem Cuts.end_stop (h : Cuts P frame stop t s cs) (hc : c ∈ cs)
    (hend : c.start + c.length < t) : P ∣ c.start + c.length ∧ stop ((c.start + c.length) / P) := by
  induction h with
  | nil => cases hc
  | cons hl ht hcon hstop hrest ih =>
    rcases List.mem_cons.mp hc with rfl | hc
    · exact hstop hend
    · exact ih hc

/-- A piece has its distance from the start in whole pages. -/
theorem Cuts.start_sub (h : Cuts P frame stop t s cs) (hc : c ∈ cs) :
    c.start - s = c.start / P * P - s := by
  have hmod := Nat.div_mul_le_self c.start P
  rcases h.start_stop hc with rfl | ⟨hdvd, -⟩
  · omega
  · rw [Nat.div_mul_cancel hdvd]

/-- Each byte of the range is in one of the pieces. -/
theorem Cuts.exists_piece (h : Cuts P frame stop t s cs) (hs : s ≤ b) (ht : b < t) :
    ∃ c ∈ cs, c.start ≤ b ∧ b < c.start + c.length := by
  induction h with
  | nil => omega
  | @cons l s rest hl hle hcon hstop hrest ih =>
    by_cases hb : b < s + l
    · exact ⟨_, List.mem_cons_self, hs, hb⟩
    · obtain ⟨c, hc, hin⟩ := ih (by omega)
      exact ⟨c, List.mem_cons_of_mem _ hc, hin⟩

/-- The pieces before one of them are as long as its distance from the start. -/
theorem Cuts.sum_before {before after : List Piece}
    (h : Cuts P frame stop t s (before ++ c :: after)) :
    s + (before.map Piece.length).sum = c.start := by
  induction before generalizing s with
  | nil =>
    cases h
    rfl
  | cons first before ih =>
    cases h with
    | cons hl ht hcon hstop hrest =>
      rw [List.map_cons, List.sum_cons, ← Nat.add_assoc]
      exact ih hrest

/-- What is computed byte by byte in each piece is computed over the range. -/
theorem Cuts.flatMap_eq {f : Piece → List γ} {g : Nat → γ} (h : Cuts P frame stop t s cs)
    (hf : ∀ c ∈ cs, f c = (List.range' c.start c.length).map g) :
    cs.flatMap f = (List.range' s (t - s)).map g := by
  induction h with
  | nil => simp
  | @cons l s rest hl ht hcon hstop hrest ih =>
    have hsplit : t - s = l + (t - (s + l)) := by omega
    rw [List.flatMap_cons, hf _ List.mem_cons_self,
      ih fun c hc => hf c (List.mem_cons_of_mem _ hc), ← List.map_append, hsplit]
    rw [← List.range'_append, Nat.one_mul]

/-- The last byte before the end of a page, or before one within it, is of that page. -/
theorem sub_one_div (hP : 0 < P) (h : p * P < b) (hb : b ≤ (p + 1) * P) : (b - 1) / P = p := by
  rw [Nat.div_eq_iff hP]
  have := Nat.add_mul p 1 P
  omega

/-- A range that is consecutive is its only piece. -/
theorem Cuts.single (hs : s < t) (hcon : Consecutive frame (s / P) ((t - 1) / P)) :
    Cuts P frame stop t s [⟨s, t - s⟩] := by
  have hlen : s + (t - s) = t := by omega
  refine .cons (by omega) (by omega) ?_ (by omega) ?_
  · rwa [hlen]
  · rw [hlen]
    exact .nil

/-- The bytes of page `p` that lie before `t`. -/
def part (P t p : Nat) : Nat := min t ((p + 1) * P) - p * P

/-- The page loop. With `n` pages to come after `page`, either the next page
joins the piece in hand, or the piece is emitted and the next page starts one. -/
def walk (joins : Nat → Bool) (grow next : Nat → σ → σ) (emit : σ → α) :
    Nat → Nat → σ → List α
  | 0, _, piece => [emit piece]
  | n + 1, page, piece =>
    if joins page then walk joins grow next emit n (page + 1) (grow page piece)
    else emit piece :: walk joins grow next emit n (page + 1) (next page piece)

/-- A loop whose state represents the piece in hand cuts the range. -/
theorem walk_cuts {joins : Nat → Bool} {grow next : Nat → σ → σ} {rep : Nat → Nat → σ}
    (emit : σ → α) (hP : 0 < P)
    (hjoins : ∀ p, joins p = true → frame (p + 1) = frame p + 1)
    (hlast : last * P < t ∧ t ≤ (last + 1) * P)
    (hgrow : ∀ s l p, a ≤ s → s < (p + 1) * P → p < last →
      grow p (rep s l) = rep s (l + part P t (p + 1)))
    (hnext : ∀ s l p, a ≤ s → 0 < l → s + l = (p + 1) * P → p < last →
      next p (rep s l) = rep ((p + 1) * P) (part P t (p + 1)))
    (n page s : Nat) (hn : page + n = last) (ha : a ≤ s) (hs : s / P ≤ page) (hst : s < t)
    (hcon : Consecutive frame (s / P) page) :
    ∃ cs, Cuts P frame (fun p => joins (p - 1) = false) t s cs ∧
      walk joins grow next emit n page (rep s (min t ((page + 1) * P) - s)) =
        cs.map fun c => emit (rep c.start c.length) := by
  induction n generalizing page s with
  | zero =>
    obtain rfl : page = last := by omega
    have hmin : min t ((page + 1) * P) = t := by omega
    refine ⟨[⟨s, t - s⟩], .single hst ?_, ?_⟩
    · rwa [sub_one_div hP hlast.1 hlast.2]
    · simp [walk, hmin]
  | succ n ih =>
    have hpage : (page + 1 + 1) * P = (page + 1) * P + P := by ring
    have hle : (page + 1) * P ≤ last * P := Nat.mul_le_mul_right P (by omega)
    have hmin : min t ((page + 1) * P) = (page + 1) * P := by omega
    have hslt : s < (page + 1) * P := (Nat.div_lt_iff_lt_mul hP).mp (by omega)
    have hpart : part P t (page + 1) = min t ((page + 1 + 1) * P) - (page + 1) * P := rfl
    unfold walk
    by_cases hj : joins page = true
    · obtain ⟨cs, hcuts, hwalk⟩ := ih (page + 1) s (by omega) ha (by omega) hst
        (hcon.succ (hjoins _ hj))
      refine ⟨cs, hcuts, ?_⟩
      rw [if_pos hj, hmin, hgrow _ _ _ ha hslt (by omega), ← hwalk, hpart]
      congr 2
      omega
    · have hstart : (page + 1) * P / P = page + 1 := Nat.mul_div_cancel _ hP
      have hend : ((page + 1) * P - 1) / P = page :=
        sub_one_div hP (Nat.mul_lt_mul_of_pos_right (Nat.lt_succ_self page) hP) le_rfl
      obtain ⟨cs, hcuts, hwalk⟩ := ih (page + 1) ((page + 1) * P) (by omega) (by omega)
        (by omega) (by omega) (by rw [hstart]; intro i hp hi; omega)
      have hlen : s + ((page + 1) * P - s) = (page + 1) * P := by omega
      refine ⟨⟨s, (page + 1) * P - s⟩ :: cs, .cons (by omega) (by omega) ?_ ?_ ?_, ?_⟩
      · rw [hlen, hend]
        exact hcon
      · intro _
        rw [hlen, hstart]
        exact ⟨Nat.dvd_mul_left _ _, by simpa using hj⟩
      · rwa [hlen]
      · rw [if_neg hj, hmin, hnext _ _ _ ha (by omega) hlen (by omega), List.map_cons, ← hwalk,
          hpart]

end PagedRange
