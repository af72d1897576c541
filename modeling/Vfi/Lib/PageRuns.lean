import Vfi.Lib.PagedRange

/-!
# Runs of joined pages

Where a loop decides page by page whether to join the next page, its pieces are
the maximal runs of joined pages. Cut at the page boundaries they are the pages.
-/

namespace PagedRange

variable {P t : Nat} {frame : Nat → Nat} {stop : Nat → Prop}

-- ---------------------------------------------------------------------------
-- Runs of joined pages
-- ---------------------------------------------------------------------------

/-- Frames that are consecutive exactly where pages join. -/
def runFrame (joins : Nat → Bool) : Nat → Nat
  | 0 => 0
  | i + 1 => runFrame joins i + if joins i then 1 else 2

/-- The pieces are the runs of joined pages, with the ends of the range cut off. -/
def Runs (P : Nat) (joins : Nat → Bool) (s t : Nat) (cs : List Piece) : Prop :=
  Cuts P (runFrame joins) (fun p => joins (p - 1) = false) t s cs

variable {joins : Nat → Bool}

theorem runFrame_succ_iff (i : Nat) :
    runFrame joins (i + 1) = runFrame joins i + 1 ↔ joins i = true := by
  cases hj : joins i <;> simp [runFrame, hj]

theorem consecutive_runFrame :
    Consecutive (runFrame joins) p q ↔ ∀ i, p ≤ i → i < q → joins i = true := by
  simp only [Consecutive, runFrame_succ_iff]

/-- Where the frames of joined pages are consecutive, each run is contiguous. -/
theorem Runs.cuts (h : Runs P joins s t cs)
    (hjoins : ∀ p, joins p = true → frame (p + 1) = frame p + 1) :
    Cuts P frame (fun p => joins (p - 1) = false) t s cs :=
  Cuts.mono h fun _ _ hcon i hp hq => hjoins i (consecutive_runFrame.mp hcon i hp hq)

/-- The pages of a run join. -/
theorem Runs.joined (h : Runs P joins s t cs) (hc : c ∈ cs) (hp : c.start / P ≤ i)
    (hi : i < (c.start + c.length - 1) / P) : joins i = true :=
  consecutive_runFrame.mp (Cuts.piece h hc).2.2.2 i hp hi

/-- Neighbouring runs do not join. -/
theorem Runs.neighbours {before after : List Piece}
    (h : Runs P joins s t (before ++ c :: c' :: after)) :
    c'.start = c.start + c.length ∧ P ∣ c'.start ∧ joins (c'.start / P - 1) = false := by
  induction before generalizing s with
  | nil =>
    cases h with
    | cons hl ht hcon hstop hrest =>
      cases hrest with
      | cons hl' ht' =>
        exact ⟨rfl, hstop (by omega)⟩
  | cons first before ih =>
    cases h with
    | cons hl ht hcon hstop hrest => exact ih hrest

/-- Where a run ends by its length, the next page does not join. -/
theorem Runs.adjacent {before after : List Nat} (h : Runs P joins s t cs)
    (hsplit : cs.map Piece.length = before ++ l :: l' :: after) :
    P ∣ s + (before.sum + l) ∧ 0 < l ∧ joins ((s + (before.sum + l)) / P - 1) = false := by
  obtain ⟨pre, rest, rfl, rfl, hrest⟩ := List.map_eq_append_iff.mp hsplit
  obtain ⟨c, rest', rfl, rfl, hrest'⟩ := List.map_eq_cons_iff.mp hrest
  obtain ⟨c', post, rfl, rfl, rfl⟩ := List.map_eq_cons_iff.mp hrest'
  obtain ⟨hstart, hdvd, hjoin⟩ := h.neighbours
  have hsum : s + ((pre.map Piece.length).sum + c.length) = c'.start := by
    rw [hstart, ← Nat.add_assoc, Cuts.sum_before h]
  have hlen := (Cuts.piece h (List.mem_append_right _ List.mem_cons_self)).1
  rw [hsum]
  exact ⟨hdvd, hlen, hjoin⟩

-- ---------------------------------------------------------------------------
-- Cutting at the page boundaries
-- ---------------------------------------------------------------------------

/-- A piece cut at its page boundaries, page by page. -/
def pagePieces (P : Nat) (c : Piece) : List Piece :=
  (List.range ((c.start % P + c.length - 1) / P + 1)).map fun k =>
    ⟨c.start + (k * P - c.start % P),
      min c.length ((k + 1) * P - c.start % P) - (k * P - c.start % P)⟩

/-- The cut depends only on where in its page the piece starts. -/
theorem pagePieces_congr {s a : Nat} (h : s % P = a % P) (l : Nat) :
    pagePieces P ⟨a, l⟩ = (pagePieces P ⟨s, l⟩).map fun e => ⟨a + (e.start - s), e.length⟩ := by
  simp only [pagePieces, List.map_map, h]
  refine List.map_congr_left fun k _ => ?_
  simp only [Function.comp, Nat.add_sub_cancel_left]

/-- A piece up to a page boundary can be cut apart from what follows. -/
theorem pagePieces_append {l l' : Nat} (hP : 0 < P) (hl : 0 < l) (hl' : 0 < l')
    (hb : P ∣ s + l) :
    pagePieces P ⟨s, l + l'⟩ = pagePieces P ⟨s, l⟩ ++ pagePieces P ⟨s + l, l'⟩ := by
  have hdvd : P ∣ s % P + l := (Nat.dvd_add_right (Nat.dvd_sub_mod s)).mp (by
    rwa [← Nat.add_assoc, Nat.sub_add_cancel (Nat.mod_le s P)])
  obtain ⟨n, hn⟩ := hdvd
  have hmod : (s + l) % P = 0 := Nat.mod_eq_zero_of_dvd hb
  obtain ⟨m, rfl⟩ : ∃ m, n = m + 1 := Nat.exists_eq_succ_of_ne_zero (by
    rintro rfl
    omega)
  have hm : P * (m + 1) = m * P + P := by ring
  have hfirst : (s % P + l - 1) / P = m := by
    rw [Nat.div_eq_iff hP]
    omega
  have hwhole : (s % P + (l + l') - 1) / P + 1 = (m + 1) + ((l' - 1) / P + 1) := by
    have hsplit : s % P + (l + l') - 1 = (l' - 1) + P * (m + 1) := by omega
    rw [hsplit, Nat.add_mul_div_left _ _ hP]
    omega
  simp only [pagePieces, hmod, Nat.zero_add, hwhole, hfirst, Nat.sub_zero]
  rw [List.range_add, List.map_append, List.map_map]
  congr 1
  · refine List.map_congr_left fun k hk => ?_
    have hkm : (k + 1) * P ≤ (m + 1) * P := Nat.mul_le_mul_right P (List.mem_range.mp hk)
    have hcomm : (m + 1) * P = P * (m + 1) := Nat.mul_comm _ _
    congr 2
    omega
  · refine List.map_congr_left fun k _ => ?_
    have hk : (m + 1 + k) * P = P * (m + 1) + k * P := by ring
    have hk' : (m + 1 + k + 1) * P = P * (m + 1) + (k + 1) * P := by ring
    simp only [Function.comp, hk, hk']
    congr 1
    · omega
    · omega

theorem mem_pagePieces (hP : 0 < P) (hc : 0 < c.length) (he : e ∈ pagePieces P c) :
    0 < e.length ∧ c.start ≤ e.start ∧ e.start + e.length ≤ c.start + c.length := by
  obtain ⟨k, hk, rfl⟩ := List.mem_map.mp he
  have hlt := Nat.lt_succ_iff.mp (List.mem_range.mp hk)
  have hle := (Nat.le_div_iff_mul_le hP).mp hlt
  have hmod := Nat.mod_lt c.start hP
  have hsucc : (k + 1) * P = k * P + P := by ring
  dsimp only
  omega

/-- A page boundary inside a piece is where it is cut. -/
theorem exists_pagePiece (hP : 0 < P) (hb : P ∣ b) (hs : c.start ≤ b)
    (ht : b < c.start + c.length) : ∃ e ∈ pagePieces P c, e.start = b := by
  obtain ⟨q, rfl⟩ := hb
  have hdiv := Nat.div_add_mod c.start P
  have hle : c.start / P ≤ q := Nat.div_le_of_le_mul hs
  obtain ⟨k, rfl⟩ := Nat.exists_eq_add_of_le hle
  have hmul : P * (c.start / P + k) = P * (c.start / P) + k * P := by ring
  have hk : k ≤ (c.start % P + c.length - 1) / P := (Nat.le_div_iff_mul_le hP).mpr (by omega)
  refine ⟨_, List.mem_map_of_mem (List.mem_range.mpr (Nat.lt_succ_of_le hk)), ?_⟩
  dsimp only
  omega

/-- The first page piece starts with the piece. -/
theorem exists_pagePiece_start (P : Nat) (c : Piece) : ∃ e ∈ pagePieces P c, e.start = c.start := by
  refine ⟨_, List.mem_map_of_mem (List.mem_range.mpr (Nat.succ_pos _)), ?_⟩
  simp

/-- A piece of one page is not cut. -/
theorem pagePieces_of_page (hP : 0 < P) (h : c.start % P + c.length ≤ P) :
    pagePieces P c = [c] := by
  have hdiv : (c.start % P + c.length - 1) / P = 0 := Nat.div_eq_of_lt (by omega)
  have hmin : min c.length (P - c.start % P) = c.length := by omega
  simp [pagePieces, hdiv, hmin]

/-- Cutting the pieces of a range at their page boundaries is cutting the range there. -/
theorem Cuts.flatMap_pagePieces (h : Cuts P frame stop t s cs) (hP : 0 < P) (hst : s < t) :
    cs.flatMap (pagePieces P) = pagePieces P ⟨s, t - s⟩ := by
  induction h with
  | nil => omega
  | @cons l s rest hl ht hcon hstop hrest ih =>
    rw [List.flatMap_cons]
    rcases Nat.lt_or_ge (s + l) t with hlt | hge
    · have hsplit : t - s = l + (t - (s + l)) := by omega
      rw [ih hlt, hsplit, pagePieces_append hP hl (by omega) (hstop hlt).1]
    · obtain rfl : t = s + l := by omega
      cases hrest with
      | nil => simp
      | cons hl' ht' => omega

/-- A page piece starts with its piece, or at a page boundary. -/
theorem pagePieces_start (hP : 0 < P) (he : e ∈ pagePieces P c) :
    ∃ k ≤ (c.start % P + c.length - 1) / P, e.start / P = c.start / P + k ∧
      (e.start = c.start ∨ P ∣ e.start) := by
  obtain ⟨k, hk, rfl⟩ := List.mem_map.mp he
  refine ⟨k, Nat.lt_succ_iff.mp (List.mem_range.mp hk), ?_⟩
  dsimp only
  rcases Nat.eq_zero_or_pos k with rfl | hpos
  · simp
  · have hdiv := Nat.div_add_mod c.start P
    have hmod := Nat.mod_lt c.start hP
    have hle : P ≤ k * P := Nat.le_mul_of_pos_left P hpos
    have hstart : c.start + (k * P - c.start % P) = (c.start / P + k) * P := by
      rw [Nat.add_mul, Nat.mul_comm (c.start / P) P]
      omega
    rw [hstart]
    exact ⟨Nat.mul_div_cancel _ hP, .inr (Nat.dvd_mul_left _ _)⟩

/-- What does not change from a page to a joined one is the same all over a run. -/
theorem Runs.constant {g : Nat → β} (h : Runs P joins s t cs) (hP : 0 < P) (hc : c ∈ cs)
    (he : e ∈ pagePieces P c)
    (hg : ∀ p, s / P ≤ p → (p + 1) * P < t → joins p = true → g (p + 1) = g p) :
    g (e.start / P) = g (c.start / P) := by
  obtain ⟨hlen, hs, ht, -⟩ := Cuts.piece h hc
  obtain ⟨k, hk, hpage, -⟩ := pagePieces_start hP he
  have hdiv := Nat.div_add_mod c.start P
  have hlast : (c.start + c.length - 1) / P =
      c.start / P + (c.start % P + c.length - 1) / P := by
    have hsplit : c.start + c.length - 1 = c.start % P + c.length - 1 + P * (c.start / P) := by
      omega
    rw [hsplit, Nat.add_mul_div_left _ _ hP, Nat.add_comm]
  rw [hpage]
  clear hpage
  induction k with
  | zero => rfl
  | succ k ih =>
    have hin : c.start / P + k + 1 ≤ (c.start + c.length - 1) / P := by omega
    have hmul := (Nat.le_div_iff_mul_le hP).mp hin
    rw [← Nat.add_assoc, hg (c.start / P + k)
      (Nat.le_trans (Nat.div_le_div_right hs) (Nat.le_add_right _ _)) (by omega)
      (h.joined hc (Nat.le_add_right _ _) hin), ih (by omega)]

/-- A page and the one it is joined to are in one run. -/
theorem Runs.exists_joined (h : Runs P joins s t cs) (hP : 0 < P) (hs : s / P ≤ p)
    (ht : (p + 1) * P < t) (hp : joins p = true) :
    ∃ c ∈ cs, (∃ e ∈ pagePieces P c, e.start / P = p) ∧
      ∃ e ∈ pagePieces P c, e.start / P = p + 1 := by
  have hsucc : (p + 1) * P = p * P + P := by ring
  have hslt : s < (p + 1) * P := (Nat.div_lt_iff_lt_mul hP).mp (Nat.lt_succ_of_le hs)
  obtain ⟨c, hc, hlo, hhi⟩ := Cuts.exists_piece h (Nat.le_max_left s (p * P)) (by omega)
  have hend : (p + 1) * P < c.start + c.length := by
    by_contra hle
    obtain ⟨hdvd, hstop⟩ := Cuts.end_stop h hc (by omega)
    obtain ⟨q, hq⟩ := hdvd
    have hqp : q = p + 1 := by
      refine Nat.le_antisymm ?_ ?_
      · refine Nat.le_of_mul_le_mul_left ?_ hP
        rw [← hq, Nat.mul_comm]
        exact Nat.not_lt.mp hle
      · refine Nat.lt_of_mul_lt_mul_left (a := P) ?_
        rw [← hq, Nat.mul_comm]
        omega
    rw [hq, Nat.mul_div_cancel_left _ hP, hqp, Nat.add_sub_cancel, hp] at hstop
    cases hstop
  have hpage : max s (p * P) / P = p := by
    rw [Nat.div_eq_iff hP]
    omega
  refine ⟨c, hc, ?_, ?_⟩
  · rcases Nat.lt_or_ge c.start (p * P) with hlt | hge
    · obtain ⟨e, he, hstart⟩ := exists_pagePiece hP (Nat.dvd_mul_left P p) hlt.le
        (Nat.lt_of_le_of_lt (Nat.le_max_right _ _) hhi)
      exact ⟨e, he, by rw [hstart, Nat.mul_div_cancel _ hP]⟩
    · obtain ⟨e, he, hstart⟩ := exists_pagePiece_start P c
      refine ⟨e, he, ?_⟩
      have hcle := (Cuts.piece h hc).2.1
      rw [hstart, Nat.div_eq_iff hP]
      omega
  · obtain ⟨e, he, hstart⟩ := exists_pagePiece hP (Nat.dvd_mul_left P (p + 1)) (by omega) hend
    exact ⟨e, he, by rw [hstart, Nat.mul_div_cancel _ hP]⟩

/-- The first page of the range, and each page that does not join, starts a run. -/
theorem Runs.exists_start (h : Runs P joins s t cs) (hP : 0 < P) (hs : s / P ≤ p)
    (ht : max s (p * P) < t) (hp : p = s / P ∨ joins (p - 1) = false) :
    ∃ c ∈ cs, c.start / P = p := by
  obtain ⟨c, hc, hlo, hhi⟩ := Cuts.exists_piece h (Nat.le_max_left s (p * P)) ht
  have hpage : max s (p * P) / P = p := by
    have hslt : s < (p + 1) * P := (Nat.div_lt_iff_lt_mul hP).mp (Nat.lt_succ_of_le hs)
    have hsucc : (p + 1) * P = p * P + P := by ring
    rw [Nat.div_eq_iff hP]
    omega
  have hle : c.start / P ≤ p := hpage ▸ Nat.div_le_div_right hlo
  refine ⟨c, hc, Nat.le_antisymm hle (Nat.not_lt.mp fun hlt => ?_)⟩
  rcases hp with hfirst | hstop
  · have hge := Nat.div_le_div_right (c := P) (Cuts.piece h hc).2.1
    omega
  · have hlast : p ≤ (c.start + c.length - 1) / P := by
      rw [← hpage]
      exact Nat.div_le_div_right (by omega)
    rw [h.joined hc (Nat.le_sub_one_of_lt hlt)
      (Nat.lt_of_lt_of_le (Nat.sub_one_lt (Nat.ne_zero_of_lt hlt)) hlast)] at hstop
    cases hstop

/-- Where no pages join, the pieces are the pages. -/
theorem Runs.eq_pagePieces (h : Runs P (fun _ => false) s t cs) (hP : 0 < P) (hst : s < t) :
    cs = pagePieces P ⟨s, t - s⟩ := by
  have hone : ∀ c ∈ cs, pagePieces P c = [c] := by
    intro c hc
    refine pagePieces_of_page hP ?_
    by_contra hlong
    have hmod := Nat.div_add_mod c.start P
    have hpages : c.start / P < (c.start + c.length - 1) / P := by
      refine Nat.lt_of_succ_le ((Nat.le_div_iff_mul_le hP).mpr ?_)
      have hmul : (c.start / P).succ * P = P * (c.start / P) + P := by
        rw [Nat.succ_mul, Nat.mul_comm]
      omega
    cases Runs.joined h hc (Nat.le_refl _) hpages
  have hflat := Cuts.flatMap_pagePieces h hP hst
  rwa [List.flatMap_congr hone, List.flatMap_singleton'] at hflat

end PagedRange
