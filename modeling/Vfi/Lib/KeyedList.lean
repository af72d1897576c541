import Mathlib.Data.List.Nodup

/-!
# Lists with distinct keys

Searching a list by key, and erasing from it by key, where no two elements share
a key.
-/

namespace KeyedList

variable {α κ : Type*} [DecidableEq κ] {key : α → κ} {l : List α} {a : α} {k : κ}

theorem find_eq_some_iff (h : (l.map key).Nodup) :
    l.find? (fun x => key x = k) = some a ↔ a ∈ l ∧ key a = k := by
  constructor
  · intro hfind
    exact ⟨List.mem_of_find?_eq_some hfind, by simpa using List.find?_some hfind⟩
  · rintro ⟨hmem, rfl⟩
    cases hfind : l.find? fun x => key x = key a with
    | none =>
      rw [List.find?_eq_none] at hfind
      exact absurd (decide_eq_true rfl) (hfind a hmem)
    | some other =>
      have hkey : key other = key a := by simpa using List.find?_some hfind
      rw [List.inj_on_of_nodup_map h (List.mem_of_find?_eq_some hfind) hmem hkey]

theorem find_eq_none_iff : l.find? (fun x => key x = k) = none ↔ k ∉ l.map key := by
  simp [List.find?_eq_none]

theorem mem_erase_iff (h : (l.map key).Nodup) :
    a ∈ l.eraseP (fun x => key x = k) ↔ a ∈ l ∧ key a ≠ k := by
  induction l with
  | nil => simp
  | cons head rest ih =>
    obtain ⟨hhead, hrest⟩ := List.nodup_cons.mp h
    by_cases hkey : key head = k
    · subst hkey
      rw [List.eraseP_cons_of_pos (by simp), List.mem_cons]
      constructor
      · exact fun hmem => ⟨.inr hmem, fun heq => hhead (heq ▸ List.mem_map_of_mem hmem)⟩
      · rintro ⟨rfl | hmem, hne⟩
        · exact absurd rfl hne
        · exact hmem
    · rw [List.eraseP_cons_of_neg (by simpa using hkey), List.mem_cons, List.mem_cons, ih hrest]
      constructor
      · rintro (rfl | ⟨hmem, hne⟩)
        · exact ⟨.inl rfl, hkey⟩
        · exact ⟨.inr hmem, hne⟩
      · rintro ⟨rfl | hmem, hne⟩
        · exact .inl rfl
        · exact .inr ⟨hmem, hne⟩

theorem nodup_erase (h : (l.map key).Nodup) :
    ((l.eraseP fun x => key x = k).map key).Nodup :=
  h.sublist (List.eraseP_sublist.map _)

theorem length_erase (h : k ∈ l.map key) :
    (l.eraseP fun x => key x = k).length + 1 = l.length := by
  obtain ⟨a, hmem, hkey⟩ := List.mem_map.mp h
  have hlen := List.length_eraseP_of_mem hmem (p := fun x => decide (key x = k))
    (by simpa using hkey)
  have hpos := List.length_pos_of_mem hmem
  omega

omit [DecidableEq κ] in
theorem nodup_append (h : (l.map key).Nodup) (ha : key a ∉ l.map key) :
    ((l ++ [a]).map key).Nodup := by
  rw [List.map_append, List.nodup_append']
  simpa [h] using ha

end KeyedList
