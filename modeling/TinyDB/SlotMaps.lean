import TinyDB.DmlStore

/-!
# Statements as changes of the rows

How the slot operations change the live rows: a delete of a row that was not
moved loses it (`deleteAll_cases`), updates of rows that were not moved are
changes of the map from rowids to rows (`updateAll_lists`), and an update of a
moved row shows it once more (`updateSlots_live`).
-/

namespace TinyDB

open Lib

namespace Heap

variable {schema : Schema}

/-! ## Counting live rows -/

theorem unmoved_eq {store : FileStore} {heap : Heap} {page : Page}
    {slots : List (Slot heap.schema)} (h : HeapAt store heap page slots) {rowid : Nat}
    (hr : rowid ∈ slots.map Slot.rowid) : heap.unmoved store rowid = firstAlive rowid slots := by
  obtain ⟨before, s, after, rfl, rfl, hb⟩ := split_of_mem hr
  rw [firstAlive_split hb rfl, Bool.eq_iff_iff, unmoved_iff h hb]
  simp

theorem deleteSlots_dead {rowid : Nat} {slots : List (Slot schema)}
    (h : firstAlive rowid slots = false) : deleteSlots rowid slots = slots := by
  induction slots with
  | nil => rfl
  | cons s slots ih =>
    by_cases hs : s.rowid = rowid
    · simp only [firstAlive, hs, ↓reduceIte, Bool.not_eq_eq_eq_not, Bool.not_false] at h
      obtain ⟨dead, id, values, enc, pad, he, ha⟩ := s
      simp only at h hs
      subst h
      simp only [deleteSlots, hs, ↓reduceIte, Slot.kill]
    · simp only [firstAlive, hs, ↓reduceIte] at h
      simp only [deleteSlots, hs, ↓reduceIte, ih h]

theorem deleteSlots_live {rowid : Nat} {slots : List (Slot schema)}
    (h : firstAlive rowid slots = true) :
    (liveRows slots).length = (liveRows (deleteSlots rowid slots)).length + 1 := by
  induction slots with
  | nil => cases h
  | cons s slots ih =>
    by_cases hs : s.rowid = rowid
    · simp only [firstAlive, hs, ↓reduceIte, Bool.not_eq_eq_eq_not, Bool.not_true] at h
      simp [deleteSlots, hs, liveRows, Slot.live?, Slot.kill, h]
    · simp only [firstAlive, hs, ↓reduceIte] at h
      have := ih h
      simp only [deleteSlots, hs, ↓reduceIte]
      cases hd : s.dead
      · simpa [liveRows, Slot.live?, hd] using this
      · simpa [liveRows, Slot.live?, hd] using this

theorem deleteSlots_length_le (rowid : Nat) (slots : List (Slot schema)) :
    (liveRows (deleteSlots rowid slots)).length ≤ (liveRows slots).length := by
  cases h : firstAlive rowid slots with
  | false => rw [deleteSlots_dead h]
  | true => rw [deleteSlots_live h]; omega

theorem deleteAll_length_le (rows : List (Nat × Row)) (slots : List (Slot schema)) :
    (liveRows (deleteAll rows slots)).length ≤ (liveRows slots).length := by
  induction rows generalizing slots with
  | nil => exact Nat.le_refl _
  | cons hit rows ih => exact Nat.le_trans (ih _) (deleteSlots_length_le hit.1 slots)

/-- Deletes that hit moved rows only do nothing, any other loses a row. -/
theorem deleteAll_cases (rows : List (Nat × Row)) (slots : List (Slot schema)) :
    ((∀ hit ∈ rows, firstAlive hit.1 slots = false) ∧ deleteAll rows slots = slots) ∨
      ((∃ hit ∈ rows, firstAlive hit.1 slots = true) ∧
        (liveRows (deleteAll rows slots)).length < (liveRows slots).length) := by
  induction rows with
  | nil => exact Or.inl ⟨by simp, rfl⟩
  | cons hit rows ih =>
    have hall : deleteAll (hit :: rows) slots = deleteAll rows (deleteSlots hit.1 slots) := rfl
    rw [hall]
    cases h : firstAlive hit.1 slots with
    | true =>
      refine Or.inr ⟨⟨hit, List.mem_cons_self .., h⟩, ?_⟩
      have h1 := deleteSlots_live h
      have h2 := deleteAll_length_le rows (deleteSlots hit.1 slots)
      omega
    | false =>
      rw [deleteSlots_dead h]
      rcases ih with ⟨hd, he⟩ | ⟨⟨hit', hh, ha⟩, hlt⟩
      · refine Or.inl ⟨?_, he⟩
        intro hit' hh
        rcases List.mem_cons.mp hh with rfl | hh
        · exact h
        · exact hd hit' hh
      · exact Or.inr ⟨⟨hit', List.mem_cons_of_mem _ hh, ha⟩, hlt⟩

theorem deleteSlots_sublist (rowid : Nat) (slots : List (Slot schema)) :
    (liveRows (deleteSlots rowid slots)).Sublist (liveRows slots) := by
  induction slots with
  | nil => exact List.Sublist.refl _
  | cons s slots ih =>
    unfold deleteSlots
    split
    · have hnil : liveRows ([] ++ s.kill :: slots) = liveRows [] ++ liveRows slots :=
        liveRows_dead rfl
      have hkill : liveRows (s.kill :: slots) = liveRows slots := hnil
      rw [hkill]
      exact (List.sublist_cons_self s slots).filterMap _
    · have happ := (List.Sublist.refl (liveRows [s])).append ih
      rw [← liveRows_append, ← liveRows_append] at happ
      exact happ

theorem deleteAll_sublist (rows : List (Nat × Row)) (slots : List (Slot schema)) :
    (liveRows (deleteAll rows slots)).Sublist (liveRows slots) := by
  induction rows generalizing slots with
  | nil => exact List.Sublist.refl _
  | cons hit rows ih => exact (ih _).trans (deleteSlots_sublist hit.1 slots)

theorem deleteAll_rowids (rows : List (Nat × Row)) (slots : List (Slot schema)) :
    (deleteAll rows slots).map Slot.rowid = slots.map Slot.rowid := by
  induction rows generalizing slots with
  | nil => rfl
  | cons hit rows ih => exact (ih _).trans (deleteSlots_rowids hit.1 slots)

/-! ## Updates as changes of a map -/

theorem firstAlive_updateSlots {new : Slot schema} {slots : List (Slot schema)} {rowid : Nat}
    (hr : rowid ∈ slots.map Slot.rowid) (hne : rowid ≠ new.rowid) :
    firstAlive rowid (updateSlots new slots) = firstAlive rowid slots := by
  induction slots with
  | nil => cases hr
  | cons s slots ih =>
    simp only [List.map_cons, List.mem_cons] at hr
    unfold updateSlots
    by_cases hs : s.rowid = new.rowid
    · have hsr : s.rowid ≠ rowid := fun e => hne (by rw [← e, hs])
      have hr' : rowid ∈ slots.map Slot.rowid := hr.resolve_left fun e => hsr e.symm
      rw [if_pos hs]
      split
      · simp only [firstAlive, hsr, hne.symm, ↓reduceIte]
      · obtain ⟨before, t, after, rfl, ht, hb⟩ := split_of_mem hr'
        simp only [firstAlive, Slot.kill, hsr, ↓reduceIte]
        rw [List.append_assoc, List.cons_append, firstAlive_split hb ht, firstAlive_split hb ht]
    · rw [if_neg hs]
      by_cases hsr : s.rowid = rowid
      · simp only [firstAlive, hsr, ↓reduceIte]
      · simp only [firstAlive, hsr, ↓reduceIte]
        exact ih (hr.resolve_left fun e => hsr e.symm)

/-- An update of a moved row adds a live row, any other keeps their number. -/
theorem updateSlots_live {new : Slot schema} (hd : new.dead = false) {slots : List (Slot schema)}
    (hr : new.rowid ∈ slots.map Slot.rowid) :
    (liveRows (updateSlots new slots)).length =
      (liveRows slots).length + (if firstAlive new.rowid slots then 0 else 1) := by
  obtain ⟨before, s, after, rfl, hs, hb⟩ := split_of_mem hr
  rw [updateSlots_split hb hs, firstAlive_split hb hs]
  have hkill : s.kill.dead = true := rfl
  have hlive : ∀ pad, ({ new with pad := pad } : Slot schema).dead = false := fun _ => hd
  have hnew : liveRows [new] = [(new.rowid, readBackRow new.values)] := by
    simp [liveRows, Slot.live?, hd]
  cases hdead : s.dead
  · rw [liveRows_live hdead]
    split
    · simp [liveRows_live (hlive _)]
    · rw [liveRows_append, liveRows_dead hkill, hnew]
      simp
  · rw [liveRows_dead hdead]
    split
    · simp [liveRows_live (hlive _)]
      omega
    · rw [liveRows_append, liveRows_dead hkill, hnew]
      simp
      omega

/-- An update of a row that was not moved changes the map at its rowid. -/
theorem updateSlots_lists {new : Slot schema} (hd : new.dead = false) {slots : List (Slot schema)}
    (ha : firstAlive new.rowid slots = true) (hr : new.rowid ∈ slots.map Slot.rowid)
    {m : Nat → Option Row} (h : Lists (liveRows slots) m) :
    Lists (liveRows (updateSlots new slots))
      (Function.update m new.rowid (some (readBackRow new.values))) := by
  obtain ⟨before, s, after, rfl, hs, hb⟩ := split_of_mem hr
  rw [firstAlive_split hb hs] at ha
  have hlive : s.dead = false := by simpa using ha
  have hl := liveRows_live hlive ▸ h
  rw [hs] at hl
  rw [updateSlots_split hb hs]
  split
  · have hn : ({ new with pad := s.data.length - new.enc.length } : Slot schema).dead = false := hd
    rw [liveRows_live hn]
    exact hl.replace
  · have hk : s.kill.dead = true := rfl
    have hn : liveRows [new] = [(new.rowid, readBackRow new.values)] := by
      simp [liveRows, Slot.live?, hd]
    rw [liveRows_append, liveRows_dead hk, hn]
    exact hl.moveToEnd

/-- The map after the updates. -/
def updateMap (news : List (Slot schema)) (m : Nat → Option Row) : Nat → Option Row :=
  news.foldl (fun m new => Function.update m new.rowid (some (readBackRow new.values))) m

theorem updateMap_of_not_mem {news : List (Slot schema)} {m : Nat → Option Row} {r : Nat}
    (h : r ∉ news.map Slot.rowid) : updateMap news m r = m r := by
  induction news generalizing m with
  | nil => rfl
  | cons new news ih =>
    simp only [List.map_cons, List.mem_cons, not_or] at h
    have h1 : updateMap (new :: news) m r =
        updateMap news (Function.update m new.rowid (some (readBackRow new.values))) r := rfl
    rw [h1, ih h.2, Function.update_of_ne h.1]

theorem updateMap_of_mem {news : List (Slot schema)} {m : Nat → Option Row}
    (hn : (news.map Slot.rowid).Nodup) {new : Slot schema} (h : new ∈ news) :
    updateMap news m new.rowid = some (readBackRow new.values) := by
  induction news generalizing m with
  | nil => cases h
  | cons t news ih =>
    simp only [List.map_cons, List.nodup_cons] at hn
    have h1 : updateMap (t :: news) m new.rowid =
        updateMap news (Function.update m t.rowid (some (readBackRow t.values))) new.rowid := rfl
    rw [h1]
    rcases List.mem_cons.mp h with rfl | h
    · rw [updateMap_of_not_mem hn.1, Function.update_self]
    · exact ih hn.2 h

theorem updateAll_lists {news slots : List (Slot schema)} (hd : ∀ new ∈ news, new.dead = false)
    (ha : ∀ new ∈ news, firstAlive new.rowid slots = true)
    (hr : ∀ new ∈ news, new.rowid ∈ slots.map Slot.rowid) (hn : (news.map Slot.rowid).Nodup)
    {m : Nat → Option Row} (h : Lists (liveRows slots) m) :
    Lists (liveRows (updateAll news slots)) (updateMap news m) := by
  induction news generalizing slots m with
  | nil => exact h
  | cons new news ih =>
    simp only [List.map_cons, List.nodup_cons] at hn
    have hself := List.mem_cons_self (a := new) (l := news)
    refine ih (fun t ht => hd t (List.mem_cons_of_mem _ ht)) ?_ ?_ hn.2
      (updateSlots_lists (hd new hself) (ha new hself) (hr new hself) h)
    · intro t ht
      have hne : t.rowid ≠ new.rowid := fun e => hn.1 (e ▸ List.mem_map_of_mem (f := Slot.rowid) ht)
      rw [firstAlive_updateSlots (hr t (List.mem_cons_of_mem _ ht)) hne]
      exact ha t (List.mem_cons_of_mem _ ht)
    · intro t ht
      exact updateSlots_rowids new slots _ (hr t (List.mem_cons_of_mem _ ht))

/-- Updates bring no new rowid, and no slot goes. -/
theorem updateSlots_within {new : Slot schema} {slots : List (Slot schema)} {n : Nat}
    (hn : new.rowid ≤ n) (hs : ∀ s ∈ slots, s.rowid ≤ n) :
    (∀ s ∈ updateSlots new slots, s.rowid ≤ n) ∧ slots.length ≤ (updateSlots new slots).length := by
  induction slots with
  | nil => exact ⟨hs, Nat.le_refl _⟩
  | cons s slots ih =>
    have hrest : ∀ t ∈ slots, t.rowid ≤ n := fun t ht => hs t (List.mem_cons_of_mem _ ht)
    obtain ⟨hall, hlen⟩ := ih hrest
    unfold updateSlots
    split
    · split
      · refine ⟨fun t ht => ?_, by simp⟩
        rcases List.mem_cons.mp ht with rfl | ht
        · exact hn
        · exact hrest t ht
      · refine ⟨fun t ht => ?_, by simp⟩
        simp only [List.mem_cons, List.mem_append, List.not_mem_nil, or_false] at ht
        rcases ht with rfl | ht | rfl
        · exact hs s (List.mem_cons_self ..)
        · exact hrest t ht
        · exact hn
    · refine ⟨fun t ht => ?_, by simp only [List.length_cons]; omega⟩
      rcases List.mem_cons.mp ht with rfl | ht
      · exact hs t (List.mem_cons_self ..)
      · exact hall t ht

theorem updateAll_within {news slots : List (Slot schema)} {n : Nat}
    (hn : ∀ new ∈ news, new.rowid ≤ n) (hs : ∀ s ∈ slots, s.rowid ≤ n) :
    (∀ s ∈ updateAll news slots, s.rowid ≤ n) ∧ slots.length ≤ (updateAll news slots).length := by
  induction news generalizing slots with
  | nil => exact ⟨hs, Nat.le_refl _⟩
  | cons new news ih =>
    obtain ⟨hone, hlen⟩ := updateSlots_within (hn new (List.mem_cons_self ..)) hs
    obtain ⟨hall, hlen'⟩ := ih (fun t ht => hn t (List.mem_cons_of_mem _ ht)) hone
    exact ⟨hall, Nat.le_trans hlen hlen'⟩

/-- If no row is added, every updated row was where its rowid says. -/
theorem updateAll_alive {news slots : List (Slot schema)} (hd : ∀ new ∈ news, new.dead = false)
    (hr : ∀ new ∈ news, new.rowid ∈ slots.map Slot.rowid) (hn : (news.map Slot.rowid).Nodup) :
    (liveRows slots).length ≤ (liveRows (updateAll news slots)).length ∧
      ((liveRows (updateAll news slots)).length = (liveRows slots).length →
        ∀ new ∈ news, firstAlive new.rowid slots = true) := by
  induction news generalizing slots with
  | nil => exact ⟨Nat.le_refl _, by simp⟩
  | cons new news ih =>
    simp only [List.map_cons, List.nodup_cons] at hn
    have hself := List.mem_cons_self (a := new) (l := news)
    have hone := updateSlots_live (hd new hself) (hr new hself)
    have hr1 : ∀ t ∈ news, t.rowid ∈ (updateSlots new slots).map Slot.rowid := fun t ht =>
      updateSlots_rowids new slots _ (hr t (List.mem_cons_of_mem _ ht))
    obtain ⟨hle, halive⟩ := ih (fun t ht => hd t (List.mem_cons_of_mem _ ht)) hr1 hn.2
    have hall : updateAll (new :: news) slots = updateAll news (updateSlots new slots) := rfl
    rw [hall]
    refine ⟨by omega, fun heq => ?_⟩
    have hnew : firstAlive new.rowid slots = true := by
      by_contra hf
      rw [if_neg hf] at hone
      omega
    rw [if_pos hnew] at hone
    intro t ht
    rcases List.mem_cons.mp ht with rfl | ht
    · exact hnew
    · have hne : t.rowid ≠ new.rowid := fun e =>
        hn.1 (e ▸ List.mem_map_of_mem (f := Slot.rowid) ht)
      rw [← firstAlive_updateSlots (hr t (List.mem_cons_of_mem _ ht)) hne]
      exact halive (by omega) t ht

end Heap
end TinyDB
