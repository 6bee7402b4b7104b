import Mathlib.Tactic

/-!
# Lists that enumerate a partial map

`Lists rows m`: the association list `rows` names every key of the partial map
`m` exactly once and with its value. The lemmas say what editing one entry of
the list does to the map.
-/

namespace TinyDB.Lib

/-! ## Lists in step -/

section

variable {α β : Type} {R : α → β → Prop} {as : List α} {bs : List β}

theorem exists_of_mem_left (h : List.Forall₂ R as bs) {a : α} (ha : a ∈ as) : ∃ b ∈ bs, R a b := by
  induction h with
  | nil => cases ha
  | cons hab _ ih =>
    rcases List.mem_cons.mp ha with rfl | ha
    · exact ⟨_, List.mem_cons_self .., hab⟩
    · obtain ⟨b, hb, hr⟩ := ih ha
      exact ⟨b, List.mem_cons_of_mem _ hb, hr⟩

theorem exists_of_mem_right (h : List.Forall₂ R as bs) {b : β} (hb : b ∈ bs) : ∃ a ∈ as, R a b :=
  exists_of_mem_left (List.Forall₂.flip h : List.Forall₂ (fun b a => R a b) bs as) hb

end

/-! ## Partial maps -/

variable {κ ν : Type}

structure Lists (rows : List (κ × ν)) (m : κ → Option ν) : Prop where
  nodup : (rows.map Prod.fst).Nodup
  mem_iff : ∀ k v, (k, v) ∈ rows ↔ m k = some v

namespace Lists

theorem nil : Lists ([] : List (κ × ν)) fun _ => none := ⟨by simp, by simp⟩

variable {rows pre post : List (κ × ν)} {m : κ → Option ν} {k : κ} {v w : ν}

theorem eq_none_iff (h : Lists rows m) (k : κ) : m k = none ↔ k ∉ rows.map Prod.fst := by
  rw [Option.eq_none_iff_forall_ne_some]
  constructor
  · rintro hn hk
    obtain ⟨e, he, rfl⟩ := List.mem_map.mp hk
    exact hn e.2 ((h.mem_iff e.1 e.2).mp he)
  · intro hk v hv
    exact hk (List.mem_map.mpr ⟨(k, v), (h.mem_iff k v).mpr hv, rfl⟩)

theorem not_mem_of_split (h : Lists (pre ++ (k, v) :: post) m) :
    k ∉ (pre ++ post).map Prod.fst := by
  have hn := h.nodup
  rw [List.map_append, List.map_cons, List.nodup_middle, List.nodup_cons] at hn
  rw [List.map_append]
  exact hn.1

theorem perm (h : Lists rows m) {rows' : List (κ × ν)} (hp : rows.Perm rows') :
    Lists rows' m where
  nodup := (hp.map Prod.fst).nodup_iff.mp h.nodup
  mem_iff k v := by rw [← hp.mem_iff, h.mem_iff]

/-- Two enumerations of one map have the same elements. -/
theorem perm_of_eq (h : Lists rows m) {rows' : List (κ × ν)} (h' : Lists rows' m) :
    rows.Perm rows' := by
  refine (List.perm_ext_iff_of_nodup h.nodup.of_map h'.nodup.of_map).mpr ?_
  rintro ⟨k, v⟩
  rw [h.mem_iff, h'.mem_iff]

/-- What two permuted lists enumerate is one map. -/
theorem eq_of_perm (h : Lists rows m) {rows' : List (κ × ν)} {m' : κ → Option ν}
    (h' : Lists rows' m') (hp : rows.Perm rows') : m = m' := by
  funext k
  refine Option.ext fun v => ?_
  rw [← h.mem_iff, ← h'.mem_iff, hp.mem_iff]

variable [DecidableEq κ]

/-- Every list with distinct keys enumerates a map. -/
theorem exists_of_nodup (h : (rows.map Prod.fst).Nodup) : ∃ m : κ → Option ν, Lists rows m := by
  refine ⟨fun k => (rows.find? fun e => e.1 = k).map Prod.snd, h, ?_⟩
  intro k v
  induction rows with
  | nil => simp
  | cons e rows ih =>
    obtain ⟨k', v'⟩ := e
    simp only [List.map_cons, List.nodup_cons] at h
    by_cases hk : k' = k
    · subst hk
      have hn : (k', v) ∉ rows := fun hm => h.1 (List.mem_map.mpr ⟨_, hm, rfl⟩)
      simp [hn, eq_comm]
    · have hk' : k ≠ k' := fun e => hk e.symm
      simp only [List.mem_cons, Prod.mk.injEq, hk', false_and, false_or, List.find?_cons, hk,
        decide_false, ih h.2]

theorem snoc (h : Lists rows m) (hk : k ∉ rows.map Prod.fst) :
    Lists (rows ++ [(k, v)]) (Function.update m k (some v)) := by
  constructor
  · rw [List.map_append, List.nodup_append]
    refine ⟨h.nodup, by simp, ?_⟩
    intro a ha b hb e
    simp only [List.map_cons, List.map_nil, List.mem_singleton] at hb
    exact hk (by rw [← hb, ← e]; exact ha)
  · intro k' v'
    by_cases he : k' = k
    · subst he
      have hn : (k', v') ∉ rows := fun hm => hk (List.mem_map.mpr ⟨_, hm, rfl⟩)
      simp [hn, eq_comm]
    · simp [he, h.mem_iff]

theorem insert (h : Lists (pre ++ post) m) (hk : k ∉ (pre ++ post).map Prod.fst) :
    Lists (pre ++ (k, v) :: post) (Function.update m k (some v)) :=
  (h.snoc hk).perm ((List.perm_append_singleton _ _).trans List.perm_middle.symm)

theorem remove (h : Lists (pre ++ (k, v) :: post) m) :
    Lists (pre ++ post) (Function.update m k none) := by
  have hk := h.not_mem_of_split
  constructor
  · have hn := h.nodup
    rw [List.map_append, List.map_cons, List.nodup_middle, List.nodup_cons] at hn
    rw [List.map_append]
    exact hn.2
  · intro k' v'
    by_cases he : k' = k
    · subst he
      have hm : (k', v') ∉ pre ++ post := fun hm => hk (List.mem_map.mpr ⟨_, hm, rfl⟩)
      simpa using hm
    · rw [Function.update_of_ne he, ← h.mem_iff]
      simp [he]

theorem replace (h : Lists (pre ++ (k, v) :: post) m) :
    Lists (pre ++ (k, w) :: post) (Function.update m k (some w)) := by
  have hk := h.not_mem_of_split
  constructor
  · have hn := h.nodup
    rw [List.map_append, List.map_cons] at hn ⊢
    exact hn
  · intro k' v'
    by_cases he : k' = k
    · subst he
      have hm : (k', v') ∉ pre ++ post := fun hm => hk (List.mem_map.mpr ⟨_, hm, rfl⟩)
      rw [List.mem_append] at hm
      simp only [List.mem_append, List.mem_cons, Prod.mk.injEq, true_and, Function.update_self,
        Option.some.injEq]
      constructor
      · rintro (hp | rfl | hp)
        · exact absurd (Or.inl hp) hm
        · rfl
        · exact absurd (Or.inr hp) hm
      · rintro rfl
        exact Or.inr (Or.inl rfl)
    · rw [Function.update_of_ne he, ← h.mem_iff]
      simp [he]

/-- Moving an entry to the end with a new value. -/
theorem moveToEnd (h : Lists (pre ++ (k, v) :: post) m) :
    Lists (pre ++ post ++ [(k, w)]) (Function.update m k (some w)) := by
  have := h.remove.snoc (v := w) h.not_mem_of_split
  rwa [Function.update_idem] at this

end Lists
end TinyDB.Lib
