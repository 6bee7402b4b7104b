import TinyDB.Lib.OrdDict

/-!
# Dictionaries with related values

`OrdDict.Rel R`: the same keys in the same order, and values that are related one by
one. Lookups, assignments and removals keep it.
-/

namespace TinyDB.Lib.OrdDict

variable {κ ν μ : Type}

/-- The same keys, and related values. -/
abbrev SideBySide (R : ν → μ → Prop) (l : List (κ × ν)) (l' : List (κ × μ)) : Prop :=
  List.Forall₂ (fun a b => b.1 = a.1 ∧ R a.2 b.2) l l'

def Rel (R : ν → μ → Prop) (d : OrdDict κ ν) (e : OrdDict κ μ) : Prop :=
  SideBySide R d.entries e.entries

section

variable {R S : ν → μ → Prop} {l : List (κ × ν)} {l' : List (κ × μ)}

private theorem SideBySide.keys (h : SideBySide R l l') : l'.map Prod.fst = l.map Prod.fst := by
  induction h with
  | nil => rfl
  | cons hab _ ih => rw [List.map_cons, List.map_cons, hab.1, ih]

private theorem SideBySide.values (h : SideBySide R l l') :
    List.Forall₂ R (l.map Prod.snd) (l'.map Prod.snd) := by
  induction h with
  | nil => exact List.Forall₂.nil
  | cons hab _ ih => exact List.Forall₂.cons hab.2 ih

private theorem SideBySide.imp (h : SideBySide R l l')
    (hrs : ∀ k v w, (k, v) ∈ l → (k, w) ∈ l' → R v w → S v w) : SideBySide S l l' := by
  induction h with
  | nil => exact List.Forall₂.nil
  | cons hab _ ih =>
    refine List.Forall₂.cons ⟨hab.1, hrs _ _ _ (List.mem_cons_self ..) ?_ hab.2⟩ ?_
    · rw [← hab.1]
      exact List.mem_cons_self ..
    · exact ih fun k v w hv hw => hrs k v w (List.mem_cons_of_mem _ hv) (List.mem_cons_of_mem _ hw)

private theorem SideBySide.trans {ο : Type} {T : μ → ο → Prop} {U : ν → ο → Prop}
    {l'' : List (κ × ο)} (h : SideBySide R l l') (h' : SideBySide T l' l'')
    (hu : ∀ u v w, R u v → T v w → U u w) : SideBySide U l l'' := by
  induction h generalizing l'' with
  | nil =>
    cases h'
    exact List.Forall₂.nil
  | cons hab _ ih =>
    cases h' with
    | cons hbc hrest =>
      exact List.Forall₂.cons ⟨hbc.1.trans hab.1, hu _ _ _ hab.2 hbc.2⟩ (ih hrest)

variable [DecidableEq κ]

private theorem SideBySide.lookup (h : SideBySide R l l') (k : κ) :
    (lookup k l = none ∧ OrdDict.lookup k l' = none) ∨
      ∃ v w, OrdDict.lookup k l = some v ∧ OrdDict.lookup k l' = some w ∧ R v w := by
  induction h with
  | nil => exact Or.inl ⟨rfl, rfl⟩
  | cons hab _ ih =>
    rename_i a b l l' _
    obtain ⟨k', v⟩ := a
    obtain ⟨k'', w⟩ := b
    obtain ⟨he, hr⟩ := hab
    simp only at he hr
    subst he
    by_cases hk : k'' = k
    · exact Or.inr ⟨v, w, by rw [OrdDict.lookup, if_pos hk], by rw [OrdDict.lookup, if_pos hk], hr⟩
    · simpa only [OrdDict.lookup, hk, ↓reduceIte] using ih

private theorem SideBySide.assign (h : SideBySide R l l') (k : κ) {v : ν} {w : μ} (hr : R v w) :
    SideBySide R (assign k v l) (OrdDict.assign k w l') := by
  induction h with
  | nil => exact List.Forall₂.cons ⟨rfl, hr⟩ List.Forall₂.nil
  | cons hab hrest ih =>
    rename_i a b l l'
    obtain ⟨k', x⟩ := a
    obtain ⟨k'', y⟩ := b
    obtain ⟨he, hxy⟩ := hab
    simp only at he hxy
    subst he
    by_cases hk : k'' = k
    · simp only [OrdDict.assign, hk, ↓reduceIte]
      exact List.Forall₂.cons ⟨rfl, hr⟩ hrest
    · simp only [OrdDict.assign, hk, ↓reduceIte]
      exact List.Forall₂.cons ⟨rfl, hxy⟩ ih

private theorem SideBySide.remove (h : SideBySide R l l') (k : κ) :
    SideBySide R (remove k l) (OrdDict.remove k l') := by
  induction h with
  | nil => exact List.Forall₂.nil
  | cons hab hrest ih =>
    rename_i a b l l'
    obtain ⟨k', x⟩ := a
    obtain ⟨k'', y⟩ := b
    obtain ⟨he, hxy⟩ := hab
    simp only at he hxy
    subst he
    by_cases hk : k'' = k
    · simpa only [OrdDict.remove, hk, ↓reduceIte] using hrest
    · simp only [OrdDict.remove, hk, ↓reduceIte]
      exact List.Forall₂.cons ⟨rfl, hxy⟩ ih

end

variable {R S : ν → μ → Prop} {d : OrdDict κ ν} {e : OrdDict κ μ}

theorem Rel.keys (h : Rel R d e) : e.keys = d.keys := SideBySide.keys h

theorem Rel.values (h : Rel R d e) : List.Forall₂ R d.values e.values := SideBySide.values h

theorem Rel.imp (h : Rel R d e)
    (hrs : ∀ k v w, (k, v) ∈ d.entries → (k, w) ∈ e.entries → R v w → S v w) : Rel S d e :=
  SideBySide.imp h hrs

theorem Rel.trans {ο : Type} {T : μ → ο → Prop} {U : ν → ο → Prop} {f : OrdDict κ ο}
    (h : Rel R d e) (h' : Rel T e f) (hu : ∀ u v w, R u v → T v w → U u w) : Rel U d f :=
  SideBySide.trans h h' hu

theorem Rel.refl {T : ν → ν → Prop} (h : ∀ k v, (k, v) ∈ d.entries → T v v) : Rel T d d :=
  List.forall₂_same.mpr fun a ha => ⟨rfl, h a.1 a.2 ha⟩

variable [DecidableEq κ]

/-- A key is in neither or in both. -/
theorem Rel.get? (h : Rel R d e) (k : κ) : (d.get? k = none ∧ e.get? k = none) ∨
    ∃ v w, d.get? k = some v ∧ e.get? k = some w ∧ R v w := SideBySide.lookup h k

theorem Rel.set (h : Rel R d e) (k : κ) {v : ν} {w : μ} (hr : R v w) :
    Rel R (d.set k v) (e.set k w) := SideBySide.assign h k hr

theorem Rel.erase (h : Rel R d e) (k : κ) : Rel R (d.erase k) (e.erase k) := SideBySide.remove h k

end TinyDB.Lib.OrdDict
