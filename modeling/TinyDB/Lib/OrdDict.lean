import Mathlib.Tactic

/-!
# Insertion-ordered dictionaries

A finite map that remembers the order in which its keys first came in. The
field `nodup` says that no key is listed twice, so every lookup lemma below
holds of every dictionary that can be built. Setting a present key keeps its
position, setting a new one puts it last.
-/

namespace TinyDB.Lib

structure OrdDict (κ ν : Type) where
  entries : List (κ × ν)
  nodup : (entries.map Prod.fst).Nodup

namespace OrdDict

variable {κ ν : Type}

theorem ext {d e : OrdDict κ ν} (h : d.entries = e.entries) : d = e := by
  cases d; cases e; cases h; rfl

instance [DecidableEq κ] [DecidableEq ν] : DecidableEq (OrdDict κ ν) := fun d e =>
  decidable_of_iff (d.entries = e.entries) ⟨ext, fun h => by rw [h]⟩

def empty : OrdDict κ ν := ⟨[], List.nodup_nil⟩

instance : Inhabited (OrdDict κ ν) := ⟨empty⟩

def keys (d : OrdDict κ ν) : List κ := d.entries.map Prod.fst

def values (d : OrdDict κ ν) : List ν := d.entries.map Prod.snd

theorem mem_values {d : OrdDict κ ν} {v : ν} : v ∈ d.values ↔ ∃ k, (k, v) ∈ d.entries := by
  simp [values]

variable [DecidableEq κ]

def lookup (k : κ) : List (κ × ν) → Option ν
  | [] => none
  | (k', v) :: l => if k' = k then some v else lookup k l

def assign (k : κ) (v : ν) : List (κ × ν) → List (κ × ν)
  | [] => [(k, v)]
  | (k', v') :: l => if k' = k then (k', v) :: l else (k', v') :: assign k v l

def remove (k : κ) : List (κ × ν) → List (κ × ν)
  | [] => []
  | (k', v) :: l => if k' = k then l else (k', v) :: remove k l

theorem keys_assign (k : κ) (v : ν) (l : List (κ × ν)) :
    (assign k v l).map Prod.fst =
      if k ∈ l.map Prod.fst then l.map Prod.fst else l.map Prod.fst ++ [k] := by
  induction l with
  | nil => rfl
  | cons e l ih =>
    obtain ⟨k', v'⟩ := e
    by_cases h : k' = k
    · simp [assign, h]
    · have h' : k ≠ k' := fun e => h e.symm
      simp only [assign, h, ↓reduceIte, List.map_cons, List.mem_cons, h', false_or, ih]
      split <;> rfl

theorem remove_sublist (k : κ) (l : List (κ × ν)) : (remove k l).Sublist l := by
  induction l with
  | nil => exact List.Sublist.slnil
  | cons e l ih =>
    obtain ⟨k', v'⟩ := e
    by_cases h : k' = k
    · simp [remove, h]
    · simp only [remove, h, ↓reduceIte]
      exact ih.cons_cons _

def get? (d : OrdDict κ ν) (k : κ) : Option ν := lookup k d.entries

def contains (d : OrdDict κ ν) (k : κ) : Bool := (d.get? k).isSome

def set (d : OrdDict κ ν) (k : κ) (v : ν) : OrdDict κ ν where
  entries := assign k v d.entries
  nodup := by
    rw [keys_assign]
    split
    · exact d.nodup
    · rename_i h
      exact List.nodup_append.mpr ⟨d.nodup, List.nodup_singleton k, by
        intro a ha b hb e
        rw [List.mem_singleton] at hb
        exact h (by rw [← hb, ← e]; exact ha)⟩

def erase (d : OrdDict κ ν) (k : κ) : OrdDict κ ν where
  entries := remove k d.entries
  nodup := d.nodup.sublist ((remove_sublist k d.entries).map Prod.fst)

/-- Later pairs override earlier ones with the same key. -/
def ofList (l : List (κ × ν)) : OrdDict κ ν := l.foldl (fun d e => d.set e.1 e.2) empty

/-- `{**d, **e}`. -/
def update (d e : OrdDict κ ν) : OrdDict κ ν := e.entries.foldl (fun d e => d.set e.1 e.2) d

@[simp] theorem get?_empty (k : κ) : (empty : OrdDict κ ν).get? k = none := rfl

theorem lookup_eq_none_iff (k : κ) (l : List (κ × ν)) :
    lookup k l = none ↔ k ∉ l.map Prod.fst := by
  induction l with
  | nil => simp [lookup]
  | cons e l ih =>
    obtain ⟨k', v'⟩ := e
    by_cases h : k' = k
    · simp [lookup, h]
    · have h' : k ≠ k' := fun e => h e.symm
      simp only [lookup, h, ↓reduceIte, ih, List.map_cons, List.mem_cons, h', false_or]

theorem get?_eq_none_iff (d : OrdDict κ ν) (k : κ) : d.get? k = none ↔ k ∉ d.keys :=
  lookup_eq_none_iff k d.entries

theorem contains_iff (d : OrdDict κ ν) (k : κ) : d.contains k = true ↔ k ∈ d.keys := by
  rw [contains, Option.isSome_iff_ne_none, ne_eq, get?_eq_none_iff, not_not]

theorem lookup_eq_some_iff (k : κ) (v : ν) (l : List (κ × ν)) (h : (l.map Prod.fst).Nodup) :
    lookup k l = some v ↔ (k, v) ∈ l := by
  induction l with
  | nil => simp [lookup]
  | cons e l ih =>
    obtain ⟨k', v'⟩ := e
    simp only [List.map_cons, List.nodup_cons] at h
    by_cases hk : k' = k
    · have hn : (k, v) ∉ l := fun hm =>
        h.1 (by rw [hk]; exact List.mem_map_of_mem (f := Prod.fst) hm)
      simp [lookup, hk, hn, eq_comm]
    · have hk' : k ≠ k' := fun e => hk e.symm
      simp [lookup, hk, hk', ih h.2]

theorem get?_eq_some_iff (d : OrdDict κ ν) (k : κ) (v : ν) :
    d.get? k = some v ↔ (k, v) ∈ d.entries :=
  lookup_eq_some_iff k v d.entries d.nodup

theorem lookup_assign (k k' : κ) (v : ν) (l : List (κ × ν)) :
    lookup k' (assign k v l) = if k = k' then some v else lookup k' l := by
  induction l with
  | nil => simp [assign, lookup]
  | cons e l ih =>
    obtain ⟨a, b⟩ := e
    by_cases h : a = k
    · subst h
      by_cases h2 : a = k' <;> simp [assign, lookup, h2]
    · by_cases h2 : a = k'
      · subst h2
        have h3 : k ≠ a := fun e => h e.symm
        simp [assign, lookup, h, h3]
      · simp [assign, lookup, h, h2, ih]

theorem get?_set (d : OrdDict κ ν) (k k' : κ) (v : ν) :
    (d.set k v).get? k' = if k = k' then some v else d.get? k' :=
  lookup_assign k k' v d.entries

theorem lookup_remove (k k' : κ) (l : List (κ × ν)) (h : (l.map Prod.fst).Nodup) :
    lookup k' (remove k l) = if k = k' then none else lookup k' l := by
  induction l with
  | nil => simp [remove, lookup]
  | cons e l ih =>
    obtain ⟨a, b⟩ := e
    simp only [List.map_cons, List.nodup_cons] at h
    by_cases h1 : a = k
    · subst h1
      by_cases h2 : a = k'
      · subst h2
        simpa [remove, lookup_eq_none_iff] using h.1
      · simp [remove, lookup, h2]
    · by_cases h2 : a = k'
      · subst h2
        have h3 : k ≠ a := fun e => h1 e.symm
        simp [remove, lookup, h1, h3]
      · simp [remove, lookup, h1, h2, ih h.2]

theorem get?_erase (d : OrdDict κ ν) (k k' : κ) :
    (d.erase k).get? k' = if k = k' then none else d.get? k' :=
  lookup_remove k k' d.entries d.nodup

theorem assign_new (k : κ) (v : ν) (l : List (κ × ν)) (h : k ∉ l.map Prod.fst) :
    assign k v l = l ++ [(k, v)] := by
  induction l with
  | nil => rfl
  | cons e l ih =>
    obtain ⟨a, b⟩ := e
    simp only [List.map_cons, List.mem_cons, not_or] at h
    have h1 : a ≠ k := fun e => h.1 e.symm
    simp [assign, h1, ih h.2]

theorem set_new_entries (d : OrdDict κ ν) (k : κ) (v : ν) (h : d.get? k = none) :
    (d.set k v).entries = d.entries ++ [(k, v)] :=
  assign_new k v d.entries ((get?_eq_none_iff d k).mp h)

theorem set_new_values (d : OrdDict κ ν) (k : κ) (v : ν) (h : d.get? k = none) :
    (d.set k v).values = d.values ++ [v] := by
  rw [values, set_new_entries d k v h, List.map_append]
  rfl

theorem mem_set_new (d : OrdDict κ ν) (k : κ) (v : ν) (h : d.get? k = none) (e : κ × ν) :
    e ∈ (d.set k v).entries ↔ e ∈ d.entries ∨ e = (k, v) := by
  rw [set_new_entries d k v h, List.mem_append, List.mem_singleton]

theorem mem_erase (d : OrdDict κ ν) (k : κ) (e : κ × ν) :
    e ∈ (d.erase k).entries ↔ e.1 ≠ k ∧ e ∈ d.entries := by
  rw [← get?_eq_some_iff (d.erase k) e.1 e.2, get?_erase]
  by_cases hk : k = e.1
  · simp [hk]
  · rw [if_neg hk, get?_eq_some_iff]
    exact ⟨fun h => ⟨fun he => hk he.symm, h⟩, fun h => h.2⟩

theorem foldl_set_entries (l : List (κ × ν)) (d : OrdDict κ ν)
    (h : ((d.entries ++ l).map Prod.fst).Nodup) :
    (l.foldl (fun d e => d.set e.1 e.2) d).entries = d.entries ++ l := by
  induction l generalizing d with
  | nil => simp
  | cons e l ih =>
    have hk : e.1 ∉ d.entries.map Prod.fst := by
      intro hm
      rw [List.map_append, List.nodup_append] at h
      exact h.2.2 _ hm _ (List.mem_cons_self ..) rfl
    have he : (d.set e.1 e.2).entries = d.entries ++ [e] := assign_new e.1 e.2 d.entries hk
    rw [List.foldl_cons, ih]
    · rw [he, List.append_assoc, List.singleton_append]
    · rw [he, List.append_assoc, List.singleton_append]
      exact h

theorem length_set_le (d : OrdDict κ ν) (k : κ) (v : ν) :
    (d.set k v).entries.length ≤ d.entries.length + 1 := by
  have hkeys := congrArg List.length (keys_assign k v d.entries)
  rw [List.length_map] at hkeys
  show (assign k v d.entries).length ≤ _
  split at hkeys
  · rw [hkeys, List.length_map]
    omega
  · rw [hkeys, List.length_append, List.length_map, List.length_singleton]

theorem length_remove (k : κ) (l : List (κ × ν)) (h : k ∈ l.map Prod.fst) :
    (remove k l).length + 1 = l.length := by
  induction l with
  | nil => cases h
  | cons e l ih =>
    obtain ⟨a, b⟩ := e
    by_cases ha : a = k
    · simp [remove, ha]
    · have hin : k ∈ l.map Prod.fst := (List.mem_cons.mp h).resolve_left fun he => ha he.symm
      simp [remove, ha, ih hin]

theorem length_erase {d : OrdDict κ ν} {k : κ} {v : ν} (h : d.get? k = some v) :
    (d.erase k).entries.length + 1 = d.entries.length :=
  length_remove k d.entries (List.mem_map_of_mem ((get?_eq_some_iff d k v).mp h))

theorem keys_remove (k : κ) (l : List (κ × ν)) :
    (remove k l).map Prod.fst = (l.map Prod.fst).erase k := by
  induction l with
  | nil => rfl
  | cons e l ih =>
    obtain ⟨a, b⟩ := e
    by_cases ha : a = k
    · simp [remove, ha]
    · simp [remove, ha, ih]

/-- The last key stays last when another one goes. -/
theorem getLast?_erase {d : OrdDict κ ν} {k k' : κ} (h : d.keys.getLast? = some k') (hne : k ≠ k') :
    (d.erase k).keys.getLast? = some k' := by
  obtain ⟨front, hsplit⟩ := List.getLast?_eq_some_iff.mp h
  have hkeys : (d.erase k).keys = d.keys.erase k := keys_remove k d.entries
  rw [hkeys, hsplit, List.erase_append]
  split
  · exact List.getLast?_concat
  · rw [List.erase_of_not_mem (by simpa using hne)]
    exact List.getLast?_concat

/-- Rebuilding a dictionary from a list without repeated keys keeps the list. -/
theorem ofList_entries (l : List (κ × ν)) (h : (l.map Prod.fst).Nodup) :
    (ofList l).entries = l := by
  rw [ofList, foldl_set_entries l empty (by simpa [empty] using h)]
  rfl

theorem get?_foldl_set (l : List (κ × ν)) (d : OrdDict κ ν) (k : κ)
    (hl : (l.map Prod.fst).Nodup) :
    (l.foldl (fun d e => d.set e.1 e.2) d).get? k = (lookup k l).or (d.get? k) := by
  induction l generalizing d with
  | nil => rfl
  | cons e l ih =>
    obtain ⟨k', v⟩ := e
    rw [List.map_cons, List.nodup_cons] at hl
    rw [List.foldl_cons, ih _ hl.2, get?_set]
    by_cases hk : k' = k
    · subst hk
      rw [(lookup_eq_none_iff k' l).mpr hl.1]
      simp [lookup]
    · simp [lookup, hk]

theorem get?_update (d e : OrdDict κ ν) (k : κ) :
    (d.update e).get? k = (e.get? k).or (d.get? k) := get?_foldl_set e.entries d k e.nodup

theorem get?_foldl_set_eq_none_iff (l : List (κ × ν)) (d : OrdDict κ ν) (k : κ) :
    (l.foldl (fun d e => d.set e.1 e.2) d).get? k = none ↔
      d.get? k = none ∧ k ∉ l.map Prod.fst := by
  induction l generalizing d with
  | nil => simp
  | cons e l ih =>
    rw [List.foldl_cons, ih, get?_set, List.map_cons, List.mem_cons, not_or]
    by_cases hk : e.1 = k
    · simp [hk]
    · have hk' : k ≠ e.1 := fun h => hk h.symm
      simp [hk, hk']

theorem get?_ofList_eq_none_iff (l : List (κ × ν)) (k : κ) :
    (ofList l).get? k = none ↔ k ∉ l.map Prod.fst := by
  rw [ofList, get?_foldl_set_eq_none_iff]
  simp

theorem mem_of_get?_foldl_set {l : List (κ × ν)} {d : OrdDict κ ν} {k : κ} {v : ν}
    (h : (l.foldl (fun d e => d.set e.1 e.2) d).get? k = some v) :
    (k, v) ∈ l ∨ d.get? k = some v := by
  induction l generalizing d with
  | nil => exact Or.inr h
  | cons e l ih =>
    rw [List.foldl_cons] at h
    rcases ih h with hm | hd
    · exact Or.inl (List.mem_cons_of_mem _ hm)
    · rw [get?_set] at hd
      split at hd
      · rename_i hk
        rw [Option.some.injEq] at hd
        subst hk hd
        exact Or.inl (List.mem_cons_self ..)
      · exact Or.inr hd

theorem mem_of_get?_ofList {l : List (κ × ν)} {k : κ} {v : ν}
    (h : (ofList l).get? k = some v) : (k, v) ∈ l := by
  rcases mem_of_get?_foldl_set h with hm | hn
  · exact hm
  · cases hn

end OrdDict
end TinyDB.Lib
