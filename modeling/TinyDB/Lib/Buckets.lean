import Mathlib.Tactic

/-!
# Buckets

A hash table as the list of its buckets, each under the key that came first. Keys are
the same when `eq` says so, a partial equivalence: a key need not equal itself.
`find_add` is the one rule that users of the table need.
-/

namespace TinyDB.Lib

structure PartialEquiv {κ : Type} (eq : κ → κ → Bool) : Prop where
  symm : ∀ a b, eq a b = true → eq b a = true
  trans : ∀ a b c, eq a b = true → eq b c = true → eq a c = true

namespace Buckets

variable {κ α : Type} (eq : κ → κ → Bool)

/-- `table.setdefault(key, []).append(x)`. -/
def add (key : κ) (x : α) : List (κ × List α) → List (κ × List α)
  | [] => [(key, [x])]
  | (k, xs) :: table => if eq k key then (k, xs ++ [x]) :: table else (k, xs) :: add key x table

/-- The bucket of a key, empty when there is none. -/
def find (key : κ) : List (κ × List α) → List α
  | [] => []
  | (k, xs) :: table => if eq k key then xs else find key table

variable {eq}

theorem find_add (h : PartialEquiv eq) (key k : κ) (x : α) (table : List (κ × List α)) :
    find eq k (add eq key x table) =
      if eq key k then find eq k table ++ [x] else find eq k table := by
  induction table with
  | nil => rfl
  | cons bucket table ih =>
    obtain ⟨first, xs⟩ := bucket
    rw [add]
    by_cases hfirst : eq first key = true
    · rw [if_pos hfirst, find, find]
      by_cases hk : eq key k = true
      · rw [if_pos hk, if_pos (h.trans _ _ _ hfirst hk), if_pos (h.trans _ _ _ hfirst hk)]
      · have hne : ¬ eq first k = true := fun he => hk (h.trans _ _ _ (h.symm _ _ hfirst) he)
        rw [if_neg hk, if_neg hne, if_neg hne]
    · rw [if_neg hfirst, find, find, ih]
      by_cases hfk : eq first k = true
      · have hne : ¬ eq key k = true := fun he =>
          hfirst (h.trans _ _ _ hfk (h.symm _ _ he))
        rw [if_pos hfk, if_pos hfk, if_neg hne]
      · rw [if_neg hfk, if_neg hfk]

/-! ## The table of a list -/

theorem add_cases (eq : κ → κ → Bool) (key : κ) (x : α) (table : List (κ × List α)) :
    (∃ front bucket back, table = front ++ bucket :: back ∧ eq bucket.1 key = true ∧
      add eq key x table = front ++ (bucket.1, bucket.2 ++ [x]) :: back) ∨
      (∀ bucket ∈ table, eq bucket.1 key = false) ∧ add eq key x table = table ++ [(key, [x])] := by
  induction table with
  | nil => exact Or.inr ⟨fun _ h => absurd h List.not_mem_nil, rfl⟩
  | cons bucket table ih =>
    by_cases hb : eq bucket.1 key = true
    · exact Or.inl ⟨[], bucket, table, rfl, hb, if_pos hb⟩
    · have hadd : add eq key x (bucket :: table) = bucket :: add eq key x table := if_neg hb
      rcases ih with ⟨front, c, back, rfl, hc, hrest⟩ | ⟨hno, hrest⟩
      · exact Or.inl ⟨bucket :: front, c, back, rfl, hc, by rw [hadd, hrest]; rfl⟩
      · refine Or.inr ⟨fun c hc => ?_, by rw [hadd, hrest]; rfl⟩
        rcases List.mem_cons.mp hc with rfl | hc
        · exact Bool.eq_false_iff.mpr hb
        · exact hno c hc

/-- Each bucket holds the elements of the list with its key, as they stand in the list,
under the key of the first; and no element is missing. -/
structure Of (eq : κ → κ → Bool) (key : α → κ) (l : List α) (table : List (κ × List α)) :
    Prop where
  bucket : ∀ b ∈ table, b.2 = l.filter fun x => eq b.1 (key x)
  named : ∀ b ∈ table, ∃ x xs, b.2 = x :: xs ∧ b.1 = key x
  apart : table.Pairwise fun b c => eq b.1 c.1 = false
  covers : ∀ x ∈ l, ∃ b ∈ table, eq b.1 (key x) = true

variable {key : α → κ} {l : List α} {table : List (κ × List α)}

theorem Of.eq_false (h : PartialEquiv eq) (ht : Of eq key l table) {b c : κ × List α}
    (hb : b ∈ table) (hc : c ∈ table) (hne : b ≠ c) : eq b.1 c.1 = false := by
  have hflip : ∀ u v, eq u v = false → eq v u = false := fun u v huv => by
    by_contra hvu
    rw [Bool.not_eq_false] at hvu
    rw [h.symm _ _ hvu] at huv
    cases huv
  have hsymm : Std.Symm fun b c : κ × List α => eq b.1 c.1 = false := ⟨fun b c => hflip b.1 c.1⟩
  exact ht.apart.forall hb hc hne

theorem Of.add (h : PartialEquiv eq) (ht : Of eq key l table) {x : α}
    (hx : eq (key x) (key x) = true) : Of eq key (l ++ [x]) (add eq (key x) x table) := by
  have hsnoc : ∀ k, (l ++ [x]).filter (fun y => eq k (key y)) =
      l.filter (fun y => eq k (key y)) ++ if eq k (key x) then [x] else [] := fun k => by
    rw [List.filter_append, List.filter_singleton]
    cases eq k (key x) <;> rfl
  rcases add_cases eq (key x) x table with ⟨front, b, back, rfl, hb, hadd⟩ | ⟨hno, hadd⟩
  · have hin : b ∈ front ++ b :: back := by simp
    -- no other bucket takes the element
    have hother : ∀ c ∈ front ++ back, c ∈ front ++ b :: back ∧ eq c.1 (key x) = false := by
      intro c hc
      have hsplit := List.pairwise_append.mp ht.apart
      refine ⟨by rcases List.mem_append.mp hc with hc | hc <;> simp [hc], ?_⟩
      by_contra hcx
      rw [Bool.not_eq_false] at hcx
      rcases List.mem_append.mp hc with hc | hc
      · have hcb := hsplit.2.2 c hc b (List.mem_cons_self ..)
        rw [h.trans _ _ _ hcx (h.symm _ _ hb)] at hcb
        cases hcb
      · have hbc := (List.pairwise_cons.mp hsplit.2.1).1 c hc
        rw [h.trans _ _ _ hb (h.symm _ _ hcx)] at hbc
        cases hbc
    have hmem : ∀ c, c ∈ front ++ (b.1, b.2 ++ [x]) :: back ↔
        c = (b.1, b.2 ++ [x]) ∨ c ∈ front ++ back := fun c => by
      simp only [List.mem_append, List.mem_cons]
      tauto
    rw [hadd]
    constructor
    · intro c hc
      rcases (hmem c).mp hc with rfl | hc
      · rw [hsnoc, if_pos hb, ← ht.bucket b hin]
      · rw [hsnoc, (hother c hc).2, ht.bucket c (hother c hc).1]
        simp
    · intro c hc
      rcases (hmem c).mp hc with rfl | hc
      · obtain ⟨y, ys, hys, hk⟩ := ht.named b hin
        exact ⟨y, ys ++ [x], by rw [hys]; rfl, hk⟩
      · exact ht.named c (hother c hc).1
    · have happ := ht.apart
      rw [List.pairwise_append, List.pairwise_cons] at happ ⊢
      refine ⟨happ.1, ⟨happ.2.1.1, happ.2.1.2⟩, fun c hc d hd => ?_⟩
      rcases List.mem_cons.mp hd with rfl | hd
      · exact happ.2.2 c hc b (List.mem_cons_self ..)
      · exact happ.2.2 c hc d (List.mem_cons_of_mem _ hd)
    · intro y hy
      rcases List.mem_append.mp hy with hy | hy
      · obtain ⟨c, hc, hcy⟩ := ht.covers y hy
        by_cases hcb : c = b
        · exact ⟨_, (hmem _).mpr (Or.inl rfl), hcb ▸ hcy⟩
        · refine ⟨c, (hmem c).mpr (Or.inr ?_), hcy⟩
          simp only [List.mem_append, List.mem_cons] at hc ⊢
          tauto
      · rw [List.mem_singleton.mp hy]
        exact ⟨_, (hmem _).mpr (Or.inl rfl), hb⟩
  · rw [hadd]
    -- nothing in the list has the new key
    have hnone : l.filter (fun y => eq (key x) (key y)) = [] := by
      rw [List.filter_eq_nil_iff]
      intro y hy hxy
      obtain ⟨b, hb, hby⟩ := ht.covers y hy
      have hbx := hno b hb
      rw [h.trans _ _ _ hby (h.symm _ _ hxy)] at hbx
      cases hbx
    constructor
    · intro c hc
      rcases List.mem_append.mp hc with hc | hc
      · rw [hsnoc, hno c hc, ht.bucket c hc]
        simp
      · rw [List.mem_singleton.mp hc, hsnoc, hnone, if_pos hx]
        rfl
    · intro c hc
      rcases List.mem_append.mp hc with hc | hc
      · exact ht.named c hc
      · rw [List.mem_singleton.mp hc]
        exact ⟨x, [], rfl, rfl⟩
    · rw [List.pairwise_append]
      refine ⟨ht.apart, List.pairwise_singleton _ _, fun c hc d hd => ?_⟩
      rw [List.mem_singleton.mp hd]
      exact hno c hc
    · intro y hy
      rcases List.mem_append.mp hy with hy | hy
      · obtain ⟨c, hc, hcy⟩ := ht.covers y hy
        exact ⟨c, List.mem_append_left _ hc, hcy⟩
      · rw [List.mem_singleton.mp hy]
        exact ⟨_, List.mem_append_right _ (List.mem_cons_self ..), hx⟩

/-- **The buckets of a list** whose keys equal themselves. -/
theorem of_foldl (h : PartialEquiv eq) (hl : ∀ x ∈ l, eq (key x) (key x) = true) :
    Of eq key l (l.foldl (fun table x => add eq (key x) x table) []) := by
  induction l using List.reverseRecOn with
  | nil =>
    exact ⟨fun _ hb => absurd hb List.not_mem_nil, fun _ hb => absurd hb List.not_mem_nil,
      List.Pairwise.nil, fun _ hx => absurd hx List.not_mem_nil⟩
  | append_singleton l x ih =>
    rw [List.foldl_append]
    exact (ih fun y hy => hl y (List.mem_append_left _ hy)).add h
      (hl x (List.mem_append_right _ (List.mem_cons_self ..)))

/-! ## Whatever the keys are -/

theorem flatten_add (eq : κ → κ → Bool) (k : κ) (x : α) (table : List (κ × List α)) :
    ((add eq k x table).flatMap Prod.snd).Perm (x :: table.flatMap Prod.snd) := by
  rcases add_cases eq k x table with ⟨front, b, back, rfl, -, hadd⟩ | ⟨-, hadd⟩
  · rw [hadd]
    simp only [List.flatMap_append, List.flatMap_cons, List.append_assoc, List.singleton_append]
    exact (List.perm_middle.append_left _).trans List.perm_middle
  · rw [hadd, List.flatMap_append]
    exact List.perm_append_singleton x _

/-- The buckets hold the elements of the list. -/
theorem flatten_foldl (eq : κ → κ → Bool) (key : α → κ) (l : List α) :
    ((l.foldl (fun table x => add eq (key x) x table) []).flatMap Prod.snd).Perm l := by
  induction l using List.reverseRecOn with
  | nil => exact List.Perm.refl _
  | append_singleton l x ih =>
    rw [List.foldl_concat]
    exact (flatten_add eq (key x) x _).trans ((ih.cons x).trans (List.perm_append_singleton x l).symm)

theorem sum_length_foldl (key : α → κ) (l : List α) :
    ((l.foldl (fun table x => add eq (key x) x table) []).map fun b => b.2.length).sum =
      l.length := by
  have hlen := (flatten_foldl eq key l).length_eq
  rwa [List.length_flatMap] at hlen

/-- The first element of a bucket gives its key, and the others have the same. -/
theorem named_foldl (eq : κ → κ → Bool) (key : α → κ) (l : List α) :
    ∀ b ∈ l.foldl (fun table x => add eq (key x) x table) [],
      ∃ x xs, b.2 = x :: xs ∧ b.1 = key x ∧ ∀ y ∈ xs, eq b.1 (key y) = true := by
  induction l using List.reverseRecOn with
  | nil => exact fun _ hb => absurd hb List.not_mem_nil
  | append_singleton l x ih =>
    rw [List.foldl_concat]
    intro b hb
    rcases add_cases eq (key x) x (l.foldl (fun table x => add eq (key x) x table) []) with
      ⟨front, c, back, htable, hc, hadd⟩ | ⟨-, hadd⟩
    · rw [htable] at ih
      rw [hadd] at hb
      have hother : b ∈ front ++ back → b ∈ front ++ c :: back := fun h =>
        (List.sublist_cons_self c back).append_left front |>.subset h
      rcases List.mem_append.mp hb with hb | hb
      · exact ih b (hother (List.mem_append_left _ hb))
      · rcases List.mem_cons.mp hb with rfl | hb
        · obtain ⟨y, ys, hys, hkey, hsame⟩ := ih c (List.mem_append_right _ (List.mem_cons_self ..))
          refine ⟨y, ys ++ [x], by rw [hys, List.cons_append], hkey, fun z hz => ?_⟩
          rcases List.mem_append.mp hz with hz | hz
          · exact hsame z hz
          · rw [List.mem_singleton.mp hz]
            exact hc
        · exact ih b (hother (List.mem_append_right _ hb))
    · rw [hadd] at hb
      rcases List.mem_append.mp hb with hb | hb
      · exact ih b hb
      · rw [List.mem_singleton.mp hb]
        exact ⟨x, [], rfl, rfl, fun _ hy => absurd hy List.not_mem_nil⟩

/-- A map of the elements that keeps the keys. -/
theorem foldl_map (eq : κ → κ → Bool) {key : α → κ} {f : α → α} {l : List α}
    (h : ∀ x ∈ l, key (f x) = key x) :
    (l.map f).foldl (fun table x => add eq (key x) x table) [] =
      (l.foldl (fun table x => add eq (key x) x table) []).map fun b => (b.1, b.2.map f) := by
  have hadd : ∀ (k : κ) (x : α) (table : List (κ × List α)),
      add eq k (f x) (table.map fun b => (b.1, b.2.map f)) =
        (add eq k x table).map fun b => (b.1, b.2.map f) := by
    intro k x table
    induction table with
    | nil => rfl
    | cons b table ih =>
      simp only [List.map_cons, add, ih]
      by_cases hk : eq b.1 k = true
      · simp only [hk, if_true, List.map_cons, List.map_append, List.map_nil]
      · simp only [hk, Bool.false_eq_true, if_false, List.map_cons]
  induction l using List.reverseRecOn with
  | nil => rfl
  | append_singleton l x ih =>
    rw [List.map_append, List.map_singleton, List.foldl_concat, List.foldl_concat,
      ih fun y hy => h y (List.mem_append_left _ hy),
      h x (List.mem_append_right _ (List.mem_cons_self ..)), hadd]

end Buckets
end TinyDB.Lib
