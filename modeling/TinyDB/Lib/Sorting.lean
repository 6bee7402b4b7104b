import Mathlib.Tactic

/-!
# Sorting with a fallible order

A stable insertion sort over a comparison that can raise. Any comparison sort
has to compare the neighbours of its result, so it raises exactly when some two
elements cannot be compared.
-/

namespace TinyDB.Lib

variable {ε α : Type}

/-- Put `x` behind the elements that are not greater. -/
def insertStable (lt : α → α → Bool) (x : α) : List α → List α
  | [] => [x]
  | y :: l => if lt x y then x :: y :: l else y :: insertStable lt x l

def sortStable (lt : α → α → Bool) (l : List α) : List α :=
  l.foldl (fun sorted x => insertStable lt x sorted) []

def checkAgainst (lt : α → α → Except ε Bool) (x : α) : List α → Except ε Unit
  | [] => .ok ()
  | y :: l => do
    let _ ← lt y x
    checkAgainst lt x l

/-- Every two elements can be compared. -/
def checkComparable (lt : α → α → Except ε Bool) : List α → Except ε Unit
  | [] => .ok ()
  | x :: l => do
    checkAgainst lt x l
    checkComparable lt l

def holds : Except ε Bool → Bool
  | .ok b => b
  | .error _ => false

/-- `sorted`; with `reverse` equal elements keep their order as well. -/
def sorted (lt : α → α → Except ε Bool) (reverse : Bool) (l : List α) : Except ε (List α) := do
  checkComparable lt l
  .ok (sortStable (fun a b => holds (if reverse then lt b a else lt a b)) l)

theorem insertStable_perm (lt : α → α → Bool) (x : α) (l : List α) :
    (insertStable lt x l).Perm (x :: l) := by
  induction l with
  | nil => exact List.Perm.refl _
  | cons y l ih =>
    unfold insertStable
    split
    · exact List.Perm.refl _
    · exact (List.Perm.cons y ih).trans (List.Perm.swap x y l)

theorem sortStable_perm (lt : α → α → Bool) (l : List α) : (sortStable lt l).Perm l := by
  have h : ∀ acc, (l.foldl (fun sorted x => insertStable lt x sorted) acc).Perm (acc ++ l) := by
    induction l with
    | nil => intro acc; simp
    | cons x l ih =>
      intro acc
      refine (ih _).trans ?_
      refine ((insertStable_perm lt x acc).append_right l).trans ?_
      exact List.perm_middle.symm
  exact h []

theorem sorted_perm {lt : α → α → Except ε Bool} {reverse : Bool} {l l' : List α}
    (h : sorted lt reverse l = .ok l') : l'.Perm l := by
  unfold sorted at h
  cases hc : checkComparable lt l with
  | error e => rw [hc] at h; cases h
  | ok u =>
    rw [hc] at h
    cases h
    exact sortStable_perm _ l

/-! ## What sorting does to a weak order -/

/-- Of two elements one stands before the other. -/
theorem pairwise_or_flip {R : α → α → Prop} {l : List α} (h : l.Pairwise R) {a b : α}
    (ha : a ∈ l) (hb : b ∈ l) (hne : a ≠ b) : R a b ∨ R b a := by
  have hsymm : Std.Symm fun x y => R x y ∨ R y x := ⟨fun _ _ => Or.symm⟩
  have heither : l.Pairwise fun x y => R x y ∨ R y x := h.imp fun hxy => Or.inl hxy
  exact heither.forall ha hb hne

/-- On the elements of the list, what is strictly before one end of a step is before every
element or every element is before the other end. -/
structure WeakOrderOn (lt : α → α → Bool) (l : List α) : Prop where
  asymm : ∀ a ∈ l, ∀ b ∈ l, lt a b = true → lt b a = false
  split : ∀ a ∈ l, ∀ b ∈ l, ∀ c ∈ l, lt a c = true → lt a b = true ∨ lt b c = true

theorem WeakOrderOn.mono {lt : α → α → Bool} {l l' : List α} (h : WeakOrderOn lt l)
    (hs : ∀ a ∈ l', a ∈ l) : WeakOrderOn lt l' where
  asymm := fun a ha b hb => h.asymm a (hs a ha) b (hs b hb)
  split := fun a ha b hb c hc => h.split a (hs a ha) b (hs b hb) c (hs c hc)

/-- The first is before the second, or they tie and stood in the order `R`. -/
def StableBefore (lt : α → α → Bool) (R : α → α → Prop) (a b : α) : Prop :=
  lt a b = true ∨ lt b a = false ∧ R a b

theorem insertStable_pairwise {lt : α → α → Bool} {R : α → α → Prop} {x : α} {l : List α}
    (hw : WeakOrderOn lt (x :: l)) (hR : ∀ y ∈ l, R y x) (h : l.Pairwise (StableBefore lt R)) :
    (insertStable lt x l).Pairwise (StableBefore lt R) := by
  induction l with
  | nil => exact List.pairwise_singleton _ _
  | cons y l ih =>
    have hx : x ∈ x :: y :: l := List.mem_cons_self ..
    have hy : y ∈ x :: y :: l := List.mem_cons_of_mem _ (List.mem_cons_self ..)
    have hl : ∀ z ∈ l, z ∈ x :: y :: l := fun z hz =>
      List.mem_cons_of_mem _ (List.mem_cons_of_mem _ hz)
    have hyl := List.pairwise_cons.mp h
    rw [insertStable]
    split
    · rename_i hlt
      refine List.pairwise_cons.mpr ⟨fun z hz => Or.inl ?_, h⟩
      rcases List.mem_cons.mp hz with rfl | hz
      · exact hlt
      · -- `z` is not before `y`, so what is before `y` is before `z`
        have hzy : lt z y = false := by
          rcases hyl.1 z hz with hyz | ⟨hzy, -⟩
          · exact hw.asymm y hy z (hl z hz) hyz
          · exact hzy
        rcases hw.split x hx z (hl z hz) y hy hlt with hxz | hcon
        · exact hxz
        · rw [hzy] at hcon
          cases hcon
    · rename_i hlt
      have hrest : WeakOrderOn lt (x :: l) := hw.mono fun z hz => by
        rcases List.mem_cons.mp hz with rfl | hz
        · exact hx
        · exact hl z hz
      refine List.pairwise_cons.mpr ⟨fun z hz => ?_,
        ih hrest (fun z hz => hR z (List.mem_cons_of_mem _ hz)) hyl.2⟩
      rcases List.mem_cons.mp ((insertStable_perm lt x l).subset hz) with rfl | hz
      · exact Or.inr ⟨by simpa using hlt, hR y (List.mem_cons_self ..)⟩
      · exact hyl.1 z hz

/-- **The sort orders and is stable.** -/
theorem sortStable_pairwise {lt : α → α → Bool} {R : α → α → Prop} {l : List α}
    (hw : WeakOrderOn lt l) (hR : l.Pairwise R) :
    (sortStable lt l).Pairwise (StableBefore lt R) := by
  have hacc : ∀ acc : List α, WeakOrderOn lt (acc ++ l) → (∀ y ∈ acc, ∀ x ∈ l, R y x) →
      acc.Pairwise (StableBefore lt R) →
      (l.foldl (fun sorted x => insertStable lt x sorted) acc).Pairwise (StableBefore lt R) := by
    clear hw
    induction l with
    | nil => exact fun acc _ _ h => h
    | cons x l ih =>
      intro acc hw hcross h
      have hxl := List.pairwise_cons.mp hR
      have hins : ∀ z, z ∈ insertStable lt x acc ↔ z = x ∨ z ∈ acc := fun z => by
        rw [(insertStable_perm lt x acc).mem_iff, List.mem_cons]
      apply ih hxl.2
      · apply hw.mono
        intro z hz
        rcases List.mem_append.mp hz with hz | hz
        · rcases (hins z).mp hz with rfl | hz
          · simp
          · exact List.mem_append_left _ hz
        · exact List.mem_append_right _ (List.mem_cons_of_mem _ hz)
      · intro y hy z hz
        rcases (hins y).mp hy with rfl | hy
        · exact hxl.1 z hz
        · exact hcross y hy z (List.mem_cons_of_mem _ hz)
      · apply insertStable_pairwise _ _ h
        · apply hw.mono
          intro z hz
          rcases List.mem_cons.mp hz with rfl | hz
          · simp
          · exact List.mem_append_left _ hz
        · exact fun y hy => hcross y hy x (List.mem_cons_self ..)
  exact hacc [] hw (by simp) List.Pairwise.nil

/-- Nothing moves in a list that is in order. -/
theorem sortStable_eq_self {lt : α → α → Bool} {l : List α}
    (h : l.Pairwise fun a b => lt b a = false) : sortStable lt l = l := by
  have hinsert : ∀ {x : α} {acc : List α}, (∀ y ∈ acc, lt x y = false) →
      insertStable lt x acc = acc ++ [x] := by
    intro x acc hx
    induction acc with
    | nil => rfl
    | cons y acc ih =>
      rw [List.forall_mem_cons] at hx
      rw [insertStable, hx.1, if_neg Bool.false_ne_true, ih hx.2, List.cons_append]
  have hacc : ∀ acc, (acc ++ l).Pairwise (fun a b => lt b a = false) →
      l.foldl (fun sorted x => insertStable lt x sorted) acc = acc ++ l := by
    clear h
    induction l with
    | nil => exact fun acc _ => (List.append_nil acc).symm
    | cons x l ih =>
      intro acc h
      rw [List.foldl_cons, hinsert fun y hy =>
        (List.pairwise_append.mp h).2.2 y hy x (List.mem_cons_self ..)]
      rw [ih _ (by simpa using h)]
      simp
  exact hacc [] h

theorem insertStable_map {β : Type} (f : β → α) (lt : α → α → Bool) (x : β) (l : List β) :
    insertStable lt (f x) (l.map f) = (insertStable (fun a b => lt (f a) (f b)) x l).map f := by
  induction l with
  | nil => rfl
  | cons y l ih =>
    rw [List.map_cons, insertStable, insertStable]
    split
    · rfl
    · rw [ih, List.map_cons]

/-- The sort looks at its elements through the comparison only. -/
theorem sortStable_map {β : Type} (f : β → α) (lt : α → α → Bool) (l : List β) :
    sortStable lt (l.map f) = (sortStable (fun a b => lt (f a) (f b)) l).map f := by
  have hacc : ∀ acc : List β, (l.map f).foldl (fun sorted x => insertStable lt x sorted)
      (acc.map f) = (l.foldl (fun sorted x => insertStable (fun a b => lt (f a) (f b)) x sorted)
        acc).map f := by
    induction l with
    | nil => exact fun _ => rfl
    | cons x l ih =>
      intro acc
      rw [List.map_cons, List.foldl_cons, List.foldl_cons, insertStable_map]
      exact ih _
  exact hacc []

theorem zipIdx_pairwise (l : List α) : (l.zipIdx).Pairwise fun a b => a.2 < b.2 := by
  have h := List.pairwise_lt_range' (s := 0) (n := l.length)
  rw [← List.zipIdx_map_snd 0 l, List.pairwise_map] at h
  exact h

/-- Elements that tie stay in the order they had. -/
theorem filter_sortStable {lt : α → α → Bool} {l : List α} (hw : WeakOrderOn lt l) (p : α → Bool)
    (h : ∀ a ∈ l, ∀ b ∈ l, p a = true → p b = true → lt a b = false) :
    (sortStable lt l).filter p = l.filter p := by
  let lt' : α × Nat → α × Nat → Bool := fun a b => lt a.1 b.1
  have hmem : ∀ a ∈ l.zipIdx, a.1 ∈ l := fun a ha => List.fst_mem_of_mem_zipIdx ha
  have hw' : WeakOrderOn lt' l.zipIdx :=
    ⟨fun a ha b hb => hw.asymm a.1 (hmem a ha) b.1 (hmem b hb),
      fun a ha b hb c hc => hw.split a.1 (hmem a ha) b.1 (hmem b hb) c.1 (hmem c hc)⟩
  have hsort : sortStable lt l = (sortStable lt' l.zipIdx).map Prod.fst := by
    rw [← sortStable_map, List.zipIdx_map_fst]
  have hplaces : ((sortStable lt' l.zipIdx).filter fun a => p a.1) =
      l.zipIdx.filter fun a => p a.1 := by
    refine @List.Perm.eq_of_pairwise _ (fun a b : α × Nat => a.2 < b.2) _ _
      (fun a b _ _ hab hba => absurd hab (Nat.lt_asymm hba)) ?_ ?_
      ((sortStable_perm lt' l.zipIdx).filter _)
    · rw [List.pairwise_filter]
      apply (sortStable_pairwise hw' (zipIdx_pairwise l)).imp_of_mem
      rintro a b ha hb (hlt | ⟨-, hlt⟩) hpa hpb
      · have ha' := hmem a ((sortStable_perm _ _).subset ha)
        have hb' := hmem b ((sortStable_perm _ _).subset hb)
        exact absurd hlt (Bool.eq_false_iff.mp (h a.1 ha' b.1 hb' hpa hpb))
      · exact hlt
    · exact (zipIdx_pairwise l).filter _
  rw [hsort, List.filter_map]
  have hmap := congrArg (List.map Prod.fst) hplaces
  have hback : (l.zipIdx.filter fun a => p a.1).map Prod.fst = l.filter p := by
    conv_rhs => rw [← List.zipIdx_map_fst 0 l, List.filter_map]
    rfl
  exact hmap.trans hback

theorem checkAgainst_eq_ok {lt : α → α → Except ε Bool} {x : α} {l : List α} :
    checkAgainst lt x l = .ok () ↔ ∀ y ∈ l, ∃ b, lt y x = .ok b := by
  induction l with
  | nil => simp [checkAgainst]
  | cons y l ih =>
    rw [checkAgainst, List.forall_mem_cons, ← ih]
    cases lt y x with
    | error e =>
      refine iff_of_false (fun h => nomatch h) ?_
      rintro ⟨⟨b, h⟩, -⟩
      cases h
    | ok b => exact ⟨fun h => ⟨⟨b, rfl⟩, h⟩, fun h => h.2⟩

theorem checkComparable_eq_ok {lt : α → α → Except ε Bool} {l : List α} :
    checkComparable lt l = .ok () ↔ l.Pairwise fun x y => ∃ b, lt y x = .ok b := by
  induction l with
  | nil => simp [checkComparable]
  | cons x l ih =>
    rw [checkComparable, List.pairwise_cons, ← ih, ← checkAgainst_eq_ok]
    cases checkAgainst lt x l with
    | error e => exact iff_of_false (fun h => nomatch h) fun h => nomatch h.1
    | ok u => exact ⟨fun h => ⟨rfl, h⟩, fun h => h.2⟩

theorem sorted_eq_ok {lt : α → α → Except ε Bool} {reverse : Bool} {l l' : List α} :
    sorted lt reverse l = .ok l' ↔ (l.Pairwise fun x y => ∃ b, lt y x = .ok b) ∧
      l' = sortStable (fun a b => holds (if reverse then lt b a else lt a b)) l := by
  rw [← checkComparable_eq_ok, sorted]
  cases checkComparable lt l with
  | error e => exact iff_of_false (fun h => nomatch h) fun h => nomatch h.1
  | ok u =>
    constructor
    · intro h
      cases h
      exact ⟨rfl, rfl⟩
    · rintro ⟨-, rfl⟩
      rfl

theorem sorted_map {β : Type} (f : β → α) (lt : α → α → Except ε Bool) (reverse : Bool)
    (l : List β) : sorted lt reverse (l.map f) = (do
      let sorted ← sorted (fun a b => lt (f a) (f b)) reverse l
      .ok (sorted.map f)) := by
  have hagainst : ∀ (x : β) (l : List β), checkAgainst lt (f x) (l.map f) =
      checkAgainst (fun a b => lt (f a) (f b)) x l := by
    intro x l
    induction l with
    | nil => rfl
    | cons y l ih => rw [List.map_cons, checkAgainst, ih, checkAgainst]
  have hcheck : ∀ l : List β, checkComparable lt (l.map f) =
      checkComparable (fun a b => lt (f a) (f b)) l := by
    intro l
    induction l with
    | nil => rfl
    | cons x l ih => rw [List.map_cons, checkComparable, hagainst, ih, checkComparable]
  rw [sorted, sorted, hcheck, sortStable_map]
  cases checkComparable (fun a b => lt (f a) (f b)) l with
  | error e => rfl
  | ok u => rfl

example : sortStable (fun a b : Nat × Nat => decide (a.1 < b.1)) [(2, 0), (1, 0), (2, 1), (1, 1)]
    = [(1, 0), (1, 1), (2, 0), (2, 1)] := by decide

end TinyDB.Lib
