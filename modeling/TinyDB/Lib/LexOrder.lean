import Mathlib

/-!
# Codes in lexicographic order

Two lists branch when they differ at a place that both have; how they go on then does not matter
to their lexicographic order. A code whose words branch the way the coded elements are ordered
keeps the order of whole lists: `strictMono_flatMap`.
-/

namespace TinyDB.Lib

/-- The left list is smaller at the first place where the lists differ. -/
def Branches {β : Type*} [LT β] : List β → List β → Prop
  | x :: a, y :: b => x < y ∨ x = y ∧ Branches a b
  | _, _ => False

variable {α β : Type*} [LinearOrder α] [LinearOrder β]

theorem Branches.of_lt {x y : β} {a b : List β} (h : x < y) : Branches (x :: a) (y :: b) := Or.inl h

theorem Branches.cons {x y : β} {a b : List β} (hxy : x = y) (h : Branches a b) :
    Branches (x :: a) (y :: b) := Or.inr ⟨hxy, h⟩

/-- Lists that branch stay in order whatever is put behind them. -/
theorem Branches.append_lt {a b : List β} (h : Branches a b) (c d : List β) : a ++ c < b ++ d := by
  induction a generalizing b with
  | nil => cases b <;> exact h.elim
  | cons x a ih =>
    cases b with
    | nil => exact h.elim
    | cons y b =>
      rw [List.cons_append, List.cons_append, List.cons_lt_cons_iff]
      exact h.imp_right fun ⟨hxy, hab⟩ => ⟨hxy, ih hab⟩

/-- **Order of a code.** -/
theorem strictMono_flatMap {code : α → List β} (hne : ∀ a, code a ≠ [])
    (hcode : ∀ a b, a < b → Branches (code a) (code b)) :
    StrictMono fun l : List α => l.flatMap code := by
  intro l m h
  show l.flatMap code < m.flatMap code
  induction l generalizing m with
  | nil =>
    cases m with
    | nil => exact absurd h (lt_irrefl _)
    | cons b m =>
      rw [List.flatMap_cons, List.flatMap_nil]
      obtain ⟨y, rest, hrest⟩ := List.exists_cons_of_ne_nil (hne b)
      rw [hrest]
      exact List.nil_lt_cons _ _
  | cons a l ih =>
    cases m with
    | nil => exact absurd h (List.not_lt_nil _)
    | cons b m =>
      rw [List.flatMap_cons, List.flatMap_cons]
      rcases List.cons_lt_cons_iff.mp h with hab | ⟨rfl, hlm⟩
      · exact (hcode a b hab).append_lt _ _
      · exact List.append_left_lt (ih hlm)

end TinyDB.Lib
