import Mathlib.Tactic

/-!
# Runs of fallible steps

The bind rules that take a chain of `Except` steps apart, and folds of a
fallible step over a list.
-/

namespace TinyDB.Lib

variable {ε α β : Type}

theorem bind_eq_ok (x : Except ε α) (f : α → Except ε β) (b : β) :
    (x >>= f) = .ok b ↔ ∃ a, x = .ok a ∧ f a = .ok b := by
  cases x <;> simp [bind, Except.bind]

@[simp] theorem ok_bind (a : α) (f : α → Except ε β) :
    (Except.ok a : Except ε α) >>= f = f a := rfl

@[simp] theorem error_bind (e : ε) (f : α → Except ε β) :
    (Except.error e : Except ε α) >>= f = .error e := rfl

/-! ## What a step raises -/

/-- Every exception of the step is one of `P`. -/
def RaisesOnly (P : ε → Prop) (x : Except ε α) : Prop := ∀ e, x = .error e → P e

namespace RaisesOnly

variable {P Q : ε → Prop} {x : Except ε α}

theorem ok (a : α) : RaisesOnly P (.ok a : Except ε α) := by
  intro e h
  cases h

theorem error {e : ε} (h : P e) : RaisesOnly P (.error e : Except ε α) := by
  intro e' he
  cases he
  exact h

theorem mono (h : RaisesOnly P x) (hPQ : ∀ e, P e → Q e) : RaisesOnly Q x :=
  fun e he => hPQ e (h e he)

theorem bind {f : α → Except ε β} (h : RaisesOnly P x)
    (hf : ∀ a, x = .ok a → RaisesOnly P (f a)) : RaisesOnly P (x >>= f) := by
  cases x with
  | error e => exact fun e' he => h e' (by cases he; rfl)
  | ok a => exact hf a rfl

theorem ite {c : Prop} [Decidable c] {y : Except ε α} (hx : c → RaisesOnly P x)
    (hy : ¬ c → RaisesOnly P y) : RaisesOnly P (if c then x else y) := by
  by_cases hc : c
  · rw [if_pos hc]
    exact hx hc
  · rw [if_neg hc]
    exact hy hc

end RaisesOnly

/-! ## Two runs side by side -/

/-- Two runs raise the same, or both go through with related results. -/
inductive Lockstep (R : α → β → Prop) : Except ε α → Except ε β → Prop where
  | ok {a : α} {b : β} : R a b → Lockstep R (.ok a) (.ok b)
  | error (e : ε) : Lockstep R (.error e) (.error e)

theorem Lockstep.bind {γ δ : Type} {R : α → β → Prop} {S : γ → δ → Prop} {x : Except ε α}
    {y : Except ε β} {f : α → Except ε γ} {g : β → Except ε δ} (h : Lockstep R x y)
    (hfg : ∀ a b, R a b → Lockstep S (f a) (g b)) : Lockstep S (x >>= f) (y >>= g) := by
  cases h with
  | ok hab => exact hfg _ _ hab
  | error e => exact Lockstep.error e

/-- A first step that is the same on both sides. -/
theorem Lockstep.bind_same {γ δ : Type} {S : γ → δ → Prop} (x : Except ε α)
    {f : α → Except ε γ} {g : α → Except ε δ}
    (hfg : ∀ a, x = .ok a → Lockstep S (f a) (g a)) : Lockstep S (x >>= f) (x >>= g) := by
  cases x with
  | ok a => exact hfg a rfl
  | error e => exact Lockstep.error e

/-- What holds of the one result and what both have in common. -/
theorem Lockstep.with {R S : α → β → Prop} {x : Except ε α} {y : Except ε β}
    (h : Lockstep R x y) (hS : ∀ a b, x = .ok a → y = .ok b → R a b → S a b) :
    Lockstep S x y := by
  cases h with
  | ok hab => exact Lockstep.ok (hS _ _ rfl rfl hab)
  | error e => exact Lockstep.error e

/-- Two fallible lists agree: both raise the same, or their elements are related one by one. -/
inductive Agree (R : α → β → Prop) : Except ε (List α) → Except ε (List β) → Prop where
  | ok {xs : List α} {ys : List β} : List.Forall₂ R xs ys → Agree R (.ok xs) (.ok ys)
  | error (e : ε) : Agree R (.error e) (.error e)

theorem Agree.mono {R S : α → β → Prop} {x : Except ε (List α)} {y : Except ε (List β)}
    (h : Agree R x y) (hRS : ∀ a b, R a b → S a b) : Agree S x y := by
  cases h with
  | ok hxy => exact Agree.ok (hxy.imp hRS)
  | error e => exact Agree.error e

theorem Agree.bind {γ δ : Type} {R : α → β → Prop} {S : γ → δ → Prop} {x : Except ε (List α)}
    {y : Except ε (List β)} {f : List α → Except ε (List γ)} {g : List β → Except ε (List δ)}
    (h : Agree R x y) (hfg : ∀ xs ys, List.Forall₂ R xs ys → Agree S (f xs) (g ys)) :
    Agree S (x >>= f) (y >>= g) := by
  cases h with
  | ok hxy => exact hfg _ _ hxy
  | error e => exact Agree.error e

end TinyDB.Lib
