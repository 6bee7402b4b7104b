import Mathlib.Tactic

/-!
# Runs of a step function

A run folds a total step function over a list of actions. `Along P` says that
`P` holds of every state and the action taken in it, `Reached Q` that `Q` holds
of every state reached, first and last included. `reached_of_along` is the
invariant rule; `reached_iff_along` is the rule for a condition that is exact:
steps that meet it keep the invariant, a legal step that breaks it leaves the
property at once.
-/

namespace TinyDB.Lib

variable {σ α : Type} (step : σ → α → σ)

def run (s : σ) (l : List α) : σ := l.foldl step s

def Along (P : σ → α → Prop) : σ → List α → Prop
  | _, [] => True
  | s, a :: l => P s a ∧ Along P (step s a) l

def Reached (Q : σ → Prop) : σ → List α → Prop
  | s, [] => Q s
  | s, a :: l => Q s ∧ Reached Q (step s a) l

instance Along.instDecidable (P : σ → α → Prop) [∀ s a, Decidable (P s a)] :
    ∀ s l, Decidable (Along step P s l)
  | _, [] => isTrue trivial
  | s, a :: l => @instDecidableAnd _ _ _ (Along.instDecidable P (step s a) l)

variable {step}

theorem Reached.start {Q : σ → Prop} {s : σ} {l : List α} (h : Reached step Q s l) : Q s := by
  cases l with
  | nil => exact h
  | cons a l => exact h.1

theorem Reached.last {Q : σ → Prop} {s : σ} {l : List α} (h : Reached step Q s l) :
    Q (run step s l) := by
  induction l generalizing s with
  | nil => exact h
  | cons a l ih => exact ih h.2

theorem Reached.mono {Q R : σ → Prop} (hQ : ∀ s, Q s → R s) {s : σ} {l : List α}
    (h : Reached step Q s l) : Reached step R s l := by
  induction l generalizing s with
  | nil => exact hQ s h
  | cons a l ih => exact ⟨hQ s h.1, ih h.2⟩

/-- **Invariant rule.** -/
theorem reached_of_along {P : σ → α → Prop} (Inv : σ → Prop)
    (hstep : ∀ s a, Inv s → P s a → Inv (step s a)) {s : σ} {l : List α} (hs : Inv s)
    (h : Along step P s l) : Reached step Inv s l := by
  induction l generalizing s with
  | nil => exact hs
  | cons a l ih => exact ⟨hs, ih (hstep s a hs h.1) h.2⟩

/-- The invariant also gives what holds of each single step. -/
theorem along_of_along {P Q : σ → α → Prop} (Inv : σ → Prop)
    (hstep : ∀ s a, Inv s → P s a → Inv (step s a) ∧ Q s a) {s : σ} {l : List α} (hs : Inv s)
    (h : Along step P s l) : Along step Q s l := by
  induction l generalizing s with
  | nil => exact True.intro
  | cons a l ih => exact ⟨(hstep s a hs h.1).2, ih (hstep s a hs h.1).1 h.2⟩

/-- **Exact conditions.** -/
theorem reached_iff_along {L C : σ → α → Prop} (Inv : σ → Prop) {Q : σ → Prop}
    (hQ : ∀ s, Inv s → Q s)
    (hkeep : ∀ s a, Inv s → L s a → C s a → Inv (step s a))
    (hbreak : ∀ s a, Inv s → L s a → ¬ C s a → ¬ Q (step s a))
    {s : σ} {l : List α} (hs : Inv s) (hl : Along step L s l) :
    Reached step Q s l ↔ Along step C s l := by
  induction l generalizing s with
  | nil => exact ⟨fun _ => True.intro, fun _ => hQ s hs⟩
  | cons a l ih =>
    constructor
    · rintro ⟨-, h⟩
      have hc : C s a := by
        by_contra hc
        exact hbreak s a hs hl.1 hc h.start
      exact ⟨hc, (ih (hkeep s a hs hl.1 hc) hl.2).mp h⟩
    · rintro ⟨hc, h⟩
      exact ⟨hQ s hs, (ih (hkeep s a hs hl.1 hc) hl.2).mpr h⟩

theorem Along.head {P : σ → α → Prop} {s : σ} {a : α} {l : List α}
    (h : Along step P s (a :: l)) : P s a := h.1

theorem Along.trivial (s : σ) (l : List α) : Along step (fun _ _ => True) s l := by
  induction l generalizing s with
  | nil => exact True.intro
  | cons a l ih => exact ⟨True.intro, ih _⟩

theorem Along.mono {P P' : σ → α → Prop} (h : ∀ s a, P s a → P' s a) {s : σ} {l : List α}
    (hp : Along step P s l) : Along step P' s l := by
  induction l generalizing s with
  | nil => exact True.intro
  | cons a l ih => exact ⟨h s a hp.1, ih hp.2⟩

theorem Along.and {P P' : σ → α → Prop} {s : σ} {l : List α} (h : Along step P s l)
    (h' : Along step P' s l) : Along step (fun s a => P s a ∧ P' s a) s l := by
  induction l generalizing s with
  | nil => exact True.intro
  | cons a l ih => exact ⟨⟨h.1, h'.1⟩, ih h.2 h'.2⟩

theorem reached_iff_prefix {Q : σ → Prop} {s : σ} {l : List α} :
    Reached step Q s l ↔ ∀ front, front <+: l → Q (run step s front) := by
  induction l generalizing s with
  | nil =>
    constructor
    · intro h front hf
      rw [List.prefix_nil.mp hf]
      exact h
    · exact fun h => h [] List.prefix_rfl
  | cons a l ih =>
    constructor
    · rintro ⟨hs, h⟩ front hf
      cases front with
      | nil => exact hs
      | cons b front =>
        obtain ⟨rfl, hfront⟩ := List.cons_prefix_cons.mp hf
        exact ih.mp h front hfront
    · intro h
      exact ⟨h [] (List.nil_prefix), ih.mpr fun front hf =>
        h (a :: front) (List.cons_prefix_cons.mpr ⟨rfl, hf⟩)⟩

end TinyDB.Lib
