import TinyDB.Value

/-!
# The order of values

Python compares numbers with numbers and texts with texts, so a value matters to a
comparison only through its `Comparand`. Among values that compare, `<` is a strict order, and
it does not tell equal values apart.
-/

namespace TinyDB

open Lib

/-- What a comparison sees of a value. -/
inductive Comparand where
  | null
  | num (d : Datum)
  | text (s : String)
  deriving DecidableEq

namespace Value

def comparand : Value → Comparand
  | .null => .null
  | .int i => .num (.ofInt i)
  | .float f => .num f.datum
  | .text s => .text s
  | .bool b => .num (.ofInt (if b then 1 else 0))

theorem comparand_eq_null {v : Value} : v.comparand = .null ↔ v = .null := by
  cases v <;> simp [comparand]

theorem pyEq_iff {a b : Value} :
    a.pyEq b = true ↔ a.comparand = b.comparand ∧ a.comparand ≠ .num .nan := by
  cases a <;> cases b <;> simp [pyEq, numeric?, comparand, Datum.eq_iff]

/-- Two values can be ordered. -/
theorem pyLt_eq_ok {a b : Value} {r : Bool} :
    a.pyLt b = .ok r ↔
      (∃ s t, a.comparand = .text s ∧ b.comparand = .text t ∧ r = decide (s < t)) ∨
        ∃ d e, a.comparand = .num d ∧ b.comparand = .num e ∧ r = d.lt e := by
  have hcomm : ∀ v : Bool, (Except.ok v : Except PyErr Bool) = .ok r ↔ r = v := fun v => by
    rw [Except.ok.injEq, eq_comm]
  cases a <;> cases b <;> simp [pyLt, pyOrd, numeric?, comparand, hcomm, -Except.ok.injEq]

variable {a a' b b' c : Value}

theorem pyLt_congr (ha : a.comparand = a'.comparand) (hb : b.comparand = b'.comparand) {r : Bool} :
    a.pyLt b = .ok r ↔ a'.pyLt b' = .ok r := by
  rw [pyLt_eq_ok, pyLt_eq_ok, ha, hb]

theorem pyLt_asymm (h : a.pyLt b = .ok true) : b.pyLt a = .ok false := by
  rcases pyLt_eq_ok.mp h with ⟨s, t, ha, hb, hlt⟩ | ⟨d, e, ha, hb, hlt⟩
  · have hst : s < t := by simpa using hlt.symm
    exact pyLt_eq_ok.mpr (Or.inl ⟨t, s, hb, ha, (decide_eq_false (String.lt_asymm hst)).symm⟩)
  · exact pyLt_eq_ok.mpr (Or.inr ⟨e, d, hb, ha, (Datum.lt_asymm hlt.symm).symm⟩)

theorem pyLt_trans (hab : a.pyLt b = .ok true) (hbc : b.pyLt c = .ok true) :
    a.pyLt c = .ok true := by
  rcases pyLt_eq_ok.mp hab with ⟨s, t, ha, hb, hst⟩ | ⟨d, e, ha, hb, hde⟩
  · rcases pyLt_eq_ok.mp hbc with ⟨t', u, hb', hc, htu⟩ | ⟨e', f, hb', hc, hef⟩
    · rw [hb, Comparand.text.injEq] at hb'
      subst hb'
      have h1 : s < t := by simpa using hst.symm
      have h2 : t < u := by simpa using htu.symm
      exact pyLt_eq_ok.mpr (Or.inl ⟨s, u, ha, hc, (decide_eq_true (String.lt_trans h1 h2)).symm⟩)
    · rw [hb] at hb'
      cases hb'
  · rcases pyLt_eq_ok.mp hbc with ⟨t', u, hb', hc, htu⟩ | ⟨e', f, hb', hc, hef⟩
    · rw [hb] at hb'
      cases hb'
    · rw [hb, Comparand.num.injEq] at hb'
      subst hb'
      exact pyLt_eq_ok.mpr (Or.inr ⟨d, f, ha, hc, (Datum.lt_trans hde.symm hef.symm).symm⟩)

theorem pyLt_irrefl (h : a.comparand = b.comparand) : a.pyLt b ≠ .ok true := by
  intro hlt
  have hba := (pyLt_congr h.symm h).mpr hlt
  rw [pyLt_asymm hlt] at hba
  cases hba

/-- Equal values that are not NULL can be ordered. -/
theorem exists_pyLt_of_pyEq (h : a.pyEq b = true) (ha : a ≠ .null) : ∃ r, b.pyLt a = .ok r := by
  have hkind := (pyEq_iff.mp h).1
  cases hk : a.comparand with
  | null => exact absurd (comparand_eq_null.mp hk) ha
  | num d => exact ⟨_, pyLt_eq_ok.mpr (Or.inr ⟨d, d, hkind ▸ hk, hk, rfl⟩)⟩
  | text s => exact ⟨_, pyLt_eq_ok.mpr (Or.inl ⟨s, s, hkind ▸ hk, hk, rfl⟩)⟩

/-- Values that can be ordered and differ are ordered one way or the other. -/
theorem pyLt_total (ha : a.pyEq a = true) (hb : b.pyEq b = true) (hne : a.pyEq b = false) {r : Bool}
    (h : b.pyLt a = .ok r) : a.pyLt b = .ok true ∨ b.pyLt a = .ok true := by
  have hkind : a.comparand ≠ b.comparand := fun hk => by
    rw [pyEq_iff.mpr ⟨hk, (pyEq_iff.mp ha).2⟩] at hne
    cases hne
  rcases pyLt_eq_ok.mp h with ⟨t, s, hkb, hka, -⟩ | ⟨e, d, hkb, hka, -⟩
  · rw [hka, hkb, Ne, Comparand.text.injEq] at hkind
    have htotal : s < t ∨ t < s := by
      by_contra hno
      rw [not_or] at hno
      exact hkind (String.le_antisymm hno.2 hno.1)
    rcases htotal with hst | hts
    · exact Or.inl (pyLt_eq_ok.mpr (Or.inl ⟨s, t, hka, hkb, (decide_eq_true hst).symm⟩))
    · exact Or.inr (pyLt_eq_ok.mpr (Or.inl ⟨t, s, hkb, hka, (decide_eq_true hts).symm⟩))
  · have hd := (pyEq_iff.mp ha).2
    have he := (pyEq_iff.mp hb).2
    rw [hka, Ne, Comparand.num.injEq] at hd
    rw [hkb, Ne, Comparand.num.injEq] at he
    rw [hka, hkb, Ne, Comparand.num.injEq] at hkind
    rcases Datum.lt_total hd he hkind with hlt | hlt
    · exact Or.inl (pyLt_eq_ok.mpr (Or.inr ⟨d, e, hka, hkb, hlt.symm⟩))
    · exact Or.inr (pyLt_eq_ok.mpr (Or.inr ⟨e, d, hkb, hka, hlt.symm⟩))

/-- One of the two is less, or they are equal. -/
def Compares (a b : Value) : Prop :=
  a.pyLt b = .ok true ∨ b.pyLt a = .ok true ∨ a.pyEq b = true

instance (a b : Value) : Decidable (a.Compares b) := by
  unfold Compares
  infer_instance

theorem Compares.symm (h : a.Compares b) : b.Compares a := by
  rcases h with h | h | h
  · exact Or.inr (Or.inl h)
  · exact Or.inl h
  · exact Or.inr (Or.inr (pyEq_comm a b ▸ h))

/-- Among values that compare, `<` has no gaps. -/
theorem pyLt_split (hac : a.pyLt c = .ok true) (hb : a.Compares b) :
    a.pyLt b = .ok true ∨ b.pyLt c = .ok true := by
  rcases hb with h | h | h
  · exact Or.inl h
  · exact Or.inr (pyLt_trans h hac)
  · exact Or.inr ((pyLt_congr (pyEq_iff.mp h).1 rfl).mp hac)

end Value
end TinyDB
