import TinyDB.Lib.Result

/-!
# Recursive descent as a program

A parser reads the token in front of it, moves past it, fails, or asks its host for
something it does not compute itself. `Prog` is the tree of these steps, `run` carries it
out on a list of tokens that is closed by one more, and `asked` lists what it asks for.
-/

namespace TinyDB.Lib

variable {τ φ ε Q : Type} {Ans : Q → Type} {α β : Type}

/-- Items one after another. -/
inductive Each (item : List τ → α → Prop) : List τ → List α → Prop where
  | nil : Each item [] []
  | cons {s r : List τ} {a : α} {as : List α} :
    item s a → Each item r as → Each item (s ++ r) (a :: as)

theorem Each.map {σ : Type} {f : τ → σ} {item : List σ → α → Prop} {s : List τ} {as : List α}
    (h : Each (fun s a => item (s.map f) a) s as) : Each item (s.map f) as := by
  induction h with
  | nil => exact Each.nil
  | cons hitem _ ih =>
    rw [List.map_append]
    exact Each.cons hitem ih

theorem Each.of_map {σ : Type} {f : τ → σ} {item : List σ → α → Prop} {s : List σ} {as : List α}
    (h : Each item s as) {ts : List τ} (hts : ts.map f = s) :
    Each (fun s a => item (s.map f) a) ts as := by
  induction h generalizing ts with
  | nil =>
    rw [List.map_eq_nil_iff.mp hts]
    exact Each.nil
  | cons hitem _ ih =>
    obtain ⟨ts₁, ts₂, rfl, rfl, hts₂⟩ := List.map_eq_append_iff.mp hts
    exact Each.cons hitem (ih hts₂)

theorem Each.snoc {item : List τ → α → Prop} {s r : List τ} {as : List α} {a : α}
    (h : Each item s as) (ha : item r a) : Each item (s ++ r) (as ++ [a]) := by
  induction h with
  | nil =>
    have hone := Each.cons ha Each.nil
    rwa [List.append_nil] at hone
  | cons hitem _ ih =>
    rw [List.append_assoc]
    exact Each.cons hitem ih

inductive Prog (τ φ : Type) {Q : Type} (Ans : Q → Type) (α : Type) where
  | pure (a : α)
  | peek (k : τ → Prog τ φ Ans α)
  | skip (k : Prog τ φ Ans α)
  | remaining (k : Nat → Prog τ φ Ans α)
  | fail (e : φ)
  | ask (q : Q) (k : Ans q → Prog τ φ Ans α)

namespace Prog

def bind : Prog τ φ Ans α → (α → Prog τ φ Ans β) → Prog τ φ Ans β
  | pure a, f => f a
  | peek k, f => peek fun t => (k t).bind f
  | skip k, f => skip (k.bind f)
  | remaining k, f => remaining fun n => (k n).bind f
  | fail e, _ => fail e
  | ask q k, f => ask q fun a => (k a).bind f

instance : Monad (Prog τ φ Ans) where
  pure := pure
  bind := bind

/-- The host: the token that closes the list, how a failure is raised, and the answers. -/
structure Host (τ φ ε : Type) {Q : Type} (Ans : Q → Type) where
  last : τ
  raise : φ → ε
  answer : (q : Q) → Except ε (Ans q)

/-- The tokens in front; behind the list stands the last one, which is never passed. -/
def run (host : Host τ φ ε Ans) : Prog τ φ Ans α → List τ → Except ε (α × List τ)
  | pure a, ts => .ok (a, ts)
  | peek k, ts => (k (ts.head?.getD host.last)).run host ts
  | skip k, ts => k.run host ts.tail
  | remaining k, ts => (k ts.length).run host ts
  | fail e, _ => .error (host.raise e)
  | ask q k, ts =>
    match host.answer q with
    | .ok a => (k a).run host ts
    | .error e => .error e

/-- What is asked for on the way, up to the first question that is refused. -/
def asked (host : Host τ φ ε Ans) : Prog τ φ Ans α → List τ → List Q
  | pure _, _ => []
  | peek k, ts => (k (ts.head?.getD host.last)).asked host ts
  | skip k, ts => k.asked host ts.tail
  | remaining k, ts => (k ts.length).asked host ts
  | fail _, _ => []
  | ask q k, ts =>
    q :: match host.answer q with
      | .ok a => (k a).asked host ts
      | .error _ => []

/-- A loop: `turn` makes one item or ends it. There are `n` turns at most; `stuck` stands for
the turn behind the last. -/
def collectFrom (stuck : Prog τ φ Ans (List α)) (turn : Prog τ φ Ans (Option α)) :
    Nat → Prog τ φ Ans (List α)
  | 0 => stuck
  | n + 1 => do
    match ← turn with
    | some a =>
      let as ← collectFrom stuck turn n
      return a :: as
    | none => return []

variable {host : Host τ φ ε Ans} {p : Prog τ φ Ans α} {f : α → Prog τ φ Ans β} {ts : List τ}

theorem run_bind (p : Prog τ φ Ans α) (f : α → Prog τ φ Ans β) (ts : List τ) :
    (p >>= f).run host ts = p.run host ts >>= fun r => (f r.1).run host r.2 := by
  change (p.bind f).run host ts = _
  induction p generalizing ts with
  | pure a => rfl
  | peek k ih => exact ih _ ts
  | skip k ih => exact ih ts.tail
  | remaining k ih => exact ih _ ts
  | fail e => rfl
  | ask q k ih =>
    simp only [bind, run]
    cases host.answer q with
    | error e => rfl
    | ok a => exact ih a ts

theorem mem_asked_bind {q : Q} : q ∈ (p >>= f).asked host ts ↔
    q ∈ p.asked host ts ∨ ∃ a rest, p.run host ts = .ok (a, rest) ∧ q ∈ (f a).asked host rest := by
  change q ∈ (p.bind f).asked host ts ↔ _
  induction p generalizing ts with
  | pure a => simp [bind, asked, run]
  | peek k ih => exact ih _
  | skip k ih => exact ih
  | remaining k ih => exact ih _
  | fail e => simp [bind, asked, run]
  | ask q' k ih =>
    simp only [bind, asked, run, List.mem_cons]
    cases host.answer q' with
    | error e => simp
    | ok a => rw [ih a, or_assoc]

/-- A loop over items that returns: every turn makes its item before the next item and before
the end, and ends there. -/
theorem run_collectFrom {stuck : Prog τ φ Ans (List α)} {turn : Prog τ φ Ans (Option α)}
    {item : List τ → α → Prop} (before : List τ → Prop)
    (hturn : ∀ s a rest, item s a → before rest → turn.run host (s ++ rest) = .ok (some a, rest))
    (hbefore : ∀ s a rest, item s a → before (s ++ rest)) (hne : ∀ s a, item s a → s ≠ [])
    {s : List τ} {as : List α} (h : Each item s as) {rest : List τ} (hrest : before rest)
    (hend : turn.run host rest = .ok (none, rest)) {n : Nat} (hn : s.length < n) :
    (collectFrom stuck turn n).run host (s ++ rest) = .ok (as, rest) := by
  induction h generalizing n with
  | nil =>
    obtain ⟨n, rfl⟩ : ∃ m, n = m + 1 := ⟨n - 1, by omega⟩
    rw [collectFrom, run_bind, List.nil_append, hend]
    rfl
  | @cons s r a as hitem htail ih =>
    obtain ⟨n, rfl⟩ : ∃ m, n = m + 1 := ⟨n - 1, by omega⟩
    have hlen := List.length_pos_of_ne_nil (hne s a hitem)
    have hnext : before (r ++ rest) := by
      cases htail with
      | nil => exact hrest
      | cons hb _ =>
        rw [List.append_assoc]
        exact hbefore _ _ _ hb
    rw [List.length_append] at hn
    rw [collectFrom, run_bind, List.append_assoc, hturn s a (r ++ rest) hitem hnext, ok_bind]
    simp only
    rw [run_bind, ih (by omega)]
    rfl

/-! ## What can be raised -/

/-- **Outcome of a run.** Either every question is answered and the run returns or fails on
its own, or it raises what the one refused question raises. -/
theorem run_cases (host : Host τ φ ε Ans) (p : Prog τ φ Ans α) (ts : List τ) :
    ((∀ q ∈ p.asked host ts, ∃ a, host.answer q = .ok a) ∧
      ((∃ r, p.run host ts = .ok r) ∨ ∃ e, p.run host ts = .error (host.raise e))) ∨
    ∃ q ∈ p.asked host ts, ∃ e, host.answer q = .error e ∧ p.run host ts = .error e := by
  induction p generalizing ts with
  | pure a => exact Or.inl ⟨by simp [asked], Or.inl ⟨_, rfl⟩⟩
  | peek k ih => exact ih _ ts
  | skip k ih => exact ih ts.tail
  | remaining k ih => exact ih _ ts
  | fail e => exact Or.inl ⟨by simp [asked], Or.inr ⟨e, rfl⟩⟩
  | ask q k ih =>
    simp only [asked, run, List.forall_mem_cons, List.exists_mem_cons_iff]
    cases hq : host.answer q with
    | error e => exact Or.inr (Or.inl ⟨e, rfl, rfl⟩)
    | ok a =>
      rcases ih a ts with ⟨hall, hrun⟩ | hrefused
      · exact Or.inl ⟨⟨⟨a, rfl⟩, hall⟩, hrun⟩
      · exact Or.inr (Or.inr hrefused)

/-! ## What is read -/

variable {V : τ → Prop} {R : Q → Prop} {G K : List τ → α → Prop} {H : List τ → β → Prop}

/-- At the tokens `ts` the program only asks questions in `R`, and what it returns is
related by `G` to the tokens it has passed. -/
def ReadsAt (host : Host τ φ ε Ans) (R : Q → Prop) (p : Prog τ φ Ans α) (ts : List τ)
    (G : List τ → α → Prop) : Prop :=
  (∀ q ∈ p.asked host ts, R q) ∧
    ∀ a rest, p.run host ts = .ok (a, rest) → ∃ seg, ts = seg ++ rest ∧ G seg a

/-- The same for all tokens in `V`. -/
def Reads (host : Host τ φ ε Ans) (V : τ → Prop) (R : Q → Prop) (p : Prog τ φ Ans α)
    (G : List τ → α → Prop) : Prop :=
  ∀ ts, (∀ t ∈ ts, V t) → p.ReadsAt host R ts G

theorem ReadsAt.imp (h : p.ReadsAt host R ts G) (hG : ∀ seg a, G seg a → K seg a) :
    p.ReadsAt host R ts K := by
  refine ⟨h.1, fun a rest hrun => ?_⟩
  obtain ⟨seg, hts, hg⟩ := h.2 a rest hrun
  exact ⟨seg, hts, hG seg a hg⟩

theorem Reads.imp (h : p.Reads host V R G) (hG : ∀ seg a, G seg a → K seg a) :
    p.Reads host V R K := fun ts hts => (h ts hts).imp hG

theorem ReadsAt.pure {a : α} (h : G [] a) : (Pure.pure a : Prog τ φ Ans α).ReadsAt host R ts G := by
  refine ⟨by simp [Pure.pure, asked], fun b rest hrun => ?_⟩
  cases hrun
  exact ⟨[], rfl, h⟩

theorem ReadsAt.fail (e : φ) : (Prog.fail e : Prog τ φ Ans α).ReadsAt host R ts G :=
  ⟨by simp [asked], fun _ _ hrun => by cases hrun⟩

/-- The second program starts where the first has stopped. -/
theorem ReadsAt.bind (hp : p.ReadsAt host R ts G)
    (hf : ∀ seg a rest, ts = seg ++ rest → G seg a →
      (f a).ReadsAt host R rest fun seg' b => H (seg ++ seg') b) :
    (p >>= f).ReadsAt host R ts H := by
  refine ⟨fun q hq => ?_, fun b rest' hrun => ?_⟩
  · rcases mem_asked_bind.mp hq with hq | ⟨a, rest, hrun, hq⟩
    · exact hp.1 q hq
    · obtain ⟨seg, hts, hg⟩ := hp.2 a rest hrun
      exact (hf seg a rest hts hg).1 q hq
  · rw [run_bind, bind_eq_ok] at hrun
    obtain ⟨⟨a, rest⟩, hrun, hrun'⟩ := hrun
    obtain ⟨seg, hts, hg⟩ := hp.2 a rest hrun
    obtain ⟨seg', hrest, hh⟩ := (hf seg a rest hts hg).2 b rest' hrun'
    exact ⟨seg ++ seg', by rw [hts, hrest, List.append_assoc], hh⟩

theorem Reads.bind (hp : p.Reads host V R G)
    (hf : ∀ seg a, (∀ t ∈ seg, V t) → G seg a →
      (f a).Reads host V R fun seg' b => H (seg ++ seg') b) :
    (p >>= f).Reads host V R H := fun ts hts =>
  (hp ts hts).bind fun seg a rest happ hg =>
    hf seg a (fun t ht => hts t (happ ▸ List.mem_append_left _ ht)) hg rest
      fun t ht => hts t (happ ▸ List.mem_append_right _ ht)

theorem ReadsAt.ask {q : Q} {k : Ans q → Prog τ φ Ans α} (hq : R q)
    (hk : ∀ a, host.answer q = .ok a → (k a).ReadsAt host R ts G) :
    (Prog.ask q k).ReadsAt host R ts G := by
  cases ha : host.answer q with
  | error e =>
    refine ⟨fun q' hq' => ?_, fun b rest hrun => ?_⟩
    · simp only [asked, ha, List.mem_singleton] at hq'
      exact hq' ▸ hq
    · simp only [run, ha] at hrun
      cases hrun
  | ok a =>
    refine ⟨fun q' hq' => ?_, fun b rest hrun => ?_⟩
    · simp only [asked, ha, List.mem_cons] at hq'
      rcases hq' with rfl | hq'
      · exact hq
      · exact (hk a ha).1 q' hq'
    · simp only [run, ha] at hrun
      exact (hk a ha).2 b rest hrun

/-- **Loop rule.** Each turn passes at least one token, so there are turns enough. -/
theorem ReadsAt.collectFrom {stuck : Prog τ φ Ans (List α)} {turn : Prog τ φ Ans (Option α)}
    (hturn : turn.Reads host V R fun seg o => o = none ∧ seg = [] ∨
      ∃ a, o = some a ∧ seg ≠ [] ∧ G seg a) {n : Nat} (ts : List τ) (hts : ∀ t ∈ ts, V t)
    (hn : ts.length < n) : (Prog.collectFrom stuck turn n).ReadsAt host R ts (Each G) := by
  induction n generalizing ts with
  | zero => omega
  | succ n ih =>
    unfold Prog.collectFrom
    refine (hturn ts hts).bind fun seg o rest happ ho => ?_
    rcases ho with ⟨rfl, rfl⟩ | ⟨a, rfl, hseg, hg⟩
    · exact ReadsAt.pure Each.nil
    · have hrest : ∀ t ∈ rest, V t := fun t ht => hts t (happ ▸ List.mem_append_right _ ht)
      have hlen : rest.length < n := by
        have := List.length_pos_of_ne_nil hseg
        rw [happ, List.length_append] at hn
        omega
      refine (ih rest hrest hlen).bind fun seg' as rest' _ has => ReadsAt.pure ?_
      rw [List.append_nil]
      exact Each.cons hg has

end Prog
end TinyDB.Lib
