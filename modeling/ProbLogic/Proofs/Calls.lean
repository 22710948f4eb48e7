/-
# Sequences of calls on a completion

A completion is built by calls: atoms are completed, denied, or constrained by
a clause, in any order and with any repetitions. Each call completes atoms that
are new and adds at most one clause of its own (`Completes.perform`), so a
sequence of calls completes what its atoms reach and adds the clauses of its
calls (`Completes.performAll`), whatever loops the rules have.

Read as a formula, the result is exact (`eval_performAll_iff`). An atom that is
reached and has rules is as true as some body of it, the variable of a body is
as true as the body, and what the calls demand holds. Nothing else is asked
for; an atom without rules is free but for the calls.

Key definitions: `Call`, `performAll`, `Reachable`, `Supports`.
Key theorems: `Completes.performAll`, `Completes.supports_iff`, `eval_performAll_iff`.
-/
import ProbLogic.Proofs.Completion

namespace ProbLogic
namespace Completion

/-- A call on a completion. -/
inductive Call where
  | complete (l : Literal)
  | deny (a : Atom)
  | constrain (clause : List Literal)
  deriving DecidableEq, Repr

namespace Call

/-- The atoms that a call passes in. -/
def atoms : Call → List Atom
  | complete l => [l.atom]
  | deny a => [a]
  | constrain clause => clause.map Literal.atom

/-- The clauses that a call adds besides definitions. -/
def clauses : Call → List (List SignedVariable)
  | complete _ => []
  | deny a => [[(.atom a, false)]]
  | constrain clause => [clause.map Literal.signed]

/-- What a call demands: a denied atom is false, and some literal of a clause is true. -/
def Holds (m : Interpretation) : Call → Prop
  | complete _ => True
  | deny a => ¬ m a
  | constrain clause => ∃ l ∈ clause, l.Holds m

/-- The completion after a call. -/
def perform (rules : RuleBase) (s : Completion) : Call → Completion
  | complete l => s.complete rules l.atom
  | deny a => s.deny rules a
  | constrain clause => s.constrain rules clause

theorem holds_clauses_iff {τ : Variable → Bool} (c : Call) :
    (∀ d ∈ c.clauses, ClauseHolds τ d) ↔ c.Holds (trueAtoms τ) := by
  cases c with
  | complete l => simp [clauses, Holds]
  | deny a => simp [clauses, Holds, ClauseHolds, trueAtoms]
  | constrain clause =>
    rw [clauses, List.forall_mem_singleton, clauseHolds_map_signed]
    rfl

end Call

/-- The completion after calls in turn. -/
def performAll (rules : RuleBase) (calls : List Call) : Completion :=
  calls.foldl (Call.perform rules) .empty

/-- The atom is reached, through literals of either polarity, from one that was passed in. -/
def Reachable (rules : RuleBase) (calls : List Call) (b : Atom) : Prop :=
  ∃ c ∈ calls, ∃ a ∈ c.atoms, rules.toRules.Reaches a b

/-- The values support what has a variable: an atom with rules is as true as some body of it,
and the variable of a body as the body. -/
structure Supports (rules : RuleBase) (n : Numbering) (τ : Variable → Bool) : Prop where
  atoms : ∀ a, .atom a ∈ n.vars → rules.bodies a ≠ [] →
    (trueAtoms τ a ↔ ∃ b ∈ rules.bodies a, Body.Holds (trueAtoms τ) b)
  bodies : ∀ a i, .body a i ∈ n.vars →
    (τ (.body a i) = true ↔ ∃ b, (rules.bodies a)[i]? = some b ∧ Body.Holds (trueAtoms τ) b)

variable {rules : RuleBase} {reached : Atom → Prop} {s : Completion} {atoms : List Atom}
  {extra : List (List SignedVariable)}

namespace Completes

theorem mem_vars_body (h : Completes rules reached s atoms extra) {a : Atom} {i : Nat} :
    .body a i ∈ s.numbering.vars ↔
      a ∈ atoms ∧ 1 < (rules.bodies a).length ∧ i < (rules.bodies a).length := by
  rw [h.mem_vars]
  simp only [mem_varsOf_body]
  constructor
  · intro h'
    obtain ⟨b, hb, rfl, hlength⟩ := h'
    exact ⟨hb, hlength⟩
  · intro h'
    exact ⟨a, h'.1, rfl, h'.2⟩

/-- All definitions hold exactly if the values support what has a variable. -/
theorem supports_iff (h : Completes rules reached s atoms extra) {τ : Variable → Bool} :
    (∀ a ∈ atoms, ∀ c ∈ definition rules a, ClauseHolds τ c) ↔ Supports rules s.numbering τ := by
  constructor
  · intro hdef
    refine ⟨fun a ha => (holds_definition_iff.mp (hdef a (h.mem_vars_atom.mp ha))).1, ?_⟩
    intro a i hi
    obtain ⟨ha, hseveral, hlt⟩ := h.mem_vars_body.mp hi
    have hvalue := (holds_definition_iff.mp (hdef a ha)).2 ((rules.bodies a)[i], i)
      (List.mk_mem_zipIdx_iff_getElem?.mpr (by simp [hlt]))
      (mem_varsOf_body.mpr ⟨rfl, hseveral, hlt⟩)
    rw [hvalue, List.getElem?_eq_getElem hlt]
    simp
  · intro hs a ha
    refine holds_definition_iff.mpr ⟨hs.atoms a (h.mem_vars_atom.mpr ha), ?_⟩
    intro b hb hmem
    have hvar : .body a b.2 ∈ s.numbering.vars :=
      h.mem_vars_body.mpr ⟨ha, (mem_varsOf_body.mp hmem).2⟩
    rw [hs.bodies a b.2 hvar, List.mem_zipIdx_iff_getElem?.mp hb]
    simp

variable (hreached : ∀ a b, reached a → rules.toRules.Depends a b → reached b)
include hreached

/-- **One call.** It completes the atoms that it passes in, and adds its clause. -/
theorem perform (h : Completes rules reached s atoms extra) (c : Call)
    (hc : ∀ a ∈ c.atoms, reached a) :
    ∃ new, Completes rules reached (c.perform rules s) (atoms ++ new) (extra ++ c.clauses) ∧
      ∀ a ∈ c.atoms, a ∈ atoms ++ new := by
  cases c with
  | complete l =>
    obtain ⟨new, h', hmem⟩ := h.complete hreached (hc l.atom (List.mem_singleton_self _))
    refine ⟨new, ?_, fun a ha => ?_⟩
    · rw [Call.clauses, List.append_nil]
      exact h'
    · rw [List.mem_singleton.mp ha]
      exact hmem
  | deny a =>
    obtain ⟨new, h', hmem⟩ := h.deny hreached (hc a (List.mem_singleton_self _))
    refine ⟨new, h', fun b hb => ?_⟩
    rw [List.mem_singleton.mp hb]
    exact hmem
  | constrain clause =>
    have hclause : ∀ l ∈ clause, reached l.atom := fun l hl => hc l.atom (List.mem_map_of_mem hl)
    obtain ⟨new, h', hmem⟩ := h.constrain hreached hclause
    refine ⟨new, h', fun a ha => ?_⟩
    obtain ⟨l, hl, rfl⟩ := List.mem_map.mp ha
    exact hmem l hl

/-- **A sequence of calls** completes all atoms that are passed in, and adds all clauses. -/
theorem performAll (h : Completes rules reached s atoms extra) (calls : List Call)
    (hcalls : ∀ c ∈ calls, ∀ a ∈ c.atoms, reached a) :
    ∃ new, Completes rules reached (calls.foldl (Call.perform rules) s) (atoms ++ new)
        (extra ++ calls.flatMap Call.clauses) ∧
      ∀ c ∈ calls, ∀ a ∈ c.atoms, a ∈ atoms ++ new := by
  induction calls generalizing s atoms extra with
  | nil => exact ⟨[], by simpa using h, by simp⟩
  | cons c calls ih =>
    obtain ⟨new₁, h₁, hmem₁⟩ := h.perform hreached c (hcalls c List.mem_cons_self)
    obtain ⟨new₂, h₂, hmem₂⟩ := ih h₁ fun d hd => hcalls d (List.mem_cons_of_mem _ hd)
    rw [List.append_assoc, List.append_assoc, ← List.flatMap_cons] at h₂
    rw [List.append_assoc] at hmem₂
    refine ⟨new₁ ++ new₂, h₂, fun d hd a ha => ?_⟩
    rcases List.mem_cons.mp hd with rfl | hd
    · rw [← List.append_assoc]
      exact List.mem_append_left _ (hmem₁ a ha)
    · exact hmem₂ d hd a ha

end Completes

theorem completes_performAll
    (hreached : ∀ a b, reached a → rules.toRules.Depends a b → reached b) {calls : List Call}
    (hcalls : ∀ c ∈ calls, ∀ a ∈ c.atoms, reached a) :
    ∃ atoms, Completes rules reached (performAll rules calls) atoms
        (calls.flatMap Call.clauses) ∧ ∀ c ∈ calls, ∀ a ∈ c.atoms, a ∈ atoms :=
  completes_empty.performAll hreached calls hcalls

/-! ### Exactness -/

/-- The atoms that are completed are those that the calls reach. -/
theorem exists_completes_reachable (rules : RuleBase) (calls : List Call) :
    ∃ atoms, Completes rules (Reachable rules calls) (performAll rules calls) atoms
        (calls.flatMap Call.clauses) ∧ ∀ a, a ∈ atoms ↔ Reachable rules calls a := by
  have hstep : ∀ a b, Reachable rules calls a → rules.toRules.Depends a b →
      Reachable rules calls b := by
    intro a b ha hab
    obtain ⟨c, hc, a₀, ha₀, hreaches⟩ := ha
    exact ⟨c, hc, a₀, ha₀, hreaches.tail hab⟩
  have hcalls : ∀ c ∈ calls, ∀ a ∈ c.atoms, Reachable rules calls a :=
    fun c hc a ha => ⟨c, hc, a, ha, .refl⟩
  obtain ⟨atoms, h, hmem⟩ := completes_performAll hstep hcalls
  refine ⟨atoms, h, fun a => ⟨h.grows.reached a, ?_⟩⟩
  intro ha
  obtain ⟨c, hc, a₀, ha₀, hreaches⟩ := ha
  induction hreaches with
  | refl => exact hmem c hc a₀ ha₀
  | tail _ hab ih => exact h.closed ih hab

variable {α : Type} [Scalar α]

/-- **Completion is exact.** For any rules, with or without loops, and any calls: the atoms that
have a variable are those that the calls reach, and their bodies have variables where there are
several. An assignment satisfies the CNF exactly if each reached atom with rules is as true as
some body of it, each variable of a body is as true as the body, and what the calls demand
holds. -/
theorem eval_performAll_iff (rules : RuleBase) (w : Weights Literal α) (calls : List Call)
    (t : Assignment) :
    let s := performAll rules calls
    let τ := valuation s.numbering t
    s.numbering.vars.Nodup ∧
    (∀ a, .atom a ∈ s.numbering.vars ↔ Reachable rules calls a) ∧
    (∀ a i, .body a i ∈ s.numbering.vars ↔ Reachable rules calls a ∧
      1 < (rules.bodies a).length ∧ i < (rules.bodies a).length) ∧
    ((s.finish w).cnf.eval t = true ↔
      (∀ a, Reachable rules calls a → rules.bodies a ≠ [] →
        (trueAtoms τ a ↔ ∃ b ∈ rules.bodies a, Body.Holds (trueAtoms τ) b)) ∧
      (∀ a i, .body a i ∈ s.numbering.vars →
        (τ (.body a i) = true ↔
          ∃ b, (rules.bodies a)[i]? = some b ∧ Body.Holds (trueAtoms τ) b)) ∧
      ∀ c ∈ calls, c.Holds (trueAtoms τ)) := by
  intro s τ
  obtain ⟨atoms, h, hatoms⟩ := exists_completes_reachable rules calls
  have hatom : ∀ a, .atom a ∈ s.numbering.vars ↔ Reachable rules calls a := fun a =>
    h.mem_vars_atom.trans (hatoms a)
  refine ⟨h.nodup_vars, hatom, fun a i => ?_, ?_⟩
  · rw [← hatoms]
    exact h.mem_vars_body
  · have hcalls : (∀ d ∈ calls.flatMap Call.clauses, ClauseHolds τ d) ↔
        ∀ c ∈ calls, c.Holds (trueAtoms τ) := by
      rw [List.forall_mem_flatMap]
      exact forall₂_congr fun c _ => c.holds_clauses_iff
    rw [h.eval_iff, h.supports_iff, hcalls, ← and_assoc]
    refine and_congr_left fun _ => ⟨fun hs => ⟨fun a ha => ?_, hs.bodies⟩, fun hs => ⟨?_, hs.2⟩⟩
    · exact hs.atoms a ((hatom a).mpr ha)
    · exact fun a ha => hs.1 a ((hatom a).mp ha)

end Completion
end ProbLogic
