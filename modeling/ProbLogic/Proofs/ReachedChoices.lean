/-
# The clauses on choices are those of the reached ones

Compiling resolves the clauses of choices with an atom that was visited, which
may visit atoms of further choices. When it ends, the choices whose clauses
were resolved are all those with a visited atom (`ResolvesReached`).

Resolving changes a clause: literals that cannot hold are left out, and a
clause with a literal that holds is dropped before its last literals are
looked at, so that some of its atoms may get no variable. Both are due to atoms
that are found false, and these are denied in the end. The CNF therefore says
of the reached choices what their original clauses say, whatever the values of
the atoms without a variable are (`eval_compile_iff`).

Key theorems: `Compiled.holds_choices_iff`, `eval_compile_iff`.
-/
import ProbLogic.Proofs.Problem

namespace ProbLogic

open UnrollM Completion

variable {α : Type} [Scalar α] {p : Program α} {problem : Problem α}

namespace Compiled

variable {recs : List Record} {st : Unrolling α} {done : List Choices}
  {clauses : List (List Literal)} {atoms : List Atom} {τ : Variable → Bool}

theorem supports_iff (h : Compiled p problem recs st done clauses atoms) :
    (∀ a ∈ atoms, ∀ c ∈ definition st.built.rules a, ClauseHolds τ c) ↔
      Supports st.built.rules problem.compilation.numbering τ := by
  rw [h.compilation]
  exact h.completes.supports_iff

/-- Where what was found false is false, what is left of the clauses says the same as the
clauses of all choices with a visited atom. -/
theorem holds_choices_iff (h : Compiled p problem recs st done clauses atoms)
    {N : Interpretation} (hN : ∀ a ∈ (st.finish p.evidence).falsified, ¬ N a) :
    (∀ left ∈ clauses, ∃ l ∈ left, l.Holds N) ↔
      ∀ c ∈ p.choices, c.atoms.any st.visited = true →
        ∀ clause ∈ c.clauses, ∃ l ∈ clause, l.Holds N := by
  have hfalse : ∀ a ∈ st.falsified, ¬ N a := fun a ha =>
    hN a (Ascending.mem_union.mpr (.inl ha))
  rw [h.clausesOf.holds_iff hfalse]
  constructor
  · intro hall c hc hv
    exact hall c (h.mem_done_iff.mpr ⟨hc, hv⟩)
  · intro hall c hc
    obtain ⟨hc, hv⟩ := h.mem_done_iff.mp hc
    exact hall c hc hv

end Compiled

/-- **The reached choices, and no others, are constrained.** Whenever a program compiles, the
clauses that are resolved after the seeds are those of the choices with an atom that is visited
in the end. An assignment satisfies the CNF exactly if values that agree with it, on all that
have a number, support the unlooped rules, make false what was found false, and satisfy every
clause of every choices with a visited atom. -/
theorem eval_compile_iff {log : List (Event α)} (h : p.compile = (.ok problem, log)) :
    ∃ st₀ st processed rs,
      (resolveSeeds p.weightedRules (p.queries ++ p.evidence)).runOn (.start p.weightedRules) =
        (.ok (), st₀) ∧
      ResolvesReached p.weightedRules p.choices st₀ processed rs st ∧
      p.unroll.runOn (.start p.weightedRules) = (.ok (rs.filterMap id), st) ∧
      let u := st.finish p.evidence
      problem.compilation = (p.completion u (rs.filterMap id)).finish u.program.weights ∧
      ∀ (t : Assignment) (τ : Variable → Bool),
        (∀ v ∈ problem.compilation.numbering.vars, τ v = problem.values t v) →
        (problem.compilation.cnf.eval t = true ↔
          Supports u.program.rules problem.compilation.numbering τ ∧
          (∀ a ∈ u.falsified, ¬ trueAtoms τ a) ∧
          ∀ c ∈ p.choices, c.atoms.any st.visited = true →
            ∀ clause ∈ c.clauses, ∃ l ∈ clause, l.Holds (trueAtoms τ)) := by
  obtain ⟨recs, st, done, clauses, atoms, hc⟩ := exists_compiled h
  obtain ⟨st₀, rs, hseeds, hresolves, hclauses⟩ := hc.resolved
  subst hclauses
  refine ⟨st₀, st, done, rs, hseeds, hresolves, hc.run, hc.compilation, fun t τ hτ => ?_⟩
  rw [hc.eval_iff_of_agree hτ, hc.supports_iff]
  apply and_congr_right
  intro _
  rw [and_comm]
  apply and_congr_right
  intro hfalse
  exact hc.holds_choices_iff hfalse

/-- The query reaches one of three choices, whose body reaches the next through `b`. No
derivation of `u` exists, so that clauses with it are dropped or lose a literal. -/
def chainedChoices : Program Rat where
  rules := .ofRules [(⟨"a"⟩, [.pos ⟨"c0"⟩]), (⟨"b"⟩, [.pos ⟨"d0"⟩]), (⟨"u"⟩, [.pos ⟨"u"⟩])]
  weights := ⟨[(.neg ⟨"a"⟩, 1), (.neg ⟨"b"⟩, 1), (.neg ⟨"c0"⟩, 1), (.neg ⟨"c1"⟩, 1),
    (.neg ⟨"d0"⟩, 1), (.neg ⟨"d1"⟩, 1), (.pos ⟨"a"⟩, 1), (.pos ⟨"b"⟩, 1), (.pos ⟨"c0"⟩, 1 / 2),
    (.pos ⟨"c1"⟩, 1 / 2), (.pos ⟨"d0"⟩, 1 / 3), (.pos ⟨"d1"⟩, 2 / 3)]⟩
  queries := [.pos ⟨"a"⟩]
  evidence := []
  choices := [.ofBody [⟨"d0"⟩, ⟨"d1"⟩] [], .ofBody [⟨"e0"⟩, ⟨"e1"⟩] [.pos ⟨"b"⟩],
    .ofBody [⟨"c0"⟩, ⟨"c1"⟩] [.pos ⟨"b"⟩, .neg ⟨"u"⟩]]

/-- The choices of `c` and then those of `d` are constrained, those of `e` are not. -/
theorem eval_compile_chainedChoices :
    ∃ problem log, chainedChoices.compile = (.ok problem, log) ∧
      ∀ (t : Assignment) (τ : Variable → Bool),
        (∀ v ∈ problem.compilation.numbering.vars, τ v = problem.values t v) →
        (problem.compilation.cnf.eval t = true ↔
          Supports (.ofRules [(⟨"a"⟩, [.pos ⟨"c0"⟩]), (⟨"b"⟩, [.pos ⟨"d0"⟩])])
            problem.compilation.numbering τ ∧
          ¬ trueAtoms τ ⟨"u"⟩ ∧
          ∀ c ∈ [Choices.ofBody [⟨"d0"⟩, ⟨"d1"⟩] [],
              Choices.ofBody [⟨"c0"⟩, ⟨"c1"⟩] [.pos ⟨"b"⟩, .neg ⟨"u"⟩]],
            ∀ clause ∈ c.clauses, ∃ l ∈ clause, l.Holds (trueAtoms τ)) := by
  obtain ⟨problem, log, h, -⟩ := exists_compile (p := chainedChoices) (f := fun _ => true)
    (by decide +kernel)
  obtain ⟨_, st, _, _, -, -, hrun, -, hiff⟩ := eval_compile_iff h
  have hst : st = (chainedChoices.unroll.runOn (.start chainedChoices.weightedRules)).2 := by
    rw [hrun]
  have hrules : (st.finish chainedChoices.evidence).program.rules =
      .ofRules [(⟨"a"⟩, [.pos ⟨"c0"⟩]), (⟨"b"⟩, [.pos ⟨"d0"⟩])] := by
    rw [hst]
    decide +kernel
  have hfalsified : (st.finish chainedChoices.evidence).falsified = [⟨"u"⟩] := by
    rw [hst]
    decide +kernel
  have hreached : (chainedChoices.choices.filter fun c => c.atoms.any st.visited) =
      [.ofBody [⟨"d0"⟩, ⟨"d1"⟩] [], .ofBody [⟨"c0"⟩, ⟨"c1"⟩] [.pos ⟨"b"⟩, .neg ⟨"u"⟩]] := by
    rw [hst]
    decide +kernel
  refine ⟨problem, log, h, fun t τ hτ => ?_⟩
  rw [hiff t τ hτ, hrules, hfalsified, List.forall_mem_singleton, ← hreached]
  simp only [List.mem_filter, and_imp]

end ProbLogic
