/-
# Calls on a draft succeed as a whole or not at all

Calls on a draft may name any nodes: none, the root, a node that is yet to be
made, the node that the call itself makes. They may also fail half-way, after
some nodes have been made. In all cases the root stays a conjunction of
disjunctions of signed variables (`represents_toCnf_performAll`), so that
neither its clauses nor its value and variables ever meet a node of another
kind. A call that fails adds no clause (`Represents.perform_of_error?`), and
the nodes that it leaves behind are below no clause: nobody can tell from the
clauses, the variables, the values and the text that the call was made.

The value of a draft is the value of its clauses, so it depends on the
variables of the clauses only (`Cnf.eval_congr`).

Key definitions: `Call.error?`, `SameView`.
Key theorems: `Represents.perform_of_error?`, `Represents.sameView`,
`performAll_atomic`.
-/
import ProbLogic.Cnf.Dimacs
import ProbLogic.Proofs.Cnf.Draft

namespace ProbLogic

/-! ### The value of clauses -/

theorem Assignment.satisfies_iff {t : Assignment} {v : Int} :
    t.satisfies v = true ↔ (t v.natAbs = true ↔ 0 < v) := by
  rw [Assignment.satisfies, beq_iff_eq, Bool.eq_iff_iff, decide_eq_true_eq]

namespace Cnf

/-- A CNF holds if each clause has a signed variable with the value that is asked for. -/
theorem eval_iff_exists {f : Cnf} {t : Assignment} :
    f.eval t = true ↔ ∀ c ∈ f.clauses, ∃ v ∈ c, (t v.natAbs = true ↔ 0 < v) := by
  simp only [eval, List.all_eq_true, Clause.eval, List.any_eq_true, Assignment.satisfies_iff]

theorem mem_vars {f : Cnf} {v : Nat} : v ∈ f.vars ↔ ∃ c ∈ f.clauses, ∃ u ∈ c, u.natAbs = v := by
  simp only [vars, Ascending.mem_ofList, List.mem_map, List.mem_flatten]
  constructor
  · intro h
    obtain ⟨u, ⟨c, hc, hu⟩, huv⟩ := h
    exact ⟨c, hc, u, hu, huv⟩
  · intro h
    obtain ⟨c, hc, u, hu, huv⟩ := h
    exact ⟨u, ⟨c, hc, hu⟩, huv⟩

/-- The value of a CNF depends on its own variables only. -/
theorem eval_congr {f : Cnf} {t t' : Assignment} (h : ∀ v ∈ f.vars, t v = t' v) :
    f.eval t = f.eval t' := by
  rw [Bool.eq_iff_iff, eval_iff_exists, eval_iff_exists]
  refine forall₂_congr fun c hc => exists_congr fun u => and_congr_right fun hu => ?_
  rw [h u.natAbs (mem_vars.mpr ⟨c, hc, u, hu, rfl⟩)]

end Cnf

namespace Draft

/-! ### Calls that fail -/

/-- The error of a result. -/
def errorOf? {β : Type} : Except FormulaError β → Option FormulaError
  | .ok _ => none
  | .error e => some e

/-- Why a call on a draft fails, if it does. -/
def Call.error? (d : Draft) : Call → Option FormulaError
  | leaf v => errorOf? (d.leaf v).1
  | disjunction _ => none
  | add node => errorOf? (d.add node).1
  | addClause c => errorOf? (d.addClause c).1

/-- What can be asked about the clauses of two drafts has the same answers. -/
structure SameView (d d' : Draft) : Prop where
  clauses : d'.toCnf.clauses = d.toCnf.clauses
  vars : d'.formula.vars root = d.formula.vars root
  eval : ∀ t, d'.eval t = d.eval t
  text : d'.toCnf.text = d.toCnf.text

variable {d d' : Draft} {cs : List Clause}

/-- Drafts that represent the same clauses look the same. -/
theorem Represents.sameView (h : d.Represents cs) (h' : d'.Represents cs) : d.SameView d' where
  clauses := by rw [h.toCnf_eq, h'.toCnf_eq]
  vars := by rw [h.vars_eq, h'.vars_eq]
  eval t := by rw [h.draftEval_eq, h'.draftEval_eq]
  text := by rw [h.toCnf_eq, h'.toCnf_eq]

/-- **A call that fails** adds no clause, whatever nodes it made before. -/
theorem Represents.perform_of_error? (h : d.Represents cs) {call : Call} {e : FormulaError}
    (he : call.error? d = some e) : (call.perform d).Represents cs := by
  cases call with
  | leaf v => exact h.mono (d.extends_leaf v)
  | disjunction parts => cases he
  | add node =>
    by_cases hc : ∃ c, d.IsClause node c
    · obtain ⟨c, hc⟩ := hc
      rw [Call.error?, (add_of_isClause h hc).1] at he
      cases he
    · obtain ⟨e', hadd⟩ := add_of_not_isClause hc
      show (d.add node).2.Represents cs
      rw [hadd]
      exact h
  | addClause c =>
    by_cases hc : 0 ∈ c
    · exact (addClause_of_zero_mem h hc).2
    · rw [Call.error?, (addClause_of_zero_not_mem h hc).1] at he
      cases he

/-! ### Sequences of calls -/

/-- The root of a draft is a conjunction of disjunctions of signed variables, and these are its
clauses. -/
theorem represents_toCnf_performAll (calls : List Call) :
    (performAll calls).Represents (performAll calls).toCnf.clauses := by
  obtain ⟨cs, h⟩ := exists_represents_performAll calls
  rw [h.toCnf_eq]
  exact h

theorem zero_notMem_performAll (calls : List Call) :
    ∀ c ∈ (performAll calls).toCnf.clauses, 0 ∉ c := by
  have hleaves : (performAll calls).LeavesIn (· ≠ 0) :=
    leavesIn_performAll fun _ _ _ _ hne => hne
  intro c hc hzero
  exact (represents_toCnf_performAll calls).forall_mem hleaves c hc 0 hzero rfl

/-- **Calls are atomic.** After any calls on a new draft, failing ones included, the root is a
conjunction of disjunctions of signed variables, none of them zero, which are the clauses; the
variables and the value of the root are those of the clauses and are never missing. A further
call that fails cannot be seen in the clauses, the variables, the values or the text. The draft
holds exactly if each clause has a signed variable with the value that is asked for, so its value
depends on its variables only. -/
theorem performAll_atomic (calls : List Call) :
    let d := performAll calls
    d.Represents d.toCnf.clauses ∧ (∀ c ∈ d.toCnf.clauses, 0 ∉ c) ∧
    d.formula.vars root = .ok d.toCnf.vars ∧
    (∀ t, d.formula.eval t root = .ok (d.eval t)) ∧
    (∀ call e, Call.error? d call = some e → d.SameView (call.perform d)) ∧
    (∀ t, d.eval t = true ↔ ∀ c ∈ d.toCnf.clauses, ∃ v ∈ c, (t v.natAbs = true ↔ 0 < v)) ∧
    ∀ t t', (∀ v ∈ d.toCnf.vars, t v = t' v) → d.eval t = d.eval t' := by
  intro d
  have h : d.Represents d.toCnf.clauses := represents_toCnf_performAll calls
  have heval : ∀ t, d.eval t = d.toCnf.eval t := h.draftEval_eq
  refine ⟨h, zero_notMem_performAll calls, h.vars_eq, fun t => ?_, fun call e he => ?_,
    fun t => ?_, fun t t' htt' => ?_⟩
  · rw [heval]
    exact h.eval_eq t
  · exact h.sameView (h.perform_of_error? he)
  · rw [heval]
    exact Cnf.eval_iff_exists
  · rw [heval, heval]
    exact Cnf.eval_congr htt'

/-- A clause with a zero leaves a node behind; a disjunction that contains itself, and one with
the root, are not accepted as clauses. -/
example :
    let d := performAll [.addClause [-1, 2], .disjunction [4, 1], .disjunction [0]]
    [Call.addClause [3, 0], .add 4, .add 5, .add 9].map (Call.error? d) =
        [some .zeroVariable, some (.notALeaf 4), some (.notALeaf 0), some (.unknownNode 9)] ∧
      (Call.perform d (.addClause [3, 0])).formula.nodes.size = d.formula.nodes.size + 1 ∧
      (Call.perform d (.addClause [3, 0])).toCnf = ⟨[[-1, 2]]⟩ := by
  decide

end Draft
end ProbLogic
