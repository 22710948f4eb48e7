/-
# The weighted model count

The weight of a satisfying assignment is the product of the probabilities of
the outcomes that it gives to reached rules, since every other variable weighs
one. The outcomes of all other rules add up to one, so the weight of the
assignment is the sum of the probabilities of the selections that it takes
(`ofAssignment_eq_sum`). As each selection is taken once, the weighted count of
the assignments with some property is the probability of the selections whose
assignments have it (`sum_eq_sum_of_existsUnique`).

So the count of all assignments is one, and the count of those that satisfy a
query is the probability of the selections under which the query is true
(`count_eq_sum_probability`). For a query on a choice atom this is not its
probability in the least models, which have no choice atoms: the atom is true
where the outcome is picked and the body of its rule holds.

Key definitions: `Weights.ofAssignment`, `Compilation.count`.
Key theorems: `ofAssignment_eq_sum`, `count_eq_sum_probability`.
-/
import Mathlib.Algebra.BigOperators.Intervals
import ProbLogic.Proofs.Assignments

namespace ProbLogic

/-- The weight of an assignment of the numbers up to `n`: the product of the weights of the
signed numbers that hold. -/
def Weights.ofAssignment (w : Weights Int Rat) (n : Nat) (t : Assignment) : Rat :=
  ∏ i ∈ Finset.Icc 1 n, (w.get? (if t i then (i : Int) else -i)).getD 0

namespace Compilation

/-- The assignments of the variables that satisfy the CNF, as sets of true numbers. -/
def solutions {α : Type} (c : Compilation α) : Finset (Finset Nat) :=
  (Finset.Icc 1 c.numbering.vars.length).powerset.filter fun S => c.cnf.eval (.ofFinset S) = true

/-- The sum of the weights of the satisfying assignments that pass a test. -/
def count (c : Compilation Rat) (test : Assignment → Bool) : Rat :=
  ∑ S ∈ c.solutions with test (.ofFinset S) = true,
    c.weights.ofAssignment c.numbering.vars.length (.ofFinset S)

end Compilation

/-! ### Sums over pairs -/

/-- If the weight of each element is that of the outcomes related to it, and each outcome is
related to one element, then elements with a property weigh what the outcomes weigh whose
elements have it. -/
theorem sum_eq_sum_of_existsUnique {ι κ : Type} [DecidableEq ι] [Fintype κ] {s : Finset ι}
    {w : ι → Rat} {v : κ → Rat} {R : ι → κ → Prop} [∀ i, DecidablePred (R i)]
    (hw : ∀ i ∈ s, w i = ∑ k with R i k, v k) (hR : ∀ k, ∃! i, i ∈ s ∧ R i k) {P : ι → Prop}
    {Q : κ → Prop} [DecidablePred P] [DecidablePred Q]
    (hPQ : ∀ i ∈ s, ∀ k, R i k → (P i ↔ Q k)) :
    ∑ i ∈ s with P i, w i = ∑ k with Q k, v k := by
  calc ∑ i ∈ s with P i, w i
      = ∑ i ∈ s with P i, ∑ k with R i k, v k :=
        Finset.sum_congr rfl fun i hi => hw i (Finset.mem_filter.mp hi).1
    _ = ∑ k with Q k, ∑ i ∈ s with R i k, v k := by
        refine Finset.sum_comm' fun i k => ?_
        simp only [Finset.mem_filter, Finset.mem_univ, true_and]
        constructor
        · rintro ⟨⟨hi, hP⟩, hik⟩
          exact ⟨⟨hi, hik⟩, (hPQ i hi k hik).mp hP⟩
        · rintro ⟨⟨hi, hik⟩, hQ⟩
          exact ⟨⟨hi, (hPQ i hi k hik).mpr hQ⟩, hik⟩
    _ = ∑ k with Q k, v k := by
        refine Finset.sum_congr rfl fun k _ => ?_
        obtain ⟨i, ⟨hi, hik⟩, hunique⟩ := hR k
        have hsingle : s.filter (fun i => R i k) = {i} := by
          ext j
          rw [Finset.mem_filter, Finset.mem_singleton]
          exact ⟨fun hj => hunique j hj, fun hj => hj ▸ ⟨hi, hik⟩⟩
        rw [hsingle, Finset.sum_singleton]

/-! ### The weights of variables -/

namespace CompiledFrom

variable {α : Type} [Scalar α] {rs : List (Rule α)} {p : Program α} {problem : Problem α}
  {recs : List Record} {st : Unrolling α} {done : List Choices} {clauses : List (List Literal)}
  {atoms : List Atom} {a : Atom} {r : Fin rs.length}

/-- A literal on a completed atom that is weighed is on a choice atom of a rule, or weighs one. -/
theorem built_weight_cases (h : CompiledFrom rs p problem recs st done clauses atoms)
    (ha : a ∈ atoms) {b : Bool} {w : α} (hw : st.built.weights.get? ⟨a, b⟩ = some w) :
    (∃ (r : Fin rs.length) (i : Fin ((rs.get r).head.length + 1)),
      a = Program.choiceAtom r i ∧ w = if b then (rs.get r).outcomeWeight i else Scalar.one) ∨
      w = Scalar.one := by
  have hplain := h.plain_of_mem_atoms ha
  rcases h.reached.weight_cases h.plain_atoms (l := ⟨a, b⟩) hplain hw
    with hgiven | ⟨-, a', hc, hgiven⟩
  · rcases h.grounds.weight_cases h.names.plainHeads (l := ⟨a, b⟩) (fun _ => hplain) hgiven
      with ⟨r, i, heq, hw⟩ | ⟨hw, -⟩
    · exact .inl ⟨r, i, heq, hw⟩
    · exact .inr hw
  · -- the name was made from an atom with rules, which is not a choice atom
    have hplain' := h.plain_atoms a' (RuleBase.mem_atoms_of_contains hc)
    rcases h.grounds.weight_cases h.names.plainHeads (l := ⟨a', b⟩) (fun _ => hplain') hgiven
      with ⟨r, i, heq, -⟩ | ⟨hw, -⟩
    · have hc : p.rules.contains a' = true := hc
      rw [show a' = Program.choiceAtom r i from heq, h.grounds.not_contains_choiceAtom h.names]
        at hc
      cases hc
    · exact .inr hw

theorem weightsOf_eq_one (h : CompiledFrom rs p problem recs st done clauses atoms)
    (ha : a ∈ atoms) (hc : ¬ ∃ (r : Fin rs.length) (i : Fin ((rs.get r).head.length + 1)),
      a = Program.choiceAtom r i) :
    Completion.weightsOf st.built.weights (.atom a) = (Scalar.one, Scalar.one) := by
  have hone : ∀ b, (st.built.weights.get? ⟨a, b⟩).getD Scalar.one = Scalar.one := by
    intro b
    cases hw : st.built.weights.get? ⟨a, b⟩ with
    | none => rfl
    | some w =>
      rcases h.built_weight_cases ha hw with ⟨r, i, heq, -⟩ | hw
      · exact absurd ⟨r, i, heq⟩ hc
      · exact hw
  exact Prod.ext (hone true) (hone false)

theorem weightsOf_choiceAtom (h : CompiledFrom rs p problem recs st done clauses atoms)
    {i : Fin ((rs.get r).head.length + 1)} (ha : Program.choiceAtom r i ∈ atoms) :
    Completion.weightsOf st.built.weights (.atom (Program.choiceAtom r i)) =
      ((rs.get r).outcomeWeight i, Scalar.one) := by
  have hweight : ∀ b, st.built.weights.get? ⟨Program.choiceAtom r i, b⟩ =
      some (if b then (rs.get r).outcomeWeight i else Scalar.one) := by
    intro b
    obtain ⟨x, hx, hxa⟩ := h.record_of_choiceAtom ha
    have hopen := h.grounds.not_contains_choiceAtom h.names r i
    obtain ⟨recs', -, hj⟩ := h.reached.valid.exists_justified hx
    rcases hj.origin with ⟨-, hv, -⟩ | ⟨hc, -⟩
    · have hname : x.variant.name = some (Program.choiceAtom r i) := by rw [hv, hxa]
      obtain ⟨w, hw⟩ := Option.isSome_iff_exists.mp (h.reached.isSome_weight x hx _ b hname)
      rcases h.reached.weight_cases h.plain_atoms (l := ⟨Program.choiceAtom r i, b⟩)
        (plain_choiceAtom r i) hw with hgiven | ⟨hfresh, -⟩
      · rw [hw, ← hgiven]
        exact h.grounds.weight_choiceAtom h.names r i b
      · exact absurd (h.choiceAtom_mem_taken i) hfresh
    · have hc : p.rules.contains x.atom = true := hc
      rw [hxa, hopen] at hc
      cases hc
  refine Prod.ext ?_ ?_
  · exact congrArg (Option.getD · Scalar.one) (hweight true)
  · exact congrArg (Option.getD · Scalar.one) (hweight false)

end CompiledFrom

/-! ### The weight of an assignment -/

section Assignment

variable {rs : List (Rule Rat)} {p : Program Rat} {problem : Problem Rat}
  {recs : List Record} {st : Unrolling Rat} {done : List Choices} {clauses : List (List Literal)}
  {atoms : List Atom} {t : Assignment}

/-- The weight that an assignment gives to a variable. -/
def weightIn (problem : Problem Rat) (st : Unrolling Rat) (t : Assignment) (v : Variable) : Rat :=
  if problem.values t v then (Completion.weightsOf st.built.weights v).1
  else (Completion.weightsOf st.built.weights v).2

theorem Compiled.weights_eq (h : Compiled p problem recs st done clauses atoms) :
    problem.compilation.weights = Completion.weighVars (Completion.weightsOf st.built.weights)
      problem.compilation.numbering.vars := by
  rw [h.compilation]
  rfl

/-- The weight of an assignment is the product of the weights of the variables. -/
theorem Compiled.ofAssignment_eq_prod (h : Compiled p problem recs st done clauses atoms)
    (t : Assignment) :
    problem.compilation.weights.ofAssignment problem.compilation.numbering.vars.length t =
      ∏ v ∈ problem.compilation.numbering.vars.toFinset, weightIn problem st t v := by
  set vars := problem.compilation.numbering.vars with hvars
  have hnodup : vars.Nodup := by
    rw [hvars, h.compilation]
    exact h.completes.nodup_vars
  have hIcc : Finset.Icc 1 vars.length = Finset.Ico 1 (vars.length + 1) := by
    ext i
    simp only [Finset.mem_Icc, Finset.mem_Ico]
    omega
  have hfactor : ∀ i : Fin vars.length,
      (problem.compilation.weights.get?
        (if t (1 + i) then ((1 + i : Nat) : Int) else -((1 + i : Nat) : Int))).getD 0 =
      weightIn problem st t (vars.get i) := by
    intro i
    obtain ⟨hpos, hneg⟩ :=
      Completion.get?_weighVars (Completion.weightsOf st.built.weights) vars i.2
    have hvalue : problem.values t (vars.get i) = t (1 + i) := by
      rw [Problem.values, Completion.valuation, ← hvars, List.get_eq_getElem, hnodup.idxOf_getElem,
        add_comm]
    rw [h.weights_eq, weightIn, hvalue, add_comm 1]
    cases t (i + 1)
    · exact congrArg (Option.getD · 0) hneg
    · exact congrArg (Option.getD · 0) hpos
  have hmap : vars.map (weightIn problem st t) =
      List.ofFn fun i : Fin vars.length => weightIn problem st t (vars.get i) := by
    conv_lhs => rw [← List.ofFn_get vars, List.map_ofFn]
    rfl
  rw [Weights.ofAssignment, hIcc, Finset.prod_Ico_eq_prod_range, Nat.add_sub_cancel,
    Finset.prod_range, Finset.prod_congr rfl fun i _ => hfactor i, List.prod_toFinset _ hnodup,
    hmap, List.prod_ofFn]

theorem Compiled.mem_atoms_of_query (h : Compiled p problem recs st done clauses atoms)
    {q : Literal} (hq : q ∈ p.queries) : q.atom ∈ atoms :=
  h.seedAtoms q (List.mem_append_left _ hq)

theorem Compiled.mem_vars_of_query (h : Compiled p problem recs st done clauses atoms)
    {q : Literal} (hq : q ∈ p.queries) : .atom q.atom ∈ problem.compilation.numbering.vars :=
  h.mem_vars.mpr ⟨q.atom, h.mem_atoms_of_query hq, Completion.mem_varsOf_atom.mpr rfl⟩

/-- The outcomes of annotated rules. -/
abbrev Outcome (rs : List (Rule Rat)) : Type :=
  (r : Fin rs.length) × Fin ((rs.get r).head.length + 1)

/-- The variable of the choice atom of an outcome. -/
def Outcome.choice (x : Outcome rs) : Variable := .atom (Program.choiceAtom x.1 x.2)

theorem Outcome.choice_injective : Function.Injective (choice : Outcome rs → Variable) := by
  rintro ⟨r, i⟩ ⟨r', i'⟩ heq
  obtain ⟨hr, hi⟩ := choiceAtom_inj (Variable.atom.inj heq)
  obtain rfl := Fin.ext hr
  obtain rfl := Fin.ext hi
  rfl

namespace CompiledFrom

/-- Only the choice atoms of reached rules weigh other than one. -/
theorem weightIn_eq_one (h : CompiledFrom rs p problem recs st done clauses atoms)
    {v : Variable} (hv : v ∈ problem.compilation.numbering.vars)
    (hnone : ∀ x : Outcome rs, IsReached rs done x.1 → v ≠ x.choice) :
    weightIn problem st t v = 1 := by
  obtain ⟨a, ha, hva⟩ := h.mem_vars.mp hv
  cases v with
  | body b i => exact ite_self _
  | atom b =>
    obtain rfl := Completion.mem_varsOf_atom.mp hva
    have hchoice : ¬ ∃ (r : Fin rs.length) (i : Fin ((rs.get r).head.length + 1)),
        b = Program.choiceAtom r i := by
      rintro ⟨r, i, rfl⟩
      exact hnone ⟨r, i⟩ (h.isReached_of_mem_atoms ha) rfl
    rw [weightIn, h.weightsOf_eq_one ha hchoice]
    exact ite_self _

theorem mem_atoms_of_isReached (h : CompiledFrom rs p problem recs st done clauses atoms)
    {x : Outcome rs} (hx : IsReached rs done x.1) : Program.choiceAtom x.1 x.2 ∈ atoms :=
  ((h.completed_of_isReached hx).1 x.2).1

open Classical in
theorem weightIn_choice (h : CompiledFrom rs p problem recs st done clauses atoms)
    (hsums : ∀ rule ∈ rs, (rule.head.map Choice.probability).sum ≤ 1) {x : Outcome rs}
    (hx : IsReached rs done x.1) :
    weightIn problem st t x.choice =
      if problem.trueAtoms t (Program.choiceAtom x.1 x.2) then (rs.get x.1).chance x.2 else 1 := by
  rw [Outcome.choice, weightIn, h.weightsOf_choiceAtom (h.mem_atoms_of_isReached hx),
    Rule.outcomeWeight_eq (hsums _ (List.get_mem rs x.1))]
  exact if_congr Iff.rfl rfl rfl

open Classical in
/-- The weight of an assignment is the product of the probabilities of the outcomes that it
gives to reached rules. -/
theorem ofAssignment_eq_prod_outcomes (h : CompiledFrom rs p problem recs st done clauses atoms)
    (hsums : ∀ rule ∈ rs, (rule.head.map Choice.probability).sum ≤ 1) (t : Assignment) :
    problem.compilation.weights.ofAssignment problem.compilation.numbering.vars.length t =
      ∏ r : Fin rs.length, if IsReached rs done r then
        ∏ i : Fin ((rs.get r).head.length + 1),
          if problem.trueAtoms t (Program.choiceAtom r i) then (rs.get r).chance i else 1
      else 1 := by
  have hsubset : (Finset.univ.filter fun x : Outcome rs => IsReached rs done x.1).image
      Outcome.choice ⊆ problem.compilation.numbering.vars.toFinset := by
    intro v hv
    obtain ⟨x, hx, rfl⟩ := Finset.mem_image.mp hv
    have hmem := h.mem_atoms_of_isReached (Finset.mem_filter.mp hx).2
    exact List.mem_toFinset.mpr
      (h.mem_vars.mpr ⟨_, hmem, Completion.mem_varsOf_atom.mpr rfl⟩)
  rw [h.ofAssignment_eq_prod, ← Finset.prod_subset hsubset fun v hv hnot => ?_,
    Finset.prod_image fun x _ y _ heq => Outcome.choice_injective heq,
    Finset.prod_congr rfl fun x hx => h.weightIn_choice hsums (Finset.mem_filter.mp hx).2,
    Finset.prod_filter, Fintype.prod_sigma]
  · refine Finset.prod_congr rfl fun r _ => ?_
    split
    · rfl
    · exact Finset.prod_const_one
  · refine h.weightIn_eq_one (List.mem_toFinset.mp hv) fun x hx heq => ?_
    exact hnot (Finset.mem_image.mpr ⟨x, Finset.mem_filter.mpr ⟨by simp, hx⟩, heq.symm⟩)

open Classical in
/-- What an assignment gives to the outcomes of a rule weighs as much as the outcomes that it
allows. -/
theorem prod_outcomes_eq_sum (h : CompiledFrom rs p problem recs st done clauses atoms)
    (ht : problem.compilation.cnf.eval t = true) (r : Fin rs.length) :
    (if IsReached rs done r then ∏ i : Fin ((rs.get r).head.length + 1),
        if problem.trueAtoms t (Program.choiceAtom r i) then (rs.get r).chance i else 1
      else 1) =
    ∑ i : Fin ((rs.get r).head.length + 1),
      if Allows done problem t r i then (rs.get r).chance i else 0 := by
  by_cases hr : IsReached rs done r
  · rw [if_pos hr]
    obtain ⟨hone, hsome⟩ := h.outcomes ht hr
    by_cases hbody : Body.Holds (problem.trueAtoms t) (rs.get r).body
    · obtain ⟨j, hj⟩ := hsome.mpr hbody
      have hiff : ∀ i : Fin ((rs.get r).head.length + 1),
          problem.trueAtoms t (Program.choiceAtom r i) ↔ i = j := fun i =>
        ⟨fun hi => hone i j hi hj, fun hi => hi ▸ hj⟩
      have hallows : ∀ i, Allows done problem t r i ↔ i = j := fun i =>
        ⟨fun hi => (hiff i).mp (hi hr hbody), fun hi _ _ => (hiff i).mpr hi⟩
      simp only [hiff, hallows, Finset.prod_ite_eq', Finset.sum_ite_eq', Finset.mem_univ, if_true]
    · have hfalse : ∀ i : Fin ((rs.get r).head.length + 1),
          ¬ problem.trueAtoms t (Program.choiceAtom r i) := fun i hi =>
        hbody (hsome.mp ⟨i, hi⟩)
      have hallows : ∀ i, Allows done problem t r i := fun i _ hholds => absurd hholds hbody
      simp only [hfalse, hallows, if_false, if_true, Finset.prod_const_one, (rs.get r).sum_chance]
  · have hallows : ∀ i, Allows done problem t r i := fun i hr' => absurd hr' hr
    simp only [if_neg hr, hallows, if_true, (rs.get r).sum_chance]

open Classical in
/-- **The weight of an assignment.** It is the probability of the selections that the
assignment takes. -/
theorem ofAssignment_eq_sum (h : CompiledFrom rs p problem recs st done clauses atoms)
    (hsums : ∀ rule ∈ rs, (rule.head.map Choice.probability).sum ≤ 1)
    (ht : problem.compilation.cnf.eval t = true) :
    problem.compilation.weights.ofAssignment problem.compilation.numbering.vars.length t =
      ∑ σ : Selection rs with Takes done problem t σ, σ.probability := by
  calc problem.compilation.weights.ofAssignment problem.compilation.numbering.vars.length t
      = ∏ r : Fin rs.length, ∑ i : Fin ((rs.get r).head.length + 1),
          if Allows done problem t r i then (rs.get r).chance i else 0 := by
        rw [h.ofAssignment_eq_prod_outcomes hsums]
        exact Finset.prod_congr rfl fun r _ => h.prod_outcomes_eq_sum ht r
    _ = ∑ σ : Selection rs, ∏ r : Fin rs.length,
          if Allows done problem t r (σ r) then (rs.get r).chance (σ r) else 0 := by
        rw [Finset.prod_univ_sum, Fintype.piFinset_univ]
    _ = ∑ σ : Selection rs, if Takes done problem t σ then σ.probability else 0 := by
        refine Finset.sum_congr rfl fun σ _ => ?_
        by_cases hσ : Takes done problem t σ
        · rw [if_pos hσ]
          exact Finset.prod_congr rfl fun r _ => if_pos (hσ r)
        · rw [if_neg hσ]
          obtain ⟨r, hr⟩ := not_forall.mp hσ
          exact Finset.prod_eq_zero (Finset.mem_univ r) (if_neg hr)
    _ = ∑ σ : Selection rs with Takes done problem t σ, σ.probability :=
        (Finset.sum_filter _ _).symm

open Classical in
/-- **The weighted count.** The satisfying assignments that pass a test weigh as much as the
selections whose assignments pass it. -/
theorem count_eq_sum (h : CompiledFrom rs p problem recs st done clauses atoms)
    (hsums : ∀ rule ∈ rs, (rule.head.map Choice.probability).sum ≤ 1) {f : Assignment → Bool}
    {Q : Selection rs → Prop}
    (hQ : ∀ t σ, problem.compilation.cnf.eval t = true → Takes done problem t σ →
      (f t = true ↔ Q σ)) :
    problem.compilation.count f = ∑ σ : Selection rs with Q σ, σ.probability := by
  have hmem : ∀ S, S ∈ problem.compilation.solutions ↔
      S ⊆ Finset.Icc 1 problem.compilation.numbering.vars.length ∧
        problem.compilation.cnf.eval (.ofFinset S) = true := fun S => by
    rw [Compilation.solutions, Finset.mem_filter, Finset.mem_powerset]
  refine sum_eq_sum_of_existsUnique (R := fun S σ => Takes done problem (.ofFinset S) σ)
    (fun S hS => h.ofAssignment_eq_sum hsums ((hmem S).mp hS).2) (fun σ => ?_)
    fun S hS σ hσ => hQ _ σ ((hmem S).mp hS).2 hσ
  obtain ⟨S, ⟨hS, heval, hσ⟩, hunique⟩ := h.existsUnique_takes σ
  refine ⟨S, ⟨(hmem S).mpr ⟨hS, heval⟩, hσ⟩, ?_⟩
  rintro S' ⟨hS', hσ'⟩
  exact hunique S' ⟨((hmem S').mp hS').1, ((hmem S').mp hS').2, hσ'⟩

/-- An assignment has the signed number of a query exactly if the query is true under the
selections that the assignment takes. -/
theorem satisfies_query_iff (h : CompiledFrom rs p problem recs st done clauses atoms)
    {q : Literal} (hq : q ∈ p.queries) (ht : problem.compilation.cnf.eval t = true)
    {σ : Selection rs} (hσ : Takes done problem t σ) :
    t.satisfies (Completion.encode problem.compilation.numbering q.signed) = true ↔
      q.Holds σ.truth := by
  have hseed := List.mem_append_left p.evidence hq
  have hcompleted : Compiled.Completed recs st atoms q.atom :=
    ⟨h.mem_atoms_of_query hq, h.seeded q hseed⟩
  exact (satisfies_encode_iff (h.mem_vars_of_query hq)).trans
    (Literal.holds_congr (h.trueAtoms_iff_truth ht hσ hcompleted))

end CompiledFrom

end Assignment

/-! ### Programs of statements -/

/-- A program of statements, queries and evidence, and its problem. -/
def compileStatements? (statements : List (Statement Rat)) (queries evidence : List Literal) :
    Option (Program Rat × Problem Rat) := do
  let p₀ ← (Program.ofStatements statements).toOption
  let p := evidence.foldl Program.addEvidence (queries.foldl Program.addQuery p₀)
  let problem ← p.compile.1.toOption
  return (p, problem)

theorem exists_of_compileStatements? (statements : List (Statement Rat))
    (queries evidence : List Literal) (f : Program Rat × Problem Rat → Bool)
    (h : (compileStatements? statements queries evidence).any f = true) :
    ∃ p₀ p problem log, Program.ofStatements statements = .ok p₀ ∧
      p = evidence.foldl Program.addEvidence (queries.foldl Program.addQuery p₀) ∧
      p.compile = (.ok problem, log) ∧ f (p, problem) = true := by
  rcases hs : Program.ofStatements statements with e | p₀
  · simp [compileStatements?, hs, Except.toOption] at h
  rcases hc : (evidence.foldl Program.addEvidence (queries.foldl Program.addQuery p₀)).compile
    with ⟨e | problem, log⟩
  · simp [compileStatements?, hs, hc, Except.toOption] at h
  · refine ⟨p₀, _, problem, log, rfl, rfl, hc, ?_⟩
    simpa [compileStatements?, hs, hc, Except.toOption] using h

/-- The rule `p::a :- body.` with one head. -/
def Statement.ofHead (p : Rat) (a : Atom) (body : List Literal) : Statement Rat :=
  .rule ⟨[⟨p, a⟩], body⟩

/-! ### The probability of queries -/

open Classical in
/-- **The probability of a query.** Let statements be grounded, queries and evidence be added
and the program be compiled. The satisfying assignments weigh one, and those with the signed
number of a query weigh as much as the selections under which the query is true. Unless the
query is on a choice atom, these are the selections whose least models it holds in. -/
theorem count_eq_sum_probability {statements : List (Statement Rat)} {p₀ p : Program Rat}
    (hground : Program.ofStatements statements = .ok p₀) (queries evidence : List Literal)
    (hp : p = evidence.foldl Program.addEvidence (queries.foldl Program.addQuery p₀))
    {problem : Problem Rat} {log : List (Event Rat)} (hcompile : p.compile = (.ok problem, log))
    (hnames : OwnNames (annotatedRules statements))
    (hstrat : (Rules.ofAnnotated (annotatedRules statements)).Stratified)
    (hsums : ∀ rule ∈ annotatedRules statements, (rule.head.map Choice.probability).sum ≤ 1) :
    problem.compilation.count (fun _ => true) = 1 ∧
    (∀ i ∈ Finset.Icc 1 problem.compilation.numbering.vars.length,
      (problem.compilation.weights.get? (i : Int)).isSome ∧
      (problem.compilation.weights.get? (-i : Int)).isSome) ∧
    (∀ σ : Selection (annotatedRules statements),
      IsLeastModel σ.program (leastModel σ.program)) ∧
    ∀ q ∈ p.queries, ∃ v ∈ problem.queries,
      problem.compilation.numbering.index? (.atom q.atom) = some v.natAbs ∧
      (0 < v ↔ q.positive = true) ∧
      problem.compilation.count (fun t => t.satisfies v) =
        ∑ σ : Selection (annotatedRules statements) with q.Holds σ.truth, σ.probability ∧
      (¬ q.atom.IsChoice → problem.compilation.count (fun t => t.satisfies v) =
        ∑ σ : Selection (annotatedRules statements) with q.Holds (leastModel σ.program),
          σ.probability) := by
  have hgrounds : Grounds (annotatedRules statements) p := by
    rw [hp]
    refine List.foldlRecOn evidence _ ?_ fun p hp l _ => hp.addEvidence l
    exact List.foldlRecOn queries _ (ofStatements_grounds hground) fun p hp l _ => hp.addQuery l
  obtain ⟨recs, st, done, clauses, atoms, hc⟩ := exists_compiled hcompile
  have h : CompiledFrom _ p problem recs st done clauses atoms := ⟨hc, hgrounds, hnames, hstrat⟩
  refine ⟨?_, fun i hi => ?_, fun σ => σ.isLeastModel_program hstrat, fun q hq => ?_⟩
  · rw [h.count_eq_sum hsums (Q := fun _ => True) (by simp), Finset.filter_true,
      Selection.sum_probability]
  · obtain ⟨h1, hle⟩ := Finset.mem_Icc.mp hi
    obtain ⟨j, rfl⟩ := Nat.exists_eq_add_of_le' h1
    obtain ⟨hpos, hneg⟩ := Completion.get?_weighVars (Completion.weightsOf st.built.weights)
      problem.compilation.numbering.vars hle
    rw [hc.weights_eq, hpos, hneg]
    exact ⟨rfl, rfl⟩
  · obtain ⟨hindex, hsign⟩ := encode_signed (hc.mem_vars_of_query hq)
    refine ⟨Completion.encode problem.compilation.numbering q.signed, ?_, hindex, hsign,
      h.count_eq_sum hsums fun t σ ht hσ => h.satisfies_query_iff hq ht hσ,
      fun hchoice => h.count_eq_sum hsums fun t σ ht hσ => ?_⟩
    · rw [hc.queryNumbers, mem_signedNumbers_iff fun _ => hc.mem_vars_of_query]
      exact ⟨q, hq, rfl⟩
    · exact (h.satisfies_query_iff hq ht hσ).trans
        (Literal.holds_congr (Selection.truth_iff_leastModel hchoice))

/-- Two atoms that support each other, a support of one, and an atom that needs its falsity. -/
def loopStatements : List (Statement Rat) :=
  [.ofHead (1 / 2) ⟨"a"⟩ [.pos ⟨"b"⟩], .ofHead (1 / 2) ⟨"b"⟩ [.pos ⟨"a"⟩], .ofHead (1 / 3) ⟨"a"⟩ [],
    .ofHead 1 ⟨"d"⟩ [.neg ⟨"a"⟩]]

open Classical in
/-- The support that the two atoms give each other does not count. -/
theorem sum_probability_loopStatements :
    ∑ σ : Selection (annotatedRules loopStatements)
      with (Literal.pos ⟨"d"⟩).Holds (leastModel σ.program), σ.probability = 2 / 3 := by
  obtain ⟨p₀, p, problem, log, hground, hp, hcompile, htest⟩ :=
    exists_of_compileStatements? loopStatements [.pos ⟨"d"⟩] []
      (fun x => decide (x.1.queries = [.pos ⟨"d"⟩] ∧ x.2.queries = [1] ∧
        x.2.compilation.count (fun t => t.satisfies 1) = 2 / 3)) (by decide +kernel)
  obtain ⟨hqueries, hnumbers, hcount⟩ := of_decide_eq_true htest
  have hnames : OwnNames (annotatedRules loopStatements) := ownNames_of_head? (by decide)
  have hstrat : (Rules.ofAnnotated (annotatedRules loopStatements)).Stratified :=
    stratified_ofAnnotated (fun a => if a = ⟨"d"⟩ then 1 else 0) (by decide)
  obtain ⟨-, -, -, hquery⟩ := count_eq_sum_probability hground [.pos ⟨"d"⟩] [] hp hcompile
    hnames hstrat (by decide +kernel)
  obtain ⟨v, hv, -, -, -, hsum⟩ := hquery (.pos ⟨"d"⟩) (by rw [hqueries]; simp)
  rw [hnumbers, List.mem_singleton] at hv
  rw [← hsum (Atom.not_isChoice_of_head? (by decide)), hv, hcount]

/-- A fact, and an atom that needs it. -/
def chainStatements : List (Statement Rat) :=
  [.ofHead (1 / 2) ⟨"b"⟩ [], .ofHead (3 / 10) ⟨"a"⟩ [.pos ⟨"b"⟩]]

/-- An atom that needs `-a` and the falsity of `a`, and supports `-a`. -/
def dashedStatements : List (Statement Rat) :=
  [.ofHead (1 / 2) ⟨"a"⟩ [], .ofHead 1 ⟨"x"⟩ [.pos ⟨"-a"⟩, .neg ⟨"a"⟩],
    .ofHead 1 ⟨"-a"⟩ [.pos ⟨"x"⟩]]

open Classical in
/-- **Where the count is not the probability.** A query on the choice atom of a head counts
the assignments in which the head is chosen, but the atom is in no least model. With a name
that starts with a dash, two literals of a body can be taken for one, and then even the
satisfying assignments do not weigh one. -/
theorem count_ne_sum_probability :
    (∃ p₀ problem log, Program.ofStatements chainStatements = .ok p₀ ∧
      (p₀.addQuery (.pos (Program.choiceAtom 1 0))).compile = (.ok problem, log) ∧
      OwnNames (annotatedRules chainStatements) ∧
      (Rules.ofAnnotated (annotatedRules chainStatements)).Stratified ∧
      (∀ rule ∈ annotatedRules chainStatements, (rule.head.map Choice.probability).sum ≤ 1) ∧
      problem.queries = [1] ∧ problem.compilation.count (fun t => t.satisfies 1) = 3 / 20 ∧
      ∑ σ : Selection (annotatedRules chainStatements)
        with (Literal.pos (Program.choiceAtom 1 0)).Holds (leastModel σ.program),
          σ.probability = 0) ∧
    ∃ p₀ problem log, Program.ofStatements dashedStatements = .ok p₀ ∧
      (p₀.addQuery (.pos ⟨"x"⟩)).compile = (.ok problem, log) ∧
      (∀ rule ∈ annotatedRules dashedStatements, ∀ a, rule.Mentions a → ¬ a.IsChoice) ∧
      (Rules.ofAnnotated (annotatedRules dashedStatements)).Stratified ∧
      (∀ rule ∈ annotatedRules dashedStatements, (rule.head.map Choice.probability).sum ≤ 1) ∧
      problem.compilation.count (fun _ => true) = 3 / 2 := by
  refine ⟨?_, ?_⟩
  · obtain ⟨p₀, _, problem, log, hground, rfl, hcompile, htest⟩ :=
      exists_of_compileStatements? chainStatements [.pos (Program.choiceAtom 1 0)] []
        (fun x => decide (x.2.queries = [1] ∧
          x.2.compilation.count (fun t => t.satisfies 1) = 3 / 20)) (by decide +kernel)
    obtain ⟨hnumbers, hcount⟩ := of_decide_eq_true htest
    have hnames : OwnNames (annotatedRules chainStatements) := ownNames_of_head? (by decide)
    have hstrat : (Rules.ofAnnotated (annotatedRules chainStatements)).Stratified :=
      stratified_ofAnnotated (fun _ => 0) (by decide)
    refine ⟨p₀, problem, log, hground, hcompile, hnames, hstrat, by decide +kernel, hnumbers,
      hcount, ?_⟩
    refine Finset.sum_eq_zero fun σ hσ => ?_
    have hholds := Literal.holds_pos.mp (Finset.mem_filter.mp hσ).2
    have hderives := (σ.isLeastModel_program hstrat _).mp hholds
    exact absurd ⟨1, 0, rfl⟩ (Selection.not_isChoice_of_derives hnames hderives)
  · obtain ⟨p₀, _, problem, log, hground, rfl, hcompile, htest⟩ :=
      exists_of_compileStatements? dashedStatements [.pos ⟨"x"⟩] []
        (fun x => decide (x.2.compilation.count (fun _ => true) = 3 / 2)) (by decide +kernel)
    have hletters : ∀ rule ∈ annotatedRules dashedStatements,
        ∀ a ∈ rule.head.map Choice.atom ++ rule.body.map Literal.atom,
          a.name.toList.head? ≠ some 'c' := by decide
    have hstrat : (Rules.ofAnnotated (annotatedRules dashedStatements)).Stratified :=
      stratified_ofAnnotated (fun a => if a = ⟨"a"⟩ then 0 else 1) (by decide)
    exact ⟨p₀, problem, log, hground, hcompile, fun rule hrule a ha =>
      Atom.not_isChoice_of_head? (hletters rule hrule a ha.mem_append), hstrat, by decide +kernel,
      of_decide_eq_true htest⟩

end ProbLogic
