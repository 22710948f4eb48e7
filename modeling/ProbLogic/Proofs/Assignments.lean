/-
# Assignments and selections

Let a problem be compiled from annotated rules without a loop through negation.
The rules whose choices were reached are constrained by clauses, and all choice
atoms and body atoms of these rules have variables. No choice atom of any other
rule has one.

A satisfying assignment takes the outcomes of a selection if each reached rule
whose body is true has the outcome that the selection picks (`Takes`). What the
assignment says of any atom that keeps its name is then true under the
selection (`trueAtoms_iff_truth`): the choice atoms that it makes true are
outcomes of the selection, and they suffice for the bodies that hold. Rules that
were not reached do not matter, so their outcomes may be assumed.

Since unrolled rules have no loops, an assignment is determined by its choice
atoms, and so by the selection. On the other hand the truth under a selection
extends to a model of the unrolled rules. So each selection is taken by exactly
one satisfying assignment (`existsUnique_takes`).

Key definitions: `CompiledFrom`, `IsReached`, `Takes`.
Key theorems: `trueAtoms_iff_truth`, `existsUnique_takes`.
-/
import ProbLogic.Proofs.Problem
import ProbLogic.Proofs.Selection

namespace ProbLogic

/-! ### Assignments as sets of numbers -/

/-- The assignment that makes the numbers of a set true. -/
def Assignment.ofFinset (S : Finset Nat) : Assignment := fun i => decide (i ∈ S)

/-- Some set of numbers gives the variables any values. -/
theorem exists_finset_valuation (n : Numbering) (τ : Variable → Bool) :
    ∃ S ⊆ Finset.Icc 1 n.vars.length,
      ∀ v ∈ n.vars, Completion.valuation n (.ofFinset S) v = τ v := by
  let number : Variable → Nat := fun v => n.vars.idxOf v + 1
  refine ⟨(n.vars.toFinset.filter fun v => τ v = true).image number, ?_, fun v hv => ?_⟩
  · intro i hi
    obtain ⟨v, hv, rfl⟩ := Finset.mem_image.mp hi
    have hlt := List.idxOf_lt_length_of_mem (List.mem_toFinset.mp (Finset.mem_filter.mp hv).1)
    exact Finset.mem_Icc.mpr ⟨Nat.succ_le_succ (Nat.zero_le _), hlt⟩
  · rw [Completion.valuation, Assignment.ofFinset, Bool.eq_iff_iff, decide_eq_true_iff,
      Finset.mem_image]
    constructor
    · rintro ⟨u, hu, heq⟩
      obtain ⟨hu, hτ⟩ := Finset.mem_filter.mp hu
      rwa [← (List.idxOf_inj (List.mem_toFinset.mp hu)).mp (Nat.succ.inj heq)]
    · intro hτ
      exact ⟨v, Finset.mem_filter.mpr ⟨List.mem_toFinset.mpr hv, hτ⟩, rfl⟩

/-- A set of numbers is determined by the values that it gives to the variables. -/
theorem eq_of_valuation_eq {n : Numbering} (hn : n.vars.Nodup) {S S' : Finset Nat}
    (hS : S ⊆ Finset.Icc 1 n.vars.length) (hS' : S' ⊆ Finset.Icc 1 n.vars.length)
    (h : ∀ v ∈ n.vars,
      Completion.valuation n (.ofFinset S) v = Completion.valuation n (.ofFinset S') v) :
    S = S' := by
  have hmem : ∀ i ∈ Finset.Icc 1 n.vars.length, (i ∈ S ↔ i ∈ S') := by
    intro i hi
    obtain ⟨h1, hle⟩ := Finset.mem_Icc.mp hi
    have hlt : i - 1 < n.vars.length := by omega
    have hv := h n.vars[i - 1] (List.getElem_mem hlt)
    have hi : i - 1 + 1 = i := by omega
    rwa [Completion.valuation, Completion.valuation, hn.idxOf_getElem, hi, Bool.eq_iff_iff,
      Assignment.ofFinset, Assignment.ofFinset, decide_eq_true_iff, decide_eq_true_iff] at hv
  ext i
  exact ⟨fun hi => (hmem i (hS hi)).mp hi, fun hi => (hmem i (hS' hi)).mpr hi⟩

/-! ### Models are assignments -/

/-- What a variable says of an interpretation: an atom is true, or the body with a number
holds. -/
def RuleBase.Denotes (rules : RuleBase) (N : Interpretation) : Variable → Prop
  | .atom a => N a
  | .body a i => ∃ b, (b, i) ∈ (rules.bodies a).zipIdx ∧ Body.Holds N b

theorem RuleBase.denotes_body_iff {rules : RuleBase} {N : Interpretation} {a : Atom}
    {b : Body × Nat} (hb : b ∈ (rules.bodies a).zipIdx) :
    rules.Denotes N (.body a b.2) ↔ Body.Holds N b.1 := by
  refine ⟨?_, fun hholds => ⟨b.1, hb, hholds⟩⟩
  rintro ⟨b', hb', hholds⟩
  have heq := List.mem_zipIdx_iff_getElem?.mp hb
  rw [List.mem_zipIdx_iff_getElem?.mp hb'] at heq
  exact Option.some.inj heq ▸ hholds

variable {α : Type} [Scalar α]

namespace Compiled

variable {p : Program α} {problem : Problem α} {recs : List Record} {st : Unrolling α}
  {done : List Choices} {clauses : List (List Literal)} {atoms : List Atom}

/-- A variable of a body that is completed has the value of the body. -/
theorem values_body_iff (h : Compiled p problem recs st done clauses atoms) {t : Assignment}
    (ht : problem.compilation.cnf.eval t = true) {a : Atom} (ha : a ∈ atoms)
    {b : Body} {i : Nat} (hb : (b, i) ∈ (st.built.rules.bodies a).zipIdx)
    (hv : .body a i ∈ Completion.varsOf st.built.rules a) :
    problem.values t (.body a i) = true ↔ Body.Holds (problem.trueAtoms t) b :=
  (Completion.holds_definition_iff.mp ((h.eval_iff.mp ht).1 a ha)).2 (b, i) hb hv

/-- A model of the unrolled rules in which the clauses on reached choices hold is, on the atoms
that are completed, a satisfying assignment. -/
theorem exists_eval_of_isModel (h : Compiled p problem recs st done clauses atoms)
    {s N : Interpretation} (hN : (st.finish p.evidence).IsModel p.rules s N)
    (hchoices : ∀ c ∈ done, ∀ clause ∈ c.clauses, ∃ l ∈ clause, l.Holds N) :
    ∃ S ⊆ Finset.Icc 1 problem.compilation.numbering.vars.length,
      problem.compilation.cnf.eval (.ofFinset S) = true ∧
      ∀ a ∈ atoms, (problem.trueAtoms (.ofFinset S) a ↔ N a) := by
  classical
  obtain ⟨S, hS, hvaluation⟩ := exists_finset_valuation problem.compilation.numbering
    fun v => decide (st.built.rules.Denotes N v)
  have hvalues : ∀ a ∈ atoms, ∀ v ∈ Completion.varsOf st.built.rules a,
      (problem.values (.ofFinset S) v = true ↔ st.built.rules.Denotes N v) := by
    intro a ha v hv
    rw [Problem.values, hvaluation v (h.mem_vars.mpr ⟨a, ha, hv⟩), decide_eq_true_iff]
  have hatoms : ∀ a ∈ atoms, (problem.trueAtoms (.ofFinset S) a ↔ N a) := fun a ha =>
    hvalues a ha _ (Completion.mem_varsOf_atom.mpr rfl)
  have hbody : ∀ a ∈ atoms, ∀ b ∈ st.built.rules.bodies a,
      (Body.Holds (problem.trueAtoms (.ofFinset S)) b ↔ Body.Holds N b) := fun a ha b hb =>
    Body.holds_congr fun l hl => hatoms _ (h.completes.closed ha (Rules.depends_of_mem hb hl))
  refine ⟨S, hS, h.eval_iff.mpr ⟨fun a ha => ?_, fun c hc => ?_, fun a ha => ?_⟩, hatoms⟩
  · refine Completion.holds_definition_iff.mpr ⟨fun hne => ?_, fun b hb hv => ?_⟩
    · obtain ⟨b, hb⟩ := List.exists_mem_of_ne_nil _ hne
      have hsupported := hN.supported a (RuleBase.contains_of_mem_bodies hb)
      refine (hatoms a ha).trans (hsupported.trans ?_)
      exact exists_congr fun b => and_congr_right fun hb => (hbody a ha b hb).symm
    · have hmem : b.1 ∈ st.built.rules.bodies a := List.fst_mem_of_mem_zipIdx hb
      rw [hbody a ha b.1 hmem]
      exact (hvalues a ha _ hv).trans (RuleBase.denotes_body_iff hb)
  · have hleft := (h.clausesOf.holds_iff fun a ha =>
      hN.falsified a (Ascending.mem_union.mpr (.inl ha))).mpr hchoices
    obtain ⟨l, hl, hholds⟩ := hleft c hc
    exact ⟨l, hl, (Literal.holds_congr (hatoms _ (h.clauseAtoms c hc l hl))).mpr hholds⟩
  · rw [hatoms a (h.falsifiedAtoms a ha)]
    exact hN.falsified a ha

end Compiled

/-! ### Problems of annotated rules -/

/-- A problem that is compiled from annotated rules with names of their own and without a loop
through negation. -/
structure CompiledFrom (rs : List (Rule α)) (p : Program α) (problem : Problem α)
    (recs : List Record) (st : Unrolling α) (done : List Choices) (clauses : List (List Literal))
    (atoms : List Atom) : Prop extends Compiled p problem recs st done clauses atoms where
  grounds : Grounds rs p
  names : OwnNames rs
  stratified : (Rules.ofAnnotated rs).Stratified

/-- The choices of the rule number `r` were reached. -/
def IsReached (rs : List (Rule α)) (done : List Choices) (r : Fin rs.length) : Prop :=
  (rs.get r).choices r ∈ done

namespace CompiledFrom

variable {rs : List (Rule α)} {p : Program α} {problem : Problem α} {recs : List Record}
  {st : Unrolling α} {done : List Choices} {clauses : List (List Literal)} {atoms : List Atom}
  {x : Record} {a : Atom} {r : Fin rs.length}

/-! ### Choice atoms among the variables -/

theorem plain_atoms (h : CompiledFrom rs p problem recs st done clauses atoms) :
    ∀ a ∈ p.rules.atoms, a.Plain := by
  rw [h.grounds.rules]
  refine (RuleBase.within_ofRules ?_).atoms
  rintro ⟨a, b⟩ hx
  obtain ⟨r, i, rfl, rfl⟩ := mem_groundRules.mp hx
  refine ⟨(h.names.head (List.get_mem _ i)).1, fun l hl => ?_⟩
  rcases List.mem_cons.mp hl with rfl | hl
  · exact plain_choiceAtom r i
  · exact (h.names.body hl).1

theorem stratified_rules (h : CompiledFrom rs p problem recs st done clauses atoms) :
    p.rules.toRules.Stratified := h.grounds.stratified h.names h.stratified

theorem pending_eq_nil (h : CompiledFrom rs p problem recs st done clauses atoms) :
    st.pending = [] := h.reached.pending_eq_nil h.stratified_rules

/-- The open atoms that come up are choice atoms, since no others have weights. -/
theorem choice_of_open (h : CompiledFrom rs p problem recs st done clauses atoms) (hx : x ∈ recs)
    (hc : p.rules.contains x.atom = false) :
    ∃ (r : Fin rs.length) (i : Fin ((rs.get r).head.length + 1)),
      x.atom = Program.choiceAtom r i := by
  obtain ⟨recs', -, hj⟩ := h.reached.valid.exists_justified hx
  rcases hj.origin with ⟨-, -, -, hweights⟩ | ⟨hc', -⟩
  · exact h.grounds.choice_of_isSome_weight h.names.plainHeads hc (hweights false)
  · have hc' : p.rules.contains x.atom = true := hc'
    rw [hc] at hc'
    cases hc'

theorem plain_record (h : CompiledFrom rs p problem recs st done clauses atoms) (hx : x ∈ recs) :
    x.atom.Plain := by
  cases hc : p.rules.contains x.atom with
  | true => exact h.plain_atoms _ (RuleBase.mem_atoms_of_contains hc)
  | false =>
    obtain ⟨r, i, ha⟩ := h.choice_of_open hx hc
    rw [ha]
    exact plain_choiceAtom r i

/-- An atom that is completed is a name of a record, or an atom that was found false. -/
theorem exists_record (h : CompiledFrom rs p problem recs st done clauses atoms)
    (ha : a ∈ atoms) :
    ∃ x ∈ recs, x.variant.name = some a ∨ (x.atom = a ∧ x.variant = ⟨none, []⟩) := by
  rcases h.completes.grows.reached a ha with ⟨x, hx, hn⟩ | hpend | hf
  · exact ⟨x, hx, .inl hn⟩
  · rw [h.pending_eq_nil] at hpend
    simp at hpend
  · obtain ⟨x, hx, hxa, hv⟩ := h.reached.exists_of_falsified a hf
    exact ⟨x, hx, .inr ⟨hxa, hv⟩⟩

theorem plain_of_mem_atoms (h : CompiledFrom rs p problem recs st done clauses atoms)
    (ha : a ∈ atoms) : a.Plain := by
  obtain ⟨x, hx, hn | ⟨rfl, -⟩⟩ := h.exists_record ha
  · exact h.reached.valid.plain_of_name hx (h.plain_record hx) hn
  · exact h.plain_record hx

theorem choiceAtom_mem_taken (h : CompiledFrom rs p problem recs st done clauses atoms)
    (i : Fin ((rs.get r).head.length + 1)) :
    Program.choiceAtom r i ∈ (Unrolling.start p.weightedRules).taken :=
  mem_taken_of_weight (h.grounds.isSome_weight_choiceAtom h.names.plainHeads r i true)
    (plain_choiceAtom r i)

theorem choiceAtom_not_falsified (h : CompiledFrom rs p problem recs st done clauses atoms)
    (i : Nat) : Program.choiceAtom r i ∉ st.falsified := by
  intro hf
  obtain ⟨x, hx, ha, hv⟩ := h.reached.exists_of_falsified _ hf
  have hc : p.rules.contains x.atom = true := (h.reached.contains_of_eliminated hx hv).1
  rw [ha, h.grounds.not_contains_choiceAtom h.names] at hc
  cases hc

/-- A choice atom that is completed was visited under its own name. -/
theorem record_of_choiceAtom (h : CompiledFrom rs p problem recs st done clauses atoms)
    {i : Fin ((rs.get r).head.length + 1)} (ha : Program.choiceAtom r i ∈ atoms) :
    ∃ x ∈ recs, x.atom = Program.choiceAtom r i := by
  obtain ⟨x, hx, hn | ⟨hxa, -⟩⟩ := h.exists_record ha
  · rcases h.reached.valid.name_cases hx hn with ⟨-, hxa⟩ | ⟨-, -, hfresh⟩
    · exact ⟨x, hx, hxa.symm⟩
    · exact absurd (h.choiceAtom_mem_taken i) hfresh
  · exact ⟨x, hx, hxa⟩

/-- Only choice atoms of reached rules have variables. -/
theorem isReached_of_mem_atoms (h : CompiledFrom rs p problem recs st done clauses atoms)
    {i : Fin ((rs.get r).head.length + 1)} (ha : Program.choiceAtom r i ∈ atoms) :
    IsReached rs done r := by
  rcases h.choices _ (h.grounds.mem_choices_iff.mpr ⟨r, rfl⟩) with hdone | hunvisited
  · exact hdone
  · have hmem : Program.choiceAtom r i ∈ ((rs.get r).choices r).atoms :=
      List.mem_map.mpr ⟨i, List.mem_range.mpr i.2, rfl⟩
    have hvisited := h.reached.visited_iff.mpr (h.record_of_choiceAtom ha)
    rw [hunvisited _ hmem] at hvisited
    cases hvisited

/-- All choice atoms and body atoms of a reached rule are completed. -/
theorem completed_of_isReached (h : CompiledFrom rs p problem recs st done clauses atoms)
    (hr : IsReached rs done r) :
    (∀ i : Fin ((rs.get r).head.length + 1),
      Compiled.Completed recs st atoms (Program.choiceAtom r i)) ∧
    ∀ l ∈ (rs.get r).body, Compiled.Completed recs st atoms l.atom := by
  have hcompleted := h.completed_of_done hr (by simp) ?_
  · refine ⟨fun i => hcompleted.1 _ ?_, hcompleted.2⟩
    exact List.mem_map.mpr ⟨i, List.mem_range.mpr i.2, rfl⟩
  · intro a ha
    obtain ⟨i, -, rfl⟩ := List.mem_map.mp ha
    exact h.choiceAtom_not_falsified i

/-- A completed atom that is named like a choice atom is one, of a reached rule. -/
theorem choice_of_completed (h : CompiledFrom rs p problem recs st done clauses atoms)
    (ha : Compiled.Completed recs st atoms a) (hc : a.IsChoice) :
    ∃ (r : Fin rs.length) (i : Fin ((rs.get r).head.length + 1)),
      a = Program.choiceAtom r i ∧ IsReached rs done r := by
  obtain ⟨k, j, rfl⟩ := hc
  have hopen := h.grounds.not_contains_choiceAtom h.names k j
  obtain ⟨hmem, (⟨x, hx, hxa, -⟩ | hpend) | hf⟩ := ha
  · obtain ⟨r, i, heq⟩ := h.choice_of_open hx (by rw [hxa]; exact hopen)
    rw [hxa] at heq
    rw [heq] at hmem ⊢
    exact ⟨r, i, rfl, h.isReached_of_mem_atoms hmem⟩
  · rw [h.pending_eq_nil] at hpend
    simp at hpend
  · obtain ⟨x, hx, hxa, hv⟩ := h.reached.exists_of_falsified _ hf
    have hcontains : p.rules.contains x.atom = true :=
      (h.reached.contains_of_eliminated hx hv).1
    rw [hxa, hopen] at hcontains
    cases hcontains

/-! ### The selection that an assignment takes -/

variable {t t' : Assignment} {σ : Selection rs}

/-- If the rule was reached and its body is true, it has this outcome. -/
def Allows (done : List Choices) (problem : Problem α) (t : Assignment) (r : Fin rs.length)
    (i : Fin ((rs.get r).head.length + 1)) : Prop :=
  IsReached rs done r → Body.Holds (problem.trueAtoms t) (rs.get r).body →
    problem.trueAtoms t (Program.choiceAtom r i)

/-- Each reached rule whose body is true has the outcome that the selection picks. -/
def Takes (done : List Choices) (problem : Problem α) (t : Assignment) (σ : Selection rs) :
    Prop := ∀ r : Fin rs.length, Allows done problem t r (σ r)

/-- A satisfying assignment gives a reached rule one outcome if its body is true, and none
otherwise. -/
theorem outcomes (h : CompiledFrom rs p problem recs st done clauses atoms)
    (ht : problem.compilation.cnf.eval t = true) (hr : IsReached rs done r) :
    (∀ i j : Fin ((rs.get r).head.length + 1), problem.trueAtoms t (Program.choiceAtom r i) →
      problem.trueAtoms t (Program.choiceAtom r j) → i = j) ∧
    ((∃ i : Fin ((rs.get r).head.length + 1), problem.trueAtoms t (Program.choiceAtom r i)) ↔
      Body.Holds (problem.trueAtoms t) (rs.get r).body) :=
  Rule.holds_choices_iff.mp (h.holds_choices ht hr)

theorem trueAtoms_choiceAtom_iff (h : CompiledFrom rs p problem recs st done clauses atoms)
    (ht : problem.compilation.cnf.eval t = true) (hσ : Takes done problem t σ)
    (hr : IsReached rs done r) (i : Fin ((rs.get r).head.length + 1)) :
    problem.trueAtoms t (Program.choiceAtom r i) ↔
      i = σ r ∧ Body.Holds (problem.trueAtoms t) (rs.get r).body := by
  obtain ⟨hone, hsome⟩ := h.outcomes ht hr
  constructor
  · intro hi
    have hbody := hsome.mp ⟨i, hi⟩
    exact ⟨hone i (σ r) hi (hσ r hr hbody), hbody⟩
  · rintro ⟨rfl, hbody⟩
    exact hσ r hr hbody

/-- **Assignments and selections.** What an assignment says of an atom that keeps its name is
true under the selection that it takes. -/
theorem trueAtoms_iff_truth (h : CompiledFrom rs p problem recs st done clauses atoms)
    (ht : problem.compilation.cnf.eval t = true) (hσ : Takes done problem t σ)
    (ha : Compiled.Completed recs st atoms a) : problem.trueAtoms t a ↔ σ.truth a := by
  -- the outcomes that the assignment makes true, and those of all rules that were not reached
  let s : Interpretation := fun a => ∃ r : Fin rs.length,
    a = Program.choiceAtom r (σ r) ∧ (IsReached rs done r → problem.trueAtoms t a)
  have hopen : ∀ x ∈ recs, x.atom ∈ atoms → p.rules.contains x.atom = false →
      (s x.atom ↔ problem.trueAtoms t x.atom) := by
    intro x hx hmem hc
    obtain ⟨r, i, hxa⟩ := h.choice_of_open hx hc
    rw [hxa] at hmem ⊢
    have hr := h.isReached_of_mem_atoms hmem
    constructor
    · rintro ⟨r', heq, htrue⟩
      obtain rfl := Fin.ext (choiceAtom_inj heq).1
      exact htrue hr
    · intro htrue
      have hi := ((h.trueAtoms_choiceAtom_iff ht hσ hr i).mp htrue).1
      exact ⟨r, by rw [hi], fun _ => htrue⟩
  obtain ⟨-, hseeds⟩ := h.leastModel_values h.plain_atoms h.stratified_rules ht hopen
  have hassumes : σ.Assumes s (leastModel (p.rules.under s)) := by
    refine ⟨fun a ⟨r, ha, _⟩ => ⟨r, ha⟩, fun r hbody => ⟨r, rfl, fun hr => hσ r hr ?_⟩⟩
    refine (Body.holds_congr fun l hl => ?_).mpr hbody
    obtain ⟨hmem, hseeded⟩ := (h.completed_of_isReached hr).2 l hl
    exact hseeds l.atom hmem hseeded
  have hprogram : ∀ a, Compiled.Completed recs st atoms a → ¬ a.IsChoice →
      (problem.trueAtoms t a ↔ leastModel σ.program a) := fun a ha hc =>
    (hseeds a ha.1 ha.2).trans
      (Selection.leastModel_under_of_assumes h.grounds h.names h.stratified hassumes hc)
  by_cases hc : a.IsChoice
  · obtain ⟨r, i, rfl, hr⟩ := h.choice_of_completed ha hc
    rw [h.trueAtoms_choiceAtom_iff ht hσ hr, Selection.truth_choiceAtom_iff h.names h.stratified]
    refine and_congr_right fun _ => Body.holds_congr fun l hl => ?_
    exact hprogram l.atom ((h.completed_of_isReached hr).2 l hl) (h.names.body hl).2
  · rw [hprogram a ha hc, Selection.truth_iff_leastModel hc]

/-- Assignments that take the same selection agree on all variables. -/
theorem values_eq_of_takes (h : CompiledFrom rs p problem recs st done clauses atoms)
    (ht : problem.compilation.cnf.eval t = true) (ht' : problem.compilation.cnf.eval t' = true)
    (hσ : Takes done problem t σ) (hσ' : Takes done problem t' σ) :
    ∀ v ∈ problem.compilation.numbering.vars, problem.values t v = problem.values t' v := by
  have hatoms : ∀ a ∈ atoms, (problem.trueAtoms t a ↔ problem.trueAtoms t' a) := by
    refine IsSupported.agree (h.reached.wellFounded_depends h.pending_eq_nil)
      (fun a b ha hab => h.completes.closed ha hab) (h.supported ht) (h.supported ht') ?_
    intro a ha hb
    rcases h.open_or_falsified h.pending_eq_nil ha hb with ⟨x, hx, rfl, hc⟩ | hf
    · obtain ⟨r, i, hxa⟩ := h.choice_of_open hx hc
      rw [hxa] at ha ⊢
      have hcompleted := (h.completed_of_isReached (h.isReached_of_mem_atoms ha)).1 i
      rw [h.trueAtoms_iff_truth ht hσ hcompleted, h.trueAtoms_iff_truth ht' hσ' hcompleted]
    · have hf' : a ∈ (st.finish p.evidence).falsified := Ascending.mem_union.mpr (.inl hf)
      exact iff_of_false ((h.eval_iff.mp ht).2.2 a hf') ((h.eval_iff.mp ht').2.2 a hf')
  intro v hv
  obtain ⟨a, ha, hva⟩ := h.mem_vars.mp hv
  rw [Bool.eq_iff_iff]
  cases v with
  | atom b =>
    obtain rfl := Completion.mem_varsOf_atom.mp hva
    exact hatoms b ha
  | body b i =>
    obtain ⟨rfl, body, hb⟩ := Completion.body_of_mem_varsOf hva
    rw [h.values_body_iff ht ha hb hva, h.values_body_iff ht' ha hb hva]
    refine Body.holds_congr fun l hl => hatoms _ (h.completes.closed ha ?_)
    exact Rules.depends_of_mem (List.fst_mem_of_mem_zipIdx hb) hl

/-- The truth under a selection extends to a satisfying assignment that takes it. -/
theorem exists_takes (h : CompiledFrom rs p problem recs st done clauses atoms)
    (σ : Selection rs) :
    ∃ S ⊆ Finset.Icc 1 problem.compilation.numbering.vars.length,
      problem.compilation.cnf.eval (.ofFinset S) = true ∧
      Takes done problem (.ofFinset S) σ := by
  obtain ⟨N, hN⟩ := h.reached.exists_isModel h.pending_eq_nil p.evidence σ.choiceTruth
  obtain ⟨-, hseeds⟩ := h.reached.leastModel_of_isModel h.pending_eq_nil h.plain_atoms
    h.stratified_rules hN
  have htruth : ∀ a, Seeded recs st a → (N a ↔ σ.truth a) := fun a ha =>
    (hseeds a ha).trans
      (Selection.leastModel_under_choiceTruth h.grounds h.names h.stratified σ)
  have hchoice : ∀ r, IsReached rs done r → ∀ i : Fin ((rs.get r).head.length + 1),
      (N (Program.choiceAtom r i) ↔ i = σ r ∧ Body.Holds N (rs.get r).body) := by
    intro r hr i
    obtain ⟨hatoms, hbody⟩ := h.completed_of_isReached hr
    rw [htruth _ (hatoms i).2, Selection.truth_choiceAtom_iff h.names h.stratified]
    refine and_congr_right fun _ => Body.holds_congr fun l hl => ?_
    rw [htruth _ (hbody l hl).2, Selection.truth_iff_leastModel (h.names.body hl).2]
  obtain ⟨S, hS, heval, hagree⟩ := h.exists_eval_of_isModel hN fun c hc => by
    obtain ⟨r, rfl⟩ := h.grounds.mem_choices_iff.mp (h.mem_choices c hc)
    refine Rule.holds_choices_iff.mpr ⟨fun i j hi hj => ?_, ⟨?_, fun hbody => ?_⟩⟩
    · exact ((hchoice r hc i).mp hi).1.trans ((hchoice r hc j).mp hj).1.symm
    · rintro ⟨i, hi⟩
      exact ((hchoice r hc i).mp hi).2
    · exact ⟨σ r, (hchoice r hc (σ r)).mpr ⟨rfl, hbody⟩⟩
  refine ⟨S, hS, heval, fun r hr hbody => ?_⟩
  obtain ⟨hatoms, hbodyAtoms⟩ := h.completed_of_isReached hr
  rw [hagree _ (hatoms (σ r)).1, hchoice r hr]
  exact ⟨rfl, (Body.holds_congr fun l hl => hagree _ (hbodyAtoms l hl).1).mp hbody⟩

/-- **Each selection is taken once.** Exactly one satisfying assignment of the variables takes
the outcomes of a selection. -/
theorem existsUnique_takes (h : CompiledFrom rs p problem recs st done clauses atoms)
    (σ : Selection rs) :
    ∃! S, S ⊆ Finset.Icc 1 problem.compilation.numbering.vars.length ∧
      problem.compilation.cnf.eval (.ofFinset S) = true ∧
      Takes done problem (.ofFinset S) σ := by
  obtain ⟨S, hS, heval, hσ⟩ := h.exists_takes σ
  refine ⟨S, ⟨hS, heval, hσ⟩, ?_⟩
  rintro S' ⟨hS', heval', hσ'⟩
  have hnodup : problem.compilation.numbering.vars.Nodup := by
    rw [h.compilation]
    exact h.completes.nodup_vars
  exact eq_of_valuation_eq hnodup hS' hS (h.values_eq_of_takes heval' heval hσ' hσ)

end CompiledFrom

end ProbLogic
