/-
# The variables of a compiled CNF

The header of a CNF counts the variables that occur in clauses, while numbers
are given to all atoms that come up. For compiled statements the two agree: the
variables of the CNF are all the numbers that were given (`vars_compile`).

An atom with rules, and the bodies of it that have a variable, occur in its own
definition (`exists_mem_definition`). An atom without rules that was found
false, or is still pending when the unrolling ends, is denied by a clause.
What remains are open atoms with weights. Since the heads of a program have
plain names, these are choice atoms (`Grounds.choice_of_isSome_weight`), and
the choices of their rule have been reached. The clauses on these choices may
be dropped or lose literals, but not all that mention the atom: if the clause
that the body gives an outcome is dropped, then some literal of the body cannot
hold, and the clause is left in which the choice atom demands that literal
(`Compiled.exists_clause_of_done`).

With heads whose names start with a dash, the weights of `-a` and of the
negation of `a` are one. Then an atom that is neither a head nor a choice atom
can have both weights, and a number that no clause has
(`vars_compile_dashedHeads`).

Key theorems: `Completes.vars_finish`, `Compiled.exists_clause_of_done`,
`Compiled.occurs`, `vars_compile`.
-/
import ProbLogic.Proofs.Cnf.Atomicity
import ProbLogic.Proofs.Cnf.Dimacs
import ProbLogic.Proofs.Count

namespace ProbLogic

variable {α : Type}

/-! ### Numbers that occur -/

namespace Completion

variable {rules : RuleBase} {a : Atom} {v : Variable}

/-- The variables of an atom with rules occur in its definition, all in the last clause. -/
theorem exists_mem_definition (hv : v ∈ varsOf rules a) (h₀ : rules.bodies a ≠ []) :
    ∃ c ∈ definition rules a, ∃ x ∈ c, x.1 = v := by
  by_cases h₁ : ∃ body, rules.bodies a = [body]
  · obtain ⟨body, hbody⟩ := h₁
    have hvars : varsOf rules a = [.atom a] := by simp [varsOf, hbody]
    have hdef : definition rules a = conjunctionClauses (.atom a) body := by
      simp [definition, hbody]
    rw [hvars, List.mem_singleton] at hv
    rw [hdef, hv]
    exact ⟨_, List.mem_append_right _ (List.mem_singleton_self _), (.atom a, true),
      List.mem_cons_self, rfl⟩
  · have h₁ : ∀ body, rules.bodies a ≠ [body] := fun body hb => h₁ ⟨body, hb⟩
    rw [varsOf_of_several h₀ h₁] at hv
    rw [definition_of_several h₀ h₁]
    refine ⟨_, List.mem_append_right _ (List.mem_singleton_self _), ?_⟩
    rcases List.mem_cons.mp hv with rfl | hv
    · exact ⟨(.atom a, false), List.mem_cons_self, rfl⟩
    · obtain ⟨b, hb, rfl⟩ := List.mem_map.mp hv
      exact ⟨(.body a b.2, true), List.mem_cons_of_mem _ (List.mem_map.mpr ⟨b, hb, rfl⟩), rfl⟩

variable {reached : Atom → Prop} {s : Completion} {atoms : List Atom}
  {extra : List (List SignedVariable)} [Scalar α]

/-- The variables of the CNF are the numbers of what occurs in the clauses. -/
theorem Completes.mem_vars_finish (h : Completes rules reached s atoms extra)
    (w : Weights Literal α) {i : Nat} :
    i ∈ (s.finish w).cnf.vars ↔
      ∃ c ∈ s.clauses.toList, ∃ x ∈ c, s.numbering.vars.idxOf x.1 + 1 = i := by
  simp only [Cnf.mem_vars, finish, List.mem_map, exists_exists_and_eq_and]
  refine exists_congr fun c => and_congr_right fun hc => exists_congr fun x =>
    and_congr_right fun hx => ?_
  rw [natAbs_encode (h.numbered_of_mem_clauses hc x hx)]

theorem isAscending_range' (start n : Nat) : Ascending.IsAscending (List.range' start n) :=
  (List.pairwise_lt_range' 1).imp Nat.compare_eq_lt.mpr

/-- If each variable occurs in a clause, the variables of the CNF are all the numbers. -/
theorem Completes.vars_finish (h : Completes rules reached s atoms extra) (w : Weights Literal α)
    (hall : ∀ v ∈ s.numbering.vars, ∃ c ∈ s.clauses.toList, ∃ x ∈ c, x.1 = v) :
    (s.finish w).cnf.vars = List.range' 1 s.numbering.vars.length := by
  refine Ascending.eq_of_mem_iff (Ascending.isAscending_ofList _) (isAscending_range' 1 _) ?_
  intro i
  show i ∈ (s.finish w).cnf.vars ↔ _
  rw [h.mem_vars_finish w, List.mem_range'_1]
  constructor
  · intro hi
    obtain ⟨c, hc, x, hx, rfl⟩ := hi
    have hlt := List.idxOf_lt_length_of_mem (h.numbered_of_mem_clauses hc x hx)
    omega
  · intro hi
    have hlt : i - 1 < s.numbering.vars.length := by omega
    obtain ⟨c, hc, x, hx, hxv⟩ := hall _ (List.getElem_mem hlt)
    refine ⟨c, hc, x, hx, ?_⟩
    rw [hxv, h.nodup_vars.idxOf_getElem _ hlt]
    omega

end Completion

/-! ### Choice atoms -/

namespace Compiled

variable [Scalar α] {p : Program α} {problem : Problem α} {recs : List Record} {st : Unrolling α}
  {done : List Choices} {clauses : List (List Literal)} {atoms : List Atom} {a : Atom}
  {rs : List (Rule α)}

/-- A choice atom of a rule that is reached occurs in a clause that is left, unless the atom was
found false. -/
theorem exists_clause_of_done (h : Compiled p problem recs st done clauses atoms) {as : List Atom}
    {body : List Literal} (hc : Choices.ofBody as body ∈ done) (ha : a ∈ as)
    (hf : a ∉ st.falsified) : ∃ left ∈ clauses, ∃ l ∈ left, l.atom = a := by
  have hcoverage : Choices.coverage as body ∈ (Choices.ofBody as body).clauses :=
    List.mem_append_right _ (List.mem_singleton_self _)
  have hmem : .pos a ∈ Choices.coverage as body := List.mem_append_left _ (List.mem_map_of_mem ha)
  obtain ⟨r, hout, hleft⟩ := h.clausesOf.outcome _ hc _ hcoverage
  cases r with
  | some left =>
    obtain ⟨-, -, hmissing⟩ := hout
    rcases hmissing _ hmem with hl | ⟨-, hfalse⟩
    · exact ⟨left, hleft left rfl, .pos a, hl, rfl⟩
    · exact absurd hfalse hf
  | none =>
    -- a literal of the body cannot hold, so the clause in which the atom demands it keeps the atom
    obtain ⟨k, hk, hn, hkf⟩ := hout
    rcases List.mem_append.mp hk with hk | hk
    · obtain ⟨b, -, rfl⟩ := List.mem_map.mp hk
      cases hn
    obtain ⟨l, hl, rfl⟩ := List.mem_map.mp hk
    have hrequirement : [.neg a, l] ∈ (Choices.ofBody as body).clauses := by
      refine List.mem_append_left _ (List.mem_append_right _ ?_)
      exact List.mem_flatMap.mpr ⟨l, hl, List.mem_map.mpr ⟨a, ha, rfl⟩⟩
    obtain ⟨r, hout, hleft⟩ := h.clausesOf.outcome _ hc _ hrequirement
    cases r with
    | some left =>
      obtain ⟨-, -, hmissing⟩ := hout
      rcases hmissing _ List.mem_cons_self with hmem | ⟨hpos, -⟩
      · exact ⟨left, hleft left rfl, .neg a, hmem, rfl⟩
      · cases hpos
    | none =>
      obtain ⟨k, hk, hkn, hkf⟩ := hout
      rcases List.mem_cons.mp hk with rfl | hk
      · exact absurd hkf hf
      · rw [List.mem_singleton.mp hk] at hkn
        simp [Literal.negate, hkn] at hn

/-- An open atom is not found false. -/
theorem not_falsified_of_open (h : Compiled p problem recs st done clauses atoms)
    (hc : p.rules.contains a = false) : a ∉ st.falsified := by
  intro hf
  obtain ⟨x, hx, rfl, hv⟩ := h.reached.exists_of_falsified a hf
  have hgiven : p.rules.contains x.atom = true := (h.reached.contains_of_eliminated hx hv).1
  rw [hc] at hgiven
  cases hgiven

/-- A completed atom without rules occurs in a clause on choices, or in one that denies it. -/
theorem exists_extra (h : Compiled p problem recs st done clauses atoms) (hg : Grounds rs p)
    (hplain : PlainHeads rs) (ha : a ∈ atoms) (hb : st.built.rules.bodies a = []) :
    ∃ c ∈ clauses.map (List.map Literal.signed) ++
        (st.finish p.evidence).falsified.map (fun a => [(.atom a, false)]),
      ∃ x ∈ c, x.1 = .atom a := by
  rcases h.open_or_denied ha hb with ⟨x, hx, hxa, hc, hweights⟩ | hf
  · obtain ⟨r, i, hri⟩ := hg.choice_of_isSome_weight hplain hc (hweights false)
    have hmem : a ∈ ((rs.get r).choices r).atoms := by
      rw [hri]
      exact List.mem_map_of_mem (List.mem_range.mpr i.2)
    have hvisited : st.visited a = true := h.reached.visited_iff.mpr ⟨x, hx, hxa⟩
    have hdone : (rs.get r).choices r ∈ done := h.mem_done_iff.mpr
      ⟨hg.mem_choices_iff.mpr ⟨r, rfl⟩, List.any_eq_true.mpr ⟨a, hmem, hvisited⟩⟩
    obtain ⟨left, hleft, l, hl, hla⟩ :=
      h.exists_clause_of_done hdone hmem (h.not_falsified_of_open hc)
    refine ⟨left.map Literal.signed, List.mem_append_left _ (List.mem_map_of_mem hleft), l.signed,
      List.mem_map_of_mem hl, ?_⟩
    rw [Literal.signed, hla]
  · exact ⟨_, List.mem_append_right _ (List.mem_map_of_mem hf), (.atom a, false),
      List.mem_singleton_self _, rfl⟩

/-- **Every variable occurs** in a clause, if the heads of the rules have plain names. -/
theorem occurs (h : Compiled p problem recs st done clauses atoms) (hg : Grounds rs p)
    (hplain : PlainHeads rs) :
    ∀ v ∈ (p.completion (st.finish p.evidence) clauses).numbering.vars,
      ∃ c ∈ (p.completion (st.finish p.evidence) clauses).clauses.toList, ∃ x ∈ c, x.1 = v := by
  intro v hv
  obtain ⟨a, ha, hva⟩ := h.completes.mem_vars.mp hv
  by_cases hb : st.built.rules.bodies a = []
  · obtain rfl : v = .atom a := by simpa [Completion.varsOf, hb] using hva
    obtain ⟨c, hc, hx⟩ := h.exists_extra hg hplain ha hb
    exact ⟨c, h.completes.mem_clauses.mpr (.inl hc), hx⟩
  · obtain ⟨c, hc, hx⟩ := Completion.exists_mem_definition hva hb
    exact ⟨c, h.completes.mem_clauses.mpr (.inr ⟨a, ha, hc⟩), hx⟩

/-- Queries and evidence are numbered. -/
theorem mem_range_of_seed (h : Compiled p problem recs st done clauses atoms) {v : Int}
    (hv : v ∈ problem.queries ++ problem.evidence) :
    1 ≤ v.natAbs ∧ v.natAbs ≤ problem.compilation.numbering.vars.length := by
  have hseeds : ∀ l ∈ p.queries ++ (st.finish p.evidence).evidence,
      .atom l.atom ∈ problem.compilation.numbering.vars := fun l hl =>
    h.mem_vars.mpr ⟨l.atom, h.seedAtoms l hl, Completion.mem_varsOf_atom.mpr rfl⟩
  obtain ⟨hqueries, hevidence⟩ := List.forall_mem_append.mp hseeds
  have hencoded : ∃ l : Literal, .atom l.atom ∈ problem.compilation.numbering.vars ∧
      Completion.encode problem.compilation.numbering l.signed = v := by
    rw [h.queryNumbers, h.evidenceNumbers] at hv
    rcases List.mem_append.mp hv with hv | hv
    · obtain ⟨l, hl, hlv⟩ := (mem_signedNumbers_iff hqueries).mp hv
      exact ⟨l, hqueries l hl, hlv⟩
    · obtain ⟨l, hl, hlv⟩ := (mem_signedNumbers_iff hevidence).mp hv
      exact ⟨l, hevidence l hl, hlv⟩
  obtain ⟨l, hl, rfl⟩ := hencoded
  rw [Completion.natAbs_encode (x := l.signed) hl]
  have hlt := List.idxOf_lt_length_of_mem hl
  exact ⟨Nat.succ_pos _, hlt⟩

end Compiled

/-! ### The header -/

/-- **The variables of a compiled CNF.** Let statements be grounded whose heads have plain names,
queries and evidence be added and the program be compiled. The variables of the CNF are exactly
the numbers from one to the number of variables of the numbering. So the header gives this
number, and no signed variable in the clauses, the queries and the evidence exceeds it. -/
theorem vars_compile [Scalar α] {statements : List (Statement α)} {p₀ p : Program α}
    (hground : Program.ofStatements statements = .ok p₀) (queries evidence : List Literal)
    (hp : p = evidence.foldl Program.addEvidence (queries.foldl Program.addQuery p₀))
    {problem : Problem α} {log : List (Event α)} (hcompile : p.compile = (.ok problem, log))
    (hplain : PlainHeads (annotatedRules statements)) :
    let cnf := problem.compilation.cnf
    let n := problem.compilation.numbering.vars.length
    cnf.vars = List.range' 1 n ∧ cnf.header = s!"p cnf {n} {cnf.clauses.length}" ∧
    (∀ c ∈ cnf.clauses, ∀ v ∈ c, 1 ≤ v.natAbs ∧ v.natAbs ≤ n) ∧
    ∀ v ∈ problem.queries ++ problem.evidence, 1 ≤ v.natAbs ∧ v.natAbs ≤ n := by
  intro cnf n
  have hg : Grounds (annotatedRules statements) p := by
    rw [hp]
    refine List.foldlRecOn evidence _ ?_ fun p hp l _ => hp.addEvidence l
    exact List.foldlRecOn queries _ (ofStatements_grounds hground) fun p hp l _ => hp.addQuery l
  obtain ⟨recs, st, done, clauses, atoms, h⟩ := exists_compiled hcompile
  have hvars : cnf.vars = List.range' 1 n := by
    show problem.compilation.cnf.vars = List.range' 1 problem.compilation.numbering.vars.length
    rw [h.compilation]
    exact h.completes.vars_finish st.built.weights (h.occurs hg hplain)
  refine ⟨hvars, ?_, fun c hc v hv => ?_, fun v hv => h.mem_range_of_seed hv⟩
  · rw [Cnf.header, hvars, List.length_range']
  · have hmem : v.natAbs ∈ cnf.vars := Cnf.mem_vars.mpr ⟨c, hc, v, hv, rfl⟩
    rw [hvars, List.mem_range'_1] at hmem
    omega

/-- Two atoms that need each other to be false, an atom that supports only itself, and one that
needs the former to be false. -/
def mixedLoops : List (Statement Rat) :=
  [.ofHead (1 / 2) ⟨"a"⟩ [.neg ⟨"b"⟩], .ofHead (1 / 3) ⟨"b"⟩ [.neg ⟨"a"⟩],
    .ofHead 1 ⟨"s"⟩ [.pos ⟨"s"⟩], .ofHead (1 / 4) ⟨"d"⟩ [.neg ⟨"s"⟩, .pos ⟨"a"⟩]]

/-- The atom without a derivation and all choice atoms have clauses of their own. -/
theorem vars_compile_mixedLoops :
    ∃ p₀ problem log, Program.ofStatements mixedLoops = .ok p₀ ∧
      (((p₀.addQuery (.pos ⟨"d"⟩)).addQuery (.pos (Program.choiceAtom 2 1))).addEvidence
        (.neg ⟨"b"⟩)).compile = (.ok problem, log) ∧
      PlainHeads (annotatedRules mixedLoops) ∧
      problem.compilation.cnf.vars = List.range' 1 12 := by
  obtain ⟨p₀, _, problem, log, hground, rfl, hcompile, htest⟩ :=
    exists_of_compileStatements? mixedLoops [.pos ⟨"d"⟩, .pos (Program.choiceAtom 2 1)]
      [.neg ⟨"b"⟩] (fun x => decide (x.2.compilation.numbering.vars.length = 12))
      (by decide +kernel)
  have hplain : PlainHeads (annotatedRules mixedLoops) :=
    (ownNames_of_head? (by decide)).plainHeads
  obtain ⟨hvars, -⟩ := vars_compile hground _ _ rfl hcompile hplain
  rw [of_decide_eq_true htest] at hvars
  exact ⟨p₀, problem, log, hground, hcompile, hplain, hvars⟩

/-- The negation of `a` and the atom `-a` are not told apart, nor are that of `-a` and the atom
`--a`. -/
def dashedHeads : List (Statement Rat) := [.ofHead (1 / 2) ⟨"a"⟩ [], .ofHead (1 / 2) ⟨"--a"⟩ []]

/-- **A number that no clause has.** The atom `-a` is neither a head nor a choice atom, but it
takes both its weights from the heads, and so can be asked for. -/
theorem vars_compile_dashedHeads :
    ∃ p₀ problem log, Program.ofStatements dashedHeads = .ok p₀ ∧
      (p₀.addQuery (.pos ⟨"-a"⟩)).compile = (.ok problem, log) ∧
      problem.compilation.numbering.vars = [.atom ⟨"-a"⟩] ∧ problem.queries = [1] ∧
      problem.compilation.cnf.vars = [] := by
  obtain ⟨p₀, _, problem, log, hground, rfl, hcompile, htest⟩ :=
    exists_of_compileStatements? dashedHeads [.pos ⟨"-a"⟩] []
      (fun x => decide (x.2.compilation.numbering.vars = [.atom ⟨"-a"⟩] ∧ x.2.queries = [1] ∧
        x.2.compilation.cnf.vars = [])) (by decide +kernel)
  exact ⟨p₀, problem, log, hground, hcompile, of_decide_eq_true htest⟩

end ProbLogic
