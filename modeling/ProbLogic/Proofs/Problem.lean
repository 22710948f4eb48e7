/-
# What a compiled problem consists of

After queries and evidence, the clauses of the choices that are reached are
resolved, round by round. When this ends, no other choices have an atom that
was reached (`ResolvesReached`). A resolved clause has the literals whose
atoms keep their names. A literal that is missing has an atom that was found
false, and a clause that is missing as a whole has a literal that holds
(`ClauseOutcome`).

An assignment satisfies the compiled CNF exactly if it supports the atoms that
are completed, makes false what was found false, and satisfies the resolved
clauses (`Compiled.eval_iff`). Read in an interpretation that agrees with it,
the last are as good as the original clauses (`ClauseOutcome.holds_iff`).

Without a loop through negation such an assignment is part of a model of the
unrolled rules under its own values (`Compiled.exists_isModel`), so that what
is known of these models holds of it.

Key definitions: `ClauseOutcome`, `ResolvesReached`, `Compiled`.
Key theorems: `leads_reachedClauses`, `exists_compiled`, `Compiled.eval_iff`,
`Compiled.exists_isModel`.
-/
import ProbLogic.Problem
import ProbLogic.Proofs.Calls
import ProbLogic.Proofs.Unrolling.Meaning

namespace ProbLogic

open UnrollM

variable {α : Type} {given : WeightedRules α} {recs recs' : List Record} {st st' : Unrolling α}

/-! ### The clauses of reached choices -/

/-- What became of a clause. If it is left, its literals keep their names and those that are
missing cannot hold. If it is dropped, some literal of it holds. -/
def ClauseOutcome (recs : List Record) (st : Unrolling α) (clause : List Literal) :
    Option (List Literal) → Prop
  | some left => left ⊆ clause ∧ (∀ l ∈ left, Named recs st.pending l.atom) ∧
      ∀ l ∈ clause, l ∈ left ∨ (l.positive = true ∧ l.atom ∈ st.falsified)
  | none => ∃ l ∈ clause, l.positive = false ∧ l.atom ∈ st.falsified

theorem ClauseOutcome.mono {clause : List Literal} {r : Option (List Literal)}
    (h : ClauseOutcome recs st clause r) (hsteps : Steps given recs st recs' st') :
    ClauseOutcome recs' st' clause r := by
  cases r with
  | some left =>
    obtain ⟨hsub, hnamed, hmissing⟩ := h
    refine ⟨hsub, fun l hl => (hnamed l hl).mono hsteps, fun l hl => ?_⟩
    exact (hmissing l hl).imp id fun ⟨hp, hf⟩ => ⟨hp, hsteps.falsified_subset hf⟩
  | none =>
    obtain ⟨l, hl, hp, hf⟩ := h
    exact ⟨l, hl, hp, hsteps.falsified_subset hf⟩

theorem leads_resolveClause (clause : List Literal) (hr : Reached given recs st)
    (hb : st.building = []) :
    Leads given recs st (resolveClause given clause) fun recs' st' r =>
      ClauseOutcome recs' st' clause r := by
  induction clause generalizing recs st with
  | nil => exact .pure ⟨List.Subset.refl _, by simp, by simp⟩
  | cons l clause ih =>
    refine .bind (leads_resolveSeed l hr hb) ?_
    intro recs₁ st₁ r hsteps₁ hb₁ hl
    have hrest := ih (hr.trans hsteps₁) (hb₁.trans hb)
    rcases hl with ⟨hnamed, rfl⟩ | ⟨hf, rfl⟩
    · refine .bind hrest ?_
      intro recs₂ st₂ r hsteps₂ _ hclause
      refine .pure ?_
      cases r with
      | none =>
        obtain ⟨k, hk, hout⟩ := hclause
        exact ⟨k, List.mem_cons_of_mem _ hk, hout⟩
      | some left =>
        obtain ⟨hsub, hnamed', hmissing⟩ := hclause
        refine ⟨List.cons_subset_cons l hsub, fun k hk => ?_, fun k hk => ?_⟩
        · rcases List.mem_cons.mp hk with rfl | hk
          · exact hnamed.mono hsteps₂
          · exact hnamed' k hk
        · rcases List.mem_cons.mp hk with rfl | hk
          · exact .inl List.mem_cons_self
          · exact (hmissing k hk).imp (List.mem_cons_of_mem _) id
    · cases hp : l.positive with
      | true =>
        rw [if_pos rfl]
        refine hrest.mono ?_
        intro recs₂ st₂ r hsteps₂ hclause
        cases r with
        | none =>
          obtain ⟨k, hk, hout⟩ := hclause
          exact ⟨k, List.mem_cons_of_mem _ hk, hout⟩
        | some left =>
          obtain ⟨hsub, hnamed', hmissing⟩ := hclause
          refine ⟨List.subset_cons_of_subset _ hsub, hnamed', fun k hk => ?_⟩
          rcases List.mem_cons.mp hk with rfl | hk
          · exact .inr ⟨hp, hsteps₂.falsified_subset hf⟩
          · exact hmissing k hk
      | false =>
        rw [if_neg Bool.false_ne_true]
        exact .pure ⟨l, List.mem_cons_self, hp, hf⟩

theorem leads_resolveClauses (clauses : List (List Literal)) (hr : Reached given recs st)
    (hb : st.building = []) :
    Leads given recs st (clauses.mapM (resolveClause given)) fun recs' st' rs =>
      List.Forall₂ (ClauseOutcome recs' st') clauses rs := by
  induction clauses generalizing recs st with
  | nil => exact .pure .nil
  | cons c clauses ih =>
    rw [List.mapM_cons]
    refine .bind (leads_resolveClause c hr hb) ?_
    intro recs₁ st₁ r hsteps₁ hb₁ hc
    refine .bind (ih (hr.trans hsteps₁) (hb₁.trans hb)) ?_
    intro recs₂ st₂ rs hsteps₂ _ hrs
    exact .pure (.cons (hc.mono hsteps₂) hrs)

/-- The clauses are what is left of those of the choices. -/
structure ClausesOf (recs : List Record) (st : Unrolling α) (choices : List Choices)
    (clauses : List (List Literal)) : Prop where
  outcome : ∀ c ∈ choices, ∀ clause ∈ c.clauses, ∃ r, ClauseOutcome recs st clause r ∧
    ∀ left, r = some left → left ∈ clauses
  source : ∀ left ∈ clauses, ∃ c ∈ choices, ∃ clause ∈ c.clauses,
    ClauseOutcome recs st clause (some left)

theorem clausesOf_of_forall₂ {choices : List Choices} {rs : List (Option (List Literal))}
    (h : List.Forall₂ (ClauseOutcome recs st) (choices.flatMap Choices.clauses) rs) :
    ClausesOf recs st choices (rs.filterMap id) where
  outcome c hc clause hclause := by
    obtain ⟨i, hi, rfl⟩ := List.getElem_of_mem (List.mem_flatMap.mpr ⟨c, hc, hclause⟩)
    have hi' : i < rs.length := h.length_eq ▸ hi
    refine ⟨rs[i], h.get hi hi', fun left hleft => ?_⟩
    exact List.mem_filterMap.mpr ⟨rs[i], List.getElem_mem hi', hleft⟩
  source left hleft := by
    obtain ⟨r, hr, hid⟩ := List.mem_filterMap.mp hleft
    obtain ⟨i, hi, rfl⟩ := List.getElem_of_mem hr
    have hi' : i < (choices.flatMap Choices.clauses).length := h.length_eq ▸ hi
    obtain ⟨c, hc, hclause⟩ := List.mem_flatMap.mp (List.getElem_mem hi')
    have hout := h.get hi' hi
    exact ⟨c, hc, _, hclause, by simpa [show rs[i] = some left from hid] using hout⟩

theorem Reached.visited_mono (hr : Reached given recs st) (hsteps : Steps given recs st recs' st')
    {a : Atom} (h : st.visited a = true) : st'.visited a = true := by
  have hr' : Reached given recs' st' := hr.trans hsteps
  obtain ⟨x, hx, ha⟩ := hr.visited_iff.mp h
  exact hr'.visited_iff.mpr ⟨x, hsteps.recs_subset hx, ha⟩

/-- The elements that meet a condition are those that meet a stronger one, and those that meet
only the weaker. -/
theorem perm_filter_of_imp {β : Type} {f g : β → Bool} (h : ∀ x, f x = true → g x = true)
    (xs : List β) : (xs.filter f ++ (xs.filter fun x => !f x).filter g).Perm (xs.filter g) := by
  have hleft : (xs.filter g).filter f = xs.filter f := by
    rw [List.filter_filter]
    refine List.filter_congr fun x _ => ?_
    rw [Bool.and_eq_left_iff_imp]
    exact h x
  rw [List.filter_comm, ← hleft]
  exact List.filter_append_perm f (xs.filter g)

/-- The clauses of some choices are resolved in turn, and these are, in some order, the choices
with an atom that is visited in the end. -/
structure ResolvesReached (given : WeightedRules α) (choices : List Choices) (st : Unrolling α)
    (done : List Choices) (rs : List (Option (List Literal))) (st' : Unrolling α) : Prop where
  run : ((done.flatMap Choices.clauses).mapM (resolveClause given)).runOn st = (.ok rs, st')
  perm : done.Perm (choices.filter fun c => c.atoms.any st'.visited)

theorem resolvesReached_nil {choices : List Choices}
    (h : choices.filter (fun c => c.atoms.any st.visited) = []) :
    ResolvesReached given choices st [] [] st := ⟨rfl, by rw [h]⟩

/-- A round comes before the others: the choices that are reached at its start stay reached. -/
theorem ResolvesReached.cons {choices done : List Choices} {rs rs' : List (Option (List Literal))}
    {st₁ : Unrolling α} (hvisited : ∀ a, st.visited a = true → st'.visited a = true)
    (hround : (((choices.filter fun c => c.atoms.any st.visited).flatMap Choices.clauses).mapM
      (resolveClause given)).runOn st = (.ok rs, st₁))
    (h : ResolvesReached given (choices.filter fun c => !c.atoms.any st.visited) st₁ done rs' st') :
    ResolvesReached given choices st ((choices.filter fun c => c.atoms.any st.visited) ++ done)
      (rs ++ rs') st' where
  run := by
    rw [List.flatMap_append, List.mapM_append, runOn_bind, hround]
    simp only
    rw [runOn_bind, h.run]
    rfl
  perm := by
    refine (h.perm.append_left _).trans (perm_filter_of_imp (fun c hc => ?_) choices)
    obtain ⟨a, ha, hv⟩ := List.any_eq_true.mp hc
    exact List.any_eq_true.mpr ⟨a, ha, hvisited a hv⟩

/-- **The choices that are reached.** When the rounds end, the clauses are what is left of those
of the choices with an atom that is visited. -/
theorem leads_reachedClauses {rounds : Nat} {unreached : List Choices}
    (hr : Reached given recs st) (hb : st.building = []) (hrounds : unreached.length ≤ rounds) :
    Leads given recs st (reachedClauses given rounds unreached) fun recs' st' clauses =>
      ∃ done rs, ResolvesReached given unreached st done rs st' ∧ clauses = rs.filterMap id ∧
        List.Forall₂ (ClauseOutcome recs' st') (done.flatMap Choices.clauses) rs := by
  induction rounds generalizing recs st unreached with
  | zero =>
    obtain rfl : unreached = [] := List.eq_nil_of_length_eq_zero (by omega)
    exact .pure ⟨[], [], resolvesReached_nil rfl, rfl, .nil⟩
  | succ rounds ih =>
    rw [reachedClauses]
    refine .get_bind ?_
    rw [List.partition_eq_filter_filter]
    set reached := unreached.filter fun c => c.atoms.any st.visited
    set rest := unreached.filter (not ∘ fun c => c.atoms.any st.visited)
    show Leads given recs st (if reached.isEmpty = true then _ else _) _
    split
    · next hempty =>
      have hnil : reached = [] := by simpa using hempty
      exact .pure ⟨[], [], resolvesReached_nil hnil, rfl, .nil⟩
    · next hempty =>
      have hlt : rest.length < unreached.length := by
        obtain ⟨c, hc⟩ := List.exists_mem_of_ne_nil reached (by simpa using hempty)
        obtain ⟨hc, hv⟩ := List.mem_filter.mp hc
        exact List.length_filter_lt_length_iff_exists.mpr ⟨c, hc, by simpa using hv⟩
      refine .bind (leads_resolveClauses _ hr hb).with_run ?_
      intro recs₁ st₁ rs hsteps₁ hb₁ hpost₁
      obtain ⟨hrs, hround⟩ := hpost₁
      refine .bind (ih (hr.trans hsteps₁) (hb₁.trans hb) (by omega)) ?_
      intro recs₂ st₂ others hsteps₂ _ hpost₂
      obtain ⟨done, rs', hresolves, hothers, hrs'⟩ := hpost₂
      have hvisited : ∀ a, st.visited a = true → st₂.visited a = true := fun a =>
        hr.visited_mono (hsteps₁.trans hsteps₂)
      refine .pure ⟨_, _, hresolves.cons hvisited hround, ?_, ?_⟩
      · rw [hothers, List.filterMap_append]
      · rw [List.flatMap_append]
        exact List.rel_append (hrs.imp fun _ _ h => h.mono hsteps₂) hrs'

/-! ### The parts of a problem -/

/-- The names that can come up in a completion. -/
def Known (recs : List Record) (st : Unrolling α) (n : Atom) : Prop :=
  (∃ x ∈ recs, x.variant.name = some n) ∨ n ∈ st.pending ∨ n ∈ st.falsified

theorem Seeded.known {a : Atom} (h : Seeded recs st a) : Known recs st a := by
  rcases h with (⟨x, hx, -, hv⟩ | hp) | hf
  · exact .inl ⟨x, hx, by rw [hv]⟩
  · exact .inr (.inl hp)
  · exact .inr (.inr hf)

theorem Reached.known_of_depends (hr : Reached given recs st) {n m : Atom}
    (h : st.built.rules.toRules.Depends n m) : Known recs st m := by
  obtain ⟨c, -, ⟨y, hy, -, hyn⟩ | ⟨rfl, hp⟩⟩ := hr.exists_stands h
  · exact .inl ⟨y, hy, hyn⟩
  · exact .inr (.inl hp)

/-- A literal is spread to the names of its atom, or to itself if there is none. -/
theorem mem_spreadEvidence {l k : Literal} :
    k ∈ st.spreadEvidence l ↔ (k = l ∧ ∀ v ∈ st.variantsOf l.atom, v.name = none) ∨
      ∃ v ∈ st.variantsOf l.atom, ∃ n, v.name = some n ∧ k = l.withAtom n := by
  unfold Unrolling.spreadEvidence
  simp only
  split
  · next hempty =>
    have hnone : ∀ v ∈ st.variantsOf l.atom, v.name = none := by
      intro v hv
      by_contra hne
      obtain ⟨n, hn⟩ := Option.ne_none_iff_exists'.mp hne
      have hmem := Ascending.mem_ofList.mpr (List.mem_filterMap.mpr ⟨v, hv, hn⟩)
      rw [List.isEmpty_iff.mp hempty] at hmem
      simp at hmem
    rw [List.mem_singleton]
    refine ⟨fun hk => .inl ⟨hk, hnone⟩, ?_⟩
    rintro (⟨hk, -⟩ | ⟨v, hv, n, hn, -⟩)
    · exact hk
    · rw [hnone v hv] at hn
      cases hn
  · next hempty =>
    simp only [List.mem_map, Ascending.mem_ofList, List.mem_filterMap]
    constructor
    · rintro ⟨n, ⟨v, hv, hn⟩, rfl⟩
      exact .inr ⟨v, hv, n, hn, rfl⟩
    · rintro (⟨-, hnone⟩ | ⟨v, hv, n, hn, rfl⟩)
      · obtain ⟨n, hn⟩ := List.exists_mem_of_ne_nil _ (mt List.isEmpty_iff.mpr hempty)
        obtain ⟨v, hv, hvn⟩ := List.mem_filterMap.mp (Ascending.mem_ofList.mp hn)
        rw [hnone v hv] at hvn
        cases hvn
      · exact ⟨n, ⟨v, hv, hn⟩, rfl⟩

/-- A literal that evidence is spread to is on a name of an evidence atom, or is evidence
itself. -/
theorem exists_of_mem_evidence {evidence : List Literal} {k : Literal}
    (hk : k ∈ (st.finish evidence).evidence) :
    ∃ l ∈ evidence, k = l ∨ ∃ v ∈ st.variantsOf l.atom, ∃ n,
      v.name = some n ∧ k = l.withAtom n := by
  have hk : k ∈ Ascending.union [] (evidence.flatMap st.spreadEvidence) := hk
  rcases Ascending.mem_of_mem_union hk with hk | hk
  · simp at hk
  obtain ⟨l, hl, hk⟩ := List.mem_flatMap.mp hk
  exact ⟨l, hl, (mem_spreadEvidence.mp hk).imp And.left id⟩

/-- What a compiled problem consists of: the records of the unrolling, the choices that were
reached with what is left of their clauses, and the atoms that were completed. -/
structure Compiled [Scalar α] (p : Program α) (problem : Problem α) (recs : List Record)
    (st : Unrolling α) (done : List Choices) (clauses : List (List Literal)) (atoms : List Atom) :
    Prop where
  run : p.unroll.runOn (.start p.weightedRules) = (.ok clauses, st)
  compilation : problem.compilation =
    (p.completion (st.finish p.evidence) clauses).finish st.built.weights
  queryNumbers : problem.queries =
    Program.signedNumbers problem.compilation.numbering p.queries
  evidenceNumbers : problem.evidence =
    Program.signedNumbers problem.compilation.numbering (st.finish p.evidence).evidence
  reached : Reached p.weightedRules recs st
  seeded : ∀ l ∈ p.queries ++ p.evidence, Seeded recs st l.atom
  resolved : ∃ st₀ rs, (resolveSeeds p.weightedRules (p.queries ++ p.evidence)).runOn
      (.start p.weightedRules) = (.ok (), st₀) ∧
    ResolvesReached p.weightedRules p.choices st₀ done rs st ∧ clauses = rs.filterMap id
  clausesOf : ClausesOf recs st done clauses
  completes : Completion.Completes st.built.rules (Known recs st)
    (p.completion (st.finish p.evidence) clauses) atoms
    (clauses.map (List.map Literal.signed) ++
      (st.finish p.evidence).falsified.map fun a => [(.atom a, false)])
  seedAtoms : ∀ l ∈ p.queries ++ (st.finish p.evidence).evidence, l.atom ∈ atoms
  clauseAtoms : ∀ c ∈ clauses, ∀ l ∈ c, l.atom ∈ atoms
  falsifiedAtoms : ∀ a ∈ (st.finish p.evidence).falsified, a ∈ atoms

theorem leads_unroll (p : Program α) :
    Leads p.weightedRules [] (.start p.weightedRules) p.unroll fun recs st clauses =>
      (∀ l ∈ p.queries ++ p.evidence, Seeded recs st l.atom) ∧
      ∃ st₀ done rs, (resolveSeeds p.weightedRules (p.queries ++ p.evidence)).runOn
          (.start p.weightedRules) = (.ok (), st₀) ∧
        ResolvesReached p.weightedRules p.choices st₀ done rs st ∧ clauses = rs.filterMap id ∧
        List.Forall₂ (ClauseOutcome recs st) (done.flatMap Choices.clauses) rs := by
  have hstart : Reached p.weightedRules [] (.start p.weightedRules) := .refl
  refine .bind (leads_resolveSeeds (p.queries ++ p.evidence) hstart rfl).with_run ?_
  intro recs st _ hsteps hb hpost
  obtain ⟨hseeded, hrun⟩ := hpost
  refine (leads_reachedClauses (hstart.trans hsteps) hb (le_refl p.choices.length)).mono ?_
  intro recs' st' clauses hsteps' hpost'
  obtain ⟨done, rs, hresolves, hclauses, hrs⟩ := hpost'
  exact ⟨fun l hl => (hseeded l hl).mono hsteps', st, done, rs, hrun, hresolves, hclauses, hrs⟩

/-- The calls that complete a program: the queries and the evidence are completed, the clauses
added, and what was found false is denied. -/
def Program.calls (p : Program α) (u : Unlooped α) (clauses : List (List Literal)) :
    List Completion.Call :=
  (p.queries ++ u.evidence).map .complete ++ clauses.map .constrain ++ u.falsified.map .deny

theorem Program.completion_eq_performAll (p : Program α) (u : Unlooped α)
    (clauses : List (List Literal)) :
    p.completion u clauses = Completion.performAll u.program.rules (p.calls u clauses) := by
  unfold Program.completion Program.calls Completion.performAll
  rw [List.foldl_append, List.foldl_append, List.foldl_map, List.foldl_map, List.foldl_map]
  rfl

theorem Program.flatMap_calls (p : Program α) (u : Unlooped α) (clauses : List (List Literal)) :
    (p.calls u clauses).flatMap Completion.Call.clauses =
      clauses.map (List.map Literal.signed) ++ u.falsified.map fun a => [(.atom a, false)] := by
  have hnone : (p.queries ++ u.evidence).flatMap
      (fun l => Completion.Call.clauses (.complete l)) = [] :=
    List.flatMap_eq_nil_iff.mpr fun _ _ => rfl
  unfold Program.calls
  rw [List.flatMap_append, List.flatMap_append, List.flatMap_map, List.flatMap_map,
    List.flatMap_map, hnone, List.nil_append, List.map_eq_flatMap, List.map_eq_flatMap]
  rfl

theorem exists_completes (p : Program α) (hr : Reached p.weightedRules recs st)
    (hseeded : ∀ l ∈ p.queries ++ p.evidence, Seeded recs st l.atom) {choices : List Choices}
    {clauses : List (List Literal)} (hclauses : ClausesOf recs st choices clauses) :
    ∃ atoms, Completion.Completes st.built.rules (Known recs st)
        (p.completion (st.finish p.evidence) clauses) atoms
        (clauses.map (List.map Literal.signed) ++
          (st.finish p.evidence).falsified.map fun a => [(.atom a, false)]) ∧
      ∀ c ∈ p.calls (st.finish p.evidence) clauses, ∀ a ∈ c.atoms, a ∈ atoms := by
  have hclosed : ∀ a b, Known recs st a → st.built.rules.toRules.Depends a b → Known recs st b :=
    fun _ _ _ h => hr.known_of_depends h
  have hseeds : ∀ l ∈ p.queries ++ (st.finish p.evidence).evidence, Known recs st l.atom := by
    intro l hl
    rcases List.mem_append.mp hl with hl | hl
    · exact (hseeded l (List.mem_append_left _ hl)).known
    · obtain ⟨k, hk, rfl | ⟨v, hv, n, hn, rfl⟩⟩ := exists_of_mem_evidence hl
      · exact (hseeded l (List.mem_append_right _ hk)).known
      · obtain ⟨x, hx, -, rfl⟩ := hr.mem_variantsOf.mp hv
        exact .inl ⟨x, hx, hn⟩
  have hlits : ∀ c ∈ clauses, ∀ l ∈ c, Known recs st l.atom := by
    intro c hc l hl
    obtain ⟨-, -, -, -, -, hnamed, -⟩ := hclauses.source c hc
    exact Seeded.known (.inl (hnamed l hl))
  have hfalsified : ∀ a ∈ (st.finish p.evidence).falsified, Known recs st a := by
    intro a ha
    rcases Ascending.mem_union.mp ha with ha | ha
    · exact .inr (.inr ha)
    · exact .inr (.inl (List.mem_of_mem_filter ha))
  have hcalls : ∀ c ∈ p.calls (st.finish p.evidence) clauses, ∀ a ∈ c.atoms, Known recs st a := by
    simp only [Program.calls, List.forall_mem_append, List.forall_mem_map, Completion.Call.atoms,
      List.forall_mem_singleton]
    exact ⟨⟨List.forall_mem_append.mp hseeds, hlits⟩, hfalsified⟩
  obtain ⟨atoms, h, hatoms⟩ := Completion.completes_performAll hclosed hcalls
  refine ⟨atoms, ?_, hatoms⟩
  rw [p.completion_eq_performAll, ← p.flatMap_calls]
  exact h

/-- **Compiled problems.** A problem that a program compiles to has all its parts. -/
theorem exists_compiled [Scalar α] {p : Program α} {problem : Problem α} {log : List (Event α)}
    (h : p.compile = (.ok problem, log)) :
    ∃ recs st done clauses atoms, Compiled p problem recs st done clauses atoms := by
  obtain ⟨recs, hsteps, -, hpost⟩ := leads_unroll p
  unfold Program.compile at h
  split at h
  · cases h
  · next clauses st hrun =>
    obtain ⟨hproblem, -⟩ := Prod.mk.inj h
    obtain rfl := Except.ok.inj hproblem
    rw [hrun] at hsteps hpost
    obtain ⟨hseeded, st₀, done, rs, hseeds, hresolves, hclauses, hrs⟩ := hpost clauses rfl
    have hof : ClausesOf recs st done clauses := hclauses ▸ clausesOf_of_forall₂ hrs
    obtain ⟨atoms, hcompletes, hcalls⟩ := exists_completes p hsteps hseeded hof
    simp only [Program.calls, List.forall_mem_append, List.forall_mem_map, Completion.Call.atoms,
      List.forall_mem_singleton] at hcalls
    exact ⟨recs, st, done, clauses, atoms, hrun, rfl, rfl, rfl, hsteps, hseeded,
      ⟨st₀, rs, hseeds, hresolves, hclauses⟩, hof, hcompletes,
      List.forall_mem_append.mpr hcalls.1.1, hcalls.1.2, hcalls.2⟩

theorem exists_compile [Scalar α] {p : Program α} {f : Problem α → Bool}
    (h : p.compile.1.toOption.any f = true) :
    ∃ problem log, p.compile = (.ok problem, log) ∧ f problem = true := by
  rcases hc : p.compile with ⟨e | problem, log⟩
  · rw [hc] at h
    cases h
  · exact ⟨problem, log, rfl, by simpa [hc, Except.toOption] using h⟩

/-! ### Models of the unrolled rules -/

/-- In a model of the unrolled rules, a variant is true only if its atom is in the least model,
and a seed exactly if it is. -/
theorem Reached.leastModel_of_isModel (hr : Reached given recs st) (hp : st.pending = [])
    (hplain : ∀ a ∈ given.rules.atoms, a.Plain) (hs : given.rules.toRules.Stratified)
    {evidence : List Literal} {s N : Interpretation}
    (hN : (st.finish evidence).IsModel given.rules s N) :
    (∀ x ∈ recs, ∀ n, x.variant.name = some n → N n →
      leastModel (given.rules.under s) x.atom) ∧
    ∀ a, Seeded recs st a → (N a ↔ leastModel (given.rules.under s) a) := by
  have hM := isLeastModel_leastModel (RuleBase.headsIn_under s) (RuleBase.stratified_under s hs)
  have hbounds := (hp ▸ hr.valid).bounds hplain hM (hr.follows_of_isModel hp hplain hN)
  refine ⟨fun x hx => (hbounds x hx).upper, fun a hseeded => ?_⟩
  rcases hseeded with (⟨x, hx, rfl, hv⟩ | hpend) | hf
  · rw [(hbounds x hx).iff_of_cuts hM (by rw [hv]), hv]
    simp
  · rw [hp] at hpend
    simp at hpend
  · obtain ⟨x, hx, rfl, hv⟩ := hr.exists_of_falsified a hf
    rw [(hbounds x hx).iff_of_cuts hM (by rw [hv]), hv]
    simpa using hN.falsified x.atom (Ascending.mem_union.mpr (.inl hf))

/-! ### Assignments and interpretations -/

/-- Read in an interpretation in which what was found false is false, what is left of a clause
is as good as the clause, and a clause that was dropped is true. -/
theorem ClauseOutcome.holds_iff {clause : List Literal} {r : Option (List Literal)}
    {N : Interpretation} (h : ClauseOutcome recs st clause r) (hN : ∀ a ∈ st.falsified, ¬ N a) :
    (∃ l ∈ clause, l.Holds N) ↔ ∀ left, r = some left → ∃ l ∈ left, l.Holds N := by
  cases r with
  | some left =>
    obtain ⟨hsub, -, hmissing⟩ := h
    simp only [Option.some.injEq, forall_eq']
    constructor
    · rintro ⟨l, hl, hholds⟩
      rcases hmissing l hl with hleft | ⟨hp, hf⟩
      · exact ⟨l, hleft, hholds⟩
      · exact absurd ((Literal.holds_of_positive hp).mp hholds) (hN _ hf)
    · rintro ⟨l, hl, hholds⟩
      exact ⟨l, hsub hl, hholds⟩
  | none =>
    obtain ⟨l, hl, hp, hf⟩ := h
    simp only [reduceCtorEq, IsEmpty.forall_iff, implies_true, iff_true]
    exact ⟨l, hl, (Literal.holds_of_negative hp).mpr (hN _ hf)⟩

theorem ClausesOf.holds_iff {choices : List Choices} {clauses : List (List Literal)}
    {N : Interpretation} (h : ClausesOf recs st choices clauses)
    (hN : ∀ a ∈ st.falsified, ¬ N a) :
    (∀ left ∈ clauses, ∃ l ∈ left, l.Holds N) ↔
      ∀ c ∈ choices, ∀ clause ∈ c.clauses, ∃ l ∈ clause, l.Holds N := by
  constructor
  · intro hall c hc clause hclause
    obtain ⟨r, hout, hmem⟩ := h.outcome c hc clause hclause
    exact (hout.holds_iff hN).mpr fun left hl => hall left (hmem left hl)
  · intro hall left hleft
    obtain ⟨c, hc, clause, hclause, hout⟩ := h.source left hleft
    exact (hout.holds_iff hN).mp (hall c hc clause hclause) left rfl

/-! ### Signed numbers -/

/-- The signed numbers of literals whose atoms have variables. -/
theorem mem_signedNumbers_iff {n : Numbering} {ls : List Literal}
    (h : ∀ l ∈ ls, .atom l.atom ∈ n.vars) {v : Int} :
    v ∈ Program.signedNumbers n ls ↔ ∃ l ∈ ls, Completion.encode n l.signed = v := by
  have hnumber : ∀ l ∈ ls, (n.index? (.atom l.atom)).map
      (fun i : Nat => if l.positive then (i : Int) else -i) =
      some (Completion.encode n l.signed) := by
    intro l hl
    simp [Completion.encode, Literal.signed, Numbering.index?_of_mem (h l hl)]
  rw [Program.signedNumbers, Ascending.mem_ofList, List.mem_filterMap]
  refine exists_congr fun l => and_congr_right fun hl => ?_
  rw [hnumber l hl, Option.some.injEq]

/-- A signed number tells the number of the atom and the polarity. -/
theorem encode_signed {n : Numbering} {l : Literal} (h : .atom l.atom ∈ n.vars) :
    n.index? (.atom l.atom) = some (Completion.encode n l.signed).natAbs ∧
      (0 < Completion.encode n l.signed ↔ l.positive = true) := by
  rw [Completion.natAbs_encode (x := l.signed) h]
  exact ⟨Numbering.index?_of_mem h, Completion.encode_pos_iff (x := l.signed) h⟩

theorem satisfies_encode_iff {n : Numbering} {t : Assignment} {l : Literal}
    (h : .atom l.atom ∈ n.vars) :
    t.satisfies (Completion.encode n l.signed) = true ↔
      l.Holds (Completion.trueAtoms (Completion.valuation n t)) := by
  rw [Completion.satisfies_encode (x := l.signed) h, Completion.holds_signed_iff]

/-- Signed numbers are satisfied exactly if their literals hold. -/
theorem satisfies_signedNumbers_iff {n : Numbering} {t : Assignment} {ls : List Literal}
    (h : ∀ l ∈ ls, .atom l.atom ∈ n.vars) :
    (∀ v ∈ Program.signedNumbers n ls, t.satisfies v = true) ↔
      ∀ l ∈ ls, l.Holds (Completion.trueAtoms (Completion.valuation n t)) := by
  simp only [mem_signedNumbers_iff h, forall_exists_index, and_imp, forall_apply_eq_imp_iff₂]
  exact forall₂_congr fun l hl => satisfies_encode_iff (h l hl)

/-- The values of the variables of a problem. -/
abbrev Problem.values (problem : Problem α) (t : Assignment) : Variable → Bool :=
  Completion.valuation problem.compilation.numbering t

/-- The atoms that an assignment makes true. -/
abbrev Problem.trueAtoms (problem : Problem α) (t : Assignment) : Interpretation :=
  Completion.trueAtoms (problem.values t)

namespace Compiled

variable [Scalar α] {p : Program α} {problem : Problem α} {done : List Choices}
  {clauses : List (List Literal)} {atoms : List Atom} {t : Assignment}

theorem mem_vars (h : Compiled p problem recs st done clauses atoms) {v : Variable} :
    v ∈ problem.compilation.numbering.vars ↔
      ∃ a ∈ atoms, v ∈ Completion.varsOf st.built.rules a := by
  rw [h.compilation]
  exact h.completes.mem_vars

/-- The choices with a visited atom are done. -/
theorem mem_done_iff (h : Compiled p problem recs st done clauses atoms) {c : Choices} :
    c ∈ done ↔ c ∈ p.choices ∧ c.atoms.any st.visited = true := by
  obtain ⟨_, _, _, hresolves, _⟩ := h.resolved
  rw [hresolves.perm.mem_iff, List.mem_filter]

theorem choices (h : Compiled p problem recs st done clauses atoms) :
    ∀ c ∈ p.choices, c ∈ done ∨ ∀ a ∈ c.atoms, st.visited a = false := by
  intro c hc
  by_cases hv : c.atoms.any st.visited = true
  · exact .inl (h.mem_done_iff.mpr ⟨hc, hv⟩)
  · exact .inr (by simpa using hv)

theorem mem_choices (h : Compiled p problem recs st done clauses atoms) :
    ∀ c ∈ done, c ∈ p.choices := fun _ hc => (h.mem_done_iff.mp hc).1

/-- An assignment satisfies a problem exactly if values that agree with it, on all that have a
number, support the completed atoms, make false what was found false, and satisfy what is left
of the clauses on reached choices. -/
theorem eval_iff_of_agree (h : Compiled p problem recs st done clauses atoms)
    {τ : Variable → Bool}
    (hτ : ∀ v ∈ problem.compilation.numbering.vars, τ v = problem.values t v) :
    problem.compilation.cnf.eval t = true ↔
      (∀ a ∈ atoms, ∀ c ∈ Completion.definition st.built.rules a, Completion.ClauseHolds τ c) ∧
      (∀ c ∈ clauses, ∃ l ∈ c, l.Holds (Completion.trueAtoms τ)) ∧
      ∀ a ∈ (st.finish p.evidence).falsified, ¬ Completion.trueAtoms τ a := by
  have hnumbering : problem.compilation.numbering =
      (p.completion (st.finish p.evidence) clauses).numbering := by rw [h.compilation]; rfl
  rw [Problem.values, hnumbering] at hτ
  rw [h.compilation, h.completes.eval_iff_of_agree _ hτ, List.forall_mem_append]
  refine and_congr_right fun _ => and_congr ?_ ?_
  · simp only [List.mem_map, forall_exists_index, and_imp, forall_apply_eq_imp_iff₂,
      Completion.clauseHolds_map_signed]
  · simp [Completion.ClauseHolds, Completion.trueAtoms]

/-- **The assignments that satisfy a problem.** They support the completed atoms, make false
what was found false, and satisfy what is left of the clauses on reached choices. -/
theorem eval_iff (h : Compiled p problem recs st done clauses atoms) :
    problem.compilation.cnf.eval t = true ↔
      (∀ a ∈ atoms, ∀ c ∈ Completion.definition st.built.rules a,
        Completion.ClauseHolds (problem.values t) c) ∧
      (∀ c ∈ clauses, ∃ l ∈ c, l.Holds (problem.trueAtoms t)) ∧
      ∀ a ∈ (st.finish p.evidence).falsified, ¬ problem.trueAtoms t a :=
  h.eval_iff_of_agree fun _ _ => rfl

theorem supported (h : Compiled p problem recs st done clauses atoms)
    (ht : problem.compilation.cnf.eval t = true) :
    IsSupported st.built.rules.toRules
      (fun a => a ∈ atoms ∧ ∃ b, st.built.rules.toRules a b)
      (problem.trueAtoms t) := by
  rintro a ⟨ha, b, hb⟩
  have hdef := Completion.holds_definition_iff.mp ((h.eval_iff.mp ht).1 a ha)
  exact hdef.1 (List.ne_nil_of_mem hb)

/-- A completed atom without rules is denied, or it is an open atom of the program and has
weights there. -/
theorem open_or_denied (h : Compiled p problem recs st done clauses atoms) {a : Atom}
    (ha : a ∈ atoms) (hb : st.built.rules.bodies a = []) :
    (∃ x ∈ recs, x.atom = a ∧ p.rules.contains a = false ∧
      ∀ b, (p.weights.get? ⟨a, b⟩).isSome = true) ∨ a ∈ (st.finish p.evidence).falsified := by
  have hc : st.built.rules.contains a = false := by
    rw [Bool.eq_false_iff, h.reached.rules_built, ne_eq, ← RuleBase.bodies_ofRules_ne_nil,
      ← h.reached.rules_built]
    exact fun hne => hne hb
  rcases h.completes.grows.reached a ha with ⟨x, hx, hn⟩ | hpend | hf
  · obtain ⟨recs', -, hj⟩ := h.reached.valid.exists_justified hx
    rcases hj.origin with ⟨hgiven, hv, -, hweights⟩ | ⟨-, hnone, -⟩
    · obtain rfl : x.atom = a := by simpa [hv] using hn
      exact .inl ⟨x, hx, rfl, hgiven, hweights⟩
    · have hbodies : x.bodies ≠ [] := fun hnil => by
        rw [hnone.mpr hnil] at hn
        cases hn
      rw [h.reached.contains_built.mpr ⟨x, hx, hn, hbodies⟩] at hc
      cases hc
  · refine .inr (Ascending.mem_union.mpr (.inr (List.mem_filter.mpr ⟨hpend, ?_⟩)))
    rw [hc]
    rfl
  · exact .inr (Ascending.mem_union.mpr (.inl hf))

/-- A completed atom without rules is an open atom of the program, or was found false. -/
theorem open_or_falsified (h : Compiled p problem recs st done clauses atoms)
    (hp : st.pending = []) {a : Atom} (ha : a ∈ atoms)
    (hb : ¬ ∃ b, st.built.rules.toRules a b) :
    (∃ x ∈ recs, x.atom = a ∧ p.rules.contains a = false) ∨ a ∈ st.falsified := by
  have hnil : st.built.rules.bodies a = [] := List.eq_nil_iff_forall_not_mem.mpr fun b hmem =>
    hb ⟨b, hmem⟩
  rcases h.open_or_denied ha hnil with ⟨x, hx, hxa, hc, -⟩ | hf
  · exact .inl ⟨x, hx, hxa, hc⟩
  · rcases Ascending.mem_union.mp hf with hf | hpend
    · exact .inr hf
    · rw [hp] at hpend
      simp at hpend

/-- **Assignments are parts of models.** An assignment that satisfies a problem agrees, on all
atoms that are completed, with a model of the unrolled rules under its own values of the
completed open atoms. -/
theorem exists_isModel (h : Compiled p problem recs st done clauses atoms)
    (hs : p.rules.toRules.Stratified) (ht : problem.compilation.cnf.eval t = true)
    {s : Interpretation} (hopen : ∀ x ∈ recs, x.atom ∈ atoms → p.rules.contains x.atom = false →
      (s x.atom ↔ problem.trueAtoms t x.atom)) :
    ∃ N, (st.finish p.evidence).IsModel p.rules s N ∧
      ∀ a ∈ atoms, (problem.trueAtoms t a ↔ N a) := by
  have hp := h.reached.pending_eq_nil hs
  obtain ⟨N, hN⟩ := h.reached.exists_isModel hp p.evidence s
  refine ⟨N, hN, ?_⟩
  refine IsSupported.agree (h.reached.wellFounded_depends hp)
    (fun a b ha hab => h.completes.closed ha hab) (h.supported ht) ?_ ?_
  · rintro a ⟨-, b, hb⟩
    exact hN.supported a (RuleBase.contains_of_mem_bodies hb)
  · intro a ha hb
    have hc : st.built.rules.contains a = false := by
      rw [Bool.eq_false_iff, h.reached.rules_built, ne_eq, ← RuleBase.bodies_ofRules_ne_nil,
        ← h.reached.rules_built]
      exact fun hne => hb (List.exists_mem_of_ne_nil _ hne)
    rcases h.open_or_falsified hp ha hb with ⟨x, hx, rfl, hgiven⟩ | hf
    · rw [hN.openAtoms x.atom hgiven hc, hopen x hx ha hgiven]
    · have hf' : a ∈ (st.finish p.evidence).falsified := Ascending.mem_union.mpr (.inl hf)
      exact iff_of_false ((h.eval_iff.mp ht).2.2 a hf') (hN.falsified a hf')

/-- A satisfying assignment makes a variant true only if its atom is in the least model under
the assignment, and a seed exactly if its atom is. -/
theorem leastModel_values (h : Compiled p problem recs st done clauses atoms)
    (hplain : ∀ a ∈ p.rules.atoms, a.Plain) (hs : p.rules.toRules.Stratified)
    (ht : problem.compilation.cnf.eval t = true) {s : Interpretation}
    (hopen : ∀ x ∈ recs, x.atom ∈ atoms → p.rules.contains x.atom = false →
      (s x.atom ↔ problem.trueAtoms t x.atom)) :
    (∀ x ∈ recs, ∀ n ∈ atoms, x.variant.name = some n →
      problem.trueAtoms t n → leastModel (p.rules.under s) x.atom) ∧
    ∀ a ∈ atoms, Seeded recs st a →
      (problem.trueAtoms t a ↔ leastModel (p.rules.under s) a) := by
  have hp := h.reached.pending_eq_nil hs
  obtain ⟨N, hN, hagree⟩ := h.exists_isModel hs ht hopen
  obtain ⟨hupper, hseeds⟩ := h.reached.leastModel_of_isModel hp hplain hs hN
  refine ⟨fun x hx n hn hname htrue => ?_, fun a ha hseeded => ?_⟩
  · exact hupper x hx n hname ((hagree n hn).mp htrue)
  · exact (hagree a ha).trans (hseeds a hseeded)

/-! ### The choices that are reached -/

/-- The atom is completed and keeps its name, or was found false. -/
def Completed (recs : List Record) (st : Unrolling α) (atoms : List Atom) (a : Atom) : Prop :=
  a ∈ atoms ∧ Seeded recs st a

theorem completed_of_falsified (h : Compiled p problem recs st done clauses atoms) {a : Atom}
    (ha : a ∈ st.falsified) : Completed recs st atoms a :=
  ⟨h.falsifiedAtoms a (Ascending.mem_union.mpr (.inl ha)), .inr ha⟩

/-- All atoms of a clause on reached choices are completed, or one of them was found false that
is negated in it. -/
theorem completed_of_clause (h : Compiled p problem recs st done clauses atoms) {c : Choices}
    (hc : c ∈ done) {clause : List Literal} (hclause : clause ∈ c.clauses) :
    (∀ l ∈ clause, Completed recs st atoms l.atom) ∨
      ∃ l ∈ clause, l.positive = false ∧ l.atom ∈ st.falsified := by
  obtain ⟨r, hout, hmem⟩ := h.clausesOf.outcome c hc clause hclause
  cases r with
  | none => exact .inr hout
  | some left =>
    obtain ⟨-, hnamed, hmissing⟩ := hout
    refine .inl fun l hl => ?_
    rcases hmissing l hl with hleft | ⟨-, hf⟩
    · exact ⟨h.clauseAtoms left (hmem left rfl) l hleft, .inl (hnamed l hleft)⟩
    · exact h.completed_of_falsified hf

/-- **Reached choices are completed.** The choice atoms of a rule that is reached, none of them
found false, and the atoms of its body are completed. -/
theorem completed_of_done (h : Compiled p problem recs st done clauses atoms) {as : List Atom}
    {body : List Literal} (hc : Choices.ofBody as body ∈ done) (hne : as ≠ [])
    (has : ∀ a ∈ as, a ∉ st.falsified) :
    (∀ a ∈ as, Completed recs st atoms a) ∧ ∀ l ∈ body, Completed recs st atoms l.atom := by
  have hrequired : ∀ a ∈ as, ∀ l ∈ body, (Completed recs st atoms a ∨ l.positive = false) ∧
      Completed recs st atoms l.atom := by
    intro a ha l hl
    have hclause : [.neg a, l] ∈ (Choices.ofBody as body).clauses := by
      refine List.mem_append_left _ (List.mem_append_right _ ?_)
      exact List.mem_flatMap.mpr ⟨l, hl, List.mem_map.mpr ⟨a, ha, rfl⟩⟩
    rcases h.completed_of_clause hc hclause with hall | ⟨k, hk, hn, hf⟩
    · exact ⟨.inl (hall (.neg a) (by simp)), hall l (by simp)⟩
    · rcases (by simpa using hk : k = .neg a ∨ k = l) with rfl | rfl
      · exact absurd hf (has a ha)
      · exact ⟨.inr hn, h.completed_of_falsified hf⟩
  have hcoverage : Choices.coverage as body ∈ (Choices.ofBody as body).clauses :=
    List.mem_append_right _ (List.mem_singleton_self _)
  refine ⟨fun a ha => ?_, fun l hl => ?_⟩
  · rcases h.completed_of_clause hc hcoverage with hall | ⟨k, hk, hn, hf⟩
    · exact hall (.pos a) (List.mem_append_left _ (List.mem_map_of_mem ha))
    · -- the clause that the body gives an outcome was dropped for a literal that is never true
      rcases List.mem_append.mp hk with hk | hk
      · obtain ⟨b, -, rfl⟩ := List.mem_map.mp hk
        cases hn
      · obtain ⟨l, hl, rfl⟩ := List.mem_map.mp hk
        refine (hrequired a ha l hl).1.resolve_right fun hl' => ?_
        simp [Literal.negate, hl'] at hn
  · obtain ⟨a, ha⟩ := List.exists_mem_of_ne_nil as hne
    exact (hrequired a ha l hl).2

/-- Satisfying assignments satisfy the clauses on reached choices. -/
theorem holds_choices (h : Compiled p problem recs st done clauses atoms)
    (ht : problem.compilation.cnf.eval t = true) {c : Choices} (hc : c ∈ done) :
    ∀ clause ∈ c.clauses, ∃ l ∈ clause,
      l.Holds (problem.trueAtoms t) := by
  obtain ⟨-, hclauses, hfalse⟩ := h.eval_iff.mp ht
  refine (h.clausesOf.holds_iff fun a ha => ?_).mp hclauses c hc
  exact hfalse a (Ascending.mem_union.mpr (.inl ha))

end Compiled

/-! ### Weights -/

/-- Each name has the weights of both its literals. -/
theorem Reached.isSome_weight (hr : Reached given recs st) :
    ∀ x ∈ recs, ∀ n b, x.variant.name = some n → (st.built.weights.get? ⟨n, b⟩).isSome := by
  induction hr with
  | refl => simp
  | weight _ _ _ ih => exact fun x hx n b hn => weights_get?_setWeight (ih x hx n b hn)
  | enter _ _ _ hweights ih =>
    intro x hx n b hn
    rcases List.mem_cons.mp hx with rfl | hx
    · obtain ⟨w, -, hw⟩ := hweights n hn b
      exact Option.isSome_of_eq_some hw
    · exact ih x hx n b hn
  | _ => assumption

/-- A weight is the given weight of the same literal, or that of the atom with rules that the
name was made from. -/
theorem Reached.weight_cases (hr : Reached given recs st)
    (hplain : ∀ a ∈ given.rules.atoms, a.Plain) {l : Literal} (hl : l.atom.Plain) {w : α}
    (hw : st.built.weights.get? l = some w) :
    given.weights.get? l = some w ∨ (l.atom ∉ (Unrolling.start given).taken ∧
      ∃ a, given.rules.contains a = true ∧ given.weights.get? ⟨a, l.positive⟩ = some w) := by
  induction hr with
  | refl => cases hw
  | @weight recs s a n b x _ hx hn ih =>
    have hw : (s.built.weights.insert ⟨n, b⟩ x).get? l = some w := hw
    rw [Weights.get?_insert] at hw
    split at hw
    · next hcmp =>
      obtain rfl := Option.some.inj hw
      rcases hn with rfl | ⟨hfresh, hc⟩
      · exact .inl ((Ascending.get?_congr hcmp _).trans hx)
      · obtain ⟨t, ht⟩ := hfresh.suffixed
        have hn : n.Plain := ht ▸ (hplain a (RuleBase.mem_atoms_of_contains hc)).suffixed t
        obtain rfl := Literal.eq_of_compare (fun _ => hl) (fun _ => hn) hcmp
        exact .inr ⟨hfresh.notMem, a, hc, hx⟩
    · exact ih hw
  | frame _ _ _ ih | pending _ _ ih | falsified _ _ _ ih | taken _ _ ih | enter _ _ _ _ ih =>
    exact ih hw

end ProbLogic
