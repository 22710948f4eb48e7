/-
# What evidence means after unrolling

Evidence on an atom is spread over all names that the atom got. For a negative
literal this changes nothing, since a variant is true only if its atom is. For
a positive literal it asks for more than the evidence says: a variant can be
false although its atom is true, if all derivations of the atom pass through
its cuts. The evidence of a problem therefore says exactly that the evidence
atoms themselves have their values and that the variants of the positive ones
are true as well (`satisfies_evidence_iff`). It means the original evidence
where no positive evidence atom got a further name, and not in general
(`spread_evidence_excludes`).

Key definitions: `Problem.Gives`.
Key theorems: `satisfies_evidence_iff`, `spread_evidence_excludes`.
-/
import ProbLogic.Proofs.Problem

namespace ProbLogic

variable {α : Type}

/-- The variable of a literal's own atom has the value that the literal asks for. -/
def Problem.Gives (problem : Problem α) (t : Assignment) (l : Literal) : Prop :=
  ∃ i, problem.compilation.numbering.index? (.atom l.atom) = some i ∧ t i = l.positive

instance (problem : Problem α) (t : Assignment) (l : Literal) : Decidable (problem.Gives t l) :=
  decidable_of_iff ((problem.compilation.numbering.index? (.atom l.atom)).any
    fun i => t i == l.positive) (by simp [Problem.Gives, Option.any_eq_true])

theorem Problem.gives_iff {problem : Problem α} {t : Assignment} {l : Literal}
    (h : .atom l.atom ∈ problem.compilation.numbering.vars) :
    problem.Gives t l ↔ l.Holds (problem.trueAtoms t) := by
  rw [← Completion.holds_signed_iff]
  simp only [Gives, Numbering.index?_of_mem h, Option.some.injEq, exists_eq_left']
  rfl

section Spread

variable {given : WeightedRules α} {recs : List Record} {st : Unrolling α} {l k : Literal}

/-- With plain names all spread literals are in the evidence. -/
theorem mem_evidence_iff (hr : Reached given recs st) {evidence : List Literal}
    (hplain : ∀ l ∈ evidence, l.atom.Plain) :
    k ∈ (st.finish evidence).evidence ↔ ∃ l ∈ evidence, k ∈ st.spreadEvidence l := by
  have hspread : ∀ k ∈ evidence.flatMap st.spreadEvidence, k.atom.Plain := by
    intro k hk
    obtain ⟨l, hl, hk⟩ := List.mem_flatMap.mp hk
    rcases mem_spreadEvidence.mp hk with ⟨rfl, -⟩ | ⟨v, hv, n, hn, rfl⟩
    · exact hplain k hl
    · obtain ⟨x, hx, ha, rfl⟩ := hr.mem_variantsOf.mp hv
      exact hr.valid.plain_of_name hx (ha ▸ hplain l hl) hn
  show k ∈ Ascending.union [] (evidence.flatMap st.spreadEvidence) ↔ _
  rw [Ascending.mem_union_of_separated (RuleBase.separated_of_plain (by simpa using hspread)),
    List.mem_flatMap]
  simp

end Spread

namespace Compiled

variable [Scalar α] {p : Program α} {problem : Problem α} {recs : List Record} {st : Unrolling α}
  {done : List Choices} {clauses : List (List Literal)} {atoms : List Atom} {t : Assignment}
  {l : Literal}

/-- The atoms of evidence are completed. -/
theorem mem_atoms_of_evidence (h : Compiled p problem recs st done clauses atoms)
    (hp : st.pending = []) (hplain : ∀ l ∈ p.evidence, l.atom.Plain) (hl : l ∈ p.evidence) :
    l.atom ∈ atoms := by
  rcases h.seeded l (List.mem_append_right _ hl) with (⟨x, hx, ha, hv⟩ | hpend) | hf
  · have hspread : l ∈ st.spreadEvidence l := by
      refine mem_spreadEvidence.mpr (.inr ⟨x.variant, ?_, l.atom, by rw [hv], rfl⟩)
      exact h.reached.mem_variantsOf.mpr ⟨x, hx, ha, rfl⟩
    have hmem := (mem_evidence_iff h.reached hplain).mpr ⟨l, hl, hspread⟩
    exact h.seedAtoms l (List.mem_append_right _ hmem)
  · rw [hp] at hpend
    simp at hpend
  · exact h.falsifiedAtoms _ (Ascending.mem_union.mpr (.inl hf))

/-- A variant of an evidence atom is true only if the atom itself is. -/
theorem own_of_variant (h : Compiled p problem recs st done clauses atoms)
    (hplain : ∀ a ∈ p.rules.atoms, a.Plain) (hs : p.rules.toRules.Stratified)
    (hevidence : ∀ l ∈ p.evidence, l.atom.Plain) (ht : problem.compilation.cnf.eval t = true)
    (hl : l ∈ p.evidence) {v : Variant} {n : Atom} (hv : v ∈ st.variantsOf l.atom)
    (hn : v.name = some n) (htrue : problem.trueAtoms t n) :
    problem.trueAtoms t l.atom := by
  have hp := h.reached.pending_eq_nil hs
  obtain ⟨hupper, hseed⟩ := h.leastModel_values hplain hs ht fun _ _ _ _ => Iff.rfl
  have hspread : l.withAtom n ∈ st.spreadEvidence l :=
    mem_spreadEvidence.mpr (.inr ⟨v, hv, n, hn, rfl⟩)
  have hmem := (mem_evidence_iff h.reached hevidence).mpr ⟨l, hl, hspread⟩
  obtain ⟨x, hx, ha, rfl⟩ := h.reached.mem_variantsOf.mp hv
  have hatoms := h.mem_atoms_of_evidence hp hevidence hl
  rw [hseed l.atom hatoms (h.seeded l (List.mem_append_right _ hl)), ← ha]
  exact hupper x hx n (h.seedAtoms _ (List.mem_append_right _ hmem)) hn htrue

/-- Spreading a literal asks for its own atom, and for the variants if it is positive. -/
theorem holds_spreadEvidence_iff (h : Compiled p problem recs st done clauses atoms)
    (hplain : ∀ a ∈ p.rules.atoms, a.Plain) (hs : p.rules.toRules.Stratified)
    (hevidence : ∀ l ∈ p.evidence, l.atom.Plain) (ht : problem.compilation.cnf.eval t = true)
    (hl : l ∈ p.evidence) :
    (∀ k ∈ st.spreadEvidence l, k.Holds (problem.trueAtoms t)) ↔
      l.Holds (problem.trueAtoms t) ∧
      (l.positive = true → ∀ v ∈ st.variantsOf l.atom, ∀ n, v.name = some n →
        (l.withAtom n).Holds (problem.trueAtoms t)) := by
  have hown := fun v n hv hn => h.own_of_variant hplain hs hevidence ht hl (v := v) (n := n) hv hn
  constructor
  · intro hall
    refine ⟨?_, fun _ v hv n hn => hall _ (mem_spreadEvidence.mpr (.inr ⟨v, hv, n, hn, rfl⟩))⟩
    by_cases hnone : ∀ v ∈ st.variantsOf l.atom, v.name = none
    · exact hall l (mem_spreadEvidence.mpr (.inl ⟨rfl, hnone⟩))
    cases hpos : l.positive with
    | true =>
      simp only [not_forall, exists_prop] at hnone
      obtain ⟨v, hv, hne⟩ := hnone
      obtain ⟨n, hn⟩ := Option.ne_none_iff_exists'.mp hne
      have hvariant := hall _ (mem_spreadEvidence.mpr (.inr ⟨v, hv, n, hn, rfl⟩))
      rw [Literal.holds_of_positive hpos]
      exact hown v n hv hn ((Literal.holds_of_positive (l := l.withAtom n) hpos).mp hvariant)
    | false =>
      -- the atom's own name is among those that the literal is spread to, or it was found false
      rcases h.seeded l (List.mem_append_right _ hl) with (⟨x, hx, ha, hv⟩ | hpend) | hf
      · refine hall l (mem_spreadEvidence.mpr (.inr ⟨x.variant, ?_, l.atom, by rw [hv], rfl⟩))
        exact h.reached.mem_variantsOf.mpr ⟨x, hx, ha, rfl⟩
      · rw [h.reached.pending_eq_nil hs] at hpend
        simp at hpend
      · rw [Literal.holds_of_negative hpos]
        exact (h.eval_iff.mp ht).2.2 _ (Ascending.mem_union.mpr (.inl hf))
  · rintro ⟨hholds, hvariants⟩ k hk
    rcases mem_spreadEvidence.mp hk with ⟨rfl, -⟩ | ⟨v, hv, n, hn, rfl⟩
    · exact hholds
    cases hpos : l.positive with
    | true => exact hvariants hpos v hv n hn
    | false =>
      rw [Literal.holds_of_negative (l := l.withAtom n) hpos]
      exact fun htrue => (Literal.holds_of_negative hpos).mp hholds (hown v n hv hn htrue)

end Compiled

variable [Scalar α]

/-- **Evidence after unrolling.** The evidence numbers of a problem are satisfied, together
with its clauses, exactly if the evidence atoms have the values that the evidence gives them
and the variants of the positive ones are true. If positive evidence atoms have no variants
under other names, this is the evidence as given. -/
theorem satisfies_evidence_iff {p : Program α} {problem : Problem α} {log : List (Event α)}
    (h : p.compile = (.ok problem, log)) (hplain : ∀ a ∈ p.rules.atoms, a.Plain)
    (hevidence : ∀ l ∈ p.evidence, l.atom.Plain) (hs : p.rules.toRules.Stratified) :
    ∃ clauses st, p.unroll.runOn (.start p.weightedRules) = (.ok clauses, st) ∧
      ∀ t : Assignment, problem.compilation.cnf.eval t = true →
        ((∀ v ∈ problem.evidence, t.satisfies v = true) ↔
          (∀ l ∈ p.evidence, problem.Gives t l) ∧
          ∀ l ∈ p.evidence, l.positive = true → ∀ v ∈ st.variantsOf l.atom, ∀ n,
            v.name = some n → problem.Gives t (l.withAtom n)) ∧
        ((∀ l ∈ p.evidence, l.positive = true → ∀ v ∈ st.variantsOf l.atom, ∀ n,
            v.name = some n → n = l.atom) →
          ((∀ v ∈ problem.evidence, t.satisfies v = true) ↔
            ∀ l ∈ p.evidence, problem.Gives t l)) := by
  obtain ⟨recs, st, done, clauses, atoms, hc⟩ := exists_compiled h
  have hp := hc.reached.pending_eq_nil hs
  refine ⟨clauses, st, hc.run, fun t ht => ?_⟩
  have hvars : ∀ k ∈ (st.finish p.evidence).evidence,
      .atom k.atom ∈ problem.compilation.numbering.vars := fun k hk =>
    hc.mem_vars.mpr
      ⟨k.atom, hc.seedAtoms k (List.mem_append_right _ hk), Completion.mem_varsOf_atom.mpr rfl⟩
  have hown : ∀ l ∈ p.evidence, (problem.Gives t l ↔
      l.Holds (problem.trueAtoms t)) := fun l hl =>
    Problem.gives_iff (hc.mem_vars.mpr
      ⟨l.atom, hc.mem_atoms_of_evidence hp hevidence hl, Completion.mem_varsOf_atom.mpr rfl⟩)
  have hvariant : ∀ l ∈ p.evidence, ∀ v ∈ st.variantsOf l.atom, ∀ n, v.name = some n →
      (problem.Gives t (l.withAtom n) ↔
        (l.withAtom n).Holds (problem.trueAtoms t)) := by
    intro l hl v hv n hn
    refine Problem.gives_iff (hvars _ ((mem_evidence_iff hc.reached hevidence).mpr ⟨l, hl, ?_⟩))
    exact mem_spreadEvidence.mpr (.inr ⟨v, hv, n, hn, rfl⟩)
  have hmain : (∀ v ∈ problem.evidence, t.satisfies v = true) ↔
      (∀ l ∈ p.evidence, problem.Gives t l) ∧
      ∀ l ∈ p.evidence, l.positive = true → ∀ v ∈ st.variantsOf l.atom, ∀ n,
        v.name = some n → problem.Gives t (l.withAtom n) := by
    rw [hc.evidenceNumbers, satisfies_signedNumbers_iff hvars, ← forall₂_and]
    calc (∀ k ∈ (st.finish p.evidence).evidence, k.Holds _)
        ↔ ∀ l ∈ p.evidence, ∀ k ∈ st.spreadEvidence l,
          k.Holds (problem.trueAtoms t) := by
          simp only [mem_evidence_iff hc.reached hevidence]
          exact ⟨fun hall l hl k hk => hall k ⟨l, hl, hk⟩, fun hall k ⟨l, hl, hk⟩ => hall l hl k hk⟩
      _ ↔ _ := by
          refine forall₂_congr fun l hl => ?_
          rw [hc.holds_spreadEvidence_iff hplain hs hevidence ht hl, hown l hl]
          refine and_congr_right fun _ => forall_congr' fun _ => ?_
          exact forall₂_congr fun v hv => forall₂_congr fun n hn => (hvariant l hl v hv n hn).symm
  refine ⟨hmain, fun hnames => hmain.trans ⟨And.left, fun hall => ⟨hall, ?_⟩⟩⟩
  intro l hl hpos v hv n hn
  rw [hnames l hl hpos v hv n hn]
  exact hall l hl

/-- Two atoms that support each other, each with a support of its own. One is asked for, and
the other is observed. -/
def observedSupport : Program Rat where
  rules := .ofRules [(⟨"a"⟩, [.pos ⟨"b"⟩]), (⟨"a"⟩, [.pos ⟨"f"⟩]), (⟨"b"⟩, [.pos ⟨"a"⟩]),
    (⟨"b"⟩, [.pos ⟨"e"⟩])]
  weights := ⟨[(.neg ⟨"a"⟩, 1), (.neg ⟨"b"⟩, 1), (.neg ⟨"e"⟩, 1 / 2), (.neg ⟨"f"⟩, 1 / 2),
    (.pos ⟨"a"⟩, 1), (.pos ⟨"b"⟩, 1), (.pos ⟨"e"⟩, 1 / 2), (.pos ⟨"f"⟩, 1 / 2)]⟩
  queries := [.pos ⟨"a"⟩]
  evidence := [.pos ⟨"b"⟩]
  choices := []

theorem observedSupport_plain : (∀ a ∈ observedSupport.rules.atoms, a.Plain) ∧
    (∀ l ∈ observedSupport.evidence, l.atom.Plain) ∧
    observedSupport.rules.toRules.Stratified :=
  ⟨by decide +kernel, by decide +kernel, RuleBase.stratified_ofRules (fun _ => 0) (by decide)⟩

/-- Observing `b` asks for `b` and for its variant without `a`. -/
theorem satisfies_evidence_observedSupport :
    ∃ problem log, observedSupport.compile = (.ok problem, log) ∧
      ∀ t : Assignment, problem.compilation.cnf.eval t = true →
        ((∀ v ∈ problem.evidence, t.satisfies v = true) ↔
          problem.Gives t (.pos ⟨"b"⟩) ∧ problem.Gives t (.pos ⟨"b_0"⟩)) := by
  obtain ⟨problem, log, h, -⟩ := exists_compile (p := observedSupport) (f := fun _ => true)
    (by decide +kernel)
  obtain ⟨hplain, hevidence, hs⟩ := observedSupport_plain
  obtain ⟨clauses, st, hrun, hiff⟩ := satisfies_evidence_iff h hplain hevidence hs
  have hst : st.variantsOf ⟨"b"⟩ = [⟨some ⟨"b_0"⟩, [⟨"a"⟩]⟩, ⟨some ⟨"b"⟩, []⟩] := by
    rw [show st = (observedSupport.unroll.runOn (.start observedSupport.weightedRules)).2 by
      rw [hrun]]
    decide +kernel
  refine ⟨problem, log, h, fun t ht => ?_⟩
  have hatom : ∀ l ∈ observedSupport.evidence, l = .pos ⟨"b"⟩ := by decide
  rw [(hiff t ht).1]
  constructor
  · rintro ⟨hown, hvariants⟩
    refine ⟨hown _ (by decide), ?_⟩
    exact hvariants (.pos ⟨"b"⟩) (by decide) rfl ⟨some ⟨"b_0"⟩, [⟨"a"⟩]⟩
      (by simp [hst, Literal.pos]) _ rfl
  · rintro ⟨hown, hvariant⟩
    refine ⟨fun l hl => hatom l hl ▸ hown, fun l hl _ v hv n hn => ?_⟩
    rw [hatom l hl] at hv ⊢
    rcases (by simpa [hst, Literal.pos] using hv : v = _ ∨ v = _) with rfl | rfl
    · exact Option.some.inj hn ▸ hvariant
    · exact Option.some.inj hn ▸ hown

/-- Some assignment satisfies a program's clauses and gives the evidence atoms their values,
and does not satisfy the evidence of the problem. -/
def Program.Excludes (p : Program α) : Prop :=
  ∃ problem log, p.compile = (.ok problem, log) ∧ ∃ t : Assignment,
    problem.compilation.cnf.eval t = true ∧ (∀ l ∈ p.evidence, problem.Gives t l) ∧
      ¬ ∀ v ∈ problem.evidence, t.satisfies v = true

theorem Program.excludes_of_eval {p : Program α} (t : Assignment)
    (h : p.compile.1.toOption.any (fun problem => problem.compilation.cnf.eval t &&
      decide (∀ l ∈ p.evidence, problem.Gives t l) && !problem.evidence.all t.satisfies) = true) :
    p.Excludes := by
  obtain ⟨problem, log, hc, htest⟩ := exists_compile h
  simp only [Bool.and_eq_true, decide_eq_true_eq, Bool.not_eq_true', Bool.eq_false_iff, ne_eq,
    List.all_eq_true] at htest
  exact ⟨problem, log, hc, t, htest.1.1, htest.1.2, htest.2⟩

/-- An observed atom `x` that needs `-a` and the falsity of `a_0`, where `-a` supports what `x`
supports. -/
def dashedSupport : Program Rat where
  rules := .ofRules [(⟨"c"⟩, [.pos ⟨"x"⟩]), (⟨"c"⟩, [.pos ⟨"e"⟩]),
    (⟨"x"⟩, [.pos ⟨"-a"⟩, .neg ⟨"a_0"⟩]), (⟨"-a"⟩, [.pos ⟨"c"⟩]), (⟨"-a"⟩, [.pos ⟨"f"⟩])]
  weights := ⟨[(.neg ⟨"-a"⟩, 1), (.pos ⟨"-a"⟩, 1), (.neg ⟨"a_0"⟩, 1 / 2), (.neg ⟨"c"⟩, 1),
    (.neg ⟨"e"⟩, 1 / 2), (.neg ⟨"f"⟩, 1 / 2), (.neg ⟨"x"⟩, 1), (.pos ⟨"a_0"⟩, 1 / 2),
    (.pos ⟨"c"⟩, 1), (.pos ⟨"e"⟩, 1 / 2), (.pos ⟨"f"⟩, 1 / 2), (.pos ⟨"x"⟩, 1)]⟩
  queries := [.pos ⟨"c"⟩]
  evidence := [.neg ⟨"x"⟩]
  choices := []

/-- **Evidence can exclude what it describes.** The variant of `b` without `a` has to be true
where `b` is observed, also if `b` holds through `a` alone. With a name that starts with a dash
this can happen to negative evidence, since the variant `-a_0` is taken for the falsity of
`a_0`. -/
theorem spread_evidence_excludes :
    (observedSupport.Excludes ∧ observedSupport.rules.toRules.Stratified) ∧
      dashedSupport.Excludes ∧ dashedSupport.rules.toRules.Stratified := by
  refine ⟨⟨?_, observedSupport_plain.2.2⟩, ?_, ?_⟩
  · exact Program.excludes_of_eval (fun i => i ∈ [1, 5, 6, 7, 8]) (by decide +kernel)
  · exact Program.excludes_of_eval (fun i => i ∈ [1, 2, 3, 4, 5, 9, 10, 11, 12]) (by decide +kernel)
  · exact RuleBase.stratified_ofRules (fun a => if a = ⟨"a_0"⟩ then 0 else 1) (by decide)

end ProbLogic
