/-
# Nothing is met while it is built

An atom that is met with the ancestors of an open expansion of itself was
reached through negation. So without a loop through negation the case that
marks an atom as pending does not arise: whatever steps stand in its place,
every run is the same (`runOn_seed_expandOr`). This holds from every state that
seeds lead to, also after seeds that have stopped for a weight that is missing.

Nothing is pending then, each record mentions older ones only, and the rules
that are built have no loop of dependencies at all, neither through positive
nor through negative literals (`acyclic_afterSeeds`).

Key theorems: `runOn_seed_expandOr`, `exists_reached_afterSeeds`, `acyclic_afterSeeds`.
-/
import ProbLogic.Proofs.Unrolling.Meaning
import ProbLogic.Proofs.Unrolling.Termination

namespace ProbLogic

open Rules Relation UnrollM

variable {α : Type} {given : WeightedRules α}

/-! ### Other steps where an atom is met again -/

/-- **The case does not arise.** Without a loop through negation a seed is resolved in the same
way, whatever is done with an atom that is met while it is being built. -/
theorem runOn_seed_expandOr (hs : given.rules.toRules.Stratified)
    (reenter : Atom → List Atom → UnrollM α Variant) (l : Literal) {s : Unrolling α}
    (hb : s.building = []) :
    (resolveBy (expandOr given reenter (depthBound given.rules)) [] l).runOn s =
      (resolveBy (expand given (depthBound given.rules)) [] l).runOn s := by
  have hreenter : ∀ st a A, Descent given.rules.toRules st a A → (a, A) ∈ st →
      Settles st (awaitItself a A) (reenter a A) :=
    fun _ a _ hd hm => absurd (hd.negationLoopsAt hm) (hs a)
  exact (settles_top hreenter l 0 s hb).1

/-! ### The rules that seeds lead to -/

/-- The state after any seeds has records, also if some of the seeds have stopped. -/
theorem exists_reached_afterSeeds (given : WeightedRules α) (seeds : List Literal) :
    ∃ recs, Reached given recs (afterSeeds given seeds) := by
  induction seeds using List.reverseRecOn with
  | nil => exact ⟨[], .refl⟩
  | append_singleton seeds l ih =>
    obtain ⟨recs, hr⟩ := ih
    have hrun := leads_resolveSeed l hr (building_afterSeeds seeds)
    obtain ⟨recs', hsteps, -⟩ := hrun
    have hlast : afterSeeds given (seeds ++ [l]) =
        ((resolveSeed given l).runOn (afterSeeds given seeds)).2 := by
      unfold afterSeeds
      rw [List.foldl_append]
      rfl
    rw [hlast]
    exact ⟨recs', hr.trans hsteps⟩

/-- **Without loops through negation the unrolled rules have no loops.** After any seeds, also
ones that have stopped, nothing is pending; the next seed is resolved in the same way, whatever
is done in place of `awaitItself` with an atom that is met while it is being built; and no atom
of the rules that are built depends on itself, through literals of either polarity. -/
theorem acyclic_afterSeeds (given : WeightedRules α) (hs : given.rules.toRules.Stratified)
    (seeds : List Literal) :
    let s := afterSeeds given seeds
    s.pending = [] ∧
    (∀ depth, expandOr given awaitItself depth = expand given depth) ∧
    (∀ (reenter : Atom → List Atom → UnrollM α Variant) (l : Literal),
      (resolveBy (expandOr given reenter (depthBound given.rules)) [] l).runOn s =
        (resolveBy (expand given (depthBound given.rules)) [] l).runOn s) ∧
    ∀ evidence, (s.finish evidence).program.rules.toRules.Acyclic := by
  intro s
  obtain ⟨recs, hr⟩ := exists_reached_afterSeeds given seeds
  have hp : s.pending = [] := hr.pending_eq_nil hs
  have hwf : WellFounded fun m n => s.built.rules.toRules.Depends n m := hr.wellFounded_depends hp
  refine ⟨hp, fun _ => rfl, fun reenter l => ?_,
    fun evidence => acyclic_of_wellFounded hwf⟩
  exact runOn_seed_expandOr hs reenter l (building_afterSeeds seeds)

/-- An atom that supports itself, on a loop with another one, and a third that needs it to be
false. The atom `m` has rules but no weights. -/
def selfSupport : WeightedRules Nat where
  rules := .ofRules [(⟨"a"⟩, [.pos ⟨"a"⟩]), (⟨"a"⟩, [.pos ⟨"b"⟩]), (⟨"a"⟩, [.pos ⟨"f"⟩]),
    (⟨"b"⟩, [.pos ⟨"a"⟩, .pos ⟨"e"⟩]), (⟨"b"⟩, [.pos ⟨"e"⟩]), (⟨"d"⟩, [.neg ⟨"a"⟩, .neg ⟨"b"⟩]),
    (⟨"m"⟩, [.pos ⟨"b"⟩])]
  weights := ⟨[(.neg ⟨"a"⟩, 1), (.neg ⟨"b"⟩, 1), (.neg ⟨"d"⟩, 1), (.neg ⟨"e"⟩, 1), (.neg ⟨"f"⟩, 1),
    (.pos ⟨"a"⟩, 1), (.pos ⟨"b"⟩, 1), (.pos ⟨"d"⟩, 1), (.pos ⟨"e"⟩, 1), (.pos ⟨"f"⟩, 1)]⟩

/-- The seed `m` stops for its weight, after a variant of `a` has been built below `b`, and the
rules that are left by it and by the seed `d` have no loop. -/
theorem acyclic_afterSeeds_selfSupport :
    ((resolveSeed selfSupport (.pos ⟨"m"⟩)).runOn (.start selfSupport)).1 =
        .error (.missingWeight (.pos ⟨"m"⟩)) ∧
      (afterSeeds selfSupport [.pos ⟨"m"⟩, .neg ⟨"d"⟩]).variantsOf ⟨"a"⟩ =
        [⟨some ⟨"a_0"⟩, [⟨"b"⟩]⟩, ⟨some ⟨"a"⟩, []⟩] ∧
      (afterSeeds selfSupport [.pos ⟨"m"⟩, .neg ⟨"d"⟩]).pending = [] ∧
      ((afterSeeds selfSupport [.pos ⟨"m"⟩, .neg ⟨"d"⟩]).finish []).program.rules.toRules.Acyclic := by
  have hs : selfSupport.rules.toRules.Stratified :=
    RuleBase.stratified_ofRules (fun a => if a = ⟨"d"⟩ then 1 else 0) (by decide)
  obtain ⟨hp, -, -, hacyclic⟩ := acyclic_afterSeeds selfSupport hs [.pos ⟨"m"⟩, .neg ⟨"d"⟩]
  exact ⟨by decide +kernel, by decide +kernel, hp, hacyclic []⟩

end ProbLogic
