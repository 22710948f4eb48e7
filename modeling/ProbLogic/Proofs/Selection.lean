/-
# Selections of outcomes

A selection picks one outcome for each annotated rule: one of its heads, or
none. The heads that are picked, with their bodies, are a normal program
(`Selection.program`), and its least model says what is true under the
selection. The probability of a selection is the product of the probabilities
of its outcomes, and these add up to one (`sum_probability`).

A ground program with some choice atoms assumed has the least model of a
selection, as far as choice atoms are left aside, if only outcomes of the
selection are assumed and all those of rules whose bodies hold
(`isLeastModel_under_iff`). Which outcomes are assumed of rules whose bodies do
not hold does not matter. This leaves two ways to read a selection into the
ground program: assume just what its own least model needs
(`leastModel_under_choiceTruth`), or what some assignment makes true
(`leastModel_under_of_assumes`).

Key definitions: `Selection`, `Selection.program`, `Selection.truth`,
`Selection.probability`, `Selection.Assumes`.
Key theorems: `isLeastModel_under_iff`, `leastModel_under_of_assumes`,
`leastModel_under_choiceTruth`, `sum_probability`.
-/
import Mathlib.Algebra.BigOperators.Fin
import Mathlib.Algebra.BigOperators.Ring.Finset
import Mathlib.Algebra.Order.Field.Rat
import ProbLogic.Proofs.Program

namespace ProbLogic

open Rules

variable {α : Type} {rs : List (Rule α)}

/-- The annotated rules as normal rules: each head with the body. -/
def Rules.ofAnnotated (rs : List (Rule α)) : Rules :=
  fun a b => ∃ rule ∈ rs, (∃ c ∈ rule.head, c.atom = a) ∧ b = rule.body

/-- An outcome for each rule: one of its heads or, as the last outcome, none. -/
abbrev Selection (rs : List (Rule α)) : Type :=
  (r : Fin rs.length) → Fin ((rs.get r).head.length + 1)

namespace Selection

/-- The normal rules of the heads that are picked. -/
def program (σ : Selection rs) : Rules :=
  fun a b => ∃ (r : Fin rs.length) (i : Fin (rs.get r).head.length),
    σ r = i.castSucc ∧ ((rs.get r).head.get i).atom = a ∧ b = (rs.get r).body

/-- The choice atoms of the outcomes that are picked for rules whose bodies hold. -/
def choiceTruth (σ : Selection rs) : Interpretation :=
  fun a => ∃ r : Fin rs.length, a = Program.choiceAtom r (σ r) ∧
    Body.Holds (leastModel σ.program) (rs.get r).body

/-- What is true under a selection: the atoms of its least model and the choice atoms of
outcomes that apply. -/
def truth (σ : Selection rs) : Interpretation :=
  fun a => leastModel σ.program a ∨ σ.choiceTruth a

/-- Some choice atoms are assumed: only those of outcomes that are picked, and all of rules
whose bodies hold. -/
structure Assumes (σ : Selection rs) (s m : Interpretation) : Prop where
  picked : ∀ a, s a → ∃ r : Fin rs.length, a = Program.choiceAtom r (σ r)
  bodies : ∀ r : Fin rs.length, Body.Holds m (rs.get r).body → s (Program.choiceAtom r (σ r))

end Selection

/-! ### Loops through negation -/

theorem Rules.Stratified.mono {R R' : Rules} (h : R'.Stratified) (hR : ∀ a b, R a b → R' a b) :
    R.Stratified := by
  have huses : ∀ {p a b}, R.Uses p a b → R'.Uses p a b := fun ⟨body, hb, hl⟩ =>
    ⟨body, hR _ _ hb, hl⟩
  have hreaches : ∀ {a b}, R.Reaches a b → R'.Reaches a b := fun h =>
    h.lift id fun _ _ ⟨p, hu⟩ => ⟨p, huses hu⟩
  rintro a ⟨b, c, hb, hu, hc⟩
  exact h a ⟨b, c, hreaches hb, huses hu, hreaches hc⟩

theorem stratified_ofAnnotated (level : Atom → Nat)
    (h : ∀ rule ∈ rs, ∀ c ∈ rule.head, ∀ l ∈ rule.body,
      level l.atom + (if l.positive then 0 else 1) ≤ level c.atom) :
    (Rules.ofAnnotated rs).Stratified := by
  refine Rules.stratified_of_level level ?_
  rintro a b ⟨rule, hrule, ⟨c, hc, rfl⟩, rfl⟩ l hl
  exact h rule hrule c hc l hl

theorem Selection.stratified_program (σ : Selection rs) (h : (Rules.ofAnnotated rs).Stratified) :
    σ.program.Stratified := by
  refine h.mono ?_
  rintro a b ⟨r, i, -, ha, hb⟩
  exact ⟨rs.get r, List.get_mem rs r, ⟨_, List.get_mem _ i, ha⟩, hb⟩

theorem Selection.headsIn_program (σ : Selection rs) :
    σ.program.HeadsIn (rs.flatMap fun rule => rule.head.map Choice.atom) := by
  rintro a b ⟨p, body, ⟨r, i, -, ha, -⟩, -⟩
  refine List.mem_flatMap.mpr ⟨rs.get r, List.get_mem rs r, List.mem_map.mpr ⟨_, ?_, ha⟩⟩
  exact List.get_mem _ i

theorem Selection.isLeastModel_program (σ : Selection rs)
    (h : (Rules.ofAnnotated rs).Stratified) : IsLeastModel σ.program (leastModel σ.program) :=
  isLeastModel_leastModel σ.headsIn_program (σ.stratified_program h)

/-! ### Choice atoms in the program of a selection -/

section Program

variable {σ : Selection rs} {m : Interpretation} {a : Atom}

theorem Selection.not_isChoice_of_uses (h : OwnNames rs) {b : Atom} {q : Bool}
    (hu : σ.program.Uses q a b) : ¬ b.IsChoice := by
  obtain ⟨body, ⟨r, i, -, -, rfl⟩, hl⟩ := hu
  exact (h.body hl).2

theorem Selection.not_isChoice_of_derives (h : OwnNames rs) (ha : Derives σ.program m a) :
    ¬ a.IsChoice := by
  obtain ⟨⟨r, i, -, rfl, -⟩, -, -⟩ := ha
  exact (h.head (List.get_mem _ i)).2

/-- Choice atoms can be left aside in the program of a selection. -/
theorem Selection.derives_iff (h : OwnNames rs) :
    Derives σ.program m a ↔ Derives σ.program (fun a => ¬ a.IsChoice ∧ m a) a := by
  refine derives_congr fun b hb => ?_
  obtain ⟨c, -, hu⟩ := hb
  exact ⟨fun hm => ⟨not_isChoice_of_uses h hu, hm⟩, And.right⟩

/-- Apart from choice atoms, what is true under a selection is its least model. -/
theorem Selection.truth_iff_leastModel (hc : ¬ a.IsChoice) :
    σ.truth a ↔ leastModel σ.program a := by
  refine ⟨fun ha => ha.resolve_right ?_, .inl⟩
  rintro ⟨r, rfl, -⟩
  exact hc ⟨r, _, rfl⟩

theorem Selection.truth_iff_choiceTruth (h : OwnNames rs)
    (hstrat : (Rules.ofAnnotated rs).Stratified) (hc : a.IsChoice) :
    σ.truth a ↔ σ.choiceTruth a := by
  refine ⟨fun ha => ha.resolve_left fun hm => ?_, .inr⟩
  exact not_isChoice_of_derives h ((σ.isLeastModel_program hstrat a).mp hm) hc

/-- A choice atom is true under a selection if its outcome is picked and the body holds. -/
theorem Selection.truth_choiceAtom_iff (h : OwnNames rs)
    (hstrat : (Rules.ofAnnotated rs).Stratified) {r : Fin rs.length}
    {i : Fin ((rs.get r).head.length + 1)} :
    σ.truth (Program.choiceAtom r i) ↔
      i = σ r ∧ Body.Holds (leastModel σ.program) (rs.get r).body := by
  rw [truth_iff_choiceTruth h hstrat ⟨r, i, rfl⟩]
  constructor
  · rintro ⟨r', heq, hbody⟩
    obtain ⟨hr, hi⟩ := choiceAtom_inj heq
    obtain rfl := Fin.ext hr
    exact ⟨Fin.ext hi, hbody⟩
  · rintro ⟨rfl, hbody⟩
    exact ⟨r, rfl, hbody⟩

end Program

/-! ### Ground programs and selections -/

section Ground

variable [Scalar α] {p : Program α} {σ : Selection rs} {s m : Interpretation} {a : Atom}

/-- Each literal in a ground body is the choice atom, or a literal of the annotated rule. -/
theorem Grounds.uses_cases (hp : Grounds rs p) (h : OwnNames rs) {b : Atom} {q : Bool}
    (hu : p.rules.toRules.Uses q a b) :
    (q = true ∧ b.IsChoice) ∨ (¬ b.IsChoice ∧ (Rules.ofAnnotated rs).Uses q a b) := by
  obtain ⟨body, hb, hl⟩ := hu
  obtain ⟨r, i, ha, rfl⟩ := hp.toRules_iff.mp hb
  rcases h.mem_body_iff.mp hl with heq | hl
  · obtain ⟨rfl, rfl⟩ := Literal.mk.inj heq
    exact .inl ⟨rfl, r, i, rfl⟩
  · refine .inr ⟨(h.body hl).2, (rs.get r).body, ⟨rs.get r, List.get_mem rs r, ?_, rfl⟩, hl⟩
    exact ⟨_, List.get_mem _ i, ha⟩

theorem Grounds.not_isChoice_of_uses (hp : Grounds rs p) (h : OwnNames rs) {b : Atom} {q : Bool}
    (hu : p.rules.toRules.Uses q a b) : ¬ a.IsChoice := by
  obtain ⟨body, hb, -⟩ := hu
  obtain ⟨r, i, rfl, -⟩ := hp.toRules_iff.mp hb
  exact (h.head (List.get_mem _ i)).2

/-- Choice atoms have no rules, so they add no loops. -/
theorem Grounds.stratified (hp : Grounds rs p) (h : OwnNames rs)
    (hs : (Rules.ofAnnotated rs).Stratified) : p.rules.toRules.Stratified := by
  have hreaches : ∀ {a b}, p.rules.toRules.Reaches a b → ¬ b.IsChoice →
      (Rules.ofAnnotated rs).Reaches a b := by
    intro a b hab
    induction hab with
    | refl => exact fun _ => .refl
    | tail _ hdep ih =>
      intro hb
      obtain ⟨q, hu⟩ := hdep
      rcases hp.uses_cases h hu with ⟨-, hchoice⟩ | ⟨-, hu'⟩
      · exact absurd hchoice hb
      · exact (ih (hp.not_isChoice_of_uses h hu)).tail hu'.depends
  rintro a ⟨b, c, hab, hu, hca⟩
  have ha : ¬ a.IsChoice := by
    rcases hab.cases_head with rfl | ⟨d, ⟨q, hd⟩, -⟩
    · exact hp.not_isChoice_of_uses h hu
    · exact hp.not_isChoice_of_uses h hd
  rcases hp.uses_cases h hu with ⟨hq, -⟩ | ⟨-, hu'⟩
  · cases hq
  · exact hs a ⟨b, c, hreaches hab (hp.not_isChoice_of_uses h hu), hu', hreaches hca ha⟩

theorem Grounds.holds_body (hp : Grounds rs p) (h : OwnNames rs) {r : Fin rs.length}
    (i : Fin (rs.get r).head.length) (hc : m (Program.choiceAtom r i))
    (hbody : Body.Holds m (rs.get r).body) :
    ∃ b, p.rules.toRules ((rs.get r).head.get i).atom b ∧ Body.Holds m b := by
  refine ⟨_, hp.toRules_iff.mpr ⟨r, i, rfl, rfl⟩, fun l hl => ?_⟩
  rcases h.mem_body_iff.mp hl with rfl | hl
  · exact Literal.holds_pos.mpr hc
  · exact hbody l hl

theorem Grounds.derives_choiceAtom (hp : Grounds rs p) (h : OwnNames rs) (hc : a.IsChoice) :
    Derives (p.rules.under s) m a ↔ s a := by
  obtain ⟨r, i, rfl⟩ := hc
  rw [← derives_avoiding_nil, RuleBase.derives_open (hp.not_contains_choiceAtom h r i)]

/-- What the ground rules derive from outcomes of a selection, its program derives. -/
theorem Selection.Assumes.derives_program (hs : σ.Assumes s m) (hp : Grounds rs p)
    (h : OwnNames rs) (ha : Derives (p.rules.under s) m a) (hc : ¬ a.IsChoice) :
    Derives σ.program m a := by
  induction ha with
  | @rule a b hb hpos hneg ih =>
    rcases hb with hb | ⟨-, ha, -⟩
    · obtain ⟨r, i, ha, rfl⟩ := hp.toRules_iff.mp hb
      have hassumed := (hp.derives_choiceAtom h ⟨r, i, rfl⟩).mp
        (hpos _ (h.mem_body_iff.mpr (.inl rfl)) rfl)
      obtain ⟨r', heq⟩ := hs.picked _ hassumed
      obtain ⟨hr, hi⟩ := choiceAtom_inj heq
      obtain rfl := Fin.ext hr
      refine .rule ⟨r, i, Fin.ext hi.symm, ha, rfl⟩ (fun l hl hp' => ?_) fun l hl hn => ?_
      · exact ih l (h.mem_body_iff.mpr (.inr hl)) hp' (h.body hl).2
      · exact hneg l (h.mem_body_iff.mpr (.inr hl)) hn
    · obtain ⟨r, rfl⟩ := hs.picked _ ha
      exact absurd ⟨r, _, rfl⟩ hc

/-- What the program of a selection derives, the ground rules derive, if it is true. -/
theorem Selection.Assumes.derives_under (hs : σ.Assumes s m) (hp : Grounds rs p) (h : OwnNames rs)
    (hm : ∀ a, Derives σ.program m a → m a) (ha : Derives σ.program m a) :
    Derives (p.rules.under s) m a := by
  induction ha with
  | @rule a b hb hpos hneg ih =>
    obtain ⟨r, i, hi, ha, rfl⟩ := hb
    have hassumed := hs.bodies r (Body.holds_iff.mpr ⟨fun l hl hq => hm _ (hpos l hl hq), hneg⟩)
    rw [hi, Fin.val_castSucc] at hassumed
    refine .rule (.inl (hp.toRules_iff.mpr ⟨r, i, ha, rfl⟩)) (fun l hl hq => ?_) fun l hl hn => ?_
    · rcases h.mem_body_iff.mp hl with rfl | hl
      · exact (hp.derives_choiceAtom h ⟨r, i, rfl⟩).mpr hassumed
      · exact ih l hl hq
    · rcases h.mem_body_iff.mp hl with rfl | hl
      · cases hn
      · exact hneg l hl hn

/-- **Ground programs and selections.** With choice atoms assumed for a selection, an
interpretation is the least model of the ground rules exactly if, without the choice atoms, it
is the least model of the selection. -/
theorem Selection.Assumes.isLeastModel_under_iff (hs : σ.Assumes s m) (hp : Grounds rs p)
    (h : OwnNames rs) (hm : ∀ a, a.IsChoice → (m a ↔ s a)) :
    IsLeastModel (p.rules.under s) m ↔
      IsLeastModel σ.program fun a => ¬ a.IsChoice ∧ m a := by
  constructor
  · intro hleast a
    rw [← derives_iff h]
    constructor
    · rintro ⟨hc, ha⟩
      exact hs.derives_program hp h ((hleast a).mp ha) hc
    · intro ha
      refine ⟨not_isChoice_of_derives h ha, ?_⟩
      induction ha with
      | @rule a b hb _ hneg ih =>
        obtain ⟨r, i, hi, rfl, rfl⟩ := hb
        have hbody := Body.holds_iff.mpr ⟨ih, hneg⟩
        have hassumed := hs.bodies r hbody
        rw [hi, Fin.val_castSucc] at hassumed
        obtain ⟨b, hb, hholds⟩ := hp.holds_body h i ((hm _ ⟨r, i, rfl⟩).mpr hassumed) hbody
        exact hleast.of_body (.inl hb) hholds
  · intro hleast a
    have hclosed : ∀ a, Derives σ.program m a → m a := fun a ha =>
      ((hleast a).mpr ((derives_iff h).mp ha)).2
    by_cases hc : a.IsChoice
    · rw [hm a hc, hp.derives_choiceAtom h hc]
    · constructor
      · intro ha
        exact hs.derives_under hp h hclosed ((derives_iff h).mpr ((hleast a).mp ⟨hc, ha⟩))
      · exact fun ha => hclosed a (hs.derives_program hp h ha hc)

/-- Where choice atoms are assumed for a selection, the ground rules have its least model. -/
theorem Selection.leastModel_under_of_assumes (hp : Grounds rs p) (h : OwnNames rs)
    (hstrat : (Rules.ofAnnotated rs).Stratified)
    (hs : σ.Assumes s (leastModel (p.rules.under s))) (hc : ¬ a.IsChoice) :
    leastModel (p.rules.under s) a ↔ leastModel σ.program a := by
  have hM := isLeastModel_leastModel (RuleBase.headsIn_under s)
    (RuleBase.stratified_under s (hp.stratified h hstrat))
  have hleast := (hs.isLeastModel_under_iff hp h fun a ha => by
    rw [hM a, hp.derives_choiceAtom h ha]).mp hM
  rw [leastModel_eq σ.headsIn_program (σ.stratified_program hstrat) hleast]
  exact ⟨fun ha => ⟨hc, ha⟩, And.right⟩

/-- If just the choice atoms are assumed that the least model of a selection needs, the ground
rules say what is true under the selection. -/
theorem Selection.leastModel_under_choiceTruth (hp : Grounds rs p) (h : OwnNames rs)
    (hstrat : (Rules.ofAnnotated rs).Stratified) (σ : Selection rs) :
    leastModel (p.rules.under σ.choiceTruth) a ↔ σ.truth a := by
  have hM := σ.isLeastModel_program hstrat
  have hleast : (fun a => ¬ a.IsChoice ∧ σ.truth a) = leastModel σ.program := by
    funext a
    refine propext ⟨fun ⟨hc, ha⟩ => (truth_iff_leastModel hc).mp ha, fun ha => ?_⟩
    exact ⟨not_isChoice_of_derives h ((hM a).mp ha), .inl ha⟩
  have hs : σ.Assumes σ.choiceTruth σ.truth := by
    refine ⟨fun a ⟨r, ha, _⟩ => ⟨r, ha⟩, fun r hbody => ⟨r, rfl, ?_⟩⟩
    exact (Body.holds_congr fun l hl => truth_iff_leastModel (h.body hl).2).mp hbody
  have hground := (hs.isLeastModel_under_iff hp h fun a hc =>
    truth_iff_choiceTruth h hstrat hc).mpr (by rw [hleast]; exact hM)
  exact leastModel_eq (RuleBase.headsIn_under _)
    (RuleBase.stratified_under _ (hp.stratified h hstrat)) hground a

end Ground

/-! ### Probabilities -/

/-- The probability of an outcome of a rule: that of a head, or what the heads leave of one. -/
def Rule.chance (rule : Rule Rat) (i : Nat) : Rat :=
  (rule.head[i]?.map Choice.probability).getD (1 - (rule.head.map Choice.probability).sum)

/-- The probability of a selection, with all outcomes independent. -/
def Selection.probability {rs : List (Rule Rat)} (σ : Selection rs) : Rat :=
  ∏ r : Fin rs.length, (rs.get r).chance (σ r)

theorem Rule.sum_chance (rule : Rule Rat) :
    ∑ i : Fin (rule.head.length + 1), rule.chance i = 1 := by
  have hheads : ∑ i : Fin rule.head.length, rule.chance i.castSucc =
      (rule.head.map Choice.probability).sum := by
    rw [← List.sum_ofFn]
    congr 1
    refine List.ext_getElem (by simp) fun i hi _ => ?_
    simp [chance]
  rw [Fin.sum_univ_castSucc, hheads]
  simp [chance]

/-- The probabilities of all selections add up to one. -/
theorem Selection.sum_probability (rs : List (Rule Rat)) :
    ∑ σ : Selection rs, σ.probability = 1 := by
  calc ∑ σ : Selection rs, σ.probability
      = ∏ r : Fin rs.length, ∑ i : Fin ((rs.get r).head.length + 1), (rs.get r).chance i := by
        rw [Finset.prod_univ_sum, Fintype.piFinset_univ]
        rfl
    _ = 1 := Finset.prod_eq_one fun r _ => (rs.get r).sum_chance

theorem Rule.total_eq (rule : Rule Rat) :
    rule.total = (rule.head.map Choice.probability).sum := by
  have hfold : ∀ (cs : List (Choice Rat)) (x : Rat),
      cs.foldl (fun x c => Scalar.add x c.probability) x =
        x + (cs.map Choice.probability).sum := by
    intro cs
    induction cs with
    | nil => simp
    | cons c cs ih =>
      intro x
      rw [List.foldl_cons, ih, List.map_cons, List.sum_cons, ← add_assoc]
      rfl
  rw [total, hfold]
  exact zero_add _

/-- With probabilities that sum to at most one, each outcome is weighed by its probability. -/
theorem Rule.outcomeWeight_eq {rule : Rule Rat}
    (h : (rule.head.map Choice.probability).sum ≤ 1) (i : Nat) :
    rule.outcomeWeight i = rule.chance i := by
  have hrest : Scalar.rest rule.total = 1 - (rule.head.map Choice.probability).sum := by
    rw [Scalar.rest, total_eq]
    exact if_pos (decide_eq_true (sub_nonneg.mpr h))
  rw [outcomeWeight, chance, hrest]

end ProbLogic
