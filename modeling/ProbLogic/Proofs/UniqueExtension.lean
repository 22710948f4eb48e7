/-
# The values of open atoms determine an assignment

Completion gives a variable to each atom that the seeds reach, and to the
bodies of those that have several. Where no atom depends on itself, the values
of the atoms without rules settle all others along the dependencies: an atom
with rules has to be as true as some body of it, and the variable of a body as
true as the body. Such values exist (`supportedModel`), and any two agree
(`Completes.agree`). So there is one satisfying assignment for each assignment
of the open atoms (`existsUnique_extension`).

Key definitions: `supportedModel`, `AgreesOnOpen`.
Key theorems: `exists_supports`, `Completes.agree`, `existsUnique_extension`.
-/
import ProbLogic.Proofs.Assignments
import ProbLogic.Proofs.Calls

namespace ProbLogic

open Rules

/-! ### Models along dependencies -/

section Model

variable {R : Rules} (hwf : WellFounded fun b a => R.Depends a b) (s : Interpretation)

/-- The interpretation in which an atom without rules has its assigned value, and any other is
as true as some body of it. -/
noncomputable def supportedModel : Interpretation :=
  hwf.fix fun a below => ((¬ ∃ b, R a b) ∧ s a) ∨
    ∃ b, R a b ∧ Body.Holds (fun c => ∃ h : R.Depends a c, below c h) b

theorem supportedModel_iff (a : Atom) :
    supportedModel hwf s a ↔
      ((¬ ∃ b, R a b) ∧ s a) ∨ ∃ b, R a b ∧ Body.Holds (supportedModel hwf s) b := by
  have h : supportedModel hwf s a ↔ ((¬ ∃ b, R a b) ∧ s a) ∨
      ∃ b, R a b ∧ Body.Holds (fun c => ∃ _ : R.Depends a c, supportedModel hwf s c) b := by
    conv_lhs => rw [supportedModel, hwf.fix_eq]
    rfl
  rw [h]
  apply or_congr_right
  refine exists_congr fun b => and_congr_right fun hb => ?_
  apply Body.holds_congr
  intro l hl
  exact ⟨fun ⟨_, hm⟩ => hm, fun hm => ⟨depends_of_mem hb hl, hm⟩⟩

theorem supportedModel_of_body {a : Atom} (h : ∃ b, R a b) :
    supportedModel hwf s a ↔ ∃ b, R a b ∧ Body.Holds (supportedModel hwf s) b := by
  rw [supportedModel_iff]
  simp [h]

theorem supportedModel_of_open {a : Atom} (h : ¬ ∃ b, R a b) : supportedModel hwf s a ↔ s a := by
  rw [supportedModel_iff]
  have hnone : ¬ ∃ b, R a b ∧ Body.Holds (supportedModel hwf s) b := fun ⟨b, hb, _⟩ => h ⟨b, hb⟩
  simp [h, hnone]

end Model

theorem RuleBase.exists_toRules_iff {rules : RuleBase} {a : Atom} :
    (∃ b, rules.toRules a b) ↔ rules.bodies a ≠ [] :=
  ⟨fun ⟨_, hb⟩ => List.ne_nil_of_mem hb, List.exists_mem_of_ne_nil _⟩

namespace Completion

variable {rules : RuleBase} {reached : Atom → Prop} {s : Completion} {atoms : List Atom}
  {extra : List (List SignedVariable)} {τ τ' : Variable → Bool}

/-- Some values support all variables, with any values of the atoms without rules. -/
theorem exists_supports (hwf : WellFounded fun b a => rules.toRules.Depends a b) (n : Numbering)
    (τ : Variable → Bool) :
    ∃ τ', Supports rules n τ' ∧ ∀ a, rules.bodies a = [] → τ' (.atom a) = τ (.atom a) := by
  classical
  let N : Interpretation := supportedModel hwf (trueAtoms τ)
  have hN : trueAtoms (fun v => decide (rules.Denotes N v)) = N := by
    funext a
    exact propext (decide_eq_true_iff (p := N a))
  refine ⟨fun v => decide (rules.Denotes N v), ⟨?_, ?_⟩, ?_⟩
  · intro a _ hbodies
    rw [hN]
    exact supportedModel_of_body hwf _ (RuleBase.exists_toRules_iff.mpr hbodies)
  · intro a i _
    rw [hN, decide_eq_true_iff]
    apply exists_congr
    intro b
    rw [List.mk_mem_zipIdx_iff_getElem?]
  · intro a hbodies
    have hopen : ¬ ∃ b, rules.toRules a b := by
      rw [RuleBase.exists_toRules_iff]
      simpa using hbodies
    rw [Bool.eq_iff_iff, decide_eq_true_iff]
    exact supportedModel_of_open hwf _ hopen

/-- Supported values are those of a supported interpretation. -/
theorem Completes.isSupported (h : Completes rules reached s atoms extra)
    (hs : Supports rules s.numbering τ) :
    IsSupported rules.toRules (fun a => a ∈ atoms ∧ ∃ b, rules.toRules a b) (trueAtoms τ) := by
  intro a ha
  obtain ⟨ha, hrule⟩ := ha
  exact hs.atoms a (h.mem_vars_atom.mpr ha) (RuleBase.exists_toRules_iff.mp hrule)

/-- **Values that support a completion agree** if they agree on the atoms without rules. -/
theorem Completes.agree (h : Completes rules reached s atoms extra)
    (hwf : WellFounded fun b a => rules.toRules.Depends a b)
    (hs : Supports rules s.numbering τ) (hs' : Supports rules s.numbering τ')
    (hopen : ∀ a, .atom a ∈ s.numbering.vars → rules.bodies a = [] →
      τ (.atom a) = τ' (.atom a)) :
    ∀ v ∈ s.numbering.vars, τ v = τ' v := by
  have hatoms : ∀ a ∈ atoms, (trueAtoms τ a ↔ trueAtoms τ' a) := by
    apply IsSupported.agree hwf (fun a b ha hab => h.closed ha hab) (h.isSupported hs)
      (h.isSupported hs')
    intro a ha hrule
    have hbodies : rules.bodies a = [] := by
      rw [RuleBase.exists_toRules_iff] at hrule
      simpa using hrule
    rw [trueAtoms, trueAtoms, hopen a (h.mem_vars_atom.mpr ha) hbodies]
  intro v hv
  rw [Bool.eq_iff_iff]
  cases v with
  | atom a => exact hatoms a (h.mem_vars_atom.mp hv)
  | body a i =>
    have ha : a ∈ atoms := (h.mem_vars_body.mp hv).1
    rw [hs.bodies a i hv, hs'.bodies a i hv]
    refine exists_congr fun b => and_congr_right fun hb => ?_
    apply Body.holds_congr
    intro l hl
    exact hatoms l.atom (h.closed ha (depends_of_mem (List.mem_of_getElem? hb) hl))

end Completion

/-! ### Assignments -/

/-- A set of numbers has the values that an assignment gives to the atoms without rules. -/
def AgreesOnOpen (rules : RuleBase) (n : Numbering) (t : Assignment) (S : Finset Nat) : Prop :=
  ∀ (i : Nat) (a : Atom), n.byIndex? i = some (.atom a) → rules.bodies a = [] →
    (i ∈ S ↔ t i = true)

theorem agreesOnOpen_iff {rules : RuleBase} {n : Numbering} (hn : n.vars.Nodup) {t : Assignment}
    {S : Finset Nat} : AgreesOnOpen rules n t S ↔
      ∀ a, .atom a ∈ n.vars → rules.bodies a = [] →
        Completion.valuation n (.ofFinset S) (.atom a) = Completion.valuation n t (.atom a) := by
  have hvalue : ∀ v, Completion.valuation n (.ofFinset S) v = Completion.valuation n t v ↔
      (n.vars.idxOf v + 1 ∈ S ↔ t (n.vars.idxOf v + 1) = true) := fun v => by
    rw [Completion.valuation, Completion.valuation, Bool.eq_iff_iff, Assignment.ofFinset,
      decide_eq_true_iff]
  constructor
  · intro h a ha hbodies
    rw [hvalue]
    exact h _ a ((Numbering.byIndex?_eq_some_iff hn).mpr ⟨ha, rfl⟩) hbodies
  · intro h i a hi hbodies
    obtain ⟨ha, rfl⟩ := (Numbering.byIndex?_eq_some_iff hn).mp hi
    rw [← hvalue]
    exact h a ha hbodies

variable {α : Type} [Scalar α]

/-- **Nothing is counted twice.** Let no atom of the rules depend on itself, and let seeds be
completed. Each assignment of the numbers that stand for atoms without rules extends to exactly
one assignment of all numbers that satisfies the CNF. -/
theorem existsUnique_extension (rules : RuleBase) (hacyclic : rules.toRules.Acyclic)
    (w : Weights Literal α) (seeds : List Literal) (t : Assignment) :
    let c := (seeds.foldl (fun s l => s.complete rules l.atom) Completion.empty).finish w
    ∃! S, S ⊆ Finset.Icc 1 c.numbering.vars.length ∧ AgreesOnOpen rules c.numbering t S ∧
      c.cnf.eval (.ofFinset S) = true := by
  intro c
  have hwf := wellFounded_of_acyclic rules.headsIn_toRules hacyclic
  have hempty : Completion.Completes rules (fun _ => True) .empty [] [] :=
    Completion.completes_empty
  have hseeds : ∀ l ∈ seeds, True := fun _ _ => trivial
  obtain ⟨atoms, h, -⟩ := hempty.completeAll (fun _ _ _ _ => trivial) hseeds
  have hn : c.numbering.vars.Nodup := h.nodup_vars
  have heval : ∀ S : Finset Nat, c.cnf.eval (.ofFinset S) = true ↔
      Completion.Supports rules c.numbering (Completion.valuation c.numbering (.ofFinset S)) := by
    intro S
    rw [h.eval_iff w, h.supports_iff]
    simp only [List.not_mem_nil, false_imp_iff, implies_true, and_true]
    rfl
  obtain ⟨τ, hτ, hopen⟩ :=
    Completion.exists_supports hwf c.numbering (Completion.valuation c.numbering t)
  obtain ⟨S, hS, hvalues⟩ := exists_finset_valuation c.numbering τ
  have hsat : c.cnf.eval (.ofFinset S) = true := by
    apply (h.eval_iff_of_agree w fun v hv => (hvalues v hv).symm).mpr
    exact ⟨h.supports_iff.mpr hτ, by simp⟩
  refine ⟨S, ⟨hS, ?_, hsat⟩, ?_⟩
  · rw [agreesOnOpen_iff hn]
    intro a ha hbodies
    rw [hvalues _ ha, hopen a hbodies]
  · intro S' hS'
    obtain ⟨hS', hopen', hsat'⟩ := hS'
    apply eq_of_valuation_eq hn hS' hS
    apply h.agree hwf ((heval S').mp hsat') ((heval S).mp hsat)
    intro a ha hbodies
    rw [(agreesOnOpen_iff hn).mp hopen' a ha hbodies, hvalues _ ha, hopen a hbodies]

/-- Rules have no loop if the literals of each are strictly below its head in some level. -/
theorem RuleBase.acyclic_ofRules {rs : List (Atom × List Literal)} (level : Atom → Nat)
    (h : ∀ e ∈ rs, ∀ l ∈ e.2, level l.atom < level e.1) : (ofRules rs).toRules.Acyclic := by
  apply acyclic_of_wellFounded
  apply Subrelation.wf _ (measure level).wf
  intro b a hab
  obtain ⟨positive, body, hbody, hl⟩ := hab
  obtain ⟨body', hbody', hsub⟩ := exists_rule_of_mem_bodies rs hbody
  exact h _ hbody' _ (hsub hl)

/-- Atoms with several bodies, a body shared through negation, and a fact. -/
def sharedSupport : RuleBase := .ofRules [(⟨"a"⟩, [.pos ⟨"b"⟩, .neg ⟨"c"⟩]), (⟨"a"⟩, [.pos ⟨"x"⟩]),
  (⟨"b"⟩, [.neg ⟨"x"⟩]), (⟨"b"⟩, [.pos ⟨"y"⟩]), (⟨"c"⟩, [.pos ⟨"x"⟩, .pos ⟨"y"⟩]), (⟨"d"⟩, [])]

/-- With `y` true and `x` false, the other variables have one value each. -/
theorem existsUnique_extension_sharedSupport :
    let c := ([.neg ⟨"a"⟩, .pos ⟨"d"⟩].foldl
      (fun (s : Completion) (l : Literal) => s.complete sharedSupport l.atom) .empty).finish
        (⟨[]⟩ : Weights Literal Rat)
    c.numbering.vars.map Variable.text =
        ["a", "a#0", "c", "x", "y", "b", "b#0", "b#1", "a#1", "d"] ∧
      sharedSupport.toRules.Acyclic ∧
      c.cnf.eval (.ofFinset {1, 2, 5, 6, 7, 8, 10}) = true ∧
      ∃! S, S ⊆ Finset.Icc 1 c.numbering.vars.length ∧
        AgreesOnOpen sharedSupport c.numbering (fun i => i == 5) S ∧
        c.cnf.eval (.ofFinset S) = true := by
  have hacyclic : sharedSupport.toRules.Acyclic :=
    RuleBase.acyclic_ofRules
      (fun a => if a = ⟨"a"⟩ then 2 else if a = ⟨"b"⟩ ∨ a = ⟨"c"⟩ then 1 else 0) (by decide)
  exact ⟨by decide +kernel, hacyclic, by decide +kernel,
    existsUnique_extension sharedSupport hacyclic ⟨[]⟩ [.neg ⟨"a"⟩, .pos ⟨"d"⟩] fun i => i == 5⟩

end ProbLogic
