/-
# Adding rules keeps supported and stable models

The stored form of rules depends on the order in which they are added, but
their meaning does not. Which interpretations are supported only asks for the
truth of bodies. A stable model asks for more: with its negations fixed, it
has to be the least interpretation that is closed under the rules and has the
open atoms that it makes true. The stored rules are closed under the same
interpretations as the added ones (`closed_ofRules_iff`): an interpretation
closed under either has the facts, and where the facts are true the bodies of
each head are as good as those added to it. What is derived, the least closed
interpretation, is therefore the same (`derives_opening_ofRules_iff`).

Key definitions: `Rules.Closed`, `Rules.opening`, `IsStable`.
Key theorems: `derives_iff_forall_closed`, `closed_ofRules_iff`, `models_ofRules_iff`.
-/
import ProbLogic.Proofs.RuleBase

namespace ProbLogic

open RuleBase

namespace Rules

variable {R : Rules} {D : Atom → Prop} {s m p : Interpretation}

/-- With negative literals read in `m`, each rule whose positive literals are in `p` has its
head in `p`. -/
def Closed (R : Rules) (m p : Interpretation) : Prop := ∀ a b, R a b → HoldsIn p m b → p a

/-- The rules, and a fact for each atom outside `D` that is assigned true. -/
def opening (R : Rules) (D : Atom → Prop) (s : Interpretation) : Rules :=
  fun a b => R a b ∨ (¬ D a ∧ s a ∧ b = [])

theorem closed_opening_iff :
    (R.opening D s).Closed m p ↔ R.Closed m p ∧ ∀ a, ¬ D a → s a → p a := by
  constructor
  · intro h
    refine ⟨fun a b hb hholds => h a b (.inl hb) hholds, fun a hD hs => ?_⟩
    apply h a [] (.inr ⟨hD, hs, rfl⟩)
    simp [HoldsIn]
  · intro h a b hb hholds
    obtain ⟨hrules, hopen⟩ := h
    rcases hb with hb | ⟨hD, hs, -⟩
    · exact hrules a b hb hholds
    · exact hopen a hD hs

end Rules

open Rules

variable {m p s : Interpretation} {a : Atom} {rs : List (Atom × List Literal)}

/-- What rules derive is what every closed interpretation has. -/
theorem derives_iff_forall_closed {R : Rules} :
    Derives R m a ↔ ∀ p, R.Closed m p → p a := by
  constructor
  · intro h p hp
    induction h with
    | @rule a b hb _ hneg ih =>
      apply hp a b hb
      intro l hl
      cases hpos : l.positive with
      | true => simpa using ih l hl hpos
      | false => simpa using hneg l hl hpos
  · intro h
    apply h (Derives R m)
    intro a b hb hholds
    have hlit : ∀ l ∈ b, if l.positive then Derives R m l.atom else ¬ m l.atom := hholds
    refine .rule hb (fun l hl hpos => ?_) (fun l hl hneg => ?_)
    · simpa [hpos] using hlit l hl
    · simpa [hneg] using hlit l hl

/-- A stable model, with the atoms outside `D` open: it has exactly what the rules and its own
open atoms derive from its negations. -/
def IsStable (R : Rules) (D : Atom → Prop) (m : Interpretation) : Prop :=
  IsLeastModel (R.opening D m) m

/-- **The stored rules are closed under the same interpretations.** -/
theorem closed_ofRules_iff (hrs : ∀ x ∈ rs, x.1.Plain ∧ ∀ l ∈ x.2, l.atom.Plain) :
    Rules.Closed (fun a b => (a, b) ∈ rs) m p ↔ (ofRules rs).toRules.Closed m p := by
  have hr := represents_ofRules hrs
  constructor
  · intro hclosed a b hb hholds
    have hfacts : ∀ a, (ofRules rs).isFact a = true → p a := hr.facts p m hclosed
    obtain ⟨c, hc, hcholds⟩ := (hr.bodies p m hfacts a).mpr ⟨b, hb, hholds⟩
    exact hclosed a c hc hcholds
  · intro hclosed a b hb hholds
    have hfacts : ∀ a, (ofRules rs).isFact a = true → p a := by
      intro a hf
      obtain ⟨c, hc, hcholds⟩ := exists_holdsIn_of_isFact (p := p) (m := m) hf
      exact hclosed a c hc hcholds
    obtain ⟨c, hc, hcholds⟩ := (hr.bodies p m hfacts a).mp ⟨b, hb, hholds⟩
    exact hclosed a c hc hcholds

theorem derives_opening_ofRules_iff
    (hrs : ∀ x ∈ rs, x.1.Plain ∧ ∀ l ∈ x.2, l.atom.Plain) :
    Derives (Rules.opening (fun a b => (a, b) ∈ rs) (fun a => ∃ b, (a, b) ∈ rs) s) m a ↔
      Derives ((ofRules rs).toRules.opening (fun a => (ofRules rs).contains a = true) s) m a := by
  rw [derives_iff_forall_closed, derives_iff_forall_closed]
  apply forall_congr'
  intro p
  rw [closed_opening_iff, closed_opening_iff, closed_ofRules_iff hrs]
  simp only [contains_ofRules]

/-- **Adding rules keeps their models.** Let rules with plain names be added to an empty rule
base in any order. An interpretation supports the rules exactly if it supports the rule base,
and with the atoms open that are no head it is a stable model of the rules exactly if it is
one of the rule base. -/
theorem models_ofRules_iff (hrs : ∀ x ∈ rs, x.1.Plain ∧ ∀ l ∈ x.2, l.atom.Plain)
    (m : Interpretation) :
    (IsSupported (fun a b => (a, b) ∈ rs) (fun a => ∃ b, (a, b) ∈ rs) m ↔
      IsSupported (ofRules rs).toRules (fun a => (ofRules rs).contains a = true) m) ∧
    (IsStable (fun a b => (a, b) ∈ rs) (fun a => ∃ b, (a, b) ∈ rs) m ↔
      IsStable (ofRules rs).toRules (fun a => (ofRules rs).contains a = true) m) := by
  refine ⟨supported_iff hrs m, ?_⟩
  unfold IsStable IsLeastModel
  apply forall_congr'
  intro a
  rw [derives_opening_ofRules_iff hrs]

/-- Rules of which `a` is a fact when it is added and makes `b` one, but not `c`. -/
def promotedRules : List (Atom × List Literal) :=
  [(⟨"b"⟩, [.pos ⟨"a"⟩]), (⟨"c"⟩, [.pos ⟨"b"⟩, .neg ⟨"d"⟩]), (⟨"a"⟩, []), (⟨"d"⟩, [.neg ⟨"c"⟩]),
    (⟨"b"⟩, [.pos ⟨"e"⟩])]

/-- The last rule is lost and the rule of `c` still asks for the fact `b`, but the models are
those of the rules. -/
theorem models_promotedRules :
    (ofRules promotedRules).text = "a.\nb.\nc :- not(d), b.\nd :- not(c).\n" ∧ ∀ m : Interpretation,
      (IsSupported (fun a b => (a, b) ∈ promotedRules) (fun a => ∃ b, (a, b) ∈ promotedRules) m ↔
        IsSupported (ofRules promotedRules).toRules
          (fun a => (ofRules promotedRules).contains a = true) m) ∧
      (IsStable (fun a b => (a, b) ∈ promotedRules) (fun a => ∃ b, (a, b) ∈ promotedRules) m ↔
        IsStable (ofRules promotedRules).toRules
          (fun a => (ofRules promotedRules).contains a = true) m) := by
  have hplain : ∀ x ∈ promotedRules, x.1.Plain ∧ ∀ l ∈ x.2, l.atom.Plain := by decide +kernel
  exact ⟨by decide +kernel, models_ofRules_iff hplain⟩

end ProbLogic
