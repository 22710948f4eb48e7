/-
# Least models of rules with negation

Rules are read here as a relation between heads and bodies, so that a rule
base, a rule base under an assignment of its open atoms and a selection of
annotated rules have their meaning in one place.

With the negative literals read in some interpretation, rules derive a least
set of atoms (`Derives`). A least model is an interpretation that derives
itself (`IsLeastModel`). Rules without a loop through negation have exactly
one: an atom only looks at negations of atoms strictly below it (`Below`), and
below is well-founded since the heads are finitely many, so the model is built
stratum by stratum.

A derivation never needs its own conclusion. `Derives.loopFree` says this for
derivations that avoid a set of atoms: below the root they may as well avoid
the root. This is the one fact on which cutting loops rests.

Key definitions: `Derives`, `IsLeastModel`, `leastModel`, `Stratified`, `Acyclic`,
`RuleBase.under`, `Rules.avoiding`.
Key theorems: `IsLeastModel.unique`, `isLeastModel_leastModel`, `Derives.loopFree`.
-/
import Mathlib.Data.Fintype.Card
import Mathlib.Data.Set.Finite.List
import Mathlib.Logic.Relation
import ProbLogic.RuleBase

namespace ProbLogic

/-- Rules as a relation: `R a b` says that the atom `a` has the body `b`. -/
abbrev Rules := Atom → Body → Prop

/-- The atoms that are true. -/
abbrev Interpretation := Atom → Prop

/-- A literal is true if its atom has the truth value that its polarity asks for. -/
def Literal.Holds (m : Interpretation) (l : Literal) : Prop := m l.atom ↔ l.positive = true

/-- A body is true if all its literals are. -/
def Body.Holds (m : Interpretation) (b : Body) : Prop := ∀ l ∈ b, l.Holds m

theorem Literal.holds_of_positive {m : Interpretation} {l : Literal} (h : l.positive = true) :
    l.Holds m ↔ m l.atom := by simp [Holds, h]

theorem Literal.holds_of_negative {m : Interpretation} {l : Literal} (h : l.positive = false) :
    l.Holds m ↔ ¬ m l.atom := by simp [Holds, h]

theorem Literal.holds_pos {m : Interpretation} {a : Atom} : (Literal.pos a).Holds m ↔ m a := by
  simp [Holds, pos]

theorem Literal.holds_neg {m : Interpretation} {a : Atom} : (Literal.neg a).Holds m ↔ ¬ m a := by
  simp [Holds, neg]

theorem Literal.holds_negate {m : Interpretation} {l : Literal} :
    l.negate.Holds m ↔ ¬ l.Holds m := by
  cases h : l.positive <;> simp [Holds, negate, h]

theorem Literal.holds_congr {m m' : Interpretation} {l : Literal} (h : m l.atom ↔ m' l.atom) :
    l.Holds m ↔ l.Holds m' := by
  simp [Holds, h]

theorem Body.holds_congr {m m' : Interpretation} {b : Body}
    (h : ∀ l ∈ b, (m l.atom ↔ m' l.atom)) : Body.Holds m b ↔ Body.Holds m' b :=
  forall₂_congr fun l hl => Literal.holds_congr (h l hl)

theorem Body.holds_iff {m : Interpretation} {b : Body} :
    Body.Holds m b ↔ (∀ l ∈ b, l.positive = true → m l.atom) ∧
      ∀ l ∈ b, l.positive = false → ¬ m l.atom := by
  constructor
  · intro h
    exact ⟨fun l hl hp => (Literal.holds_of_positive hp).mp (h l hl),
      fun l hl hn => (Literal.holds_of_negative hn).mp (h l hl)⟩
  · rintro ⟨hpos, hneg⟩ l hl
    cases hp : l.positive with
    | true => exact (Literal.holds_of_positive hp).mpr (hpos l hl hp)
    | false => exact (Literal.holds_of_negative hp).mpr (hneg l hl hp)

/-- The atoms that rules derive when negative literals are read in `m`: the least set that
has a head as soon as it has the positive literals of one of its bodies. -/
inductive Derives (R : Rules) (m : Interpretation) : Atom → Prop
  | rule {a : Atom} {b : Body} (body : R a b)
      (pos : ∀ l ∈ b, l.positive = true → Derives R m l.atom)
      (neg : ∀ l ∈ b, l.positive = false → ¬ m l.atom) : Derives R m a

/-- An interpretation that holds of exactly what the rules derive from its negations. -/
def IsLeastModel (R : Rules) (m : Interpretation) : Prop := ∀ a, m a ↔ Derives R m a

/-- An interpretation that supports what it holds of: among the atoms of `D`, it holds of
exactly those with a true body. -/
def IsSupported (R : Rules) (D : Atom → Prop) (m : Interpretation) : Prop :=
  ∀ a, D a → (m a ↔ ∃ b, R a b ∧ Body.Holds m b)

/-! ### Dependencies -/

namespace Rules

/-- Some body of `a` has the literal of this polarity on `b`. -/
def Uses (R : Rules) (positive : Bool) (a b : Atom) : Prop :=
  ∃ body, R a body ∧ (⟨b, positive⟩ : Literal) ∈ body

/-- Some body of `a` has a literal on `b`. -/
def Depends (R : Rules) (a b : Atom) : Prop := ∃ positive, R.Uses positive a b

/-- `a` depends on `b` through literals of either polarity, or is `b`. -/
abbrev Reaches (R : Rules) : Atom → Atom → Prop := Relation.ReflTransGen R.Depends

/-- `a` reaches itself through one or more positive literals. -/
def LoopsAt (R : Rules) (a : Atom) : Prop := Relation.TransGen (R.Uses true) a a

/-- `a` depends on `b` through literals of which at least one is negative. -/
def NegReaches (R : Rules) (a b : Atom) : Prop :=
  ∃ c d, R.Reaches a c ∧ R.Uses false c d ∧ R.Reaches d b

/-- A dependency of `a` leads through a negative literal back to `a`. -/
def NegationLoopsAt (R : Rules) (a : Atom) : Prop := R.NegReaches a a

/-- No loop of dependencies has a negative literal. -/
def Stratified (R : Rules) : Prop := ∀ a, ¬ R.NegationLoopsAt a

/-- No atom depends on itself, through literals of either polarity. -/
def Acyclic (R : Rules) : Prop := ∀ a, ¬ Relation.TransGen R.Depends a a

/-- The negation of `b` matters to `a`. -/
def Below (R : Rules) (b a : Atom) : Prop := ∃ c, R.Reaches a c ∧ R.Uses false c b

/-- All heads with dependencies are in a list. -/
def HeadsIn (R : Rules) (heads : List Atom) : Prop := ∀ a b, R.Depends a b → a ∈ heads

/-- The rules whose positive literals avoid some atoms. -/
def avoiding (R : Rules) (C : List Atom) : Rules :=
  fun a b => R a b ∧ ∀ l ∈ b, l.positive = true → l.atom ∉ C

variable {R : Rules}

theorem depends_of_mem {a : Atom} {b : Body} {l : Literal} (h : R a b) (hl : l ∈ b) :
    R.Depends a l.atom := ⟨l.positive, b, h, hl⟩

theorem uses_of_mem {a : Atom} {b : Body} {l : Literal} {p : Bool} (h : R a b) (hl : l ∈ b)
    (hp : l.positive = p) : R.Uses p a l.atom := ⟨b, h, hp ▸ hl⟩

theorem Uses.depends {p : Bool} {a b : Atom} (h : R.Uses p a b) : R.Depends a b := ⟨p, h⟩

theorem Below.of_reaches {a b c : Atom} (h : R.Reaches a b) (hc : R.Below c b) : R.Below c a := by
  obtain ⟨d, hd, hu⟩ := hc
  exact ⟨d, h.trans hd, hu⟩

theorem Below.trans {a b c : Atom} (hc : R.Below c b) (hb : R.Below b a) : R.Below c a := by
  obtain ⟨d, hd, hu⟩ := hb
  exact hc.of_reaches (hd.tail hu.depends)

theorem not_below_self (hs : R.Stratified) (a : Atom) : ¬ R.Below a a := by
  rintro ⟨b, hb, hu⟩
  exact hs a ⟨b, a, hb, hu, .refl⟩

/-- Rules are stratified if no literal is above its head in some level, and negative ones are
strictly below. -/
theorem stratified_of_level (level : Atom → Nat)
    (h : ∀ a b, R a b → ∀ l ∈ b, level l.atom + (if l.positive then 0 else 1) ≤ level a) :
    R.Stratified := by
  have huses : ∀ {p a b}, R.Uses p a b → level b + (if p then 0 else 1) ≤ level a := by
    rintro p a b ⟨body, hb, hl⟩
    exact h a body hb _ hl
  have hreach : ∀ {a b}, R.Reaches a b → level b ≤ level a := by
    intro a b hab
    induction hab with
    | refl => exact le_refl _
    | tail _ hd ih =>
      obtain ⟨p, hu⟩ := hd
      have := huses hu
      omega
  rintro a ⟨c, d, hac, hu, hda⟩
  have hac := hreach hac
  have hda := hreach hda
  have hcd : level d + 1 ≤ level c := huses hu
  omega

theorem HeadsIn.of_below {heads : List Atom} (hR : R.HeadsIn heads) {a b : Atom}
    (h : R.Below b a) : a ∈ heads := by
  obtain ⟨c, hc, hu⟩ := h
  rcases hc.cases_head with rfl | ⟨d, hd, -⟩
  · exact hR _ _ hu.depends
  · exact hR _ _ hd

end Rules

open Rules

/-- A transitive relation without loops is well-founded if only the elements of a list
have something below them. -/
theorem wellFounded_of_mem_list {α : Type} {r : α → α → Prop} (xs : List α)
    (hmem : ∀ x y, r x y → y ∈ xs) (htrans : ∀ x y z, r x y → r y z → r x z)
    (hirrefl : ∀ x, ¬ r x x) : WellFounded r := by
  let r' : {x // x ∈ xs} → {x // x ∈ xs} → Prop := fun x y => r x.1 y.1
  have : Finite {x // x ∈ xs} := xs.finite_toSet
  have : IsTrans {x // x ∈ xs} r' := ⟨fun x y z => htrans x.1 y.1 z.1⟩
  have : Std.Irrefl r' := ⟨fun x => hirrefl x.1⟩
  have hwf : WellFounded r' := Finite.wellFounded_of_trans_of_irrefl r'
  have houtside : ∀ x, x ∉ xs → Acc r x := fun x hx =>
    ⟨x, fun y hy => absurd (hmem y x hy) hx⟩
  have hinside : ∀ x : {x // x ∈ xs}, Acc r x.1 := by
    intro x
    induction x using hwf.induction with
    | _ x ih =>
      refine ⟨x.1, fun y hy => ?_⟩
      by_cases hm : y ∈ xs
      · exact ih ⟨y, hm⟩ hy
      · exact houtside y hm
  refine ⟨fun x => ?_⟩
  by_cases hx : x ∈ xs
  · exact hinside ⟨x, hx⟩
  · exact houtside x hx

theorem wellFounded_below {R : Rules} {heads : List Atom} (hR : R.HeadsIn heads)
    (hs : R.Stratified) : WellFounded R.Below :=
  wellFounded_of_mem_list heads (fun _ _ h => hR.of_below h) (fun _ _ _ h h' => h.trans h')
    (not_below_self hs)

/-- Finitely many rules without a loop of dependencies are well-founded. -/
theorem wellFounded_of_acyclic {R : Rules} {heads : List Atom} (hR : R.HeadsIn heads)
    (h : R.Acyclic) : WellFounded fun b a => R.Depends a b := by
  have hwf : WellFounded fun b a => Relation.TransGen R.Depends a b := by
    apply wellFounded_of_mem_list heads
    · intro b a hab
      obtain ⟨c, hac, -⟩ := Relation.TransGen.head'_iff.mp hab
      exact hR a c hac
    · intro c b a hbc hab
      exact hab.trans hbc
    · exact h
  exact Subrelation.wf (fun hab => .single hab) hwf

theorem acyclic_of_wellFounded {R : Rules} (h : WellFounded fun b a => R.Depends a b) :
    R.Acyclic := by
  intro a ha
  have hswap : Relation.TransGen (fun b a => R.Depends a b) a a := Relation.transGen_swap.mpr ha
  exact (h.transGen).irrefl.irrefl a hswap

/-- Where dependencies end, interpretations that support the same atoms agree on them if they
agree on those without rules. -/
theorem IsSupported.agree {R : Rules} (hwf : WellFounded fun b a => R.Depends a b)
    {D : Atom → Prop} {m m' : Interpretation} (hclosed : ∀ a b, D a → R.Depends a b → D b)
    (h : IsSupported R (fun a => D a ∧ ∃ b, R a b) m)
    (h' : IsSupported R (fun a => D a ∧ ∃ b, R a b) m')
    (hopen : ∀ a, D a → (¬ ∃ b, R a b) → (m a ↔ m' a)) (a : Atom) (ha : D a) : m a ↔ m' a := by
  induction a using hwf.induction with
  | _ a ih =>
    by_cases hrule : ∃ b, R a b
    · rw [h a ⟨ha, hrule⟩, h' a ⟨ha, hrule⟩]
      refine exists_congr fun b => and_congr_right fun hb => Body.holds_congr fun l hl => ?_
      have hdep := depends_of_mem hb hl
      exact ih l.atom hdep (hclosed a l.atom ha hdep)
    · exact hopen a ha hrule

/-! ### Existence and uniqueness -/

section Stratum

variable {R : Rules} {m m' : Interpretation}

/-- A derivation of `a` reads the negations below `a` only. -/
theorem Derives.congr {a : Atom} (h : Derives R m a) (hm : ∀ b, R.Below b a → (m b ↔ m' b)) :
    Derives R m' a := by
  induction h with
  | @rule a b hb _ hneg ih =>
    refine .rule hb (fun l hl hp => ih l hl hp fun c hc => hm c ?_) fun l hl hn h' => ?_
    · exact hc.of_reaches (.single (depends_of_mem hb hl))
    · exact hneg l hl hn ((hm l.atom ⟨a, .refl, uses_of_mem hb hl hn⟩).mpr h')

theorem derives_congr {a : Atom} (hm : ∀ b, R.Below b a → (m b ↔ m' b)) :
    Derives R m a ↔ Derives R m' a :=
  ⟨fun h => h.congr hm, fun h => h.congr fun b hb => (hm b hb).symm⟩

/-- Rules without a loop through negation have at most one least model. -/
theorem IsLeastModel.unique {heads : List Atom} (hR : R.HeadsIn heads) (hs : R.Stratified)
    (h : IsLeastModel R m) (h' : IsLeastModel R m') (a : Atom) : m a ↔ m' a := by
  induction a using (wellFounded_below hR hs).induction with
  | _ a ih => rw [h a, h' a, derives_congr ih]

/-- The model that is built stratum by stratum. -/
noncomputable def stratumModel (hwf : WellFounded R.Below) : Interpretation :=
  hwf.fix fun a lower => Derives R (fun b => ∃ h : R.Below b a, lower b h) a

theorem isLeastModel_stratumModel (hwf : WellFounded R.Below) :
    IsLeastModel R (stratumModel hwf) := by
  intro a
  have h : stratumModel hwf a ↔
      Derives R (fun b => ∃ _ : R.Below b a, stratumModel hwf b) a := by
    conv_lhs => rw [stratumModel, hwf.fix_eq]
    rfl
  rw [h]
  exact derives_congr fun b hb => ⟨fun ⟨_, h⟩ => h, fun h => ⟨hb, h⟩⟩

end Stratum

/-- The truth of an atom in the least model of rules. -/
def leastModel (R : Rules) : Interpretation := fun a => ∃ m, IsLeastModel R m ∧ m a

/-- Rules without a loop through negation have a least model. -/
theorem isLeastModel_leastModel {R : Rules} {heads : List Atom} (hR : R.HeadsIn heads)
    (hs : R.Stratified) : IsLeastModel R (leastModel R) := by
  have hm := isLeastModel_stratumModel (wellFounded_below hR hs)
  have heq : leastModel R = stratumModel (wellFounded_below hR hs) := by
    funext a
    refine propext ⟨?_, fun h => ⟨_, hm, h⟩⟩
    rintro ⟨m, h, ha⟩
    exact (h.unique hR hs hm a).mp ha
  rw [heq]
  exact hm

theorem leastModel_eq {R : Rules} {heads : List Atom} (hR : R.HeadsIn heads) (hs : R.Stratified)
    {m : Interpretation} (h : IsLeastModel R m) (a : Atom) : leastModel R a ↔ m a :=
  (isLeastModel_leastModel hR hs).unique hR hs h a

theorem IsLeastModel.of_body {R : Rules} {m : Interpretation} (h : IsLeastModel R m) {a : Atom}
    {b : Body} (hb : R a b) (hm : Body.Holds m b) : m a := by
  obtain ⟨hpos, hneg⟩ := Body.holds_iff.mp hm
  exact (h a).mpr (.rule hb (fun l hl hp => (h l.atom).mp (hpos l hl hp)) hneg)

theorem IsLeastModel.exists_body {R : Rules} {m : Interpretation} (h : IsLeastModel R m)
    {a : Atom} (ha : m a) : ∃ b, R a b ∧ Body.Holds m b := by
  obtain ⟨hb, hpos, hneg⟩ := (h a).mp ha
  exact ⟨_, hb, Body.holds_iff.mpr ⟨fun l hl hp => (h l.atom).mpr (hpos l hl hp), hneg⟩⟩

/-! ### Derivations that avoid atoms -/

section Avoiding

variable {R : Rules} {m : Interpretation} {C C' : List Atom} {a : Atom}

theorem Derives.mono {R' : Rules} (hR : ∀ a b, R a b → R' a b) (h : Derives R m a) :
    Derives R' m a := by
  induction h with
  | rule hb _ hneg ih => exact .rule (hR _ _ hb) ih hneg

theorem Derives.avoiding_mono (hC : C' ⊆ C) (h : Derives (R.avoiding C) m a) :
    Derives (R.avoiding C') m a :=
  h.mono fun _ _ hb => ⟨hb.1, fun l hl hp hm => hb.2 l hl hp (hC hm)⟩

theorem derives_avoiding_nil : Derives (R.avoiding []) m a ↔ Derives R m a :=
  ⟨fun h => h.mono fun _ _ hb => hb.1, fun h => h.mono fun _ _ hb => ⟨hb, by simp⟩⟩

/-- The atom has a body whose positive literals are derived without it and without the
atoms of a list. -/
def FirstStep (R : Rules) (m : Interpretation) (C : List Atom) (a : Atom) : Prop :=
  ∃ b, R a b ∧ (∀ l ∈ b, l.positive = false → ¬ m l.atom) ∧
    ∀ l ∈ b, l.positive = true → l.atom ∉ a :: C ∧ Derives (R.avoiding (a :: C)) m l.atom

theorem Derives.firstStep (h : Derives (R.avoiding (a :: C)) m a) : FirstStep R m C a := by
  obtain ⟨hb, hpos, hneg⟩ := h
  exact ⟨_, hb.1, hneg, fun l hl hp => ⟨hb.2 l hl hp, hpos l hl hp⟩⟩

/-- What is derived without the atoms of a list is also derived without `a`, unless `a`
itself has been derived on the way, and then without itself. -/
theorem Derives.avoiding_cons {x : Atom} (h : Derives (R.avoiding C) m x) :
    Derives (R.avoiding (a :: C)) m x ∨ FirstStep R m C a := by
  induction h with
  | @rule x b hb _ hneg ih =>
    by_cases hstep : FirstStep R m C a
    · exact .inr hstep
    have hder : ∀ l ∈ b, l.positive = true → Derives (R.avoiding (a :: C)) m l.atom :=
      fun l hl hp => (ih l hl hp).resolve_right hstep
    refine .inl (.rule ⟨hb.1, fun l hl hp hm => ?_⟩ hder hneg)
    rcases List.mem_cons.mp hm with rfl | hm
    · exact hstep (hder l hl hp).firstStep
    · exact hb.2 l hl hp hm

/-- **Derivations are loop-free.** An atom that is derived without the atoms of a list has
a body whose literals are derived without the atom as well. -/
theorem Derives.loopFree (h : Derives (R.avoiding C) m a) : FirstStep R m C a :=
  h.avoiding_cons.elim Derives.firstStep id

end Avoiding

/-! ### Rule bases -/

namespace RuleBase

variable {r : RuleBase}

/-- The rules of a rule base. -/
def toRules (r : RuleBase) : Rules := fun a b => b ∈ r.bodies a

/-- The rules of a rule base, and a fact for each open atom that is assigned true. -/
def under (r : RuleBase) (s : Interpretation) : Rules :=
  fun a b => b ∈ r.bodies a ∨ (r.contains a = false ∧ s a ∧ b = [])

theorem bodies_of_not_contains {a : Atom} (h : r.contains a = false) : r.bodies a = [] := by
  simp only [contains, Option.isSome_eq_false_iff, Option.isNone_iff_eq_none] at h
  simp [bodies, h]

theorem contains_of_mem_bodies {a : Atom} {b : Body} (h : b ∈ r.bodies a) :
    r.contains a = true := by
  by_contra hc
  rw [bodies_of_not_contains (by simpa using hc)] at h
  simp at h

theorem uses_under {s : Interpretation} {p : Bool} {a b : Atom} :
    (r.under s).Uses p a b ↔ r.toRules.Uses p a b := by
  constructor
  · rintro ⟨body, hb | ⟨-, -, rfl⟩, hm⟩
    · exact ⟨body, hb, hm⟩
    · simp at hm
  · rintro ⟨body, hb, hm⟩
    exact ⟨body, .inl hb, hm⟩

theorem depends_under {s : Interpretation} : (r.under s).Depends = r.toRules.Depends := by
  funext a b
  exact propext (exists_congr fun p => uses_under)

theorem stratified_under (s : Interpretation) (h : r.toRules.Stratified) :
    (r.under s).Stratified := by
  rintro a ⟨b, c, hb, hu, hc⟩
  refine h a ⟨b, c, ?_, uses_under.mp hu, ?_⟩
  · rwa [Reaches, ← depends_under (s := s)]
  · rwa [Reaches, ← depends_under (s := s)]

theorem mem_heads_of_contains {a : Atom} (h : r.contains a = true) : a ∈ r.heads := by
  obtain ⟨es⟩ := r
  simp only [contains, heads] at h ⊢
  induction es with
  | nil => simp [Ascending.get?] at h
  | cons e es ih =>
    by_cases he : compare a e.1 = .eq
    · simp [Std.LawfulEqCmp.eq_of_compare he]
    · simp only [Ascending.get?, beq_iff_eq, he, if_false] at h
      exact List.mem_cons_of_mem _ (ih h)

theorem headsIn_toRules (r : RuleBase) : r.toRules.HeadsIn r.heads := by
  rintro a b ⟨p, body, hb, -⟩
  exact mem_heads_of_contains (contains_of_mem_bodies hb)

theorem headsIn_under (s : Interpretation) : (r.under s).HeadsIn r.heads := by
  rintro a b ⟨p, hu⟩
  exact r.headsIn_toRules a b (uses_under.mp hu).depends

/-- An open atom is derived exactly if it is assigned true. -/
theorem derives_open {s m : Interpretation} {C : List Atom} {a : Atom}
    (h : r.contains a = false) : Derives ((r.under s).avoiding C) m a ↔ s a := by
  constructor
  · rintro ⟨⟨hb | hb, -⟩, -, -⟩
    · rw [contains_of_mem_bodies hb] at h
      cases h
    · exact hb.2.1
  · intro ha
    exact .rule ⟨.inr ⟨h, ha, rfl⟩, by simp⟩ (by simp) (by simp)

end RuleBase
end ProbLogic
