/-
# What an unrolling has built

While rules are unrolled, the expansions that are open form a descent: each
was entered through a literal of the one below it on the stack. A positive
literal passes the ancestors on, with the atom above it added, and is not an
ancestor itself. A negative literal starts again without ancestors
(`Descent`). An atom that is met with the ancestors of an open expansion of
itself was therefore reached through negation, since positive literals alone
only add ancestors (`Descent.negationLoopsAt`).

What is built is told by the list of its records, newest first: each says
which variant an atom became and which bodies were left to it. A record is
justified by the records before it: the literals of its bodies are on variants
that serve where they stand, and every body of the atom was copied, cut or lost
(`Justified`). The rules and weights built, the variants recorded and the names
taken are then functions of the records, as far as they matter (`Steps`).

Key definitions: `Descent`, `Record`, `Serves`, `Copies`, `Left`, `Justified`, `SameWeights`,
`Steps`.
Key theorems: `Descent.negationLoopsAt`, `Valid.eq_of_name`, `Reached.valid`,
`Reached.mem_variantsOf`, `Reached.rules_built`.
-/
import ProbLogic.Proofs.RuleBase
import ProbLogic.Unrolling

namespace ProbLogic

open Rules Relation

/-! ### The expansions that are open -/

/-- With the expansions of a stack open, the atom `a` is met below the ancestors `A`. -/
inductive Descent (R : Rules) : List (Atom × List Atom) → Atom → List Atom → Prop
  | seed (a : Atom) : Descent R [] a []
  | positive {st : List (Atom × List Atom)} {a b : Atom} {A : List Atom} (above : Descent R st a A)
      (uses : R.Uses true a b) (hb : b ∉ A) : Descent R ((a, A) :: st) b (Ascending.insert a A)
  | negative {st : List (Atom × List Atom)} {a b : Atom} {A : List Atom} (above : Descent R st a A)
      (uses : R.Uses false a b) : Descent R ((a, A) :: st) b []

namespace Descent

variable {R : Rules} {st : List (Atom × List Atom)} {a : Atom} {A : List Atom}

theorem reaches_of_mem {c : Atom × List Atom} (h : Descent R st a A) (hc : c ∈ st) :
    R.Reaches c.1 a := by
  induction h with
  | seed a => simp at hc
  | positive _ hu _ ih =>
    rcases List.mem_cons.mp hc with rfl | hc
    · exact .single hu.depends
    · exact (ih hc).tail hu.depends
  | negative _ hu ih =>
    rcases List.mem_cons.mp hc with rfl | hc
    · exact .single hu.depends
    · exact (ih hc).tail hu.depends

/-- Positive literals lead from each ancestor to the atom that is met. -/
theorem transGen_of_mem {c : Atom} (h : Descent R st a A) (hc : c ∈ A) :
    TransGen (R.Uses true) c a := by
  induction h with
  | seed a => simp at hc
  | positive _ hu _ ih =>
    rcases Ascending.mem_insert.mp hc with rfl | hc
    · exact .single hu
    · exact (ih hc).tail hu
  | negative _ _ _ => simp at hc

/-- How an expansion from which only positive literals lead to `a` below `A` differs from
one of `a` below `A`: its atom is an ancestor now, and either `a` was none of its ancestors
or there is a new one. -/
def Inherits (c : Atom × List Atom) (a : Atom) (A : List Atom) : Prop :=
  c.1 ∈ A ∧ (a ∉ c.2 ∨ ∃ d ∈ A, d ∉ c.2)

theorem Inherits.tail {c : Atom × List Atom} {b : Atom} (h : Inherits c a A) :
    Inherits c b (Ascending.insert a A) := by
  obtain ⟨hc, hn⟩ := h
  refine ⟨Ascending.mem_insert.mpr (.inr hc), .inr ?_⟩
  rcases hn with hn | ⟨d, hd, hn⟩
  · exact ⟨a, Ascending.mem_insert.mpr (.inl rfl), hn⟩
  · exact ⟨d, Ascending.mem_insert.mpr (.inr hd), hn⟩

theorem negReaches_or_inherits {c : Atom × List Atom} (h : Descent R st a A) (hc : c ∈ st) :
    R.NegReaches c.1 a ∨ Inherits c a A := by
  induction h with
  | seed a => simp at hc
  | @positive st a b A _ hu hb ih =>
    rcases List.mem_cons.mp hc with rfl | hc
    · exact .inr ⟨Ascending.mem_insert.mpr (.inl rfl), .inl hb⟩
    · rcases ih hc with ⟨d, e, hd, hn, he⟩ | hin
      · exact .inl ⟨d, e, hd, hn, he.tail hu.depends⟩
      · exact .inr hin.tail
  | @negative st a b A habove hu ih =>
    rcases List.mem_cons.mp hc with rfl | hc
    · exact .inl ⟨a, b, .refl, hu, .refl⟩
    · exact .inl ⟨a, b, habove.reaches_of_mem hc, hu, .refl⟩

/-- **Re-entry needs a loop through negation.** An atom that is met with the ancestors of an
open expansion of itself lies on a loop through negation. -/
theorem negationLoopsAt (h : Descent R st a A) (hm : (a, A) ∈ st) : R.NegationLoopsAt a := by
  rcases h.negReaches_or_inherits hm with hn | ⟨ha, hn | ⟨d, hd, hn⟩⟩
  · exact hn
  · exact absurd ha hn
  · exact absurd hd hn

end Descent

/-! ### Records -/

/-- What an atom was built to: its variant, and the bodies left to it. -/
structure Record where
  atom : Atom
  variant : Variant
  bodies : List Body

namespace Record

/-- The rules of a record: its bodies under the name of its variant. -/
def rules (x : Record) : List (Atom × List Literal) :=
  match x.variant.name with
  | some n => x.bodies.map fun b => (n, b)
  | none => []

theorem mem_rules {x : Record} {n : Atom} {b : Body} :
    (n, b) ∈ x.rules ↔ x.variant.name = some n ∧ b ∈ x.bodies := by
  unfold rules
  split
  · next m hm => simp [hm, and_comm, eq_comm]
  · next hm => simp [hm]

end Record

/-- The variant stands for the atom below the ancestors: a record whose cuts are all
ancestors, or the atom itself while it is pending. -/
def Serves (recs : List Record) (pend : List Atom) (a : Atom) (A : List Atom) (v : Variant) :
    Prop :=
  (∃ x ∈ recs, x.atom = a ∧ x.variant = v ∧ v.cuts ⊆ A) ∨ (a ∈ pend ∧ v = ⟨some a, []⟩)

/-- The variant stands for the literal's atom below the ancestors `inner`, or below none if
the literal is negative. -/
def Answers (recs : List Record) (pend : List Atom) (inner : List Atom) (l : Literal)
    (v : Variant) : Prop := Serves recs pend l.atom (if l.positive then inner else []) v

/-- An ascending body with literals on the variants that answer those of `b`, without the
literals that hold vacuously. The cuts are those of the variants. -/
structure Copies (ans : Literal → Variant → Prop) (b body : Body) (cuts : List Atom) : Prop where
  source : ∀ k ∈ body, ∃ l ∈ b, ∃ v, ans l v ∧ v.resolve l = .variant k ∧ v.cuts ⊆ cuts
  target : ∀ l ∈ b, ∃ v, ans l v ∧ (v.resolve l = .vacuous ∨
    ∃ k, v.resolve l = .variant k ∧ ∃ k' ∈ body, compare k k' = .eq)
  cause : ∀ c ∈ cuts, ∃ l ∈ b, ∃ v, ans l v ∧ c ∈ v.cuts
  ascending : Ascending.IsAscending body

/-- The bodies that are left of given ones below ancestors, and the cuts. A body that needs
an ancestor is cut, one with a literal that has no derivation is lost, and all others are
copied. -/
inductive Left (ans : Literal → Variant → Prop) (A : List Atom) :
    List Body → List Body → List Atom → Prop
  | nil : Left ans A [] [] []
  | cut {b : Body} {bs bodies : List Body} {cuts : List Atom}
      (loops : UnrollM.closedLoops A b ≠ []) (rest : Left ans A bs bodies cuts) :
      Left ans A (b :: bs) bodies (Ascending.union (UnrollM.closedLoops A b) cuts)
  | lost {b : Body} {bs bodies : List Body} {cuts : List Atom} {l : Literal} {v : Variant}
      (loops : UnrollM.closedLoops A b = []) (hl : l ∈ b) (hv : ans l v)
      (eliminated : v.resolve l = .eliminated) (rest : Left ans A bs bodies cuts) :
      Left ans A (b :: bs) bodies (Ascending.union v.cuts cuts)
  | kept {b body : Body} {bs bodies : List Body} {cuts c : List Atom}
      (loops : UnrollM.closedLoops A b = []) (copies : Copies ans b body c)
      (rest : Left ans A bs bodies cuts) :
      Left ans A (b :: bs) (body :: bodies) (Ascending.union c cuts)

section Resolution

variable {ans ans' : Literal → Variant → Prop} {A : List Atom} {b body : Body} {cuts : List Atom}

theorem resolve_eq_variant {v : Variant} {l k : Literal} :
    v.resolve l = .variant k ↔ ∃ n, v.name = some n ∧ k = l.withAtom n := by
  unfold Variant.resolve
  split
  · next n hn => simp [hn, eq_comm]
  · next hn => split <;> simp [hn]

theorem resolve_eq_eliminated {v : Variant} {l : Literal} :
    v.resolve l = .eliminated ↔ v.name = none ∧ l.positive = true := by
  unfold Variant.resolve
  split
  · next n hn => simp [hn]
  · next hn => split <;> simp_all

theorem resolve_eq_vacuous {v : Variant} {l : Literal} :
    v.resolve l = .vacuous ↔ v.name = none ∧ l.positive = false := by
  unfold Variant.resolve
  split
  · next n hn => simp [hn]
  · next hn => split <;> simp_all

theorem mem_closedLoops {c : Atom} :
    c ∈ UnrollM.closedLoops A b ↔ c ∈ A ∧ Literal.pos c ∈ b := by
  simp only [UnrollM.closedLoops, Ascending.mem_ofList, List.mem_map, List.mem_filter,
    Bool.and_eq_true, decide_eq_true_eq]
  constructor
  · rintro ⟨⟨d, p⟩, ⟨hl, rfl, hd⟩, rfl⟩
    exact ⟨hd, hl⟩
  · rintro ⟨hc, hl⟩
    exact ⟨.pos c, ⟨hl, rfl, hc⟩, rfl⟩

namespace Copies

theorem nil : Copies ans [] [] [] := ⟨by simp, by simp, by simp, List.Pairwise.nil⟩

theorem mono (h : Copies ans b body cuts) (hans : ∀ l v, ans l v → ans' l v) :
    Copies ans' b body cuts where
  source k hk := by
    obtain ⟨l, hl, v, hv, hr, hc⟩ := h.source k hk
    exact ⟨l, hl, v, hans l v hv, hr, hc⟩
  target l hl := by
    obtain ⟨v, hv, hr⟩ := h.target l hl
    exact ⟨v, hans l v hv, hr⟩
  cause c hc := by
    obtain ⟨l, hl, v, hv, hm⟩ := h.cause c hc
    exact ⟨l, hl, v, hans l v hv, hm⟩
  ascending := h.ascending

theorem snoc_variant {l k : Literal} {v : Variant} (h : Copies ans b body cuts) (hv : ans l v)
    (hr : v.resolve l = .variant k) :
    Copies ans (b ++ [l]) (Ascending.insert k body) (Ascending.union cuts v.cuts) where
  source k' hk' := by
    rcases Ascending.eq_or_mem_of_mem_insert hk' with rfl | hk'
    · exact ⟨l, by simp, v, hv, hr, fun c hc => Ascending.mem_union.mpr (.inr hc)⟩
    · obtain ⟨l', hl', v', hv', hr', hc'⟩ := h.source k' hk'
      exact ⟨l', List.mem_append_left _ hl', v', hv', hr',
        fun c hc => Ascending.mem_union.mpr (.inl (hc' hc))⟩
  target l' hl' := by
    rcases List.mem_append.mp hl' with hl' | hl'
    · obtain ⟨v', hv', hr' | ⟨k', hr', k'', hk'', hc⟩⟩ := h.target l' hl'
      · exact ⟨v', hv', .inl hr'⟩
      · exact ⟨v', hv', .inr ⟨k', hr', k'', Ascending.mem_insert_of_mem hk'', hc⟩⟩
    · rw [List.mem_singleton.mp hl']
      exact ⟨v, hv, .inr ⟨k, hr, Ascending.exists_mem_insert k body⟩⟩
  cause c hc := by
    rcases Ascending.mem_union.mp hc with hc | hc
    · obtain ⟨l', hl', v', hv', hm⟩ := h.cause c hc
      exact ⟨l', List.mem_append_left _ hl', v', hv', hm⟩
    · exact ⟨l, by simp, v, hv, hc⟩
  ascending := Ascending.isAscending_insert h.ascending

theorem snoc_vacuous {l : Literal} {v : Variant} (h : Copies ans b body cuts) (hv : ans l v)
    (hr : v.resolve l = .vacuous) : Copies ans (b ++ [l]) body cuts where
  source k hk := by
    obtain ⟨l', hl', hk'⟩ := h.source k hk
    exact ⟨l', List.mem_append_left _ hl', hk'⟩
  target l' hl' := by
    rcases List.mem_append.mp hl' with hl' | hl'
    · exact h.target l' hl'
    · rw [List.mem_singleton.mp hl']
      exact ⟨v, hv, .inl hr⟩
  cause c hc := by
    obtain ⟨l', hl', hc'⟩ := h.cause c hc
    exact ⟨l', List.mem_append_left _ hl', hc'⟩
  ascending := h.ascending

end Copies

namespace Left

variable {bs bodies : List Body}

theorem mono (h : Left ans A bs bodies cuts) (hans : ∀ l v, ans l v → ans' l v) :
    Left ans' A bs bodies cuts := by
  induction h with
  | nil => exact .nil
  | cut loops _ ih => exact .cut loops ih
  | lost loops hl hv he _ ih => exact .lost loops hl (hans _ _ hv) he ih
  | kept loops copies _ ih => exact .kept loops (copies.mono hans) ih

/-- Each body that is left is a copy. -/
theorem exists_source (h : Left ans A bs bodies cuts) (hb : body ∈ bodies) :
    ∃ b ∈ bs, UnrollM.closedLoops A b = [] ∧ ∃ c ⊆ cuts, Copies ans b body c := by
  induction h with
  | nil => simp at hb
  | cut _ _ ih | lost _ _ _ _ _ ih =>
    obtain ⟨b', hb', hloops, c, hc, hcopy⟩ := ih hb
    exact ⟨b', List.mem_cons_of_mem _ hb', hloops, c,
      List.Subset.trans hc Ascending.subset_union_right, hcopy⟩
  | @kept b' body' bs bodies cuts c loops copies _ ih =>
    rcases List.mem_cons.mp hb with rfl | hb
    · exact ⟨b', List.mem_cons_self, loops, c, Ascending.subset_union_left, copies⟩
    · obtain ⟨b', hb', hloops, c, hc, hcopy⟩ := ih hb
      exact ⟨b', List.mem_cons_of_mem _ hb', hloops, c,
        List.Subset.trans hc Ascending.subset_union_right, hcopy⟩

/-- What became of a body: it was cut, lost or copied, and the cuts tell what it was due
to. -/
def Accounted (ans : Literal → Variant → Prop) (A : List Atom) (bodies : List Body)
    (cuts : List Atom) (b : Body) : Prop :=
  (∃ c ∈ UnrollM.closedLoops A b, c ∈ cuts) ∨
  (∃ l ∈ b, ∃ v, ans l v ∧ v.resolve l = .eliminated ∧ v.cuts ⊆ cuts) ∨
  ∃ body ∈ bodies, ∃ c ⊆ cuts, Copies ans b body c

theorem Accounted.mono {bodies' : List Body} {cuts' : List Atom}
    (h : Accounted ans A bodies cuts b) (hbodies : bodies ⊆ bodies') (hcuts : cuts ⊆ cuts') :
    Accounted ans A bodies' cuts' b := by
  rcases h with ⟨c, hc, hm⟩ | ⟨l, hl, v, hv, he, hs⟩ | ⟨body, hbody, c, hc, hcopy⟩
  · exact .inl ⟨c, hc, hcuts hm⟩
  · exact .inr (.inl ⟨l, hl, v, hv, he, List.Subset.trans hs hcuts⟩)
  · exact .inr (.inr ⟨body, hbodies hbody, c, List.Subset.trans hc hcuts, hcopy⟩)

theorem accounted (h : Left ans A bs bodies cuts) (hb : b ∈ bs) :
    Accounted ans A bodies cuts b := by
  induction h with
  | nil => simp at hb
  | cut loops _ ih =>
    rcases List.mem_cons.mp hb with rfl | hb
    · obtain ⟨c, hc⟩ := List.exists_mem_of_ne_nil _ loops
      exact .inl ⟨c, hc, Ascending.subset_union_left hc⟩
    · exact (ih hb).mono (List.Subset.refl _) Ascending.subset_union_right
  | lost _ hl hv he _ ih =>
    rcases List.mem_cons.mp hb with rfl | hb
    · exact .inr (.inl ⟨_, hl, _, hv, he, Ascending.subset_union_left⟩)
    · exact (ih hb).mono (List.Subset.refl _) Ascending.subset_union_right
  | kept _ copies _ ih =>
    rcases List.mem_cons.mp hb with rfl | hb
    · exact .inr (.inr ⟨_, List.mem_cons_self, _, Ascending.subset_union_left, copies⟩)
    · exact (ih hb).mono (List.subset_cons_self _ _) Ascending.subset_union_right

/-- Every cut is an ancestor that some body needs, or a cut of a variant. -/
theorem forall_cuts {P : Atom → Prop} (h : Left ans A bs bodies cuts)
    (hloops : ∀ b ∈ bs, ∀ c ∈ UnrollM.closedLoops A b, P c)
    (hans : ∀ b ∈ bs, ∀ l ∈ b, ∀ v, ans l v → ∀ c ∈ v.cuts, P c) : ∀ c ∈ cuts, P c := by
  induction h with
  | nil => simp
  | @cut b bs _ _ _ _ ih =>
    obtain ⟨hb, hloops⟩ := List.forall_mem_cons.mp hloops
    intro c hc
    rcases Ascending.mem_union.mp hc with hc | hc
    · exact hb c hc
    · exact ih hloops (List.forall_mem_cons.mp hans).2 c hc
  | @lost b bs _ _ l v _ hl hv _ _ ih =>
    obtain ⟨hb, hans⟩ := List.forall_mem_cons.mp hans
    intro c hc
    rcases Ascending.mem_union.mp hc with hc | hc
    · exact hb l hl v hv c hc
    · exact ih (List.forall_mem_cons.mp hloops).2 hans c hc
  | @kept b _ bs _ _ _ _ copies _ ih =>
    obtain ⟨hb, hans⟩ := List.forall_mem_cons.mp hans
    intro c hc
    rcases Ascending.mem_union.mp hc with hc | hc
    · obtain ⟨l, hl, v, hv, hm⟩ := copies.cause c hc
      exact hb l hl v hv c hm
    · exact ih (List.forall_mem_cons.mp hloops).2 hans c hc

end Left
end Resolution

/-! ### Justified records -/

variable {α : Type}

/-- A name made from the atom that neither the given rules and weights nor the variants
recorded so far have. -/
structure Fresh (given : WeightedRules α) (recs : List Record) (a n : Atom) : Prop where
  suffixed : ∃ t, n = a.suffixed t
  notMem : n ∉ (Unrolling.start given).taken
  unused : ∀ y ∈ recs, y.variant.name = some n → y.atom = n

/-- What entitles an unrolling to a record, given those before it. An atom is built once for
each set of cuts. Only without cuts it keeps its name. An atom without rules is itself, and
the bodies of any other are what is left of its rules below some ancestors. From those of them
that are cuts, positive literals lead to the atom. -/
structure Justified (given : WeightedRules α) (pend : List Atom) (recs : List Record)
    (x : Record) : Prop where
  new : ∀ y ∈ recs, y.atom = x.atom → ¬ y.variant.cuts ⊆ x.variant.cuts
  name : ∀ n, x.variant.name = some n →
    if x.variant.cuts = [] then n = x.atom else Fresh given recs x.atom n
  origin : (given.rules.contains x.atom = false ∧ x.variant = ⟨some x.atom, []⟩ ∧ x.bodies = [] ∧
      ∀ p, (given.weights.get? ⟨x.atom, p⟩).isSome) ∨
    (given.rules.contains x.atom = true ∧ (x.variant.name = none ↔ x.bodies = []) ∧
      ∃ A cuts, x.variant.cuts = Ascending.remove x.atom cuts ∧
        Left (Answers recs pend (Ascending.insert x.atom A)) A (given.rules.bodies x.atom)
          x.bodies cuts)
  above : ∀ c ∈ x.variant.cuts, TransGen (given.rules.toRules.Uses true) c x.atom

/-- Records, newest first, each justified by those before it. -/
inductive Valid (given : WeightedRules α) (pend : List Atom) : List Record → Prop
  | nil : Valid given pend []
  | cons {x : Record} {recs : List Record} (hx : Justified given pend recs x)
      (rest : Valid given pend recs) : Valid given pend (x :: recs)

section Valid

variable {given : WeightedRules α} {recs recs' : List Record} {pend pend' : List Atom}
  {x y : Record} {a n : Atom} {A : List Atom} {v : Variant} {l : Literal}

theorem Serves.mono (h : Serves recs pend a A v) (hrecs : recs ⊆ recs') (hpend : pend ⊆ pend') :
    Serves recs' pend' a A v := by
  rcases h with ⟨x, hx, ha, hv, hc⟩ | ⟨ha, hv⟩
  · exact .inl ⟨x, hrecs hx, ha, hv, hc⟩
  · exact .inr ⟨hpend ha, hv⟩

theorem Serves.cuts_subset (h : Serves recs pend a A v) : v.cuts ⊆ A := by
  rcases h with ⟨x, -, -, -, hc⟩ | ⟨-, rfl⟩
  · exact hc
  · exact List.nil_subset _

theorem Answers.mono (h : Answers recs pend A l v) (hrecs : recs ⊆ recs') (hpend : pend ⊆ pend') :
    Answers recs' pend' A l v := Serves.mono h hrecs hpend

theorem Answers.cuts_subset (h : Answers recs pend A l v) : v.cuts ⊆ A := by
  have hc := Serves.cuts_subset h
  split at hc
  · exact hc
  · exact List.Subset.trans hc (List.nil_subset _)

theorem Justified.mono (h : Justified given pend recs x) (hpend : pend ⊆ pend') :
    Justified given pend' recs x where
  new := h.new
  name := h.name
  origin := by
    rcases h.origin with ho | ⟨hc, hn, A, cuts, hcuts, hleft⟩
    · exact .inl ho
    · exact .inr ⟨hc, hn, A, cuts, hcuts,
        hleft.mono fun l v hv => hv.mono (List.Subset.refl _) hpend⟩
  above := h.above

theorem Valid.mono (h : Valid given pend recs) (hpend : pend ⊆ pend') :
    Valid given pend' recs := by
  induction h with
  | nil => exact .nil
  | cons hx _ ih => exact .cons (hx.mono hpend) ih

theorem mem_taken_of_mem_atoms (h : a ∈ given.rules.atoms) :
    a ∈ (Unrolling.start given).taken := Ascending.mem_union.mpr (.inl h)

theorem Valid.exists_justified (h : Valid given pend recs) (hx : x ∈ recs) :
    ∃ recs', recs' ⊆ recs ∧ Justified given pend recs' x := by
  induction h with
  | nil => simp at hx
  | @cons y recs hy _ ih =>
    rcases List.mem_cons.mp hx with rfl | hx
    · exact ⟨recs, List.subset_cons_self _ _, hy⟩
    · obtain ⟨recs', hsub, hj⟩ := ih hx
      exact ⟨recs', List.subset_cons_of_subset _ hsub, hj⟩

/-- A name is the atom's own, if there are no cuts, or it is none of the given ones. -/
theorem Valid.name_cases (h : Valid given pend recs) (hx : x ∈ recs)
    (hn : x.variant.name = some n) :
    (x.variant.cuts = [] ∧ n = x.atom) ∨
      (x.variant.cuts ≠ [] ∧ (∃ t, n = x.atom.suffixed t) ∧
        n ∉ (Unrolling.start given).taken) := by
  obtain ⟨recs', -, hj⟩ := h.exists_justified hx
  have hname := hj.name n hn
  split at hname
  · next hc => exact .inl ⟨hc, hname⟩
  · next hc => exact .inr ⟨hc, hname.suffixed, hname.notMem⟩

theorem Justified.name_ne (hx : Justified given pend recs x) (h : Valid given pend recs)
    (hy : y ∈ recs) (hxa : x.atom ∈ (Unrolling.start given).taken)
    (hya : y.atom ∈ (Unrolling.start given).taken) (hxn : x.variant.name = some n) :
    y.variant.name ≠ some n := by
  intro hyn
  have hname := hx.name n hxn
  split at hname
  · next hc =>
    rcases h.name_cases hy hyn with ⟨hyc, hya'⟩ | ⟨-, -, hfresh⟩
    · exact hx.new y hy (hya'.symm.trans hname) (by rw [hyc]; exact List.nil_subset _)
    · exact hfresh (hname ▸ hxa)
  · exact hname.notMem (hname.unused y hy hyn ▸ hya)

/-- **Names are unique.** Two records of given atoms with the same name are one. -/
theorem Valid.eq_of_name (h : Valid given pend recs) (hx : x ∈ recs) (hy : y ∈ recs)
    (hxa : x.atom ∈ (Unrolling.start given).taken) (hya : y.atom ∈ (Unrolling.start given).taken)
    (hxn : x.variant.name = some n) (hyn : y.variant.name = some n) : x = y := by
  induction h with
  | nil => simp at hx
  | cons hz hrest ih =>
    rcases List.mem_cons.mp hx with rfl | hx'
    · rcases List.mem_cons.mp hy with rfl | hy'
      · rfl
      · exact absurd hyn (hz.name_ne hrest hy' hxa hya hxn)
    · rcases List.mem_cons.mp hy with rfl | hy'
      · exact absurd hxn (hz.name_ne hrest hx' hya hxa hyn)
      · exact ih hx' hy'

/-- Only atoms of the given rules have bodies. -/
theorem Valid.mem_atoms_of_bodies (h : Valid given pend recs) (hx : x ∈ recs)
    (hb : x.bodies ≠ []) : x.atom ∈ given.rules.atoms := by
  obtain ⟨recs', -, hj⟩ := h.exists_justified hx
  rcases hj.origin with ⟨-, -, hnil, -⟩ | ⟨hc, -⟩
  · exact absurd hnil hb
  · exact RuleBase.mem_atoms_of_contains hc

end Valid

/-! ### The steps of an unrolling -/

/-- Records what an atom was built to. -/
def Unrolling.enter (s : Unrolling α) (x : Record) : Unrolling α :=
  { s with
    variants := Ascending.adjust x.atom [] (· ++ [x.variant]) s.variants
    built := { s.built with rules := x.rules.foldl (fun r e => r.add e.1 e.2) s.built.rules } }

/-- The literals on `n` have the weights that those on `a` are given. -/
def SameWeights (given built : Weights Literal α) (a n : Atom) : Prop :=
  ∀ p, ∃ w, given.get? ⟨a, p⟩ = some w ∧ built.get? ⟨n, p⟩ = some w

/-- All that can happen to the state of an unrolling, and to the records. -/
inductive Steps (given : WeightedRules α) (recs₀ : List Record) (s₀ : Unrolling α) :
    List Record → Unrolling α → Prop
  | refl : Steps given recs₀ s₀ recs₀ s₀
  | frame {recs : List Record} {s : Unrolling α} (h : Steps given recs₀ s₀ recs s)
      (building : List (Atom × List Atom)) (log : Array (Event α)) :
      Steps given recs₀ s₀ recs { s with building, log }
  | pending {recs : List Record} {s : Unrolling α} {a : Atom} (h : Steps given recs₀ s₀ recs s)
      (ha : given.rules.toRules.NegationLoopsAt a) :
      Steps given recs₀ s₀ recs { s with pending := Ascending.insert a s.pending }
  | falsified {recs : List Record} {s : Unrolling α} {x : Record}
      (h : Steps given recs₀ s₀ recs s) (hx : x ∈ recs) (hv : x.variant = ⟨none, []⟩) :
      Steps given recs₀ s₀ recs { s with falsified := Ascending.insert x.atom s.falsified }
  | taken {recs : List Record} {s : Unrolling α} (h : Steps given recs₀ s₀ recs s) (n : Atom) :
      Steps given recs₀ s₀ recs { s with taken := Ascending.insert n s.taken }
  | weight {recs : List Record} {s : Unrolling α} {a n : Atom} {p : Bool} {w : α}
      (h : Steps given recs₀ s₀ recs s) (hw : given.weights.get? ⟨a, p⟩ = some w)
      (hn : n = a ∨ (Fresh given recs a n ∧ given.rules.contains a = true)) :
      Steps given recs₀ s₀ recs (s.setWeight ⟨n, p⟩ w)
  | enter {recs : List Record} {s : Unrolling α} {x : Record} (h : Steps given recs₀ s₀ recs s)
      (hx : Justified given s.pending recs x)
      (htaken : ∀ n, x.variant.name = some n → n = x.atom ∨ n ∈ s.taken)
      (hweights : ∀ n, x.variant.name = some n →
        SameWeights given.weights s.built.weights x.atom n) :
      Steps given recs₀ s₀ (x :: recs) (s.enter x)

/-- The state is one that an unrolling can be in, with these records. -/
abbrev Reached (given : WeightedRules α) : List Record → Unrolling α → Prop :=
  Steps given [] (.start given)

section Steps

variable {given : WeightedRules α} {recs recs₀ recs₁ : List Record} {s s₀ s₁ : Unrolling α}

theorem Steps.trans (h : Steps given recs₀ s₀ recs₁ s₁) (h' : Steps given recs₁ s₁ recs s) :
    Steps given recs₀ s₀ recs s := by
  induction h' with
  | refl => exact h
  | frame _ b l ih => exact ih.frame b l
  | pending _ ha ih => exact ih.pending ha
  | falsified _ hx hv ih => exact ih.falsified hx hv
  | taken _ n ih => exact ih.taken n
  | weight _ hw hn ih => exact ih.weight hw hn
  | enter _ hx ht hw ih => exact ih.enter hx ht hw

theorem Steps.recs_subset (h : Steps given recs₀ s₀ recs s) : recs₀ ⊆ recs := by
  induction h with
  | refl => exact List.Subset.refl _
  | enter _ _ _ _ ih => exact List.subset_cons_of_subset _ ih
  | _ => assumption

theorem Steps.pending_subset (h : Steps given recs₀ s₀ recs s) : s₀.pending ⊆ s.pending := by
  induction h with
  | refl => exact List.Subset.refl _
  | pending _ _ ih => exact List.Subset.trans ih fun a ha => Ascending.mem_insert.mpr (.inr ha)
  | _ => assumption

theorem Steps.taken_subset (h : Steps given recs₀ s₀ recs s) : s₀.taken ⊆ s.taken := by
  induction h with
  | refl => exact List.Subset.refl _
  | taken _ n ih => exact List.Subset.trans ih fun a ha => Ascending.mem_insert.mpr (.inr ha)
  | _ => assumption

theorem Steps.falsified_subset (h : Steps given recs₀ s₀ recs s) : s₀.falsified ⊆ s.falsified := by
  induction h with
  | refl => exact List.Subset.refl _
  | falsified _ _ _ ih => exact List.Subset.trans ih fun a ha => Ascending.mem_insert.mpr (.inr ha)
  | _ => assumption

theorem Unrolling.variantsOf_enter (s : Unrolling α) (x : Record) (a : Atom) :
    (s.enter x).variantsOf a = if a = x.atom then s.variantsOf a ++ [x.variant]
      else s.variantsOf a := by
  simp only [variantsOf, enter, Ascending.adjust, Ascending.get?_put, beq_iff_eq,
    Std.LawfulEqCmp.compare_eq_iff_eq]
  split
  · next h => simp [h]
  · rfl

namespace Reached

theorem valid (h : Reached given recs s) : Valid given s.pending recs := by
  induction h with
  | refl => exact .nil
  | pending _ _ ih => exact ih.mono fun a ha => Ascending.mem_insert.mpr (.inr ha)
  | enter _ hx _ _ ih => exact .cons hx ih
  | _ => assumption

theorem negationLoopsAt_of_pending (h : Reached given recs s) :
    ∀ a ∈ s.pending, given.rules.toRules.NegationLoopsAt a := by
  induction h with
  | refl => simp [Unrolling.start]
  | pending _ ha ih =>
    intro b hb
    rcases Ascending.mem_insert.mp hb with rfl | hb
    · exact ha
    · exact ih b hb
  | _ => assumption

theorem mem_variantsOf (h : Reached given recs s) {a : Atom} {v : Variant} :
    v ∈ s.variantsOf a ↔ ∃ x ∈ recs, x.atom = a ∧ x.variant = v := by
  induction h with
  | refl => simp [Unrolling.start, Unrolling.variantsOf, Ascending.get?]
  | @enter recs s x _ _ _ _ ih =>
    rw [Unrolling.variantsOf_enter]
    simp only [List.mem_cons, exists_eq_or_imp]
    split
    · next ha => rw [List.mem_append, ih, List.mem_singleton, or_comm, ha, eq_comm (a := v)]; simp
    · next ha => simp [ih, Ne.symm ha]
  | _ => assumption

theorem visited_iff (h : Reached given recs s) {a : Atom} :
    s.visited a = true ↔ ∃ x ∈ recs, x.atom = a := by
  induction h with
  | refl => simp [Unrolling.start, Unrolling.visited, Ascending.get?]
  | @enter recs s x _ _ _ _ ih =>
    simp only [Unrolling.visited] at ih
    simp only [Unrolling.visited, Unrolling.enter, Ascending.adjust, Ascending.get?_put,
      beq_iff_eq, Std.LawfulEqCmp.compare_eq_iff_eq, List.mem_cons, exists_eq_or_imp]
    split
    · next ha => simp [ha]
    · next ha => simp [ih, Ne.symm ha]
  | _ => assumption

theorem exists_of_falsified (h : Reached given recs s) :
    ∀ a ∈ s.falsified, ∃ x ∈ recs, x.atom = a ∧ x.variant = ⟨none, []⟩ := by
  induction h with
  | refl => simp [Unrolling.start]
  | falsified _ hx hv ih =>
    intro a ha
    rcases Ascending.mem_insert.mp ha with rfl | ha
    · exact ⟨_, hx, rfl, hv⟩
    · exact ih a ha
  | enter _ _ _ _ ih =>
    intro a ha
    obtain ⟨x, hx, hv⟩ := ih a ha
    exact ⟨x, List.mem_cons_of_mem _ hx, hv⟩
  | _ => assumption

theorem name_taken (h : Reached given recs s) :
    ∀ x ∈ recs, ∀ n, x.variant.name = some n → n = x.atom ∨ n ∈ s.taken := by
  induction h with
  | refl => simp
  | taken _ m ih =>
    intro x hx n hn
    exact (ih x hx n hn).imp id fun hm => Ascending.mem_insert.mpr (.inr hm)
  | enter _ _ ht _ ih =>
    intro x hx n hn
    rcases List.mem_cons.mp hx with rfl | hx
    · exact ht n hn
    · exact ih x hx n hn
  | _ => assumption

/-- The rules of the records, oldest first. -/
def rulesOf (recs : List Record) : List (Atom × List Literal) := recs.reverse.flatMap Record.rules

theorem mem_rulesOf {n : Atom} {b : Body} :
    (n, b) ∈ rulesOf recs ↔ ∃ x ∈ recs, x.variant.name = some n ∧ b ∈ x.bodies := by
  simp [rulesOf, Record.mem_rules]

/-- The rules that are built are those of the records. -/
theorem rules_built (h : Reached given recs s) :
    s.built.rules = RuleBase.ofRules (rulesOf recs) := by
  induction h with
  | refl => rfl
  | @enter recs s x _ _ _ _ ih =>
    simp only [Unrolling.enter, ih, RuleBase.ofRules, rulesOf, List.reverse_cons,
      List.flatMap_append, List.flatMap_singleton, List.foldl_append]
  | _ => assumption

end Reached

end Steps
end ProbLogic
