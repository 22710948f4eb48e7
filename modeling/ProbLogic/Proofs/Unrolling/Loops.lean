/-
# The positive loops that are left

A body of a record has its literals on variants that were recorded before, or
on pending atoms. So a positive loop of the rules that are built can only come
about where it passes through a pending atom: without these, the records would
have to be ever older (`exists_pending_of_loopsAt`). A pending atom lies on a
loop through negation of the given rules, and a loop of the built rules through
it is one of the given rules as well.

Hence the built rules have no positive loop if no atom of the given rules lies
on both kinds of loops, in particular if there is no loop through negation. It
is not enough that unrolling succeeds: an atom on both kinds of loops can be
met while it is built, below negation, and stand for itself in the middle of a
loop that is being cut elsewhere (`breakLoops_leaves_loop`).

Key theorems: `Justified.exists_uses`, `exists_pending_of_loopsAt`,
`loopsAt_breakLoops_iff`, `breakLoops_leaves_loop`.
-/
import ProbLogic.Proofs.Unrolling.Run

namespace ProbLogic

open Rules Relation UnrollM

variable {α : Type} {given : WeightedRules α} {recs recs' : List Record} {pend : List Atom}
  {s : Unrolling α} {x : Record} {n a : Atom}

/-- The name stands for the atom: it is the name of one of its variants, or the atom itself
while it is pending. -/
def Stands (recs : List Record) (pend : List Atom) (n a : Atom) : Prop :=
  (∃ y ∈ recs, y.atom = a ∧ y.variant.name = some n) ∨ (n = a ∧ a ∈ pend)

theorem Answers.stands {inner : List Atom} {l : Literal} {v : Variant}
    (h : Answers recs pend inner l v) (hn : v.name = some n) : Stands recs pend n l.atom := by
  rcases h with ⟨y, hy, ha, rfl, -⟩ | ⟨hp, rfl⟩
  · exact .inl ⟨y, hy, ha, hn⟩
  · exact .inr ⟨(Option.some.inj hn).symm, hp⟩

/-- The literals of a justified body are on names that stand for the literals of a body of
the atom. -/
theorem Justified.exists_uses (h : Justified given pend recs x) {b : Body} {k : Literal}
    (hb : b ∈ x.bodies) (hk : k ∈ b) :
    ∃ c, given.rules.toRules.Uses k.positive x.atom c ∧ Stands recs pend k.atom c := by
  rcases h.origin with ⟨-, -, hnil, -⟩ | ⟨-, -, A, cuts, -, hleft⟩
  · rw [hnil] at hb
    simp at hb
  · obtain ⟨b', hb', -, c, -, hcopy⟩ := hleft.exists_source hb
    obtain ⟨l, hl, v, hv, hres, -⟩ := hcopy.source k hk
    obtain ⟨m, hm, rfl⟩ := resolve_eq_variant.mp hres
    exact ⟨l.atom, uses_of_mem hb' hl rfl, hv.stands hm⟩

theorem Valid.of_suffix (h : Valid given pend recs) (hx : x :: recs' <:+ recs) :
    Justified given pend recs' x := by
  induction h with
  | nil => simp at hx
  | cons hy _ ih =>
    rcases List.suffix_cons_iff.mp hx with heq | hx
    · obtain ⟨rfl, rfl⟩ := List.cons.inj heq
      exact hy
    · exact ih hx

theorem mem_atoms_of_uses {p : Bool} {b : Atom} (h : given.rules.toRules.Uses p a b) :
    a ∈ given.rules.atoms ∧ b ∈ given.rules.atoms := by
  obtain ⟨body, hb, hl⟩ := h
  exact ⟨RuleBase.mem_atoms_of_contains (RuleBase.contains_of_mem_bodies hb),
    RuleBase.mem_atoms_of_mem_bodies hb hl⟩

theorem Reached.eq_of_name (hr : Reached given recs s) {y : Record} (hx : x ∈ recs) (hy : y ∈ recs)
    (hxa : x.atom ∈ given.rules.atoms) (hya : y.atom ∈ given.rules.atoms)
    (hxn : x.variant.name = some n) (hyn : y.variant.name = some n) : x = y :=
  hr.valid.eq_of_name hx hy (mem_taken_of_mem_atoms hxa) (mem_taken_of_mem_atoms hya) hxn hyn

/-- A use in the built rules comes from a record. -/
theorem Reached.exists_of_uses (hr : Reached given recs s) {p : Bool} {m : Atom}
    (h : s.built.rules.toRules.Uses p n m) :
    ∃ x ∈ recs, x.variant.name = some n ∧ x.atom ∈ given.rules.atoms ∧
      ∃ b ∈ x.bodies, (⟨m, p⟩ : Literal) ∈ b := by
  obtain ⟨body, hb, hl⟩ := h
  rw [RuleBase.toRules, hr.rules_built] at hb
  obtain ⟨b, hb, hsub⟩ := RuleBase.exists_rule_of_mem_bodies _ hb
  obtain ⟨x, hx, hn, hb⟩ := Reached.mem_rulesOf.mp hb
  have ha := hr.valid.mem_atoms_of_bodies hx (List.ne_nil_of_mem hb)
  exact ⟨x, hx, hn, ha, b, hb, hsub hl⟩

/-- What the built rules use stands for a given atom. -/
theorem Reached.exists_stands (hr : Reached given recs s) {m : Atom}
    (h : s.built.rules.toRules.Depends n m) :
    ∃ c ∈ given.rules.atoms, Stands recs s.pending m c := by
  obtain ⟨p, hu⟩ := h
  obtain ⟨x, hx, -, -, b, hb, hk⟩ := hr.exists_of_uses hu
  obtain ⟨recs', hsub, hj⟩ := hr.valid.exists_justified hx
  obtain ⟨c, huses, hstands⟩ := hj.exists_uses hb hk
  refine ⟨c, (mem_atoms_of_uses huses).2, hstands.imp ?_ id⟩
  intro hy
  obtain ⟨y, hy, hyn⟩ := hy
  exact ⟨y, hsub hy, hyn⟩

/-! ### Loops need pending atoms -/

/-- Use of a name that is not pending. -/
def SettledUse (s : Unrolling α) (m n : Atom) : Prop :=
  s.built.rules.toRules.Depends n m ∧ m ∉ s.pending

/-- Names that are not pending are used by later records only. -/
theorem Reached.acc_settledUse (hr : Reached given recs s) (hsuf : recs' <:+ recs)
    (hx : x ∈ recs') (ha : x.atom ∈ given.rules.atoms) (hn : x.variant.name = some n) :
    Acc (SettledUse s) n := by
  induction recs' generalizing x n with
  | nil => simp at hx
  | cons y recs' ih =>
    have ih := fun {x n} => ih (x := x) (n := n) ((List.suffix_cons y recs').trans hsuf)
    rcases List.mem_cons.mp hx with rfl | hx
    · refine ⟨n, fun m ⟨⟨p, huse⟩, hm⟩ => ?_⟩
      obtain ⟨z, hz, hzn, hza, b, hb, hk⟩ := hr.exists_of_uses huse
      obtain rfl := hr.eq_of_name hz (hsuf.subset List.mem_cons_self) hza ha hzn hn
      obtain ⟨c, huses, hstands⟩ := (hr.valid.of_suffix hsuf).exists_uses hb hk
      rcases hstands with ⟨y, hy, rfl, hyn⟩ | ⟨rfl, hp⟩
      · exact ih hy (mem_atoms_of_uses huses).2 hyn
      · exact absurd hp hm
    · exact ih hx ha hn

theorem exists_pending_of_transGen {b : Atom}
    (h : TransGen (s.built.rules.toRules.Uses true) a b) :
    TransGen (SettledUse s) b a ∨ ∃ p ∈ s.pending,
      TransGen (s.built.rules.toRules.Uses true) a p ∧
      ReflTransGen (s.built.rules.toRules.Uses true) p b := by
  induction h with
  | @single b hu =>
    by_cases hb : b ∈ s.pending
    · exact .inr ⟨b, hb, .single hu, .refl⟩
    · exact .inl (.single ⟨hu.depends, hb⟩)
  | @tail b c hab hu ih =>
    by_cases hc : c ∈ s.pending
    · exact .inr ⟨c, hc, hab.tail hu, .refl⟩
    · rcases ih with hsettled | ⟨p, hp, hap, hpb⟩
      · exact .inl (.head ⟨hu.depends, hc⟩ hsettled)
      · exact .inr ⟨p, hp, hap, hpb.tail hu⟩

/-- A name of an atom of the given rules stands for no other one. -/
theorem Reached.atom_eq_of_stands (hr : Reached given recs s) (h : Stands recs s.pending n a)
    (ha : a ∈ given.rules.atoms) (hx : x ∈ recs) (hxa : x.atom ∈ given.rules.atoms)
    (hn : x.variant.name = some n) : x.atom = a := by
  rcases h with ⟨y, hy, rfl, hyn⟩ | ⟨rfl, -⟩
  · rw [hr.eq_of_name hx hy hxa ha hn hyn]
  · rcases hr.valid.name_cases hx hn with ⟨-, hown⟩ | ⟨-, -, hfresh⟩
    · exact hown.symm
    · exact absurd (mem_taken_of_mem_atoms ha) hfresh

/-- Positive paths of the built rules are positive paths of the given ones. -/
theorem Reached.transGen_given (hr : Reached given recs s) {m : Atom}
    (h : TransGen (s.built.rules.toRules.Uses true) n m) (hx : x ∈ recs)
    (ha : x.atom ∈ given.rules.atoms) (hn : x.variant.name = some n) :
    ∃ c, TransGen (given.rules.toRules.Uses true) x.atom c ∧ c ∈ given.rules.atoms ∧
      Stands recs s.pending m c := by
  have hstep : ∀ {y k m}, y ∈ recs → y.atom ∈ given.rules.atoms → y.variant.name = some k →
      s.built.rules.toRules.Uses true k m →
      ∃ c, given.rules.toRules.Uses true y.atom c ∧ Stands recs s.pending m c := by
    intro y k m hy hya hyn hu
    obtain ⟨z, hz, hzn, hza, b, hb, hk⟩ := hr.exists_of_uses hu
    obtain rfl := hr.eq_of_name hz hy hza hya hzn hyn
    obtain ⟨recs', hsub, hj⟩ := hr.valid.exists_justified hz
    obtain ⟨c, huses, hstands⟩ := hj.exists_uses hb hk
    refine ⟨c, huses, ?_⟩
    rcases hstands with ⟨w, hw, hwa⟩ | hp
    · exact .inl ⟨w, hsub hw, hwa⟩
    · exact .inr hp
  induction h with
  | single hu =>
    obtain ⟨c, huses, hstands⟩ := hstep hx ha hn hu
    exact ⟨c, .single huses, (mem_atoms_of_uses huses).2, hstands⟩
  | tail _ hu ih =>
    obtain ⟨c, hpath, hc, hstands⟩ := ih
    obtain ⟨z, hz, hzn, hza, -⟩ := hr.exists_of_uses hu
    obtain rfl := hr.atom_eq_of_stands hstands hc hz hza hzn
    obtain ⟨d, huses, hstands'⟩ := hstep hz hza hzn hu
    exact ⟨d, hpath.tail huses, (mem_atoms_of_uses huses).2, hstands'⟩

theorem not_rel_of_acc {β : Type} {r : β → β → Prop} {b : β} (h : Acc r b) : ¬ r b b := by
  induction h with
  | intro b _ ih => exact fun hb => ih b hb hb

theorem contains_of_negationLoopsAt (h : given.rules.toRules.NegationLoopsAt a) :
    given.rules.contains a = true := by
  obtain ⟨c, d, hac, ⟨body, hb, -⟩, -⟩ := h
  rcases hac.cases_head with rfl | ⟨e, ⟨p, body', hb', -⟩, -⟩
  · exact RuleBase.contains_of_mem_bodies hb
  · exact RuleBase.contains_of_mem_bodies hb'

/-- **Loops need pending atoms.** A positive loop of the built rules passes through a
pending atom, which lies on both kinds of loops of the given rules. -/
theorem Reached.exists_pending_of_loopsAt (hr : Reached given recs s)
    (h : s.built.rules.toRules.LoopsAt a) :
    ∃ p ∈ s.pending, s.built.rules.toRules.LoopsAt p ∧
      ReflTransGen (s.built.rules.toRules.Uses true) p a ∧
      given.rules.toRules.LoopsAt p ∧ given.rules.toRules.NegationLoopsAt p := by
  rcases exists_pending_of_transGen h with hsettled | ⟨p, hp, hap, hpa⟩
  · -- a loop without a pending atom contradicts that records only use older ones
    obtain ⟨b, huse, -⟩ := TransGen.head'_iff.mp h
    obtain ⟨x, hx, hn, ha, -⟩ := hr.exists_of_uses huse
    have hacc := hr.acc_settledUse List.suffix_rfl hx ha hn
    exact absurd hsettled (not_rel_of_acc (acc_transGen_iff.mpr hacc))
  · have hloop : s.built.rules.toRules.LoopsAt p := TransGen.trans_right hpa hap
    have hneg := hr.negationLoopsAt_of_pending p hp
    obtain ⟨b, huse, -⟩ := TransGen.head'_iff.mp hloop
    obtain ⟨x, hx, hn, hxa, -⟩ := hr.exists_of_uses huse
    have hatom := RuleBase.mem_atoms_of_contains (contains_of_negationLoopsAt hneg)
    obtain rfl := hr.atom_eq_of_stands (.inr ⟨rfl, hp⟩) hatom hx hxa hn
    obtain ⟨c, hpath, hc, hstands⟩ := hr.transGen_given hloop hx hxa hn
    obtain rfl := hr.atom_eq_of_stands hstands hc hx hxa hn
    exact ⟨_, hp, hloop, hpa, hpath, hneg⟩

theorem exists_of_breakLoops {queries evidence : List Literal} {u : Unlooped α}
    {log : List (Event α)} (h : given.breakLoops queries evidence = (.ok u, log)) :
    ∃ s, (resolveSeeds given (queries ++ evidence)).runOn (.start given) = (.ok (), s) ∧
      u = s.finish evidence := by
  unfold WeightedRules.breakLoops at h
  split at h
  · cases h
  · next s hs =>
    obtain ⟨hu, -⟩ := Prod.mk.inj h
    exact ⟨s, hs, (Except.ok.inj hu).symm⟩

/-- **Which positive loops are left.** When loops are broken, each positive loop of the
result passes through an atom that was pending, and that atom lies on a positive loop and on
a loop through negation of the given rules. So the result has no positive loop exactly if no
pending atom is on one, and it has none if no given atom lies on both kinds of loops. -/
theorem loopsAt_breakLoops_iff {queries evidence : List Literal} {u : Unlooped α}
    {log : List (Event α)} (h : given.breakLoops queries evidence = (.ok u, log)) :
    ∃ s, (resolveSeeds given (queries ++ evidence)).runOn (.start given) = (.ok (), s) ∧
      u = s.finish evidence ∧
      (∀ a, u.program.rules.toRules.LoopsAt a → ∃ p ∈ s.pending,
        ReflTransGen (u.program.rules.toRules.Uses true) p a ∧
        given.rules.toRules.LoopsAt p ∧ given.rules.toRules.NegationLoopsAt p) ∧
      ((∀ a, ¬ u.program.rules.toRules.LoopsAt a) ↔
        ∀ p ∈ s.pending, ¬ u.program.rules.toRules.LoopsAt p) ∧
      ((∀ a, given.rules.toRules.LoopsAt a → ¬ given.rules.toRules.NegationLoopsAt a) →
        ∀ a, ¬ u.program.rules.toRules.LoopsAt a) := by
  obtain ⟨s, hs, rfl⟩ := exists_of_breakLoops h
  obtain ⟨recs, hr, -⟩ := exists_reached_of_resolveSeeds hs
  refine ⟨s, hs, rfl, fun a ha => ?_, ⟨fun hall p _ => hall p, fun hpend a ha => ?_⟩,
    fun hgiven a ha => ?_⟩
  · obtain ⟨p, hp, -, hpa, hloop, hneg⟩ := hr.exists_pending_of_loopsAt ha
    exact ⟨p, hp, hpa, hloop, hneg⟩
  · obtain ⟨p, hp, hloop, -⟩ := hr.exists_pending_of_loopsAt ha
    exact hpend p hp hloop
  · obtain ⟨p, -, -, -, hloop, hneg⟩ := hr.exists_pending_of_loopsAt ha
    exact hgiven p hloop hneg

theorem exists_breakLoops (given : WeightedRules α) (queries evidence : List Literal)
    (h : (given.breakLoops queries evidence).1.isOk = true) :
    ∃ u log, given.breakLoops queries evidence = (.ok u, log) := by
  rcases hb : given.breakLoops queries evidence with ⟨e | u, log⟩
  · rw [hb] at h
    cases h
  · exact ⟨u, log, rfl⟩

/-- Two atoms that support each other, and a third that supports one of them. -/
def mutualSupport : WeightedRules Nat where
  rules := .ofRules [(⟨"a"⟩, [.pos ⟨"b"⟩]), (⟨"b"⟩, [.pos ⟨"a"⟩]), (⟨"a"⟩, [.pos ⟨"c"⟩])]
  weights := ⟨[(.neg ⟨"a"⟩, 1), (.neg ⟨"b"⟩, 1), (.neg ⟨"c"⟩, 1), (.pos ⟨"a"⟩, 1),
    (.pos ⟨"b"⟩, 1), (.pos ⟨"c"⟩, 1)]⟩

/-- The mutual support is cut. -/
theorem loopsAt_breakLoops_mutualSupport :
    ∃ u log, mutualSupport.breakLoops [.pos ⟨"a"⟩, .pos ⟨"b"⟩] [] = (.ok u, log) ∧
      ∀ a, ¬ u.program.rules.toRules.LoopsAt a := by
  obtain ⟨u, log, h⟩ := exists_breakLoops mutualSupport [.pos ⟨"a"⟩, .pos ⟨"b"⟩] []
    (by decide +kernel)
  obtain ⟨-, -, -, -, -, hacyclic⟩ := loopsAt_breakLoops_iff h
  refine ⟨u, log, h, hacyclic fun a _ => ?_⟩
  rintro ⟨c, d, -, ⟨body, hb, hl⟩, -⟩
  obtain ⟨b, hb, hsub⟩ := RuleBase.exists_rule_of_mem_bodies _ hb
  have hpos : ∀ e ∈ [((⟨"a"⟩ : Atom), [Literal.pos ⟨"b"⟩]), (⟨"b"⟩, [.pos ⟨"a"⟩]),
      (⟨"a"⟩, [.pos ⟨"c"⟩])], ∀ l ∈ e.2, l.positive = true := by decide
  cases hpos _ hb _ (hsub hl)

/-- Three atoms that support each other, one of them also through the negation of another. -/
def tangledSupport : WeightedRules Nat where
  rules := .ofRules [(⟨"x"⟩, [.pos ⟨"y"⟩]), (⟨"x"⟩, [.pos ⟨"a"⟩]), (⟨"y"⟩, [.pos ⟨"x"⟩]),
    (⟨"y"⟩, [.pos ⟨"a"⟩]), (⟨"a"⟩, [.neg ⟨"y"⟩]), (⟨"a"⟩, [.pos ⟨"y"⟩])]
  weights := ⟨[(.neg ⟨"a"⟩, 1), (.neg ⟨"x"⟩, 1), (.neg ⟨"y"⟩, 1), (.pos ⟨"a"⟩, 1),
    (.pos ⟨"x"⟩, 1), (.pos ⟨"y"⟩, 1)]⟩

/-- **A loop can be left.** Unrolled from `x`, the atom `a` is met again below the negation
of `y` while it is built, and keeps its name in the loop from `y` through a variant of `x`
back to `a`. -/
theorem breakLoops_leaves_loop :
    ∃ u log, tangledSupport.breakLoops [.pos ⟨"x"⟩] [] = (.ok u, log) ∧
      u.program.rules.toRules.LoopsAt ⟨"a"⟩ := by
  obtain ⟨u, log, h⟩ := exists_breakLoops tangledSupport [.pos ⟨"x"⟩] [] (by decide +kernel)
  have hbodies : ((tangledSupport.breakLoops [.pos ⟨"x"⟩] []).1.toOption.map fun u =>
      [u.program.rules.bodies ⟨"a"⟩, u.program.rules.bodies ⟨"y"⟩,
        u.program.rules.bodies ⟨"x_0"⟩]) =
      some [[[.neg ⟨"y"⟩], [.pos ⟨"y"⟩]], [[.pos ⟨"x_0"⟩], [.pos ⟨"a_0"⟩]], [[.pos ⟨"a"⟩]]] := by
    decide +kernel
  rw [h] at hbodies
  obtain ⟨ha, hy, hx, -⟩ : u.program.rules.bodies ⟨"a"⟩ = _ ∧ u.program.rules.bodies ⟨"y"⟩ = _ ∧
      u.program.rules.bodies ⟨"x_0"⟩ = _ ∧ True := by simpa [Except.toOption] using hbodies
  refine ⟨u, log, h, ?_⟩
  have hay : u.program.rules.toRules.Uses true ⟨"a"⟩ ⟨"y"⟩ :=
    ⟨[.pos ⟨"y"⟩], by simp [RuleBase.toRules, ha], by simp [Literal.pos]⟩
  have hyx : u.program.rules.toRules.Uses true ⟨"y"⟩ ⟨"x_0"⟩ :=
    ⟨[.pos ⟨"x_0"⟩], by simp [RuleBase.toRules, hy], by simp [Literal.pos]⟩
  have hxa : u.program.rules.toRules.Uses true ⟨"x_0"⟩ ⟨"a"⟩ :=
    ⟨[.pos ⟨"a"⟩], by simp [RuleBase.toRules, hx], by simp [Literal.pos]⟩
  exact ((TransGen.single hay).tail hyx).tail hxa

end ProbLogic
