/-
# Rules without positive loops are not changed

An ancestor leads to the atoms below it through positive literals, and a body
is cut only where it needs an ancestor. So without a positive loop nothing is
cut, and then no literal is lost either, since every head has a body. Each atom
that is met gets one variant, under its own name and with its own bodies
(`Valid.unchanged`). Loops through negation do no harm here: an atom that is
met again while it is built stands for itself.

What is built is therefore the given rules for the atoms that are reached from
the seeds (`breakLoops_restricts`). A rule base simplifies what is added to it,
so this takes rules in which nothing is left to simplify, that is, where no
body needs a fact (`irreducible_rulesOf`).

Key definitions: `Record.Unchanged`, `RuleBase.restrict`.
Key theorems: `Left.bodies_eq`, `Valid.unchanged`, `irreducible_rulesOf`, `breakLoops_restricts`.
-/
import ProbLogic.Proofs.Facts
import ProbLogic.Proofs.Unrolling.Coverage
import ProbLogic.Proofs.Unrolling.Names

namespace ProbLogic

open Rules Relation UnrollM

variable {α : Type} {given : WeightedRules α} {recs : List Record} {pend : List Atom}
  {s : Unrolling α} {x : Record} {a : Atom}

/-! ### Nothing is cut or lost -/

section Own

variable {ans : Literal → Variant → Prop} {A cuts : List Atom}

theorem resolve_own (l : Literal) : Variant.resolve ⟨some l.atom, []⟩ l = .variant l := rfl

/-- If each literal is answered by its own atom, a copy of a body is the body. -/
theorem Copies.eq_of_own {b body : Body} (h : Copies ans b body cuts)
    (hans : ∀ l v, ans l v → v = ⟨some l.atom, []⟩) (hb : Ascending.IsAscending b) : body = b := by
  have hsub : ∀ k ∈ body, k ∈ b := by
    intro k hk
    obtain ⟨l, hl, v, hv, hres, -⟩ := h.source k hk
    rw [hans l v hv, resolve_own] at hres
    rwa [← Resolved.variant.inj hres]
  apply Ascending.eq_of_mem_iff h.ascending hb
  intro l
  refine ⟨hsub l, fun hl => ?_⟩
  obtain ⟨v, hv, hres⟩ := h.target l hl
  rw [hans l v hv, resolve_own] at hres
  rcases hres with hvacuous | ⟨k, hk, k', hk', hcmp⟩
  · cases hvacuous
  · rw [← Resolved.variant.inj hk] at hcmp
    rwa [Ascending.Separated.of_isAscending hb l hl k' (hsub k' hk') hcmp]

/-- If moreover no ancestor that is needed is a cut, the bodies that are left are all of them. -/
theorem Left.bodies_eq {bs bodies : List Body} (h : Left ans A bs bodies cuts)
    (hans : ∀ l v, ans l v → v = ⟨some l.atom, []⟩)
    (hcuts : ∀ b ∈ bs, ∀ c ∈ closedLoops A b, c ∉ cuts)
    (hbs : ∀ b ∈ bs, Ascending.IsAscending b) : bodies = bs := by
  induction h with
  | nil => rfl
  | @cut b bs bodies cuts loops _ ih =>
    obtain ⟨c, hc⟩ := List.exists_mem_of_ne_nil _ loops
    exact absurd (Ascending.subset_union_left hc) (hcuts b List.mem_cons_self c hc)
  | lost _ _ hv he _ _ =>
    have hname := (resolve_eq_eliminated.mp he).1
    rw [hans _ _ hv] at hname
    cases hname
  | @kept b body bs bodies cuts c _ copies _ ih =>
    obtain ⟨hb, hbs⟩ := List.forall_mem_cons.mp hbs
    rw [copies.eq_of_own hans hb, ih (fun b' hb' d hd hmem => ?_) hbs]
    exact hcuts b' (List.mem_cons_of_mem b hb') d hd (Ascending.subset_union_right hmem)

end Own

/-- The record of an atom with its own name and its own bodies. -/
structure Record.Unchanged (given : WeightedRules α) (x : Record) : Prop where
  variant : x.variant = ⟨some x.atom, []⟩
  bodies : x.bodies = given.rules.bodies x.atom

theorem Answers.own {inner : List Atom} {l : Literal} {v : Variant}
    (h : Answers recs pend inner l v) (hrecs : ∀ y ∈ recs, y.variant = ⟨some y.atom, []⟩) :
    v = ⟨some l.atom, []⟩ := by
  rcases h with ⟨y, hy, ha, rfl, -⟩ | ⟨-, rfl⟩
  · rw [hrecs y hy, ha]
  · rfl

section Loops

variable (hloops : ∀ a, ¬ given.rules.toRules.LoopsAt a)
include hloops

/-- A cut would close a loop. -/
theorem Justified.cuts_eq_nil (hx : Justified given pend recs x)
    (hrecs : ∀ y ∈ recs, y.variant = ⟨some y.atom, []⟩) : x.variant.cuts = [] := by
  rcases hx.origin with ⟨-, hv, -⟩ | ⟨-, -, A, cuts, hcuts, hleft⟩
  · rw [hv]
  have huses : ∀ c ∈ cuts, given.rules.toRules.Uses true x.atom c := by
    refine hleft.forall_cuts (fun b hb c hc => ⟨b, hb, (mem_closedLoops.mp hc).2⟩) ?_
    intro b _ l _ v hv c hc
    rw [hv.own hrecs] at hc
    cases hc
  rw [List.eq_nil_iff_forall_not_mem]
  intro c hc
  have habove := hx.above c hc
  rw [hcuts] at hc
  exact hloops x.atom (.head (huses c (Ascending.mem_remove.mp hc).1) habove)

/-- What is left of an atom's bodies, and no ancestor that one of them needs is a cut. -/
theorem Justified.exists_left (hx : Justified given pend recs x)
    (hrecs : ∀ y ∈ recs, y.variant = ⟨some y.atom, []⟩) :
    ∃ A cuts, Left (Answers recs pend (Ascending.insert x.atom A)) A (given.rules.bodies x.atom)
        x.bodies cuts ∧
      ∀ b ∈ given.rules.bodies x.atom, ∀ c ∈ closedLoops A b, c ∉ cuts := by
  have hnil := hx.cuts_eq_nil hloops hrecs
  rcases hx.origin with ⟨hc, -, hbodies, -⟩ | ⟨-, -, A, cuts, hcuts, hleft⟩
  · rw [RuleBase.bodies_of_not_contains hc, hbodies]
    exact ⟨[], [], .nil, by simp⟩
  · refine ⟨A, cuts, hleft, fun b hb c hc hmem => ?_⟩
    -- the only cut that is not the variant's is the atom itself
    have hself : c = x.atom := by
      by_contra hne
      have hcut : c ∈ x.variant.cuts := hcuts ▸ Ascending.mem_remove.mpr ⟨hmem, hne⟩
      rw [hnil] at hcut
      cases hcut
    have huses : given.rules.toRules.Uses true x.atom c := ⟨b, hb, (mem_closedLoops.mp hc).2⟩
    rw [hself] at huses
    exact hloops x.atom (.single huses)

/-- **Records are of unchanged atoms**, if there is no positive loop. -/
theorem Valid.unchanged (h : Valid given pend recs) (hwf : given.rules.WellFormed) :
    ∀ x ∈ recs, x.Unchanged given := by
  induction h with
  | nil => simp
  | @cons x recs hx _ ih =>
    have hrecs : ∀ y ∈ recs, y.variant = ⟨some y.atom, []⟩ := fun y hy => (ih y hy).variant
    have hnil := hx.cuts_eq_nil hloops hrecs
    obtain ⟨A, cuts, hleft, hcuts⟩ := hx.exists_left hloops hrecs
    have hbodies : x.bodies = given.rules.bodies x.atom :=
      hleft.bodies_eq (fun l v hv => hv.own hrecs) hcuts fun b hb => hwf.isAscending_body hb
    have hname : x.variant.name ≠ none := by
      rcases hx.origin with ⟨-, hv, -⟩ | ⟨hc, hnone, -⟩
      · simp [hv]
      · rw [Ne, hnone, hbodies]
        exact hwf.bodies_ne_nil hc
    obtain ⟨n, hn⟩ := Option.ne_none_iff_exists'.mp hname
    have hown : n = x.atom := by
      have hname := hx.name n hn
      rwa [if_pos hnil] at hname
    intro y hy
    rcases List.mem_cons.mp hy with rfl | hy
    · exact ⟨by rw [← hown, ← hn, ← hnil], hbodies⟩
    · exact ih y hy

/-- What a recorded atom depends on is recorded or pending. -/
theorem Valid.exists_of_depends (h : Valid given pend recs) (hwf : given.rules.WellFormed)
    (hx : x ∈ recs) (hd : given.rules.toRules.Depends x.atom a) :
    (∃ y ∈ recs, y.atom = a) ∨ a ∈ pend := by
  obtain ⟨recs', hsub, hj⟩ := h.exists_justified hx
  have hrecs : ∀ y ∈ recs', y.variant = ⟨some y.atom, []⟩ := fun y hy =>
    (h.unchanged hloops hwf y (hsub hy)).variant
  obtain ⟨A, cuts, hleft, hcuts⟩ := hj.exists_left hloops hrecs
  obtain ⟨p, b, hb, hl⟩ := hd
  rcases hleft.accounted hb with ⟨c, hc, hmem⟩ | ⟨l, -, v, hv, he, -⟩ | ⟨body, -, c, -, hcopy⟩
  · exact absurd hmem (hcuts b hb c hc)
  · rw [hv.own hrecs, resolve_own] at he
    cases he
  · obtain ⟨v, ⟨y, hy, ha, -⟩ | ⟨hp, -⟩, -⟩ := hcopy.target _ hl
    · exact .inl ⟨y, hsub hy, ha⟩
    · exact .inr hp

end Loops

/-! ### The rules of unchanged records -/

theorem Record.Unchanged.rules_eq (hx : x.Unchanged given) :
    x.rules = (given.rules.bodies x.atom).map fun b => (x.atom, b) := by
  unfold Record.rules
  rw [hx.variant, ← hx.bodies]

section Rules

variable (hrecs : ∀ x ∈ recs, x.Unchanged given)
include hrecs

/-- Each atom is recorded once. -/
theorem Valid.pairwise_atom (h : Valid given pend recs) :
    recs.Pairwise fun x y => x.atom ≠ y.atom := by
  induction h with
  | nil => exact .nil
  | @cons x recs hx _ ih =>
    obtain ⟨-, hrest⟩ := List.forall_mem_cons.mp hrecs
    refine .cons (fun y hy hatom => ?_) (ih hrest)
    apply hx.new y hy hatom.symm
    rw [(hrest y hy).variant]
    exact List.nil_subset _

theorem mem_rulesOf_unchanged {e : Atom × List Literal} (he : e ∈ Reached.rulesOf recs) :
    (∃ x ∈ recs, x.atom = e.1) ∧ e.2 ∈ given.rules.bodies e.1 := by
  obtain ⟨n, b⟩ := e
  obtain ⟨x, hx, hn, hb⟩ := Reached.mem_rulesOf.mp he
  rw [(hrecs x hx).variant] at hn
  obtain rfl := Option.some.inj hn
  exact ⟨⟨x, hx, rfl⟩, (hrecs x hx).bodies ▸ hb⟩

/-- The rules with one head are those of its record. -/
theorem filter_rulesOf (hpair : recs.Pairwise fun x y => x.atom ≠ y.atom) (hx : x ∈ recs) :
    ((Reached.rulesOf recs).filter fun e => e.1 = x.atom) =
      (given.rules.bodies x.atom).map fun b => (x.atom, b) := by
  induction recs with
  | nil => cases hx
  | cons y recs ih =>
    obtain ⟨hy, hrest⟩ := List.forall_mem_cons.mp hrecs
    obtain ⟨hne, hpair⟩ := List.pairwise_cons.mp hpair
    have hcons : Reached.rulesOf (y :: recs) = Reached.rulesOf recs ++ y.rules := by
      simp [Reached.rulesOf]
    rw [hcons, List.filter_append, hy.rules_eq]
    rcases List.mem_cons.mp hx with rfl | hx
    · have hnone : ((Reached.rulesOf recs).filter fun e => e.1 = x.atom) = [] := by
        rw [List.filter_eq_nil_iff]
        intro e he heq
        obtain ⟨⟨z, hz, hza⟩, -⟩ := mem_rulesOf_unchanged hrest he
        exact hne z hz ((hza.trans (by simpa using heq)).symm)
      rw [hnone, List.nil_append, List.filter_eq_self]
      simp
    · rw [ih hrest hpair hx, List.filter_eq_nil_iff.mpr, List.append_nil]
      simpa using fun _ _ => hne x hx

/-- **Nothing is left to simplify** in the rules of unchanged records, if no body needs a fact. -/
theorem irreducible_rulesOf (hpair : recs.Pairwise fun x y => x.atom ≠ y.atom)
    (hplain : ∀ a ∈ given.rules.atoms, a.Plain)
    (halone : ∀ a, [] ∈ given.rules.bodies a → given.rules.bodies a = [[]])
    (hfacts : ∀ a, given.rules.isFact a = true → given.rules.Unneeded a) :
    RuleBase.Irreducible (Reached.rulesOf recs) where
  alone := by
    rw [Reached.rulesOf, List.pairwise_flatMap]
    constructor
    · intro x hx
      rw [(hrecs x (List.mem_reverse.mp hx)).rules_eq, List.pairwise_map]
      by_cases hnil : [] ∈ given.rules.bodies x.atom
      · rw [halone x.atom hnil]
        exact List.pairwise_singleton _ _
      · apply List.pairwise_of_forall_mem_list
        intro b hb b' hb' _
        exact ⟨fun h => hnil (h ▸ hb), fun h => hnil (h ▸ hb')⟩
    · rw [List.pairwise_reverse]
      refine hpair.imp_of_mem fun {x y} hx hy hne e he e' he' heq => ?_
      rw [(hrecs y hy).rules_eq] at he
      rw [(hrecs x hx).rules_eq] at he'
      obtain ⟨b, -, rfl⟩ := List.mem_map.mp he
      obtain ⟨b', -, rfl⟩ := List.mem_map.mp he'
      exact absurd heq.symm hne
  unused e he hnil e' he' l hl hcmp := by
    have hbody := (mem_rulesOf_unchanged hrecs he).2
    rw [hnil] at hbody
    have hfact : given.rules.isFact e.1 = true := RuleBase.isFact_iff.mpr (halone e.1 hbody)
    have hatom := hplain _ (RuleBase.mem_atoms_of_contains (RuleBase.contains_of_isFact hfact))
    have hbody' := (mem_rulesOf_unchanged hrecs he').2
    have hlatom := hplain _ (RuleBase.mem_atoms_of_mem_bodies hbody' hl)
    have hpos : Literal.pos e.1 = l := Literal.eq_of_compare (fun _ => hatom) (fun _ => hlatom) hcmp
    exact hfacts e.1 hfact e'.1 e'.2 hbody' (hpos ▸ hl)

/-- A recorded atom has the given bodies, and no other atom has any. -/
theorem bodies_ofRules_rulesOf (hirr : RuleBase.Irreducible (Reached.rulesOf recs))
    (hpair : recs.Pairwise fun x y => x.atom ≠ y.atom) (hwf : given.rules.WellFormed) (a : Atom) :
    ((∃ x ∈ recs, x.atom = a) →
        (RuleBase.ofRules (Reached.rulesOf recs)).bodies a = given.rules.bodies a) ∧
      ((¬ ∃ x ∈ recs, x.atom = a) → (RuleBase.ofRules (Reached.rulesOf recs)).bodies a = []) := by
  rw [hirr.bodies_ofRules]
  constructor
  · rintro ⟨x, hx, rfl⟩
    rw [filter_rulesOf hrecs hpair hx, List.map_map]
    refine (List.map_congr_left fun b hb => ?_).trans (List.map_id _)
    exact Ascending.ofListLast_eq (hwf.isAscending_body hb) fun _ => Iff.rfl
  · intro hnone
    rw [List.filter_eq_nil_iff.mpr, List.map_nil]
    intro e he heq
    obtain ⟨⟨x, hx, hxa⟩, -⟩ := mem_rulesOf_unchanged hrecs he
    exact hnone ⟨x, hx, hxa.trans (by simpa using heq)⟩

end Rules

/-! ### Restricted rules -/

namespace RuleBase

/-- The rules of some heads only. -/
def restrict (r : RuleBase) (keep : Atom → Bool) : RuleBase := ⟨r.entries.filter fun e => keep e.1⟩

theorem bodies_restrict (r : RuleBase) (keep : Atom → Bool) (a : Atom) :
    (r.restrict keep).bodies a = if keep a then r.bodies a else [] := by
  unfold bodies restrict
  rw [Ascending.get?_filter_fst]
  by_cases ha : keep a = true
  · rw [if_pos ha, if_pos ha]
  · rw [if_neg ha, if_neg ha, Option.getD_none]

theorem WellFormed.restrict {r : RuleBase} (hr : r.WellFormed) (keep : Atom → Bool) :
    (r.restrict keep).WellFormed where
  heads := List.Pairwise.sublist (List.filter_sublist.map _) hr.heads
  entries e he := hr.entries e (List.mem_filter.mp he).1

end RuleBase

/-! ### What unrolling gives -/

section Finish

variable (hrecs : ∀ x ∈ recs, x.Unchanged given)
include hrecs

theorem Reached.variantsOf_unchanged (hr : Reached given recs s) (ha : ∃ x ∈ recs, x.atom = a) :
    s.variantsOf a = [⟨some a, []⟩] := by
  have hall : ∀ v ∈ s.variantsOf a, v = ⟨some a, []⟩ := by
    intro v hv
    obtain ⟨y, hy, rfl, rfl⟩ := hr.mem_variantsOf.mp hv
    exact (hrecs y hy).variant
  obtain ⟨x, hx, rfl⟩ := ha
  have hmem : x.variant ∈ s.variantsOf x.atom := hr.mem_variantsOf.mpr ⟨x, hx, rfl, rfl⟩
  -- a second variant would come after one that serves in its place
  have hpairs := hr.pairwise_variantsOf x.atom
  cases hvs : s.variantsOf x.atom with
  | nil =>
    rw [hvs] at hmem
    cases hmem
  | cons v vs =>
    rw [hvs] at hall hpairs
    obtain ⟨hv, hvs'⟩ := List.forall_mem_cons.mp hall
    have hnil : vs = [] := by
      rw [List.eq_nil_iff_forall_not_mem]
      intro w hw
      apply (List.pairwise_cons.mp hpairs).1 w hw
      rw [hv]
      exact List.nil_subset _
    rw [hv, hnil]

theorem Reached.spreadEvidence_unchanged (hr : Reached given recs s) {l : Literal}
    (hl : ∃ x ∈ recs, x.atom = l.atom) : s.spreadEvidence l = [l] := by
  unfold Unrolling.spreadEvidence
  rw [hr.variantsOf_unchanged hrecs hl]
  rfl

/-- Nothing is found false, if every pending atom is recorded. -/
theorem Reached.falsified_unchanged (hr : Reached given recs s) (hwf : given.rules.WellFormed)
    (hpending : ∀ a ∈ s.pending, ∃ x ∈ recs, x.atom = a) (evidence : List Literal) :
    (s.finish evidence).falsified = [] := by
  rw [List.eq_nil_iff_forall_not_mem]
  intro a ha
  rcases Ascending.mem_union.mp ha with hfalse | hpend
  · obtain ⟨x, hx, -, hv⟩ := hr.exists_of_falsified a hfalse
    rw [(hrecs x hx).variant] at hv
    cases hv
  · obtain ⟨hpend, hnone⟩ := List.mem_filter.mp hpend
    obtain ⟨x, hx, rfl⟩ := hpending a hpend
    have hc := contains_of_negationLoopsAt (hr.negationLoopsAt_of_pending _ hpend)
    have hbuilt : s.built.rules.contains x.atom = true := by
      refine hr.contains_built.mpr ⟨x, hx, by rw [(hrecs x hx).variant], ?_⟩
      rw [(hrecs x hx).bodies]
      exact hwf.bodies_ne_nil hc
    rw [hbuilt] at hnone
    cases hnone

end Finish

/-- The atoms with variants are those that the seeds reach. -/
theorem visited_iff_reaches (hloops : ∀ a, ¬ given.rules.toRules.LoopsAt a)
    (hwf : given.rules.WellFormed) {seeds : List Literal}
    (hs : (resolveSeeds given seeds).runOn (.start given) = (.ok (), s)) (a : Atom) :
    s.visited a = true ↔ ∃ l ∈ seeds, given.rules.toRules.Reaches l.atom a := by
  obtain ⟨recs, hr, hseeds⟩ := exists_reached_of_resolveSeeds hs
  obtain ⟨hwithin, hpending⟩ := explored_of_resolveSeeds hs
  refine ⟨hwithin a, fun ha => ?_⟩
  obtain ⟨l, hl, hreach⟩ := ha
  induction hreach with
  | refl =>
    rcases hseeds rfl l hl with (⟨x, hx, ha, -⟩ | hp) | hf
    · exact hr.visited_iff.mpr ⟨x, hx, ha⟩
    · exact hpending _ hp
    · obtain ⟨x, hx, ha, -⟩ := hr.exists_of_falsified _ hf
      exact hr.visited_iff.mpr ⟨x, hx, ha⟩
  | tail _ hd ih =>
    obtain ⟨x, hx, rfl⟩ := hr.visited_iff.mp ih
    rcases hr.valid.exists_of_depends hloops hwf hx hd with hy | hp
    · exact hr.visited_iff.mpr hy
    · exact hpending _ hp

/-- **Rules without positive loops are left alone.** Let plain rules have no positive loop, though
they may have loops through negation, and let no body need a fact. If their loops are broken, the
result has the given rules of the heads that the seeds reach through literals of either polarity,
with the same bodies in the same order. Nothing is found false, and the evidence is the same. -/
theorem breakLoops_restricts (rs : List (Atom × List Literal)) (weights : Weights Literal α)
    (queries evidence : List Literal) (hplain : ∀ a ∈ (RuleBase.ofRules rs).atoms, a.Plain)
    (hloops : ∀ a, ¬ (RuleBase.ofRules rs).toRules.LoopsAt a)
    (hfacts : ∀ a, (RuleBase.ofRules rs).isFact a = true → (RuleBase.ofRules rs).Unneeded a)
    {u : Unlooped α} {log : List (Event α)}
    (h : WeightedRules.breakLoops ⟨.ofRules rs, weights⟩ queries evidence = (.ok u, log)) :
    ∃ keep : Atom → Bool,
      (∀ a, keep a = true ↔
        ∃ l ∈ queries ++ evidence, (RuleBase.ofRules rs).toRules.Reaches l.atom a) ∧
      u.program.rules = (RuleBase.ofRules rs).restrict keep ∧
      u.falsified = [] ∧
      u.evidence = Ascending.ofList evidence ∧
      (Ascending.IsAscending evidence → u.evidence = evidence) := by
  obtain ⟨s, hs, rfl⟩ := exists_of_breakLoops h
  obtain ⟨recs, hr, -⟩ := exists_reached_of_resolveSeeds hs
  have hwf := RuleBase.wellFormed_ofRules rs
  have hrecs := hr.valid.unchanged hloops hwf
  have hreaches := visited_iff_reaches hloops hwf hs
  have hrules : s.built.rules = (RuleBase.ofRules rs).restrict s.visited := by
    have hpair := hr.valid.pairwise_atom hrecs
    have hirr := irreducible_rulesOf hrecs hpair hplain (RuleBase.kept_ofRules rs).alone hfacts
    rw [hr.rules_built]
    apply (RuleBase.wellFormed_ofRules _).ext (hwf.restrict _)
    intro a
    obtain ⟨hyes, hno⟩ := bodies_ofRules_rulesOf hrecs hirr hpair hwf a
    rw [RuleBase.bodies_restrict]
    by_cases ha : s.visited a = true
    · rw [if_pos ha, hyes (hr.visited_iff.mp ha)]
    · rw [if_neg ha, hno fun hx => ha (hr.visited_iff.mpr hx)]
  have hpending : ∀ a ∈ s.pending, ∃ x ∈ recs, x.atom = a := fun a ha =>
    hr.visited_iff.mp ((explored_of_resolveSeeds hs).2 a ha)
  have hevidence : (s.finish evidence).evidence = Ascending.ofList evidence := by
    have hspread : evidence.flatMap s.spreadEvidence = evidence.flatMap fun l => [l] := by
      apply List.flatMap_congr
      intro l hl
      have hseed := (hreaches l.atom).mpr ⟨l, List.mem_append_right _ hl, .refl⟩
      exact hr.spreadEvidence_unchanged hrecs (hr.visited_iff.mp hseed)
    show Ascending.ofList (evidence.flatMap s.spreadEvidence) = Ascending.ofList evidence
    rw [hspread, List.flatMap_singleton']
  exact ⟨s.visited, hreaches, hrules, hr.falsified_unchanged hrecs hwf hpending evidence, hevidence,
    fun hasc => hevidence.trans (Ascending.ofList_eq_self hasc)⟩

/-- Rules have no positive loop if the positive literals of each are below its head in some
level. -/
theorem RuleBase.not_loopsAt_ofRules {rs : List (Atom × List Literal)} (level : Atom → Nat)
    (h : ∀ e ∈ rs, ∀ l ∈ e.2, l.positive = true → level l.atom < level e.1) (a : Atom) :
    ¬ (ofRules rs).toRules.LoopsAt a := by
  have huses : ∀ {a b}, (ofRules rs).toRules.Uses true a b → level b < level a := by
    intro a b hu
    obtain ⟨body, hb, hl⟩ := hu
    obtain ⟨body', hb', hsub⟩ := exists_rule_of_mem_bodies rs hb
    exact h _ hb' _ (hsub hl) rfl
  have hlt : ∀ {b}, TransGen ((ofRules rs).toRules.Uses true) a b → level b < level a := by
    intro b hab
    induction hab with
    | single hu => exact huses hu
    | tail _ hu ih => exact (huses hu).trans ih
  exact fun hloop => lt_irrefl _ (hlt hloop)

/-- Two atoms that need each other to be false, one of them with two bodies, what follows from
them, and a fact that has to be false. -/
def alternatingRules : List (Atom × List Literal) :=
  [(⟨"t"⟩, []), (⟨"p"⟩, [.pos ⟨"e"⟩, .neg ⟨"q"⟩]), (⟨"q"⟩, [.neg ⟨"p"⟩, .neg ⟨"t"⟩]),
    (⟨"p"⟩, [.pos ⟨"f"⟩]), (⟨"r"⟩, [.pos ⟨"p"⟩, .pos ⟨"q"⟩]), (⟨"v"⟩, [.pos ⟨"r"⟩])]

def alternatingWeights : Weights Literal Nat :=
  ⟨[(.neg ⟨"e"⟩, 1), (.neg ⟨"f"⟩, 1), (.neg ⟨"p"⟩, 1), (.neg ⟨"q"⟩, 1), (.neg ⟨"r"⟩, 1),
    (.neg ⟨"t"⟩, 1), (.pos ⟨"e"⟩, 1), (.pos ⟨"f"⟩, 1), (.pos ⟨"p"⟩, 1), (.pos ⟨"q"⟩, 1),
    (.pos ⟨"r"⟩, 1), (.pos ⟨"t"⟩, 1)]⟩

/-- With the query `r` and the evidence `-q`, the atom `p` is met again while it is built. All
rules stay but for that of `v`. -/
theorem breakLoops_restricts_alternatingRules :
    ∃ u log, WeightedRules.breakLoops ⟨.ofRules alternatingRules, alternatingWeights⟩
        [.pos ⟨"r"⟩] [.neg ⟨"q"⟩] = (.ok u, log) ∧
      (∃ keep : Atom → Bool, (∀ a, keep a = true ↔ ∃ l ∈ [Literal.pos ⟨"r"⟩, .neg ⟨"q"⟩],
          (RuleBase.ofRules alternatingRules).toRules.Reaches l.atom a) ∧
        u.program.rules = (RuleBase.ofRules alternatingRules).restrict keep) ∧
      u.program.rules.heads = [⟨"p"⟩, ⟨"q"⟩, ⟨"r"⟩, ⟨"t"⟩] ∧
      u.program.rules.bodies ⟨"p"⟩ = [[.neg ⟨"q"⟩, .pos ⟨"e"⟩], [.pos ⟨"f"⟩]] ∧
      u.falsified = [] ∧ u.evidence = [.neg ⟨"q"⟩] := by
  obtain ⟨u, log, h⟩ := exists_breakLoops ⟨.ofRules alternatingRules, alternatingWeights⟩
    [.pos ⟨"r"⟩] [.neg ⟨"q"⟩] (by decide +kernel)
  have hfacts : ∀ a, (RuleBase.ofRules alternatingRules).isFact a = true →
      (RuleBase.ofRules alternatingRules).Unneeded a := by
    intro a ha head b hb
    have hentries : ∀ a ∈ (RuleBase.ofRules alternatingRules).heads,
        (RuleBase.ofRules alternatingRules).isFact a = true →
        ∀ e ∈ (RuleBase.ofRules alternatingRules).entries, ∀ b ∈ e.2, Literal.pos a ∉ b := by
      decide +kernel
    obtain ⟨bs, he, hb⟩ := RuleBase.exists_entry_of_mem_bodies hb
    exact hentries a (RuleBase.mem_heads_of_contains (RuleBase.contains_of_isFact ha)) ha _ he b hb
  obtain ⟨keep, hkeep, hrules, hfalse, -, hevidence⟩ := breakLoops_restricts alternatingRules
    alternatingWeights [.pos ⟨"r"⟩] [.neg ⟨"q"⟩] (by decide +kernel)
    (RuleBase.not_loopsAt_ofRules
      (fun a => if a = ⟨"v"⟩ then 3 else if a = ⟨"r"⟩ then 2 else if a = ⟨"p"⟩ then 1 else 0)
      (by decide)) hfacts h
  have hbuilt : ((WeightedRules.breakLoops ⟨.ofRules alternatingRules, alternatingWeights⟩
      [.pos ⟨"r"⟩] [.neg ⟨"q"⟩]).1.toOption.map fun u =>
        (u.program.rules.heads, u.program.rules.bodies ⟨"p"⟩)) =
      some ([⟨"p"⟩, ⟨"q"⟩, ⟨"r"⟩, ⟨"t"⟩], [[.neg ⟨"q"⟩, .pos ⟨"e"⟩], [.pos ⟨"f"⟩]]) := by
    decide +kernel
  rw [h] at hbuilt
  obtain ⟨hheads, hbodies⟩ := Prod.mk.inj (Option.some.inj hbuilt)
  exact ⟨u, log, h, ⟨keep, hkeep, hrules⟩, hheads, hbodies, hfalse,
    hevidence (List.pairwise_singleton _ _)⟩

end ProbLogic
