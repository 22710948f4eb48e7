/-
# The names of variants, and what they refer to

A variant with cuts is given a name that was not taken before. The names that
are taken from the start are those of the given rules and of the table of
weights, since an atom without rules may be met under its own name at any time.
So names tell variants apart, and no name stands for two atoms (`variants_afterSeeds`).

Weights are copied when a variant is named, before it is recorded, and a stop
in between leaves some of them behind. No later copy changes the weights of a
recorded variant: a weight of the same literal is copied from the same atom, or
else one of the two names would be taken twice (`Reached.sameWeights`).

The bodies that are built refer to names of variants and to pending atoms. The
former have rules, or are atoms without given rules, and the latter are either
built in the end or counted as false (`Reached.defined_or_false`).

Key theorems: `Reached.pairwise_variantsOf`, `Reached.sameWeights`, `Reached.defined_or_false`,
`variants_afterSeeds`.
-/
import ProbLogic.Proofs.Unrolling.Reentry

namespace ProbLogic

open Rules UnrollM

variable {α : Type} {given : WeightedRules α} {recs : List Record} {s : Unrolling α}
  {x y : Record} {a n : Atom}

/-! ### The order of variants -/

/-- A variant is recorded only where no older one serves. -/
theorem Reached.pairwise_variantsOf (hr : Reached given recs s) (a : Atom) :
    (s.variantsOf a).Pairwise fun earlier later => ¬ earlier.cuts ⊆ later.cuts := by
  induction hr with
  | refl => exact List.Pairwise.nil
  | @enter recs s x hr hx _ _ ih =>
    rw [Unrolling.variantsOf_enter]
    by_cases ha : a = x.atom
    · rw [if_pos ha, List.pairwise_append]
      refine ⟨ih, List.pairwise_singleton _ _, fun v hv w hw => ?_⟩
      obtain ⟨y, hy, hya, rfl⟩ := (Reached.mem_variantsOf hr).mp hv
      rw [List.mem_singleton.mp hw]
      exact hx.new y hy (hya.trans ha)
    · rwa [if_neg ha]
  | _ => assumption

/-- A name is one of a single atom, at a single place among its variants. -/
theorem Reached.place_of_name (hr : Reached given recs s)
    (hplain : ∀ a ∈ given.rules.atoms, a.Plain) {b : Atom} {i j : Nat} {v w : Variant}
    (hv : (s.variantsOf a)[i]? = some v) (hw : (s.variantsOf b)[j]? = some w)
    (hvn : v.name = some n) (hwn : w.name = some n) : a = b ∧ i = j := by
  obtain ⟨x, hx, rfl, rfl⟩ := hr.mem_variantsOf.mp (List.mem_of_getElem? hv)
  obtain ⟨y, hy, rfl, rfl⟩ := hr.mem_variantsOf.mp (List.mem_of_getElem? hw)
  obtain rfl : x = y := hr.valid.eq_of_name_of_plain hplain hx hy hvn hwn
  refine ⟨rfl, ?_⟩
  obtain ⟨hi, hvi⟩ := List.getElem?_eq_some_iff.mp hv
  obtain ⟨hj, hwj⟩ := List.getElem?_eq_some_iff.mp hw
  have hpairs := List.pairwise_iff_getElem.mp (hr.pairwise_variantsOf x.atom)
  -- the same variant at two places would be later than itself
  rcases Nat.lt_trichotomy i j with hlt | heq | hgt
  · have hcuts := hpairs i j hi hj hlt
    rw [hvi, hwj] at hcuts
    exact absurd (List.Subset.refl _) hcuts
  · exact heq
  · have hcuts := hpairs j i hj hi hgt
    rw [hvi, hwj] at hcuts
    exact absurd (List.Subset.refl _) hcuts

/-! ### Weights -/

/-- A literal with a weight is on an atom of the table, if all names are plain. -/
theorem mem_taken_of_get? (hweights : ∀ e ∈ given.weights.entries, e.1.atom.Plain) {l : Literal}
    (hl : l.atom.Plain) {w : α} (hw : given.weights.get? l = some w) :
    l.atom ∈ (Unrolling.start given).taken := by
  obtain ⟨e, he, hkey, -⟩ := Ascending.exists_mem_of_get? hw
  have hle : l = e.1 := Literal.eq_of_compare (fun _ => hl) (fun _ => hweights e he) hkey
  exact Ascending.mem_union.mpr (.inr (List.mem_map.mpr ⟨e, he, by rw [hle]⟩))

/-- A name that was made for a variant is plain and has no given weight. -/
theorem get?_eq_none_of_fresh (hplain : ∀ a ∈ given.rules.atoms, a.Plain)
    (hweights : ∀ e ∈ given.weights.entries, e.1.atom.Plain)
    (hc : given.rules.contains a = true) (hs : ∃ t, n = a.suffixed t)
    (hn : n ∉ (Unrolling.start given).taken) (p : Bool) :
    n.Plain ∧ given.weights.get? ⟨n, p⟩ = none := by
  obtain ⟨t, rfl⟩ := hs
  have hp : (a.suffixed t).Plain := (hplain a (RuleBase.mem_atoms_of_contains hc)).suffixed t
  refine ⟨hp, Option.eq_none_iff_forall_not_mem.mpr fun w hw => hn ?_⟩
  exact mem_taken_of_get? hweights (l := ⟨a.suffixed t, p⟩) hp hw

/-- A variant with a name that was made for it is one of an atom with rules. -/
theorem Valid.contains_of_cuts {pend : List Atom} (h : Valid given pend recs) (hx : x ∈ recs)
    (hc : x.variant.cuts ≠ []) : given.rules.contains x.atom = true := by
  obtain ⟨recs', -, hj⟩ := h.exists_justified hx
  rcases hj.origin with ⟨-, hv, -⟩ | ⟨hcontains, -⟩
  · rw [hv] at hc
    exact absurd rfl hc
  · exact hcontains

/-- **Variants keep the weights of their atoms.** -/
theorem Reached.sameWeights (hr : Reached given recs s)
    (hplain : ∀ a ∈ given.rules.atoms, a.Plain)
    (hweights : ∀ e ∈ given.weights.entries, e.1.atom.Plain) :
    ∀ x ∈ recs, ∀ n, x.variant.name = some n →
      SameWeights given.weights s.built.weights x.atom n := by
  induction hr with
  | refl => simp
  | @weight recs s a m q u hr hu hm ih =>
    have hvalid := Reached.valid hr
    intro x hx n hn p
    obtain ⟨w, hw, hbuilt⟩ := ih x hx n hn p
    refine ⟨w, hw, ?_⟩
    show (s.built.weights.insert ⟨m, q⟩ u).get? ⟨n, p⟩ = some w
    rw [Weights.get?_insert]
    by_cases hcmp : compare (⟨n, p⟩ : Literal) ⟨m, q⟩ = .eq
    swap
    · rwa [if_neg hcmp]
    rw [if_pos hcmp, ← hw]
    have hsame : given.weights.get? ⟨n, p⟩ = given.weights.get? ⟨m, q⟩ :=
      Ascending.get?_congr hcmp _
    -- either name is the atom's own, or was made for a variant
    rcases hvalid.name_cases hx hn with ⟨-, rfl⟩ | ⟨hcuts, hsuffix, hfree⟩
    · rcases hm with rfl | ⟨hfresh, hc⟩
      · exact hu.symm.trans hsame.symm
      · have hnone := (get?_eq_none_of_fresh hplain hweights hc hfresh.suffixed hfresh.notMem q).2
        rw [hsame, hnone] at hw
        cases hw
    · have hxc := hvalid.contains_of_cuts hx hcuts
      obtain ⟨hnp, hnone⟩ := get?_eq_none_of_fresh hplain hweights hxc hsuffix hfree p
      rcases hm with rfl | ⟨hfresh, hc⟩
      · rw [← hsame, hnone] at hu
        cases hu
      · have hmp := (get?_eq_none_of_fresh hplain hweights hc hfresh.suffixed hfresh.notMem q).1
        have hkey := Literal.eq_of_compare (fun _ => hnp) (fun _ => hmp) hcmp
        have hnm : n = m := congrArg Literal.atom hkey
        obtain ⟨t, ht⟩ := hsuffix
        have hown : x.atom = n := hnm ▸ hfresh.unused x hx (hnm ▸ hn)
        exact absurd (hown.trans ht) (x.atom.ne_suffixed t)
  | enter _ _ _ hentered ih =>
    intro x hx
    rcases List.mem_cons.mp hx with rfl | hx
    · exact hentered
    · exact ih x hx
  | _ => assumption

/-! ### What bodies refer to -/

/-- A name has rules, or is that of an atom without given rules. -/
theorem Reached.defined_or_open (hr : Reached given recs s) (hx : x ∈ recs)
    (hn : x.variant.name = some n) :
    s.built.rules.contains n = true ∨ (n = x.atom ∧ given.rules.contains n = false) := by
  obtain ⟨recs', -, hj⟩ := hr.valid.exists_justified hx
  rcases hj.origin with ⟨hc, hv, -⟩ | ⟨-, hnone, -⟩
  · obtain rfl : x.atom = n := by simpa [hv] using hn
    exact .inr ⟨rfl, hc⟩
  · refine .inl (hr.contains_built.mpr ⟨x, hx, hn, fun hnil => ?_⟩)
    rw [hnone.mpr hnil] at hn
    cases hn

/-- **Built rules are closed.** What is used has rules, or is an atom without given rules, or is
counted as false. -/
theorem Reached.defined_or_false (hr : Reached given recs s) (evidence : List Literal) {m : Atom}
    (h : s.built.rules.toRules.Depends n m) :
    s.built.rules.contains m = true ∨
      (m ∈ given.rules.atoms ∧ given.rules.contains m = false) ∨
      m ∈ (s.finish evidence).falsified := by
  obtain ⟨c, hatom, ⟨y, hy, rfl, hyn⟩ | ⟨rfl, hp⟩⟩ := hr.exists_stands h
  · rcases hr.defined_or_open hy hyn with hc | ⟨rfl, hc⟩
    · exact .inl hc
    · exact .inr (.inl ⟨hatom, hc⟩)
  · by_cases hc : s.built.rules.contains m = true
    · exact .inl hc
    · refine .inr (.inr (Ascending.mem_union.mpr (.inr ?_)))
      exact List.mem_filter.mpr ⟨hp, by simpa using hc⟩

/-- An atom without given rules that is mentioned has been recorded. -/
theorem Reached.exists_of_mentions_open (hr : Reached given recs s)
    (hc : given.rules.contains a = false) (h : s.built.rules.Mentions a) :
    ∃ x ∈ recs, x.variant.name = some a := by
  rcases h with hbuilt | ⟨m, hu⟩
  · obtain ⟨x, hx, hn, -⟩ := hr.contains_built.mp hbuilt
    exact ⟨x, hx, hn⟩
  · obtain ⟨c, -, ⟨y, hy, -, hyn⟩ | ⟨rfl, hp⟩⟩ := hr.exists_stands hu
    · exact ⟨y, hy, hyn⟩
    · have hrules := contains_of_negationLoopsAt (hr.negationLoopsAt_of_pending a hp)
      rw [hc] at hrules
      cases hrules

/-! ### After any seeds -/

/-- **Names of variants.** Let names be plain, and let any seeds be resolved, also ones that
stop. A name that is not the atom's own is none of the given rules and weights, and no name is
used twice. No variant comes after one that would serve in its place. What the bodies of the
result refer to has rules in it, or has no given rules, or is counted as false. Each head of the
result has the weights that are given to the atom of which it is a variant, and an atom without
given rules that is mentioned has its own. -/
theorem variants_afterSeeds (given : WeightedRules α) (seeds evidence : List Literal)
    (hplain : ∀ a ∈ given.rules.atoms, a.Plain)
    (hweights : ∀ e ∈ given.weights.entries, e.1.atom.Plain) :
    let s := afterSeeds given seeds
    let u := s.finish evidence
    (∀ a, ∀ v ∈ s.variantsOf a, ∀ n, v.name = some n → n ≠ a →
      n ∉ given.rules.atoms ∧ n ∉ given.weights.entries.map fun e => e.1.atom) ∧
    (∀ (a b n : Atom) (i j : Nat) (v w : Variant), (s.variantsOf a)[i]? = some v →
      (s.variantsOf b)[j]? = some w → v.name = some n → w.name = some n → a = b ∧ i = j) ∧
    (∀ a, (s.variantsOf a).Pairwise fun earlier later => ¬ earlier.cuts ⊆ later.cuts) ∧
    (∀ n m, u.program.rules.toRules.Depends n m → u.program.rules.contains m = true ∨
      (m ∈ given.rules.atoms ∧ given.rules.contains m = false) ∨ m ∈ u.falsified) ∧
    (∀ n, u.program.rules.contains n = true → ∃ a, (∃ v ∈ s.variantsOf a, v.name = some n) ∧
      SameWeights given.weights u.program.weights a n) ∧
    (∀ a ∈ given.rules.atoms, given.rules.contains a = false → u.program.rules.Mentions a →
      SameWeights given.weights u.program.weights a a) := by
  intro s u
  obtain ⟨recs, hr⟩ := exists_reached_afterSeeds given seeds
  have hsame := hr.sameWeights hplain hweights
  refine ⟨fun a v hv n hn hne => ?_,
    fun a b n i j v w hv hw hvn hwn => hr.place_of_name hplain hv hw hvn hwn,
    hr.pairwise_variantsOf, fun n m h => hr.defined_or_false evidence h, fun n hn => ?_,
    fun a ha hc hm => ?_⟩
  · obtain ⟨x, hx, rfl, rfl⟩ := hr.mem_variantsOf.mp hv
    rcases hr.valid.name_cases hx hn with ⟨-, hown⟩ | ⟨-, -, hfree⟩
    · exact absurd hown hne
    · exact ⟨fun h => hfree (mem_taken_of_mem_atoms h),
        fun h => hfree (Ascending.mem_union.mpr (.inr h))⟩
  · obtain ⟨x, hx, hxn, -⟩ := hr.contains_built.mp hn
    exact ⟨x.atom, ⟨x.variant, hr.mem_variantsOf.mpr ⟨x, hx, rfl, rfl⟩, hxn⟩, hsame x hx n hxn⟩
  · obtain ⟨x, hx, hn⟩ := hr.exists_of_mentions_open hc hm
    rcases hr.valid.name_cases hx hn with ⟨-, hown⟩ | ⟨-, -, hfree⟩
    · have hxa := hsame x hx a hn
      rwa [← hown] at hxa
    · exact absurd (mem_taken_of_mem_atoms ha) hfree

/-- Two atoms that support each other, where only the table has the name `a_0`. The atom `m` has
rules but no weights, and `p` is met again below `q` but has no derivation. -/
def contendedNames : WeightedRules Nat where
  rules := .ofRules [(⟨"a"⟩, [.pos ⟨"b"⟩]), (⟨"a"⟩, [.pos ⟨"f"⟩]), (⟨"b"⟩, [.pos ⟨"a"⟩]),
    (⟨"b"⟩, [.pos ⟨"e"⟩]), (⟨"m"⟩, [.pos ⟨"b"⟩]), (⟨"p"⟩, [.neg ⟨"q"⟩, .pos ⟨"z"⟩]),
    (⟨"q"⟩, [.neg ⟨"p"⟩]), (⟨"z"⟩, [.pos ⟨"z"⟩])]
  weights := ⟨[(.neg ⟨"a"⟩, 1), (.neg ⟨"a_0"⟩, 2), (.neg ⟨"b"⟩, 3), (.neg ⟨"e"⟩, 4),
    (.neg ⟨"f"⟩, 5), (.neg ⟨"q"⟩, 6), (.pos ⟨"a"⟩, 11), (.pos ⟨"a_0"⟩, 12), (.pos ⟨"b"⟩, 13),
    (.pos ⟨"e"⟩, 14), (.pos ⟨"f"⟩, 15), (.pos ⟨"q"⟩, 16)]⟩

/-- The seed `m` stops for its weight, after a variant of `a` has been built below `b`. Its name
leaves out `a_0`, which is a seed later, and it has the weights of `a`. -/
theorem variants_afterSeeds_contendedNames :
    ∃ s, s = afterSeeds contendedNames [.pos ⟨"m"⟩, .pos ⟨"a_0"⟩, .pos ⟨"a"⟩, .pos ⟨"p"⟩] ∧
      ((resolveSeed contendedNames (.pos ⟨"m"⟩)).runOn (.start contendedNames)).1 =
        .error (.missingWeight (.pos ⟨"m"⟩)) ∧
      s.variantsOf ⟨"a"⟩ = [⟨some ⟨"a_1"⟩, [⟨"b"⟩]⟩, ⟨some ⟨"a"⟩, []⟩] ∧
      (⟨"a_1"⟩ : Atom) ∉ contendedNames.weights.entries.map (fun e => e.1.atom) ∧
      (∀ b j w, (s.variantsOf b)[j]? = some w → Variant.name w = some ⟨"a_1"⟩ →
        ⟨"a"⟩ = b ∧ 0 = j) ∧
      (s.finish []).falsified = [⟨"p"⟩] ∧
      (∀ n m, (s.finish []).program.rules.toRules.Depends n m →
        (s.finish []).program.rules.contains m = true ∨
        (m ∈ contendedNames.rules.atoms ∧ contendedNames.rules.contains m = false) ∨
        m ∈ (s.finish []).falsified) ∧
      ∃ b, (∃ v ∈ s.variantsOf b, v.name = some ⟨"a_1"⟩) ∧
        SameWeights contendedNames.weights (s.finish []).program.weights b ⟨"a_1"⟩ := by
  have hstate : ((afterSeeds contendedNames
      [.pos ⟨"m"⟩, .pos ⟨"a_0"⟩, .pos ⟨"a"⟩, .pos ⟨"p"⟩]).variantsOf ⟨"a"⟩,
      ((afterSeeds contendedNames
        [.pos ⟨"m"⟩, .pos ⟨"a_0"⟩, .pos ⟨"a"⟩, .pos ⟨"p"⟩]).finish []).falsified) =
        ([⟨some ⟨"a_1"⟩, [⟨"b"⟩]⟩, ⟨some ⟨"a"⟩, []⟩], [⟨"p"⟩]) := by
    decide +kernel
  obtain ⟨hvariants, hfalse⟩ := Prod.mk.inj hstate
  obtain ⟨hfresh, hunique, -, hclosed, hheads, -⟩ := variants_afterSeeds contendedNames
    [.pos ⟨"m"⟩, .pos ⟨"a_0"⟩, .pos ⟨"a"⟩, .pos ⟨"p"⟩] [] (by decide +kernel) (by decide +kernel)
  have hfirst := congrArg (fun vs : List Variant => vs[0]?) hvariants
  have hname := hfresh ⟨"a"⟩ _ (List.mem_of_getElem? hfirst) ⟨"a_1"⟩ rfl (by decide)
  refine ⟨_, rfl, by decide +kernel, hvariants, hname.2, fun b j w hw hwn => ?_, hfalse, hclosed,
    hheads ⟨"a_1"⟩ (by decide +kernel)⟩
  exact hunique ⟨"a"⟩ b ⟨"a_1"⟩ 0 j _ w hfirst hw rfl hwn

end ProbLogic
