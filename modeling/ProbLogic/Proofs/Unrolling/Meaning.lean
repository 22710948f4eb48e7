/-
# Breaking loops keeps the meaning

Rules without a loop through negation have a least model under each assignment
of their open atoms, and unrolling them keeps it. The variants of an atom are
bounded from both sides. A variant that is true makes its atom true, since its
bodies are copies of the atom's. And an atom that is derived without the cuts
of a variant makes the variant true: the derivation needs neither the cuts nor
the atom itself (`Derives.loopFree`), so it uses none of the bodies that were
cut or lost. Both are shown together, from the oldest record on
(`Valid.bounds`). A variant without cuts is therefore equivalent to its atom,
and an atom without a derivation is false.

A model of the unrolled rules is any interpretation that supports them and
follows the assignment where there are no rules (`Unlooped.IsModel`). There is
one, since the unrolled rules have no loops at all (`wellFounded_depends`).

Key definitions: `Unlooped.IsModel`.
Key theorems: `Valid.bounds`, `exists_isModel`, `leastModel_finish`.
-/
import ProbLogic.Proofs.Unrolling.Loops

namespace ProbLogic

open Rules Relation UnrollM

variable {α : Type} {given : WeightedRules α} {recs recs' : List Record} {pend : List Atom}
  {st : Unrolling α} {x y : Record} {n a : Atom}

/-! ### Plain names -/

theorem Atom.Plain.suffixed (h : a.Plain) (t : String) : (a.suffixed t).Plain := by
  simp only [Atom.Plain, Atom.suffixed, String.toList_append] at h ⊢
  cases hl : a.name.toList with
  | nil => simp
  | cons c cs => simpa [hl] using h

theorem Atom.ne_suffixed (a : Atom) (t : String) : a ≠ a.suffixed t := by
  intro h
  have hlen := congrArg (fun b : Atom => b.name.length) h
  simp only [Atom.suffixed, String.length_append] at hlen
  have hone : "_".length = 1 := rfl
  omega

theorem Valid.plain_of_name (h : Valid given pend recs) (hx : x ∈ recs) (ha : x.atom.Plain)
    (hn : x.variant.name = some n) : n.Plain := by
  rcases h.name_cases hx hn with ⟨-, rfl⟩ | ⟨-, ⟨t, rfl⟩, -⟩
  · exact ha
  · exact ha.suffixed t

/-- An atom with weights is an atom of the weights, unless it looks like a negative
literal. -/
theorem mem_taken_of_weight (h : (given.weights.get? (.pos a)).isSome) (ha : a.Plain) :
    a ∈ (Unrolling.start given).taken := by
  have hmem : ∀ es : List (Literal × α), (Ascending.get? (.pos a) es).isSome →
      a ∈ es.map fun e => e.1.atom := by
    intro es hes
    induction es with
    | nil => simp [Ascending.get?] at hes
    | cons e es ih =>
      by_cases he : compare (Literal.pos a) e.1 = .eq
      · have htext : a.name = e.1.text := Literal.text_eq_of_compare he
        cases hp : e.1.positive
        · have hdash : a.name = "-" ++ e.1.atom.name := by simpa [Literal.text, hp] using htext
          simp [Atom.Plain, hdash] at ha
        · have hname : a.name = e.1.atom.name := by simpa [Literal.text, hp] using htext
          have hatom : a = e.1.atom := by
            rcases a with ⟨_⟩
            exact congrArg Atom.mk hname
          simp [hatom]
      · simp only [Ascending.get?, beq_iff_eq, he, if_false] at hes
        exact List.mem_cons_of_mem _ (ih hes)
  exact Ascending.mem_union.mpr (.inr (hmem _ h))

/-- An atom is built once for each set of cuts. -/
theorem Valid.eq_of_cuts (h : Valid given pend recs) (hx : x ∈ recs) (hy : y ∈ recs)
    (hatom : x.atom = y.atom) (hcuts : x.variant.cuts = y.variant.cuts) : x = y := by
  induction h with
  | nil => simp at hx
  | cons hz _ ih =>
    rcases List.mem_cons.mp hx with rfl | hx'
    · rcases List.mem_cons.mp hy with rfl | hy'
      · rfl
      · exact absurd (hcuts ▸ List.Subset.refl _) (hz.new y hy' hatom.symm)
    · rcases List.mem_cons.mp hy with rfl | hy'
      · exact absurd (hcuts ▸ List.Subset.refl _) (hz.new x hx' hatom)
      · exact ih hx' hy'

/-- With plain names every two records with the same name are one. -/
theorem Valid.eq_of_name_of_plain (h : Valid given pend recs)
    (hplain : ∀ a ∈ given.rules.atoms, a.Plain) (hx : x ∈ recs) (hy : y ∈ recs)
    (hxn : x.variant.name = some n) (hyn : y.variant.name = some n) : x = y := by
  -- an atom that is not a given one has its own name, which is not plain
  have hgiven : ∀ {z}, z ∈ recs → z.variant.name = some n →
      z.atom ∈ (Unrolling.start given).taken ∨ (n = z.atom ∧ z.variant.cuts = [] ∧ ¬ n.Plain) := by
    intro z hz hzn
    obtain ⟨recs', -, hj⟩ := h.exists_justified hz
    rcases hj.origin with ⟨-, hv, -, hw⟩ | ⟨hc, -⟩
    · obtain rfl : z.atom = n := by simpa [hv] using hzn
      by_cases hp : z.atom.Plain
      · exact .inl (mem_taken_of_weight (hw true) hp)
      · exact .inr ⟨rfl, by rw [hv], hp⟩
    · exact .inl (mem_taken_of_mem_atoms (RuleBase.mem_atoms_of_contains hc))
  have hown : ∀ {z w}, z ∈ recs → w ∈ recs → z.variant.name = some n → w.variant.name = some n →
      n = z.atom → z.variant.cuts = [] → ¬ n.Plain → z = w := by
    intro z w hz hw hzn hwn hza hzc hnp
    rcases h.name_cases hw hwn with ⟨hwc, hwa⟩ | ⟨hwc, ⟨t, ht⟩, -⟩
    · exact h.eq_of_cuts hz hw (hza.symm.trans hwa) (hzc.trans hwc.symm)
    · obtain ⟨recs', -, hj⟩ := h.exists_justified hw
      rcases hj.origin with ⟨-, hv, -⟩ | ⟨hc, -⟩
      · exact absurd (by rw [hv]) hwc
      · exact absurd (ht ▸ (hplain _ (RuleBase.mem_atoms_of_contains hc)).suffixed t) hnp
  rcases hgiven hx hxn with hxa | ⟨hxa, hxc, hnp⟩
  · rcases hgiven hy hyn with hya | ⟨hya, hyc, hnp⟩
    · exact h.eq_of_name hx hy hxa hya hxn hyn
    · exact (hown hy hx hyn hxn hya hyc hnp).symm
  · exact hown hx hy hxn hyn hxa hxc hnp

/-! ### The bounds of a variant -/

/-- An interpretation follows the records: a name with bodies is true exactly if one of them
is, and an open atom has its assigned value. -/
structure Follows (given : WeightedRules α) (recs : List Record) (s N : Interpretation) : Prop where
  supported : IsSupported (fun a b => (a, b) ∈ Reached.rulesOf recs)
    (fun a => ∃ b, (a, b) ∈ Reached.rulesOf recs) N
  openAtoms : ∀ x ∈ recs, given.rules.contains x.atom = false → (N x.atom ↔ s x.atom)

/-- A variant lies between the derivations of its atom without the cuts and the atom. -/
structure Bounds (R : Rules) (M N : Interpretation) (x : Record) : Prop where
  upper : ∀ n, x.variant.name = some n → N n → M x.atom
  lower : Derives (R.avoiding x.variant.cuts) M x.atom → ∃ n, x.variant.name = some n ∧ N n

section Bounds

variable {s M N : Interpretation}

theorem Follows.iff_bodies (hN : Follows given recs s N) (h : Valid given pend recs)
    (hplain : ∀ a ∈ given.rules.atoms, a.Plain) (hx : x ∈ recs) (hn : x.variant.name = some n)
    (hb : x.bodies ≠ []) : N n ↔ ∃ b ∈ x.bodies, Body.Holds N b := by
  obtain ⟨b₀, hb₀⟩ := List.exists_mem_of_ne_nil _ hb
  rw [hN.supported n ⟨b₀, Reached.mem_rulesOf.mpr ⟨x, hx, hn, hb₀⟩⟩]
  constructor
  · rintro ⟨b, hmem, hholds⟩
    obtain ⟨y, hy, hyn, hyb⟩ := Reached.mem_rulesOf.mp hmem
    obtain rfl := h.eq_of_name_of_plain hplain hy hx hyn hn
    exact ⟨b, hyb, hholds⟩
  · rintro ⟨b, hmem, hholds⟩
    exact ⟨b, Reached.mem_rulesOf.mpr ⟨x, hx, hn, hmem⟩, hholds⟩

theorem bounds_of_open (hM : IsLeastModel (given.rules.under s) M) (hN : Follows given recs s N)
    (hx : x ∈ recs) (hc : given.rules.contains x.atom = false)
    (hv : x.variant = ⟨some x.atom, []⟩) : Bounds (given.rules.under s) M N x := by
  have hopen : M x.atom ↔ s x.atom := by
    rw [hM, ← derives_avoiding_nil, RuleBase.derives_open hc]
  constructor
  · intro n hn hNn
    obtain rfl : x.atom = n := by simpa [hv] using hn
    exact hopen.mpr ((hN.openAtoms x hx hc).mp hNn)
  · intro hd
    refine ⟨x.atom, by rw [hv], (hN.openAtoms x hx hc).mpr ?_⟩
    exact (RuleBase.derives_open hc).mp hd

/-- The variant that answers a literal where nothing is pending is recorded. -/
theorem Answers.exists_record {inner : List Atom} {l : Literal} {v : Variant}
    (h : Answers recs [] inner l v) :
    ∃ y ∈ recs, y.atom = l.atom ∧ y.variant = v ∧ v.cuts ⊆ inner ∧
      (l.positive = false → v.cuts = []) := by
  have hsub := h.cuts_subset
  rcases h with ⟨y, hy, ha, hv, hc⟩ | ⟨hp, -⟩
  · refine ⟨y, hy, ha, hv, hsub, fun hl => ?_⟩
    simpa [hl] using hc
  · simp at hp

/-- A literal is true if the copy of it is. -/
theorem holds_of_copy (hy : Bounds (given.rules.under s) M N y)
    (hM : IsLeastModel (given.rules.under s) M) {l : Literal} (ha : y.atom = l.atom)
    (hc : l.positive = false → y.variant.cuts = [])
    (h : ∀ m, y.variant.name = some m → (l.withAtom m).Holds N)
    (hne : l.positive = true → y.variant.name ≠ none) : l.Holds M := by
  cases hp : l.positive with
  | true =>
    obtain ⟨m, hm⟩ := Option.ne_none_iff_exists'.mp (hne hp)
    rw [Literal.holds_of_positive hp, ← ha]
    exact hy.upper m hm ((Literal.holds_of_positive (l := l.withAtom m) hp).mp (h m hm))
  | false =>
    rw [Literal.holds_of_negative hp, ← ha, hM]
    intro hd
    obtain ⟨m, hm, hN⟩ := hy.lower (by rwa [hc hp, derives_avoiding_nil])
    exact (Literal.holds_of_negative (l := l.withAtom m) hp).mp (h m hm) hN

/-- The names in a copy of a body are plain. -/
theorem Copies.plain (h : Valid given [] recs) (hplain : ∀ a ∈ given.rules.atoms, a.Plain)
    (hsub : recs' ⊆ recs) {inner cuts : List Atom} {b body : Body}
    (hcopy : Copies (Answers recs' [] inner) b body cuts) (hb : b ∈ given.rules.bodies a) :
    ∀ k ∈ body, k.atom.Plain := by
  intro k hk
  obtain ⟨l, hl, v, hv, hres, -⟩ := hcopy.source k hk
  obtain ⟨m, hm, rfl⟩ := resolve_eq_variant.mp hres
  obtain ⟨y, hy, hya, rfl, -⟩ := hv.exists_record
  exact h.plain_of_name (hsub hy) (hplain _ (hya ▸ RuleBase.mem_atoms_of_mem_bodies hb hl)) hm

theorem upper_of_left (h : Valid given [] recs) (hplain : ∀ a ∈ given.rules.atoms, a.Plain)
    (hM : IsLeastModel (given.rules.under s) M) (hN : Follows given recs s N) (hsub : recs' ⊆ recs)
    (ih : ∀ y ∈ recs', Bounds (given.rules.under s) M N y) (hx : x ∈ recs)
    (hb : x.bodies ≠ []) {A cuts : List Atom}
    (hleft : Left (Answers recs' [] (Ascending.insert x.atom A)) A (given.rules.bodies x.atom)
      x.bodies cuts)
    (hn : x.variant.name = some n) (hNn : N n) : M x.atom := by
  obtain ⟨body, hbody, hholds⟩ := (hN.iff_bodies h hplain hx hn hb).mp hNn
  obtain ⟨b, hbmem, -, c, -, hcopy⟩ := hleft.exists_source hbody
  refine hM.of_body (.inl hbmem) fun l hl => ?_
  obtain ⟨v, hv, hres⟩ := hcopy.target l hl
  obtain ⟨y, hy, hya, rfl, -, hneg⟩ := hv.exists_record
  refine holds_of_copy (ih y hy) hM hya hneg (fun m hm => ?_) fun hp hnone => ?_
  · rcases hres with hvac | ⟨k, hk, k', hk', hcmp⟩
    · rw [(resolve_eq_vacuous.mp hvac).1] at hm
      cases hm
    · obtain ⟨m', hm', rfl⟩ := resolve_eq_variant.mp hk
      obtain rfl : m = m' := Option.some.inj (hm.symm.trans hm')
      have hlatom := RuleBase.mem_atoms_of_mem_bodies hbmem hl
      have hplainm := h.plain_of_name (hsub hy) (hplain _ (hya ▸ hlatom)) hm
      rw [Literal.eq_of_compare (fun _ => hplainm)
        (fun _ => hcopy.plain h hplain hsub hbmem k' hk') hcmp]
      exact hholds k' hk'
  · rcases hres with hvac | ⟨k, hk, -⟩
    · rw [(resolve_eq_vacuous.mp hvac).2] at hp
      cases hp
    · obtain ⟨m, hm, -⟩ := resolve_eq_variant.mp hk
      rw [hnone] at hm
      cases hm

/-- A derivation without the cuts uses a body that was not cut for an ancestor. What its literals
are derived from does without the cuts of the older variants. -/
theorem exists_body_of_derives (hc : given.rules.contains x.atom = true) {A cuts : List Atom}
    (hcuts : x.variant.cuts = Ascending.remove x.atom cuts)
    (hleft : Left (Answers recs' [] (Ascending.insert x.atom A)) A (given.rules.bodies x.atom)
      x.bodies cuts)
    (hd : Derives ((given.rules.under s).avoiding x.variant.cuts) M x.atom) :
    ∃ b, (∀ l ∈ b, l.positive = false → ¬ M l.atom) ∧
      (∀ l ∈ b, l.positive = true → ∀ C ⊆ cuts,
        Derives ((given.rules.under s).avoiding C) M l.atom) ∧
      ((∃ l ∈ b, ∃ v, Answers recs' [] (Ascending.insert x.atom A) l v ∧
          v.resolve l = .eliminated ∧ v.cuts ⊆ cuts) ∨
        ∃ body ∈ x.bodies, ∃ c ⊆ cuts, Copies (Answers recs' [] (Ascending.insert x.atom A)) b
          body c) := by
  obtain ⟨b, hb | ⟨hc', -⟩, hneg, hpos⟩ := hd.loopFree
  swap
  · rw [hc] at hc'
    cases hc'
  have hcut : cuts ⊆ x.atom :: x.variant.cuts := fun c hmem => by
    by_cases hca : c = x.atom
    · simp [hca]
    · rw [hcuts]
      exact List.mem_cons_of_mem _ (Ascending.mem_remove.mpr ⟨hmem, hca⟩)
  refine ⟨b, hneg, fun l hl hp C hC =>
    (hpos l hl hp).2.avoiding_mono (List.Subset.trans hC hcut), ?_⟩
  rcases hleft.accounted hb with ⟨c, hc, hmem⟩ | hrest
  · -- a body that was cut needs an atom that the derivation does without
    exact absurd (hcut hmem) (hpos _ (mem_closedLoops.mp hc).2 rfl).1
  · exact hrest

/-- A derivation without the cuts uses a body that was copied, and its copy is true. -/
theorem lower_of_left (h : Valid given [] recs) (hplain : ∀ a ∈ given.rules.atoms, a.Plain)
    (hN : Follows given recs s N) (ih : ∀ y ∈ recs', Bounds (given.rules.under s) M N y)
    (hx : x ∈ recs) (hc : given.rules.contains x.atom = true)
    (hnone : x.variant.name = none ↔ x.bodies = []) {A cuts : List Atom}
    (hcuts : x.variant.cuts = Ascending.remove x.atom cuts)
    (hleft : Left (Answers recs' [] (Ascending.insert x.atom A)) A (given.rules.bodies x.atom)
      x.bodies cuts)
    (hd : Derives ((given.rules.under s).avoiding x.variant.cuts) M x.atom) :
    ∃ n, x.variant.name = some n ∧ N n := by
  obtain ⟨b, hneg, hpos, hrest⟩ := exists_body_of_derives hc hcuts hleft hd
  have hder : ∀ l ∈ b, l.positive = true → ∀ y ∈ recs', y.atom = l.atom → y.variant.cuts ⊆ cuts →
      ∃ m, y.variant.name = some m ∧ N m := fun l hl hp y hy hya hsub =>
    (ih y hy).lower (hya ▸ hpos l hl hp _ hsub)
  rcases hrest with ⟨l, hl, v, hv, he, hsub⟩ | ⟨body, hbody, c, hsub, hcopy⟩
  · -- a literal that was lost has no derivation
    obtain ⟨y, hy, hya, rfl, -⟩ := hv.exists_record
    obtain ⟨hn, hp⟩ := resolve_eq_eliminated.mp he
    obtain ⟨m, hm, -⟩ := hder l hl hp y hy hya hsub
    rw [hn] at hm
    cases hm
  · have hne : x.variant.name ≠ none := fun hn => by
      rw [hnone.mp hn] at hbody
      simp at hbody
    obtain ⟨n, hn⟩ := Option.ne_none_iff_exists'.mp hne
    refine ⟨n, hn, (hN.iff_bodies h hplain hx hn (List.ne_nil_of_mem hbody)).mpr ⟨body, hbody, ?_⟩⟩
    intro k hk
    obtain ⟨l, hl, v, hv, hres, hvc⟩ := hcopy.source k hk
    obtain ⟨m, hm, rfl⟩ := resolve_eq_variant.mp hres
    obtain ⟨y, hy, hya, rfl, -⟩ := hv.exists_record
    cases hp : l.positive with
    | true =>
      obtain ⟨m', hm', hNm⟩ := hder l hl hp y hy hya (List.Subset.trans hvc hsub)
      obtain rfl : m = m' := Option.some.inj (hm.symm.trans hm')
      exact (Literal.holds_of_positive (l := l.withAtom m) hp).mpr hNm
    | false =>
      refine (Literal.holds_of_negative (l := l.withAtom m) hp).mpr fun hNm => hneg l hl hp ?_
      rw [← hya]
      exact (ih y hy).upper m hm hNm

/-- **The bounds of variants.** Every variant is implied by the derivations of its atom that
do without its cuts, and implies the atom. -/
theorem Valid.bounds (h : Valid given [] recs) (hplain : ∀ a ∈ given.rules.atoms, a.Plain)
    (hM : IsLeastModel (given.rules.under s) M) (hN : Follows given recs s N) :
    ∀ x ∈ recs, Bounds (given.rules.under s) M N x := by
  suffices hsuf : ∀ recs', recs' <:+ recs → ∀ x ∈ recs', Bounds (given.rules.under s) M N x from
    hsuf recs List.suffix_rfl
  intro recs' hsuf
  induction recs' with
  | nil => simp
  | cons y recs' ih =>
    have ih := ih ((List.suffix_cons y recs').trans hsuf)
    intro x hx
    rcases List.mem_cons.mp hx with rfl | hx
    · have hj := h.of_suffix hsuf
      have hmem : x ∈ recs := hsuf.subset List.mem_cons_self
      have hsub : recs' ⊆ recs := fun y hy => hsuf.subset (List.mem_cons_of_mem _ hy)
      rcases hj.origin with ⟨hc, hv, -⟩ | ⟨hc, hnone, A, cuts, hcuts, hleft⟩
      · exact bounds_of_open hM hN hmem hc hv
      · refine ⟨fun n hn => ?_, lower_of_left h hplain hN ih hmem hc hnone hcuts hleft⟩
        have hb : x.bodies ≠ [] := fun hb => by
          rw [hnone.mpr hb] at hn
          cases hn
        exact upper_of_left h hplain hM hN hsub ih hmem hb hleft hn
    · exact ih x hx

/-- A variant without cuts is equivalent to its atom. -/
theorem Bounds.iff_of_cuts (hb : Bounds (given.rules.under s) M N x)
    (hM : IsLeastModel (given.rules.under s) M) (hc : x.variant.cuts = []) :
    M x.atom ↔ ∃ n, x.variant.name = some n ∧ N n := by
  constructor
  · intro hm
    exact hb.lower (by rwa [hc, derives_avoiding_nil, ← hM])
  · rintro ⟨n, hn, hNn⟩
    exact hb.upper n hn hNn

end Bounds

/-! ### The models of unrolled rules -/

/-- A model of unrolled rules under an assignment of the atoms without given rules: a head is
true exactly if a body is, what was found false is false, and where there are no rules at all
the assignment holds. -/
structure Unlooped.IsModel (u : Unlooped α) (rules : RuleBase) (s N : Interpretation) : Prop where
  supported : IsSupported u.program.rules.toRules (fun a => u.program.rules.contains a = true) N
  falsified : ∀ a ∈ u.falsified, ¬ N a
  openAtoms : ∀ a, rules.contains a = false → u.program.rules.contains a = false → (N a ↔ s a)

/-- The atom is a head, or in a body. -/
def RuleBase.Mentions (r : RuleBase) (a : Atom) : Prop :=
  r.contains a = true ∨ ∃ h, r.toRules.Depends h a

namespace Reached

variable {s N : Interpretation}

theorem pending_eq_nil (hr : Reached given recs st) (hs : given.rules.toRules.Stratified) :
    st.pending = [] :=
  List.eq_nil_iff_forall_not_mem.mpr fun a ha => hs a (hr.negationLoopsAt_of_pending a ha)

/-- **Unrolled rules have no loops.** Where nothing is pending, names are used by later
records only, also in negative literals. -/
theorem wellFounded_depends (hr : Reached given recs st) (hp : st.pending = []) :
    WellFounded fun m n => st.built.rules.toRules.Depends n m := by
  have hsettled : ∀ m n, st.built.rules.toRules.Depends n m ↔ SettledUse st m n := fun m n => by
    simp [SettledUse, hp]
  refine ⟨fun n => ⟨n, fun m hm => ?_⟩⟩
  obtain ⟨p, hu⟩ := hm
  obtain ⟨x, hx, hn, ha, -⟩ := hr.exists_of_uses hu
  simp only [hsettled]
  exact (hr.acc_settledUse List.suffix_rfl hx ha hn).inv ((hsettled m n).mp ⟨p, hu⟩)

theorem stratified_built (hr : Reached given recs st) (hp : st.pending = []) :
    st.built.rules.toRules.Stratified := by
  rintro n ⟨c, d, hnc, hu, hdn⟩
  have hloop : TransGen st.built.rules.toRules.Depends n n :=
    (TransGen.tail' hnc hu.depends).trans_left hdn
  have hswap : TransGen (fun m n => st.built.rules.toRules.Depends n m) n n :=
    transGen_swap.mpr hloop
  exact not_rel_of_acc ((hr.wellFounded_depends hp).transGen.apply n) hswap

theorem contains_built (hr : Reached given recs st) {a : Atom} :
    st.built.rules.contains a = true ↔ ∃ x ∈ recs, x.variant.name = some a ∧ x.bodies ≠ [] := by
  rw [hr.rules_built, RuleBase.contains_ofRules]
  constructor
  · rintro ⟨b, hb⟩
    obtain ⟨x, hx, hn, hb⟩ := mem_rulesOf.mp hb
    exact ⟨x, hx, hn, List.ne_nil_of_mem hb⟩
  · rintro ⟨x, hx, hn, hne⟩
    obtain ⟨b, hb⟩ := List.exists_mem_of_ne_nil _ hne
    exact ⟨b, mem_rulesOf.mpr ⟨x, hx, hn, hb⟩⟩

theorem plain_rulesOf (hr : Reached given recs st) (hp : st.pending = [])
    (hplain : ∀ a ∈ given.rules.atoms, a.Plain) :
    ∀ e ∈ rulesOf recs, e.1.Plain ∧ ∀ l ∈ e.2, l.atom.Plain := by
  rintro ⟨n, b⟩ he
  obtain ⟨x, hx, hn, hb⟩ := mem_rulesOf.mp he
  have hvalid := hp ▸ hr.valid
  have ha := hvalid.mem_atoms_of_bodies hx (List.ne_nil_of_mem hb)
  refine ⟨hvalid.plain_of_name hx (hplain _ ha) hn, ?_⟩
  obtain ⟨recs', hsub, hj⟩ := hvalid.exists_justified hx
  rcases hj.origin with ⟨-, -, hnil, -⟩ | ⟨-, -, A, cuts, -, hleft⟩
  · rw [hnil] at hb
    simp at hb
  · obtain ⟨b', hb', -, c, -, hcopy⟩ := hleft.exists_source hb
    exact hcopy.plain hvalid hplain hsub hb'

/-- Supporting the built rules is supporting those of the records. -/
theorem supported_built_iff (hr : Reached given recs st) (hp : st.pending = [])
    (hplain : ∀ a ∈ given.rules.atoms, a.Plain) :
    IsSupported st.built.rules.toRules (fun a => st.built.rules.contains a = true) N ↔
      IsSupported (fun a b => (a, b) ∈ rulesOf recs) (fun a => ∃ b, (a, b) ∈ rulesOf recs) N := by
  rw [hr.rules_built]
  exact (RuleBase.supported_iff (hr.plain_rulesOf hp hplain) N).symm

/-- An open atom that is recorded has no rules. -/
theorem contains_built_of_open (hr : Reached given recs st)
    (hplain : ∀ a ∈ given.rules.atoms, a.Plain) (hx : x ∈ recs)
    (hc : given.rules.contains x.atom = false) : st.built.rules.contains x.atom = false := by
  rw [Bool.eq_false_iff]
  intro hcontains
  obtain ⟨y, hy, hyn, hb⟩ := hr.contains_built.mp hcontains
  obtain ⟨recs', -, hj⟩ := hr.valid.exists_justified hx
  rcases hj.origin with ⟨-, hv, hnil, -⟩ | ⟨hc', -⟩
  · obtain rfl := hr.valid.eq_of_name_of_plain hplain hy hx hyn (by rw [hv])
    exact hb hnil
  · rw [hc] at hc'
    cases hc'

theorem follows_of_isModel (hr : Reached given recs st) (hp : st.pending = [])
    (hplain : ∀ a ∈ given.rules.atoms, a.Plain) {evidence : List Literal}
    (hN : (st.finish evidence).IsModel given.rules s N) : Follows given recs s N where
  supported := (hr.supported_built_iff hp hplain).mp hN.supported
  openAtoms x hx hc := hN.openAtoms x.atom hc (hr.contains_built_of_open hplain hx hc)

theorem mem_falsified (hr : Reached given recs st) (hp : st.pending = [])
    {evidence : List Literal} (ha : a ∈ (st.finish evidence).falsified) :
    ∃ x ∈ recs, x.atom = a ∧ x.variant = ⟨none, []⟩ := by
  have ha : a ∈ Ascending.union st.falsified
      (st.pending.filter fun a => !st.built.rules.contains a) := ha
  rw [hp] at ha
  exact hr.exists_of_falsified a ((Ascending.mem_union.mp ha).resolve_right (by simp))

/-- An atom that has no derivation has no rules either. -/
theorem contains_of_eliminated (hr : Reached given recs st) (hx : x ∈ recs)
    (hv : x.variant = ⟨none, []⟩) :
    given.rules.contains x.atom = true ∧ st.built.rules.contains x.atom = false := by
  obtain ⟨recs', -, hj⟩ := hr.valid.exists_justified hx
  have hc : given.rules.contains x.atom = true := by
    rcases hj.origin with ⟨-, hv', -⟩ | ⟨hc, -⟩
    · rw [hv] at hv'
      cases hv'
    · exact hc
  refine ⟨hc, ?_⟩
  rw [Bool.eq_false_iff]
  intro hcontains
  obtain ⟨y, hy, hyn, -⟩ := hr.contains_built.mp hcontains
  rcases hr.valid.name_cases hy hyn with ⟨hyc, hya⟩ | ⟨-, -, hfresh⟩
  · obtain rfl := hr.valid.eq_of_cuts hx hy hya (by rw [hyc, hv])
    rw [hv] at hyn
    cases hyn
  · exact hfresh (mem_taken_of_mem_atoms (RuleBase.mem_atoms_of_contains hc))

/-- Unrolled rules have a model: their least one. -/
theorem exists_isModel (hr : Reached given recs st) (hp : st.pending = [])
    (evidence : List Literal) (s : Interpretation) :
    ∃ N, (st.finish evidence).IsModel given.rules s N := by
  let s' : Interpretation := fun a => given.rules.contains a = false ∧ s a
  have hN := isLeastModel_leastModel (RuleBase.headsIn_under s')
    (RuleBase.stratified_under s' (hr.stratified_built hp))
  have hopen : ∀ a, st.built.rules.contains a = false →
      (leastModel (st.built.rules.under s') a ↔ s' a) := fun a hc => by
    rw [hN, ← derives_avoiding_nil, RuleBase.derives_open hc]
  refine ⟨leastModel (st.built.rules.under s'), fun a ha => ⟨fun hm => ?_, ?_⟩, fun a ha => ?_,
    fun a hc hc' => ?_⟩
  · obtain ⟨b, hb | ⟨hc, -⟩, hholds⟩ := hN.exists_body hm
    · exact ⟨b, hb, hholds⟩
    · exact absurd (hc.symm.trans ha) Bool.false_ne_true
  · rintro ⟨b, hb, hholds⟩
    exact hN.of_body (.inl hb) hholds
  · obtain ⟨x, hx, rfl, hv⟩ := hr.mem_falsified hp ha
    obtain ⟨hc, hc'⟩ := hr.contains_of_eliminated hx hv
    rw [hopen _ hc']
    simp [s', hc]
  · rw [hopen a hc']
    simp [s', hc]

/-- A mentioned name is the name of a record of a given atom. -/
theorem exists_of_mentions (hr : Reached given recs st) (hp : st.pending = [])
    (h : st.built.rules.Mentions n) :
    ∃ x ∈ recs, x.variant.name = some n ∧ x.atom ∈ given.rules.atoms := by
  rcases h with hc | ⟨m, hu⟩
  · obtain ⟨x, hx, hn, hb⟩ := hr.contains_built.mp hc
    exact ⟨x, hx, hn, hr.valid.mem_atoms_of_bodies hx hb⟩
  · obtain ⟨c, hc, ⟨y, hy, rfl, hyn⟩ | ⟨-, hpend⟩⟩ := hr.exists_stands hu
    · exact ⟨y, hy, hyn, hc⟩
    · rw [hp] at hpend
      simp at hpend

end Reached

/-- **Breaking loops keeps the least model.** Let rules with plain names have no loop through
negation, and let seeds be resolved. Under any assignment of the open atoms, the unrolled
rules have a model, and in each model of theirs an atom that they mention under its own name
is as true as in the least model of the given rules, a variant of an atom implies it, and one
with the atom's name is equivalent to it. What was found false is false in the least model. -/
theorem leastModel_finish (given : WeightedRules α) (seeds evidence : List Literal)
    (s : Interpretation) (hplain : ∀ a ∈ given.rules.atoms, a.Plain)
    (hs : given.rules.toRules.Stratified) {st : Unrolling α}
    (h : (resolveSeeds given seeds).runOn (.start given) = (.ok (), st)) :
    IsLeastModel (given.rules.under s) (leastModel (given.rules.under s)) ∧
    (∃ N, (st.finish evidence).IsModel given.rules s N) ∧
    ∀ N, (st.finish evidence).IsModel given.rules s N →
      (∀ a ∈ given.rules.atoms, (st.finish evidence).program.rules.Mentions a →
        (N a ↔ leastModel (given.rules.under s) a)) ∧
      (∀ a, ∀ v ∈ st.variantsOf a, ∀ n, v.name = some n →
        (N n → leastModel (given.rules.under s) a) ∧
        (n = a → (N a ↔ leastModel (given.rules.under s) a))) ∧
      ∀ a ∈ (st.finish evidence).falsified, ¬ leastModel (given.rules.under s) a := by
  obtain ⟨recs, hr, -⟩ := exists_reached_of_resolveSeeds h
  have hp := hr.pending_eq_nil hs
  have hM := isLeastModel_leastModel (RuleBase.headsIn_under s) (RuleBase.stratified_under s hs)
  refine ⟨hM, hr.exists_isModel hp evidence s, fun N hN => ?_⟩
  have hbounds := (hp ▸ hr.valid).bounds hplain hM (hr.follows_of_isModel hp hplain hN)
  have hown : ∀ x ∈ recs, x.variant.name = some x.atom →
      (N x.atom ↔ leastModel (given.rules.under s) x.atom) := by
    intro x hx hn
    have hcuts : x.variant.cuts = [] := by
      rcases hr.valid.name_cases hx hn with ⟨hc, -⟩ | ⟨-, ⟨t, ht⟩, -⟩
      · exact hc
      · exact absurd ht (x.atom.ne_suffixed t)
    rw [(hbounds x hx).iff_of_cuts hM hcuts, hn]
    simp
  refine ⟨fun a ha hm => ?_, fun a v hv n hn => ?_, fun a ha => ?_⟩
  · obtain ⟨x, hx, hn, -⟩ := hr.exists_of_mentions hp hm
    rcases hr.valid.name_cases hx hn with ⟨-, rfl⟩ | ⟨-, -, hfresh⟩
    · exact hown x hx hn
    · exact absurd (mem_taken_of_mem_atoms ha) hfresh
  · obtain ⟨x, hx, rfl, rfl⟩ := hr.mem_variantsOf.mp hv
    refine ⟨(hbounds x hx).upper n hn, ?_⟩
    rintro rfl
    exact hown x hx hn
  · obtain ⟨x, hx, rfl, hv⟩ := hr.mem_falsified hp ha
    rw [(hbounds x hx).iff_of_cuts hM (by rw [hv]), hv]
    simp

theorem RuleBase.stratified_ofRules {rs : List (Atom × List Literal)} (level : Atom → Nat)
    (h : ∀ e ∈ rs, ∀ l ∈ e.2, level l.atom + (if l.positive then 0 else 1) ≤ level e.1) :
    (ofRules rs).toRules.Stratified := by
  refine Rules.stratified_of_level level fun a b hb l hl => ?_
  obtain ⟨b', hb', hsub⟩ := exists_rule_of_mem_bodies rs hb
  exact h _ hb' l (hsub hl)

/-- Two atoms that support each other, each with a support of its own, and an atom that needs
one of them to be false. -/
def crossSupport : WeightedRules Nat where
  rules := .ofRules [(⟨"a"⟩, [.pos ⟨"b"⟩]), (⟨"a"⟩, [.pos ⟨"f"⟩]), (⟨"b"⟩, [.pos ⟨"a"⟩]),
    (⟨"b"⟩, [.pos ⟨"e"⟩]), (⟨"d"⟩, [.neg ⟨"a"⟩])]
  weights := ⟨[(.neg ⟨"a"⟩, 1), (.neg ⟨"b"⟩, 1), (.neg ⟨"d"⟩, 1), (.neg ⟨"e"⟩, 1), (.neg ⟨"f"⟩, 1),
    (.pos ⟨"a"⟩, 1), (.pos ⟨"b"⟩, 1), (.pos ⟨"d"⟩, 1), (.pos ⟨"e"⟩, 1), (.pos ⟨"f"⟩, 1)]⟩

/-- The variant of `b` that is used for `a` implies `b`, and `a` and `d` keep their truth. -/
theorem leastModel_finish_crossSupport :
    ∃ st, (resolveSeeds crossSupport [.pos ⟨"a"⟩, .neg ⟨"d"⟩]).runOn (.start crossSupport) =
        (.ok (), st) ∧
      st.variantsOf ⟨"b"⟩ = [⟨some ⟨"b_0"⟩, [⟨"a"⟩]⟩] ∧
      ∀ s N, (st.finish []).IsModel crossSupport.rules s N →
        (N ⟨"b_0"⟩ → leastModel (crossSupport.rules.under s) ⟨"b"⟩) ∧
        (N ⟨"a"⟩ ↔ leastModel (crossSupport.rules.under s) ⟨"a"⟩) ∧
        (N ⟨"d"⟩ ↔ leastModel (crossSupport.rules.under s) ⟨"d"⟩) := by
  have hplain : ∀ a ∈ crossSupport.rules.atoms, a.Plain := by decide +kernel
  have hs : crossSupport.rules.toRules.Stratified :=
    RuleBase.stratified_ofRules (fun a => if a = ⟨"d"⟩ then 1 else 0) (by decide)
  have hrun : (resolveSeeds crossSupport [.pos ⟨"a"⟩, .neg ⟨"d"⟩]).runOn (.start crossSupport) =
      (.ok (), ((resolveSeeds crossSupport [.pos ⟨"a"⟩, .neg ⟨"d"⟩]).runOn
        (.start crossSupport)).2) :=
    Prod.ext (by decide +kernel) rfl
  refine ⟨_, hrun, by decide +kernel, fun s N hN => ?_⟩
  obtain ⟨-, -, hmodels⟩ := leastModel_finish crossSupport _ [] s hplain hs hrun
  obtain ⟨-, hvariants, -⟩ := hmodels N hN
  refine ⟨?_, ?_, ?_⟩
  · exact (hvariants ⟨"b"⟩ ⟨some ⟨"b_0"⟩, [⟨"a"⟩]⟩ (by decide +kernel) _ rfl).1
  · exact (hvariants ⟨"a"⟩ ⟨some ⟨"a"⟩, []⟩ (by decide +kernel) _ rfl).2 rfl
  · exact (hvariants ⟨"d"⟩ ⟨some ⟨"d"⟩, []⟩ (by decide +kernel) _ rfl).2 rfl

end ProbLogic
