/-
# What is eliminated

Whether a body survives depends on the ancestors, on the variants that are
found in the store and on the order of its literals. Whether an atom survives
below no ancestors does not: it does exactly if it could be true at all, with
all open atoms true and the negative literals left out (`Supportable`).

A variant that survives has a body with all literals alive, so its atom is
supportable (`Valid.supportable_of_name`). Conversely a variant without a name
lacks the derivations that do without its cuts (`Valid.name_of_derives`): such
a derivation uses a body that was not cut, hence one that was copied, since by
induction none of its literals was lost. A seed has no cuts.

Key definitions: `RuleBase.Supportable`.
Key theorems: `supportable_iff_derives`, `Valid.supportable_of_name`, `Valid.name_of_derives`,
`resolveSeed_eliminates_iff`.
-/
import ProbLogic.Proofs.Unrolling.Seeds

namespace ProbLogic

open Rules UnrollM

variable {α : Type} {given : WeightedRules α} {recs : List Record}

namespace RuleBase

variable {r : RuleBase} {a : Atom}

/-- The least set of atoms that has every atom without rules and is closed under the rules
without their negative literals. -/
inductive Supportable (r : RuleBase) : Atom → Prop
  | openAtom {a : Atom} (h : r.contains a = false) : Supportable r a
  | rule {a : Atom} {b : Body} (hb : b ∈ r.bodies a)
      (pos : ∀ l ∈ b, l.positive = true → Supportable r l.atom) : Supportable r a

/-- An atom is supportable exactly if it is derived where all open atoms are true and nothing is
in the way of the negative literals. -/
theorem supportable_iff_derives :
    r.Supportable a ↔ Derives (r.under fun _ => True) (fun _ => False) a := by
  constructor
  · intro h
    induction h with
    | openAtom hc => exact .rule (.inr ⟨hc, trivial, rfl⟩) (by simp) (by simp)
    | rule hb _ ih => exact .rule (.inl hb) ih fun _ _ _ => id
  · intro h
    induction h with
    | rule hb _ _ ih =>
      rcases hb with hb | ⟨hc, -⟩
      · exact .rule hb ih
      · exact .openAtom hc

end RuleBase

/-! ### Variants that survive and variants that do not -/

/-- A variant with a name is one of a supportable atom. -/
theorem Valid.supportable_of_name (h : Valid given [] recs) :
    ∀ x ∈ recs, x.variant.name ≠ none → given.rules.Supportable x.atom := by
  induction h with
  | nil => simp
  | @cons y recs hy _ ih =>
    intro x hx hname
    rcases List.mem_cons.mp hx with rfl | hx
    swap
    · exact ih x hx hname
    rcases hy.origin with ⟨hc, -⟩ | ⟨-, hnone, A, cuts, -, hleft⟩
    · exact .openAtom hc
    · obtain ⟨body, hbody⟩ := List.exists_mem_of_ne_nil _ (mt hnone.mpr hname)
      obtain ⟨b, hb, -, c, -, hcopy⟩ := hleft.exists_source hbody
      refine .rule hb fun l hl hp => ?_
      obtain ⟨v, hv, hres⟩ := hcopy.target l hl
      obtain ⟨z, hz, hza, rfl, -⟩ := hv.exists_record
      rw [← hza]
      refine ih z hz fun hn => ?_
      rcases hres with hvac | ⟨k, hk, -⟩
      · rw [(resolve_eq_vacuous.mp hvac).2] at hp
        cases hp
      · obtain ⟨m, hm, -⟩ := resolve_eq_variant.mp hk
        rw [hn] at hm
        cases hm

/-- A variant of an atom that is derived without the cuts has a name, whatever the open atoms
and the negative literals are. -/
theorem Valid.name_of_derives {s M : Interpretation} (h : Valid given [] recs) :
    ∀ x ∈ recs, Derives ((given.rules.under s).avoiding x.variant.cuts) M x.atom →
      x.variant.name ≠ none := by
  induction h with
  | nil => simp
  | @cons y recs hy _ ih =>
    intro x hx hd
    rcases List.mem_cons.mp hx with rfl | hx
    swap
    · exact ih x hx hd
    rcases hy.origin with ⟨-, hv, -⟩ | ⟨hc, hnone, A, cuts, hcuts, hleft⟩
    · simp [hv]
    · obtain ⟨b, -, hpos, ⟨l, hl, v, hv, he, hsub⟩ | ⟨body, hbody, -⟩⟩ :=
        exists_body_of_derives hc hcuts hleft hd
      · -- the literal that was lost is derived without the cuts of its variant
        obtain ⟨z, hz, hza, rfl, -⟩ := hv.exists_record
        obtain ⟨hn, hp⟩ := resolve_eq_eliminated.mp he
        exact absurd hn (ih z hz (hza ▸ hpos l hl hp _ hsub))
      · exact mt hnone.mp (List.ne_nil_of_mem hbody)

/-- A variant without cuts has a name exactly if its atom is supportable. -/
theorem Valid.name_iff_supportable (h : Valid given [] recs) {x : Record} (hx : x ∈ recs)
    (hc : x.variant.cuts = []) : x.variant.name ≠ none ↔ given.rules.Supportable x.atom := by
  refine ⟨h.supportable_of_name x hx, fun hs => ?_⟩
  have hd := derives_avoiding_nil.mpr (RuleBase.supportable_iff_derives.mp hs)
  rw [← hc] at hd
  exact h.name_of_derives x hx hd

/-! ### Seeds -/

/-- **Elimination is exact.** Let rules have no loop through negation. After any seeds, also ones
that have stopped, a seed that is resolved is eliminated, or vacuous, exactly if its atom is not
supportable. In this case no variant of the atom that has been recorded has a name, below
whatever ancestors. -/
theorem resolveSeed_eliminates_iff (given : WeightedRules α)
    (hs : given.rules.toRules.Stratified) (seeds : List Literal) (l : Literal) (r : Resolved)
    (s : Unrolling α) (h : (resolveSeed given l).runOn (afterSeeds given seeds) = (.ok r, s)) :
    (r = .eliminated ∨ r = .vacuous ↔ ¬ given.rules.Supportable l.atom) ∧
    (r = .eliminated ∨ r = .vacuous → ∀ v ∈ s.variantsOf l.atom, v.name = none) := by
  obtain ⟨recs, hr, hout⟩ := exists_seedOutcome h
  have hp : s.pending = [] := hr.pending_eq_nil hs
  have hvalid : Valid given [] recs := hp ▸ hr.valid
  rcases hout with ⟨hnamed, rfl⟩ | ⟨hfalse, rfl⟩
  · obtain ⟨x, hx, ha, hv⟩ : ∃ x ∈ recs, x.atom = l.atom ∧ x.variant = ⟨some l.atom, []⟩ :=
      hnamed.resolve_right (by simp [hp])
    have hsup : given.rules.Supportable l.atom :=
      ha ▸ hvalid.supportable_of_name x hx (by simp [hv])
    simp [hsup]
  · obtain ⟨x, hx, ha, hv⟩ := hr.exists_of_falsified l.atom hfalse
    have hsup : ¬ given.rules.Supportable l.atom := by
      rw [← ha, ← hvalid.name_iff_supportable hx (by rw [hv]), hv]
      simp
    have hgone : (if l.positive then Resolved.eliminated else .vacuous) = .eliminated ∨
        (if l.positive then Resolved.eliminated else .vacuous) = .vacuous := by
      cases l.positive with
      | true => exact .inl rfl
      | false => exact .inr rfl
    refine ⟨iff_of_true hgone hsup, fun _ v hv => ?_⟩
    obtain ⟨y, hy, hya, rfl⟩ := hr.mem_variantsOf.mp hv
    by_contra hname
    exact hsup (hya ▸ hvalid.supportable_of_name y hy hname)

/-- Two atoms with no other support than each other, and an atom that needs one of them to be
false. The atom `m` has rules but no weights. -/
def emptySupport : WeightedRules Nat where
  rules := .ofRules [(⟨"a"⟩, [.pos ⟨"b"⟩]), (⟨"b"⟩, [.pos ⟨"a"⟩, .neg ⟨"g"⟩]),
    (⟨"c"⟩, [.neg ⟨"a"⟩, .pos ⟨"f"⟩]), (⟨"m"⟩, [.pos ⟨"c"⟩])]
  weights := ⟨[(.neg ⟨"c"⟩, 1), (.neg ⟨"f"⟩, 1), (.neg ⟨"g"⟩, 1), (.pos ⟨"c"⟩, 1), (.pos ⟨"f"⟩, 1),
    (.pos ⟨"g"⟩, 1)]⟩

/-- After a seed that has stopped for its weight, `b` is vacuous below negation and has no
surviving variant, though one of it has been built below `a`, and `c` survives. -/
theorem resolveSeed_eliminates_iff_emptySupport :
    ((resolveSeed emptySupport (.pos ⟨"m"⟩)).runOn (.start emptySupport)).1 =
        .error (.missingWeight (.pos ⟨"m"⟩)) ∧
      ((resolveSeed emptySupport (.neg ⟨"b"⟩)).runOn
        (afterSeeds emptySupport [.pos ⟨"m"⟩])).1 = .ok .vacuous ∧
      ¬ emptySupport.rules.Supportable ⟨"b"⟩ ∧
      (∀ v ∈ ((resolveSeed emptySupport (.neg ⟨"b"⟩)).runOn
        (afterSeeds emptySupport [.pos ⟨"m"⟩])).2.variantsOf ⟨"b"⟩, v.name = none) ∧
      ((resolveSeed emptySupport (.neg ⟨"c"⟩)).runOn
        (afterSeeds emptySupport [.pos ⟨"m"⟩])).1 = .ok (.variant (.neg ⟨"c"⟩)) ∧
      emptySupport.rules.Supportable ⟨"c"⟩ := by
  have hs : emptySupport.rules.toRules.Stratified :=
    RuleBase.stratified_ofRules
      (fun a => if a = ⟨"g"⟩ then 0 else if a = ⟨"a"⟩ ∨ a = ⟨"b"⟩ then 1 else 2) (by decide)
  have hb : ((resolveSeed emptySupport (.neg ⟨"b"⟩)).runOn
      (afterSeeds emptySupport [.pos ⟨"m"⟩])).1 = .ok .vacuous := by
    decide +kernel
  have hc : ((resolveSeed emptySupport (.neg ⟨"c"⟩)).runOn
      (afterSeeds emptySupport [.pos ⟨"m"⟩])).1 = .ok (.variant (.neg ⟨"c"⟩)) := by
    decide +kernel
  obtain ⟨hbiff, hgone⟩ := resolveSeed_eliminates_iff emptySupport hs [.pos ⟨"m"⟩] (.neg ⟨"b"⟩)
    .vacuous _ (Prod.ext hb rfl)
  obtain ⟨hciff, -⟩ := resolveSeed_eliminates_iff emptySupport hs [.pos ⟨"m"⟩] (.neg ⟨"c"⟩)
    (.variant (.neg ⟨"c"⟩)) _ (Prod.ext hc rfl)
  refine ⟨by decide +kernel, hb, hbiff.mp (.inr rfl), hgone (.inr rfl), hc, ?_⟩
  exact not_not.mp fun hn => by simpa using hciff.mpr hn

end ProbLogic
