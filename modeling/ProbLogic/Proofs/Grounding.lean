/-
# What grounding makes of the rules

A head is known by its place: the number of its rule and its own number in the
rule. Each place gives one normal rule, and since all of these have a choice
atom in their bodies, none of them is ever simplified: the bodies of an atom are
those of its places, in order (`stored_bodies_ofStatements`).

The choice atoms of all rules are different, because the numbers can be read off
the names. So a rule's clauses say that exactly one of its choice atoms is true
if the body holds, and none if it does not (`exactly_one_choice_ofStatements`).

The names of choice atoms are not kept from being used for heads. The negation
of a choice atom always weighs one. The atom itself weighs as its outcome does,
unless it is the head at the same or a later place, which sets its weight to
one; and it has rules if it is a head at all (`weights_choice_ofStatements`).

Key definitions: `IsHead`, `headPlaces`, `Body.IsSetOf`.
Key theorems: `mem_headPlaces`, `stored_bodies_ofStatements`,
`holds_ofBody_iff_existsUnique`, `exactly_one_choice_ofStatements`,
`Grounds.weight_pos_choiceAtom`, `weights_choice_ofStatements`.
-/
import ProbLogic.Proofs.Program

namespace ProbLogic

variable {α : Type} {rs : List (Rule α)} {p : Program α} {a : Atom}

/-! ### Places of heads -/

/-- The atom is the head number `i` of the rule number `r`. -/
def IsHead (rs : List (Rule α)) (r i : Nat) (a : Atom) : Prop :=
  ∃ rule c, rs[r]? = some rule ∧ rule.head[i]? = some c ∧ c.atom = a

/-- The places at which the atom is a head, in order. -/
def headPlaces (rs : List (Rule α)) (a : Atom) : List (Nat × Nat) :=
  rs.zipIdx.flatMap fun x =>
    (x.1.head.zipIdx.filter fun c => c.1.atom = a).map fun c => (x.2, c.2)

theorem mem_headPlaces {r i : Nat} : (r, i) ∈ headPlaces rs a ↔ IsHead rs r i a := by
  simp only [headPlaces, List.mem_flatMap, List.mem_map, List.mem_filter,
    List.mem_zipIdx_iff_getElem?, decide_eq_true_eq, Prod.mk.injEq]
  constructor
  · rintro ⟨⟨rule, _⟩, hrule, ⟨c, _⟩, ⟨hc, ha⟩, rfl, rfl⟩
    exact ⟨rule, c, hrule, hc, ha⟩
  · rintro ⟨rule, c, hrule, hc, ha⟩
    exact ⟨(rule, r), hrule, (c, i), ⟨hc, ha⟩, rfl, rfl⟩

instance (rs : List (Rule α)) (r i : Nat) (a : Atom) : Decidable (IsHead rs r i a) :=
  decidable_of_iff ((r, i) ∈ headPlaces rs a) mem_headPlaces

theorem pairwise_zipIdx {β : Type} (xs : List β) (k : Nat) :
    (xs.zipIdx k).Pairwise fun x y => x.2 < y.2 := by
  rw [← List.pairwise_map (R := (· < ·)), List.zipIdx_map_snd]
  exact List.pairwise_lt_range' 1

theorem pairwise_headPlaces (rs : List (Rule α)) (a : Atom) :
    (headPlaces rs a).Pairwise (Prod.Lex (· < ·) (· < ·)) := by
  rw [headPlaces, List.pairwise_flatMap]
  constructor
  · intro x _
    rw [List.pairwise_map]
    exact ((pairwise_zipIdx x.1.head 0).filter _).imp fun hlt => .right _ hlt
  · refine (pairwise_zipIdx rs 0).imp fun {x y} hlt u hu v hv => ?_
    obtain ⟨c, -, rfl⟩ := List.mem_map.mp hu
    obtain ⟨d, -, rfl⟩ := List.mem_map.mp hv
    exact .left _ _ hlt

/-! ### Stored bodies -/

/-- The body is the set of the literals, which are known by their texts: it is ascending, has
no other literals, and has one with the text of each. -/
structure Body.IsSetOf (b : Body) (ls : List Literal) : Prop where
  ascending : Ascending.IsAscending b
  subset : b ⊆ ls
  exists_text : ∀ l ∈ ls, ∃ k ∈ b, k.text = l.text

theorem Body.isSetOf_ofListLast (ls : List Literal) :
    Body.IsSetOf (Ascending.ofListLast ls) ls where
  ascending := Ascending.isAscending_ofListLast ls
  subset _ hl := Ascending.mem_of_mem_ofListLast hl
  exists_text l hl := by
    induction ls with
    | nil => cases hl
    | cons l' ls ih =>
      show ∃ k ∈ Ascending.insert l' (Ascending.ofListLast ls), k.text = l.text
      rcases List.mem_cons.mp hl with rfl | hl
      · obtain ⟨k, hk, hcompare⟩ := Ascending.exists_mem_insert l (Ascending.ofListLast ls)
        exact ⟨k, hk, (Literal.text_eq_of_compare hcompare).symm⟩
      · obtain ⟨k, hk, htext⟩ := ih hl
        exact ⟨k, Ascending.mem_insert_of_mem hk, htext⟩

theorem Grounds.contains_iff_isHead [Scalar α] (hp : Grounds rs p) :
    p.rules.contains a = true ↔ ∃ r i, IsHead rs r i a := by
  rw [hp.contains_iff]
  constructor
  · rintro ⟨r, c, hc, ha⟩
    obtain ⟨i, hi⟩ := List.mem_iff_getElem?.mp hc
    exact ⟨r, i, _, c, List.getElem?_eq_getElem r.2, hi, ha⟩
  · rintro ⟨r, i, rule, c, hrule, hc, ha⟩
    obtain ⟨hr, rfl⟩ := List.getElem?_eq_some_iff.mp hrule
    exact ⟨⟨r, hr⟩, c, List.mem_of_getElem? hc, ha⟩

/-- The normal rules of an atom are those of its places. -/
theorem filter_groundRules (rs : List (Rule α)) (a : Atom) :
    List.Forall₂ (fun x place => ∃ rule, rs[place.1]? = some rule ∧
        x.2 = .pos (Program.choiceAtom place.1 place.2) :: rule.body)
      ((rs.zipIdx.flatMap fun x => x.1.normalRules x.2).filter fun x => x.1 = a)
      (headPlaces rs a) := by
  have hrule : ∀ x ∈ rs.zipIdx, List.Forall₂ (fun y place => ∃ rule, rs[place.1]? = some rule ∧
        y.2 = .pos (Program.choiceAtom place.1 place.2) :: rule.body)
      ((x.1.normalRules x.2).filter fun y => y.1 = a)
      ((x.1.head.zipIdx.filter fun c => c.1.atom = a).map fun c => (x.2, c.2)) := by
    intro x hx
    rw [Rule.normalRules, List.filter_map, List.forall₂_map_left_iff, List.forall₂_map_right_iff]
    refine List.forall₂_same.mpr fun c _ => ⟨x.1, ?_, rfl⟩
    exact List.mem_zipIdx_iff_getElem?.mp hx
  rw [List.filter_flatMap, headPlaces]
  generalize rs.zipIdx = xs at hrule
  induction xs with
  | nil => exact .nil
  | cons x xs ih =>
    rw [List.flatMap_cons, List.flatMap_cons]
    exact List.rel_append (hrule x List.mem_cons_self)
      (ih fun y hy => hrule y (List.mem_cons_of_mem _ hy))

/-- The choice atom `choice_node_1_0` is a head before its own place, `choice_node_0_0` after it.
One body has a literal twice and its negation. -/
def contestedChoices : List (Statement Float) :=
  [.rule ⟨[⟨0.25, ⟨"a"⟩⟩, ⟨0.5, ⟨"choice_node_1_0"⟩⟩], [.pos ⟨"b"⟩, .neg ⟨"b"⟩, .pos ⟨"b"⟩]⟩,
    .query (.pos ⟨"a"⟩),
    .rule ⟨[⟨0.125, ⟨"choice_node_0_0"⟩⟩, ⟨0.5, ⟨"a"⟩⟩], [.pos ⟨"choice_node_0_1"⟩]⟩]

variable [Scalar α]

theorem exists_ofStatements (statements : List (Statement α)) (f : Program α → Bool)
    (h : (Program.ofStatements statements).toOption.any f = true) :
    ∃ p, Program.ofStatements statements = .ok p ∧ f p = true := by
  rcases hs : Program.ofStatements statements with e | p
  · rw [hs] at h
    cases h
  · exact ⟨p, rfl, by simpa [hs, Except.toOption] using h⟩

variable {statements : List (Statement α)}

/-- **No rule is lost or simplified.** In the program of a list of statements no atom is a fact
and no body is empty. The bodies of an atom are, in order, one for each place at which it is a
head: the set of the choice atom of the place and the literals in the body of the rule. An atom
that is no head has no bodies. -/
theorem stored_bodies_ofStatements (h : Program.ofStatements statements = .ok p) :
    (∀ a, p.rules.isFact a = false ∧ [] ∉ p.rules.bodies a) ∧
    (∀ a, ∃ places : List (Nat × Nat), places.Pairwise (Prod.Lex (· < ·) (· < ·)) ∧
      (∀ r i, (r, i) ∈ places ↔ IsHead (annotatedRules statements) r i a) ∧
      List.Forall₂ (fun b place => ∃ rule, (annotatedRules statements)[place.1]? = some rule ∧
          Body.IsSetOf b (.pos (Program.choiceAtom place.1 place.2) :: rule.body))
        (p.rules.bodies a) places) ∧
    ∀ a, (∀ r i, ¬ IsHead (annotatedRules statements) r i a) →
      p.rules.contains a = false ∧ p.rules.bodies a = [] := by
  have hp := ofStatements_grounds h
  have hstored := RuleBase.bodies_ofRules _ (@groundRules_ne_nil _ (annotatedRules statements))
  rw [← hp.rules] at hstored
  refine ⟨fun a => ⟨(hstored a).1, fun hnil => ?_⟩, fun a => ?_, fun a hnone => ?_⟩
  · rw [(hstored a).2] at hnil
    obtain ⟨x, hx, hempty⟩ := List.mem_map.mp hnil
    exact groundRules_ne_nil x (List.mem_filter.mp hx).1 (Ascending.ofListLast_eq_nil.mp hempty)
  · refine ⟨headPlaces (annotatedRules statements) a, pairwise_headPlaces _ a,
      fun r i => mem_headPlaces, ?_⟩
    rw [(hstored a).2, List.forall₂_map_left_iff]
    refine (filter_groundRules (annotatedRules statements) a).imp ?_
    rintro x place ⟨rule, hrule, hbody⟩
    exact ⟨rule, hrule, hbody ▸ Body.isSetOf_ofListLast x.2⟩
  · have hcontains : p.rules.contains a = false := by
      rw [Bool.eq_false_iff]
      intro hc
      obtain ⟨r, i, hhead⟩ := hp.contains_iff_isHead.mp hc
      exact hnone r i hhead
    refine ⟨hcontains, ?_⟩
    by_contra hne
    obtain ⟨b, hb⟩ := List.exists_mem_of_ne_nil _ hne
    rw [RuleBase.contains_of_mem_bodies hb] at hcontains
    cases hcontains

theorem stored_bodies_contestedChoices :
    ∃ p, Program.ofStatements contestedChoices = .ok p ∧
      p.rules.bodies ⟨"a"⟩ =
        [[.neg ⟨"b"⟩, .pos ⟨"b"⟩, .pos ⟨"choice_node_0_0"⟩],
          [.pos ⟨"choice_node_0_1"⟩, .pos ⟨"choice_node_1_1"⟩]] ∧
      p.rules.isFact ⟨"choice_node_1_0"⟩ = false ∧ p.rules.bodies ⟨"b"⟩ = [] := by
  obtain ⟨p, hp, htest⟩ := exists_ofStatements contestedChoices
    (fun p => p.rules.bodies ⟨"a"⟩ =
      [[.neg ⟨"b"⟩, .pos ⟨"b"⟩, .pos ⟨"choice_node_0_0"⟩],
        [.pos ⟨"choice_node_0_1"⟩, .pos ⟨"choice_node_1_1"⟩]]) (by decide +kernel)
  obtain ⟨hfacts, -, hnone⟩ := stored_bodies_ofStatements hp
  refine ⟨p, hp, of_decide_eq_true htest, (hfacts _).1, (hnone _ fun r i hhead => ?_).2⟩
  have hplaces : headPlaces (annotatedRules contestedChoices) ⟨"b"⟩ = [] := by decide
  exact List.not_mem_nil (hplaces ▸ mem_headPlaces.mpr hhead)

/-! ### The clauses on choices -/

/-- Of different atoms, none two are true if a true one is the only one. -/
theorem pairwise_exclude_iff {N : Interpretation} {atoms : List Atom} (hatoms : atoms.Nodup) :
    (atoms.Pairwise fun a b => N a → ¬ N b) ↔ ∀ a ∈ atoms, ∀ b ∈ atoms, N a → N b → a = b := by
  have : Std.Symm fun a b => N a → ¬ N b := ⟨fun a b h hb ha => h ha hb⟩
  constructor
  · intro h a ha b hb hNa hNb
    by_contra hne
    exact h.forall ha hb hne hNa hNb
  · intro h
    refine hatoms.pairwise_of_forall_ne fun a ha b hb hne hNa hNb => ?_
    exact hne (h a ha b hb hNa hNb)

/-- The clauses on different atoms hold exactly if the body holds and one of the atoms is true,
or the body does not hold and none is. -/
theorem Choices.holds_ofBody_iff_existsUnique {N : Interpretation} {atoms : List Atom}
    (hatoms : atoms.Nodup) {body : List Literal} :
    (∀ c ∈ (ofBody atoms body).clauses, ∃ l ∈ c, l.Holds N) ↔
      ((∀ l ∈ body, l.Holds N) ∧ ∃! a, a ∈ atoms ∧ N a) ∨
      ((∃ l ∈ body, ¬ l.Holds N) ∧ ∀ a ∈ atoms, ¬ N a) := by
  rw [holds_ofBody_iff, pairwise_exclude_iff hatoms]
  by_cases hbody : ∀ l ∈ body, l.Holds N
  · have hnone : ¬ ∃ l ∈ body, ¬ l.Holds N := fun ⟨l, hl, hfalse⟩ => hfalse (hbody l hl)
    simp only [hnone, false_and, or_false]
    constructor
    · rintro ⟨hunique, -, hexists⟩
      obtain ⟨a, ha, hN⟩ := hexists hbody
      exact ⟨hbody, a, ⟨ha, hN⟩, fun b ⟨hb, hNb⟩ => hunique b hb a ha hNb hN⟩
    · rintro ⟨-, a, ⟨ha, hN⟩, hunique⟩
      refine ⟨fun b hb c hc hNb hNc => ?_, fun _ _ _ => hbody, fun _ => ⟨a, ha, hN⟩⟩
      rw [hunique b ⟨hb, hNb⟩, hunique c ⟨hc, hNc⟩]
  · simp only [hbody, false_and, false_or]
    constructor
    · rintro ⟨-, hneeds, -⟩
      refine ⟨by simpa using hbody, fun a ha hN => hbody (hneeds a ha hN)⟩
    · rintro ⟨-, hnone⟩
      exact ⟨fun a ha _ _ hN => absurd hN (hnone a ha), fun a ha hN => absurd hN (hnone a ha),
        fun h => absurd h hbody⟩

theorem nodup_choiceAtoms (r n : Nat) : ((List.range n).map (Program.choiceAtom r)).Nodup :=
  List.nodup_range.map fun _ _ h => (choiceAtom_inj h).2

/-- No two outcomes of any rules share a choice atom. -/
theorem Grounds.nodup_atoms (hp : Grounds rs p) : (p.choices.flatMap Choices.atoms).Nodup := by
  rw [hp.choices, List.flatMap_map, List.nodup_flatMap]
  refine ⟨fun x _ => nodup_choiceAtoms x.2 _, (pairwise_zipIdx rs 0).imp ?_⟩
  intro x y hlt a hx hy
  obtain ⟨i, -, rfl⟩ := List.mem_map.mp hx
  obtain ⟨j, -, heq⟩ := List.mem_map.mp hy
  exact absurd (choiceAtom_inj heq).1 (Nat.ne_of_gt hlt)

/-- **Exactly one choice if the body holds.** The choice atoms of all rules of a program are
different. Each rule has the clauses on its own, one for each head and one more: an
interpretation satisfies them exactly if all literals of the body are true and exactly one of
the choice atoms is, or some literal of the body is false and none of the choice atoms is
true. -/
theorem exactly_one_choice_ofStatements (h : Program.ofStatements statements = .ok p) :
    (p.choices.flatMap Choices.atoms).Nodup ∧
    p.choices.length = (annotatedRules statements).length ∧
    ∀ r rule, (annotatedRules statements)[r]? = some rule → ∃ c, p.choices[r]? = some c ∧
      c.atoms = (List.range (rule.head.length + 1)).map (Program.choiceAtom r) ∧
      ∀ N : Interpretation, (∀ clause ∈ c.clauses, ∃ l ∈ clause, l.Holds N) ↔
        ((∀ l ∈ rule.body, l.Holds N) ∧ ∃! a, a ∈ c.atoms ∧ N a) ∨
        ((∃ l ∈ rule.body, ¬ l.Holds N) ∧ ∀ a ∈ c.atoms, ¬ N a) := by
  have hp := ofStatements_grounds h
  refine ⟨hp.nodup_atoms, by simp [hp.choices], fun r rule hrule => ⟨rule.choices r, ?_, rfl, ?_⟩⟩
  · simp [hp.choices, hrule]
  · intro N
    exact Choices.holds_ofBody_iff_existsUnique (nodup_choiceAtoms r _)

/-- A body that cannot hold allows no choice. -/
theorem exactly_one_choice_contestedChoices :
    ∃ p c, Program.ofStatements contestedChoices = .ok p ∧ p.choices[0]? = some c ∧
      c.atoms = [⟨"choice_node_0_0"⟩, ⟨"choice_node_0_1"⟩, ⟨"choice_node_0_2"⟩] ∧
      ∀ N : Interpretation, (∀ clause ∈ c.clauses, ∃ l ∈ clause, l.Holds N) ↔
        ∀ a ∈ c.atoms, ¬ N a := by
  obtain ⟨p, hp, -⟩ := exists_ofStatements contestedChoices (fun _ => true)
    (by decide +kernel)
  obtain ⟨-, -, hrules⟩ := exactly_one_choice_ofStatements hp
  obtain ⟨c, hc, hatoms, hclauses⟩ := hrules 0 _ rfl
  refine ⟨p, c, hp, hc, hatoms, fun N => (hclauses N).trans ?_⟩
  by_cases hb : N ⟨"b"⟩ <;> simp [Literal.holds_pos, Literal.holds_neg, hb]

/-! ### The weights of choice atoms -/

/-- A positive literal on a plain name is taken for no other literal. -/
theorem Literal.eq_pos_of_compare {k : Literal} (ha : a.Plain)
    (h : compare (Literal.pos a) k = .eq) : k = .pos a := by
  have htext := text_eq_of_compare h
  obtain ⟨⟨b⟩, q⟩ := k
  cases q
  · have hname : a.name = "-" ++ b := by simpa [text, pos] using htext
    simp [Atom.Plain, hname] at ha
  · have hname : a.name = b := by simpa [text, pos] using htext
    exact hname ▸ rfl

/-- A positive literal on a plain name has the weight of the last pair for its atom. -/
theorem Weights.get?_ofPairs_pos (es : List (Atom × α)) (ha : a.Plain) :
    (ofPairs es).get? (.pos a) = (es.reverse.find? fun e => e.1 = a).map Prod.snd := by
  induction es using List.reverseRecOn with
  | nil => rfl
  | append_singleton es e ih =>
    have hneg : compare (Literal.pos a) (Signed.opposite (Literal.pos e.1)) ≠ .eq := by
      intro hc
      cases (Literal.eq_pos_of_compare ha hc : Literal.neg e.1 = .pos a)
    rw [ofPairs_append, List.foldl_cons, List.foldl_nil, get?_insertPair, if_neg hneg, ih,
      List.reverse_append, List.reverse_singleton, List.singleton_append, List.find?_cons]
    by_cases he : e.1 = a
    · rw [he, if_pos Std.ReflCmp.compare_self]
      simp
    · have hpos : compare (Literal.pos a) (Literal.pos e.1) ≠ .eq := fun hc =>
        he (congrArg Literal.atom (Literal.eq_pos_of_compare ha hc))
      simp [hpos, he]

/-- The negation of an atom with a pair weighs one, if only plain names weigh otherwise. -/
theorem Weights.get?_ofPairs_neg {es : List (Atom × α)}
    (hes : ∀ e ∈ es, ¬ e.1.Plain → e.2 = Scalar.one) (ha : ∃ e ∈ es, e.1 = a) :
    (ofPairs es).get? (.neg a) = some Scalar.one := by
  induction es using List.reverseRecOn with
  | nil => simp at ha
  | append_singleton es e ih =>
    rw [ofPairs_append, List.foldl_cons, List.foldl_nil, get?_insertPair]
    split
    · next hc =>
      -- the name of `e` is the text of the negation
      have hname : "-" ++ a.name = e.1.name := Literal.text_eq_of_compare hc
      rw [hes e (by simp) (by simp [Atom.Plain, ← hname])]
    split
    · rfl
    · next hc =>
      refine ih (fun d hd => hes d (List.mem_append_left _ hd)) ?_
      obtain ⟨d, hd, rfl⟩ := ha
      rcases List.mem_append.mp hd with hd | hd
      · exact ⟨d, hd, rfl⟩
      · rw [List.mem_singleton.mp hd] at hc
        exact absurd Std.ReflCmp.compare_self hc

/-- The atom is a head at a place or at a later one. -/
def IsHeadFrom (rs : List (Rule α)) (r i : Nat) (a : Atom) : Prop :=
  ∃ r' j, IsHead rs r' j a ∧ (r < r' ∨ r = r' ∧ i ≤ j)

instance (rs : List (Rule α)) (r i : Nat) (a : Atom) : Decidable (IsHeadFrom rs r i a) :=
  decidable_of_iff (∃ x ∈ headPlaces rs a, r < x.1 ∨ r = x.1 ∧ i ≤ x.2)
    ⟨fun ⟨x, hx, hle⟩ => ⟨x.1, x.2, mem_headPlaces.mp hx, hle⟩,
      fun ⟨r', j, hhead, hle⟩ => ⟨(r', j), mem_headPlaces.mpr hhead, hle⟩⟩

theorem zipIdx_eq_append {β : Type} (xs : List β) (k : Fin xs.length) :
    xs.zipIdx = (xs.take k).zipIdx ++ (xs.get k, k.val) :: (xs.drop (k + 1)).zipIdx (k + 1) := by
  calc xs.zipIdx = (xs.take k ++ xs.drop k).zipIdx := by rw [List.take_append_drop]
    _ = (xs.take k).zipIdx ++ (xs.drop k).zipIdx k := by
      rw [List.zipIdx_append, List.length_take_of_le k.2.le, Nat.zero_add]
    _ = _ := by
      rw [List.drop_eq_getElem_cons k.2]
      rfl

theorem mem_zipIdx_drop {β : Type} {xs : List β} {k : Nat} {x : β × Nat} :
    x ∈ (xs.drop k).zipIdx k ↔ k ≤ x.2 ∧ xs[x.2]? = some x.1 := by
  obtain ⟨x, i⟩ := x
  rw [List.mk_mem_zipIdx_iff_le_and_getElem?_sub, List.getElem?_drop]
  exact and_congr_right fun hi => by rw [Nat.add_sub_cancel' hi]

/-- After the pair of an outcome of a rule come those of later outcomes, and of the heads that
are not earlier. -/
theorem Rule.exists_weightPairs_split (rule : Rule α) (r : Nat)
    (i : Fin (rule.head.length + 1)) :
    ∃ before after, rule.weightPairs r =
        before ++ (Program.choiceAtom r i, rule.outcomeWeight i) :: after ∧
      (∀ e ∈ after, (∃ j, i.val < j ∧ e.1 = Program.choiceAtom r j) ∨
        ∃ j c, i.val ≤ j ∧ rule.head[j]? = some c ∧ e = (c.atom, Scalar.one)) ∧
      ∀ j c, i.val ≤ j → rule.head[j]? = some c → (c.atom, Scalar.one) ∈ after := by
  rcases Fin.eq_castSucc_or_eq_last i with ⟨k, rfl⟩ | rfl
  · have hk : rule.head[k.val]? = some (rule.head.get k) := List.getElem?_eq_getElem k.2
    have hpairs : rule.weightPairs r =
        (rule.head.take k).zipIdx.flatMap
          (fun c => [(Program.choiceAtom r c.2, c.1.probability), (c.1.atom, Scalar.one)]) ++
        (Program.choiceAtom r k, rule.outcomeWeight k) :: ((rule.head.get k).atom, Scalar.one) ::
        (((rule.head.drop (k + 1)).zipIdx (k + 1)).flatMap
          (fun c => [(Program.choiceAtom r c.2, c.1.probability), (c.1.atom, Scalar.one)]) ++
        [(Program.choiceAtom r rule.head.length, Scalar.rest rule.total)]) := by
      rw [Rule.weightPairs, zipIdx_eq_append rule.head k, List.flatMap_append, List.flatMap_cons,
        List.append_assoc, Rule.outcomeWeight, hk]
      rfl
    refine ⟨_, _, hpairs, fun e he => ?_, fun j c hj hc => ?_⟩
    · simp only [List.mem_cons, List.mem_append, List.mem_flatMap, List.not_mem_nil,
        or_false] at he
      rcases he with rfl | ⟨d, hd, rfl | rfl⟩ | rfl
      · exact .inr ⟨k, _, Nat.le_refl _, hk, rfl⟩
      · exact .inl ⟨d.2, (mem_zipIdx_drop.mp hd).1, rfl⟩
      · obtain ⟨hlt, hget⟩ := mem_zipIdx_drop.mp hd
        exact .inr ⟨d.2, d.1, Nat.le_of_succ_le hlt, hget, rfl⟩
      · exact .inl ⟨_, k.2, rfl⟩
    · rcases Nat.eq_or_lt_of_le hj with rfl | hlt
      · rw [← Option.some.inj (hk.symm.trans hc)]
        exact List.mem_cons_self
      · refine List.mem_cons_of_mem _ (List.mem_append_left _ (List.mem_flatMap.mpr ?_))
        exact ⟨(c, j), mem_zipIdx_drop.mpr ⟨hlt, hc⟩, by simp⟩
  · have hweight : rule.outcomeWeight rule.head.length = Scalar.rest rule.total := by
      simp [Rule.outcomeWeight]
    refine ⟨rule.head.zipIdx.flatMap fun c =>
      [(Program.choiceAtom r c.2, c.1.probability), (c.1.atom, Scalar.one)], [], ?_, by simp,
      fun j c hj hc => ?_⟩
    · rw [Fin.val_last, hweight]
      rfl
    · rw [List.getElem?_eq_none hj] at hc
      cases hc

/-- After the pair of an outcome come the heads that are not earlier, and no other pair for its
choice atom. -/
theorem exists_groundWeights_split (r : Fin rs.length) (i : Fin ((rs.get r).head.length + 1)) :
    ∃ before after, rs.zipIdx.flatMap (fun x => x.1.weightPairs x.2) =
        before ++ (Program.choiceAtom r i, (rs.get r).outcomeWeight i) :: after ∧
      (∀ e ∈ after, e.1 = Program.choiceAtom r i → e.2 = Scalar.one ∧ IsHeadFrom rs r i e.1) ∧
      ∀ a, IsHeadFrom rs r i a → (a, Scalar.one) ∈ after := by
  have hr : rs[r.val]? = some (rs.get r) := List.getElem?_eq_getElem r.2
  obtain ⟨before, after, hsplit, hafter, hheads⟩ := (rs.get r).exists_weightPairs_split r i
  have hpairs : rs.zipIdx.flatMap (fun x => x.1.weightPairs x.2) =
      ((rs.take r).zipIdx.flatMap (fun x => x.1.weightPairs x.2) ++ before) ++
        (Program.choiceAtom r i, (rs.get r).outcomeWeight i) :: (after ++
          ((rs.drop (r + 1)).zipIdx (r + 1)).flatMap fun x => x.1.weightPairs x.2) := by
    rw [zipIdx_eq_append rs r, List.flatMap_append, List.flatMap_cons, hsplit]
    simp
  refine ⟨_, _, hpairs, fun e he hatom => ?_, fun a ha => ?_⟩
  · rcases List.mem_append.mp he with he | he
    · rcases hafter e he with ⟨j, hlt, hj⟩ | ⟨j, c, hle, hc, rfl⟩
      · exact absurd (choiceAtom_inj (hatom.symm.trans hj)).2 (Nat.ne_of_lt hlt)
      · exact ⟨rfl, r, j, ⟨_, c, hr, hc, rfl⟩, .inr ⟨rfl, hle⟩⟩
    · obtain ⟨x, hx, he⟩ := List.mem_flatMap.mp he
      obtain ⟨hlt, hx⟩ := mem_zipIdx_drop.mp hx
      rcases Rule.mem_weightPairs.mp he with ⟨j, rfl⟩ | ⟨c, hc, rfl⟩
      · exact absurd (choiceAtom_inj hatom).1 (Nat.ne_of_gt hlt)
      · obtain ⟨j, hj⟩ := List.mem_iff_getElem?.mp hc
        exact ⟨rfl, x.2, j, ⟨_, c, hx, hj, rfl⟩, .inl hlt⟩
  · obtain ⟨r', j, ⟨rule, c, hrule, hc, rfl⟩, hlt | ⟨rfl, hle⟩⟩ := ha
    · refine List.mem_append_right _ (List.mem_flatMap.mpr ⟨(rule, r'), ?_, ?_⟩)
      · exact mem_zipIdx_drop.mpr ⟨hlt, hrule⟩
      · exact Rule.mem_weightPairs.mpr (.inr ⟨c, List.mem_of_getElem? hc, rfl⟩)
    · rw [← Option.some.inj (hr.symm.trans hrule)] at hc
      exact List.mem_append_left _ (hheads j c hle hc)

namespace Grounds

/-- A choice atom weighs one if it is the head at the place of its outcome or at a later one,
and what the outcome weighs otherwise. -/
theorem weight_pos_choiceAtom (hp : Grounds rs p) (r : Fin rs.length)
    (i : Fin ((rs.get r).head.length + 1)) :
    p.weights.get? (.pos (Program.choiceAtom r i)) =
      some (if IsHeadFrom rs r i (Program.choiceAtom r i) then Scalar.one
        else (rs.get r).outcomeWeight i) := by
  obtain ⟨before, after, hsplit, hafter, hheads⟩ := exists_groundWeights_split r i
  rw [hp.weights, Weights.get?_ofPairs_pos _ (plain_choiceAtom r i), hsplit, List.reverse_append,
    List.reverse_cons, List.append_assoc, List.find?_append, List.singleton_append,
    List.find?_cons_of_pos (by simp)]
  split
  · next hhead =>
    rcases hfind : after.reverse.find? (fun e => e.1 = Program.choiceAtom r i) with _ | e
    · have hnone := List.find?_eq_none.mp hfind _ (List.mem_reverse.mpr (hheads _ hhead))
      simp at hnone
    · have hmem := List.mem_reverse.mp (List.mem_of_find?_eq_some hfind)
      have hatom : e.1 = Program.choiceAtom r i := by simpa using List.find?_some hfind
      rw [hfind, Option.some_or, Option.map_some, (hafter e hmem hatom).1]
  · next hhead =>
    have hfind : (after.reverse.find? fun e => e.1 = Program.choiceAtom r i) = none := by
      rw [List.find?_eq_none]
      intro e he hatom
      have hatom : e.1 = Program.choiceAtom r i := by simpa using hatom
      exact hhead (hatom ▸ (hafter e (List.mem_reverse.mp he) hatom).2)
    rw [hfind]
    rfl

/-- The negation of a choice atom weighs one, whatever the heads are named. -/
theorem weight_neg_choiceAtom (hp : Grounds rs p) (r : Fin rs.length)
    (i : Fin ((rs.get r).head.length + 1)) :
    p.weights.get? (.neg (Program.choiceAtom r i)) = some Scalar.one := by
  rw [hp.weights]
  refine Weights.get?_ofPairs_neg (fun e he hplain => ?_)
    ⟨_, mem_groundWeights.mpr ⟨r, .inl ⟨i, rfl⟩⟩, rfl⟩
  obtain ⟨r', ⟨j, rfl⟩ | ⟨c, -, rfl⟩⟩ := mem_groundWeights.mp he
  · exact absurd (plain_choiceAtom r' j) hplain
  · rfl

end Grounds

/-- **The weights of choice atoms.** The negation of a choice atom of a program weighs one, and
the atom has rules exactly if it is a head. The atom weighs as its outcome does, with the
probability of a head or with what the heads leave, unless it is the head at the place of the
outcome or at a later one; then it weighs one. -/
theorem weights_choice_ofStatements (h : Program.ofStatements statements = .ok p)
    (r : Fin (annotatedRules statements).length)
    (i : Fin (((annotatedRules statements).get r).head.length + 1)) :
    let rs := annotatedRules statements
    let atom := Program.choiceAtom r i
    (p.rules.contains atom = true ↔ ∃ r' j, IsHead rs r' j atom) ∧
    p.weights.get? (.neg atom) = some Scalar.one ∧
    p.weights.get? (.pos atom) =
      some (if IsHeadFrom rs r i atom then Scalar.one else (rs.get r).outcomeWeight i) := by
  have hp := ofStatements_grounds h
  exact ⟨hp.contains_iff_isHead, hp.weight_neg_choiceAtom r i, hp.weight_pos_choiceAtom r i⟩

theorem weights_choice_contestedChoices :
    ∃ p, Program.ofStatements contestedChoices = .ok p ∧
      p.rules.contains (Program.choiceAtom 1 0) = true ∧
      p.weights.get? (.pos (Program.choiceAtom 1 0)) = some 0.125 ∧
      p.weights.get? (.neg (Program.choiceAtom 1 0)) = some 1 ∧
      p.weights.get? (.pos (Program.choiceAtom 0 0)) = some 1 := by
  obtain ⟨p, hp, -⟩ := exists_ofStatements contestedChoices (fun _ => true)
    (by decide +kernel)
  obtain ⟨hrules, hneg, hpos⟩ := weights_choice_ofStatements hp ⟨1, by decide⟩ ⟨0, by decide⟩
  obtain ⟨-, -, hlater⟩ := weights_choice_ofStatements hp ⟨0, by decide⟩ ⟨0, by decide⟩
  rw [if_neg (by decide)] at hpos
  rw [if_pos (by decide)] at hlater
  exact ⟨p, hp, hrules.mpr ⟨0, 1, by decide⟩, hpos, hneg, hlater⟩

/-- A head that is named as the choice atom of an earlier rule. -/
def shadowedChoice : List (Statement Float) :=
  [.rule ⟨[⟨0.3, ⟨"a"⟩⟩], []⟩, .rule ⟨[⟨0.5, ⟨"choice_node_0_0"⟩⟩], []⟩]

/-- **The probability of a choice can be lost.** The choice atom of `0.3::a` has a rule, and it
does not weigh `0.3`. -/
theorem choice_probability_lost :
    ∃ p, Program.ofStatements shadowedChoice = .ok p ∧
      p.rules.contains (Program.choiceAtom 0 0) = true ∧
      p.weights.get? (.pos (Program.choiceAtom 0 0)) ≠ some 0.3 := by
  obtain ⟨p, hp, htest⟩ := exists_ofStatements shadowedChoice
    (fun p => p.rules.contains (Program.choiceAtom 0 0) &&
      decide ((p.weights.get? (.pos (Program.choiceAtom 0 0))).map Float.toBits ≠
        some (Float.toBits 0.3))) (by decide +kernel)
  obtain ⟨hrules, hbits⟩ := Bool.and_eq_true_iff.mp htest
  refine ⟨p, hp, hrules, fun hweight => of_decide_eq_true hbits ?_⟩
  rw [hweight]
  rfl

end ProbLogic
