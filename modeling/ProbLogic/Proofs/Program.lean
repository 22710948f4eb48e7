/-
# The program of a list of statements

The rules, the weights and the choices of a program are functions of the
annotated rules among its statements (`ofStatements_grounds`). Each head becomes
one normal rule, guarded by a choice atom of its own. Choice atoms are told
apart by the numbers in their names, so no two outcomes share one.

The weights are a table with one pair for each choice atom and each head. Since
plain names are told apart by their texts, a literal has the weight of the last
pair for its atom (`get?_ofPairs`): the probability of its outcome for a choice
atom, and one for everything else.

The clauses on the choices of a rule hold exactly if the body gives one of its
outcomes (`holds_ofBody_iff`).

Key definitions: `annotatedRules`, `Grounds`, `OwnNames`, `PlainHeads`,
`Weights.ofPairs`.
Key theorems: `choiceAtom_inj`, `ofStatements_grounds`, `get?_ofPairs`,
`holds_ofBody_iff`.
-/
import ProbLogic.Program
import ProbLogic.Proofs.RuleBase
import ProbLogic.Proofs.Text

namespace ProbLogic

variable {α : Type}

/-! ### Choice atoms -/

section ChoiceAtoms

open Program

theorem underscore_notMem_toDigits (n : Nat) : '_' ∉ Nat.toDigits 10 n := by
  intro h
  have hdigit := Nat.isDigit_of_mem_toDigits (by decide) (by decide) h
  exact absurd hdigit (by decide)

theorem name_choiceAtom (r i : Nat) : (choiceAtom r i).name.toList =
    "choice_node_".toList ++ (Nat.toDigits 10 r ++ '_' :: Nat.toDigits 10 i) := by
  have hname : (choiceAtom r i).name = "choice_node_" ++ Nat.repr r ++ "_" ++ Nat.repr i := rfl
  simp [hname, Nat.repr]

/-- The numbers of a rule and of an outcome can be read off the name of a choice atom. -/
theorem choiceAtom_inj {r r' i i' : Nat} (h : choiceAtom r i = choiceAtom r' i') :
    r = r' ∧ i = i' := by
  have hlist := congrArg (fun a : Atom => a.name.toList) h
  simp only [name_choiceAtom, List.append_cancel_left_eq] at hlist
  obtain ⟨hr, -, hi⟩ := (List.append_cons_inj_of_notMem (underscore_notMem_toDigits r)
    (underscore_notMem_toDigits i)).mp hlist
  exact ⟨Text.toDigits_inj hr, Text.toDigits_inj hi⟩

theorem plain_choiceAtom (r i : Nat) : (choiceAtom r i).Plain := by
  rw [Atom.Plain, name_choiceAtom]
  simp

end ChoiceAtoms

/-- The atom is the choice atom of some outcome of some rule, of this program or another. -/
def Atom.IsChoice (a : Atom) : Prop := ∃ r i, a = Program.choiceAtom r i

theorem Atom.not_isChoice_of_head? {a : Atom} (h : a.name.toList.head? ≠ some 'c') :
    ¬ a.IsChoice := by
  rintro ⟨r, i, rfl⟩
  rw [name_choiceAtom] at h
  exact h rfl

/-! ### Tables of weights -/

section Weights

variable [Scalar α]

/-- The table that weighs each atom as given and its negation by one. -/
def Weights.ofPairs (es : List (Atom × α)) : Weights Literal α :=
  es.foldl (fun w e => w.insertPair (.pos e.1) e.2 Scalar.one) .empty

theorem Weights.ofPairs_append (es es' : List (Atom × α)) : ofPairs (es ++ es') =
    es'.foldl (fun w e => w.insertPair (.pos e.1) e.2 Scalar.one) (ofPairs es) := by
  simp [ofPairs]

/-- A literal has the weight of the last pair for its atom. -/
theorem Weights.get?_ofPairs {es : List (Atom × α)} (hes : ∀ e ∈ es, e.1.Plain) {l : Literal}
    (hl : l.positive = true → l.atom.Plain) :
    (ofPairs es).get? l = (es.reverse.find? fun e => e.1 = l.atom).map
      fun e => if l.positive then e.2 else Scalar.one := by
  induction es using List.reverseRecOn with
  | nil => rfl
  | append_singleton es e ih =>
    have he : e.1.Plain := hes e (by simp)
    have hcmp : ∀ p, compare l ⟨e.1, p⟩ = .eq ↔ e.1 = l.atom ∧ l.positive = p := by
      intro p
      constructor
      · intro hc
        rw [Literal.eq_of_compare hl (fun _ => he) hc]
        exact ⟨rfl, rfl⟩
      · rintro ⟨ha, rfl⟩
        rw [show (⟨e.1, l.positive⟩ : Literal) = l from by rw [ha]]
        exact Std.ReflCmp.compare_self
    rw [ofPairs_append, List.foldl_cons, List.foldl_nil, get?_insertPair, List.reverse_append,
      List.reverse_singleton, List.singleton_append, List.find?_cons,
      ih fun e' he' => hes e' (List.mem_append_left _ he')]
    simp only [Literal.pos, Signed.opposite, Literal.negate, hcmp]
    by_cases ha : e.1 = l.atom
    · cases hp : l.positive <;> simp [ha]
    · simp [ha]

end Weights

/-! ### Grounding -/

section Ground

variable [Scalar α]

/-- The annotated rules among statements, in order. -/
def annotatedRules : List (Statement α) → List (Rule α)
  | [] => []
  | .rule rule :: statements => rule :: annotatedRules statements
  | _ :: statements => annotatedRules statements

namespace Rule

/-- The sum of the probabilities of the heads. -/
def total (rule : Rule α) : α :=
  rule.head.foldl (fun x c => Scalar.add x c.probability) Scalar.zero

/-- The normal rules of the rule number `r`: one for each head, with its choice atom. -/
def normalRules (rule : Rule α) (r : Nat) : List (Atom × List Literal) :=
  rule.head.zipIdx.map fun c => (c.1.atom, .pos (Program.choiceAtom r c.2) :: rule.body)

/-- The weights of the rule number `r`: the probabilities of its outcomes for their choice
atoms, and one for its heads. -/
def weightPairs (rule : Rule α) (r : Nat) : List (Atom × α) :=
  (rule.head.zipIdx.flatMap fun c =>
    [(Program.choiceAtom r c.2, c.1.probability), (c.1.atom, Scalar.one)]) ++
  [(Program.choiceAtom r rule.head.length, Scalar.rest rule.total)]

/-- The choices of the rule number `r`. -/
def choices (rule : Rule α) (r : Nat) : Choices :=
  .ofBody ((List.range (rule.head.length + 1)).map (Program.choiceAtom r)) rule.body

end Rule

/-- The rules, weights and choices of a program are those of the annotated rules. -/
structure Grounds (rs : List (Rule α)) (p : Program α) : Prop where
  rules : p.rules = .ofRules (rs.zipIdx.flatMap fun x => x.1.normalRules x.2)
  weights : p.weights = .ofPairs (rs.zipIdx.flatMap fun x => x.1.weightPairs x.2)
  choices : p.choices = rs.zipIdx.map fun x => x.1.choices x.2

theorem addHeads_eq {r : Nat} {body : List Literal} {heads : List (Choice α × Nat)}
    {p p' : Program α} {x x' : α}
    (h : heads.foldlM (Program.addHead r body) (p, x) = .ok (p', x')) :
    p'.rules = (heads.map fun c => (c.1.atom, .pos (Program.choiceAtom r c.2) :: body)).foldl
        (fun rules e => rules.add e.1 e.2) p.rules ∧
      p'.weights = (heads.flatMap fun c =>
          [(Program.choiceAtom r c.2, c.1.probability), (c.1.atom, Scalar.one)]).foldl
        (fun w e => w.insertPair (.pos e.1) e.2 Scalar.one) p.weights ∧
      p'.choices = p.choices ∧ x' = heads.foldl (fun x c => Scalar.add x c.1.probability) x := by
  induction heads generalizing p x with
  | nil =>
    obtain ⟨rfl, rfl⟩ := Prod.mk.inj (Except.ok.inj h)
    exact ⟨rfl, rfl, rfl, rfl⟩
  | cons c heads ih =>
    rw [List.foldlM_cons] at h
    obtain ⟨c, i⟩ := c
    by_cases hc : Scalar.isProbability c.probability = true
    · simp only [Program.addHead, hc, if_true] at h
      obtain ⟨hrules, hweights, hchoices, htotal⟩ := ih h
      exact ⟨hrules, hweights, hchoices, htotal⟩
    · simp only [Program.addHead, hc, Bool.false_eq_true, if_false] at h
      cases h

theorem Grounds.addRule {rs : List (Rule α)} {rule : Rule α} {p p' : Program α}
    (hp : Grounds rs p) (h : p.addRule rule = .ok p') : Grounds (rs ++ [rule]) p' := by
  have hlength : p.choices.length = rs.length := by simp [hp.choices]
  unfold Program.addRule at h
  simp only at h
  rcases hheads : rule.head.zipIdx.foldlM (Program.addHead p.choices.length rule.body)
    (p, Scalar.zero) with e | ⟨q, x⟩
  · rw [hheads] at h
    cases h
  obtain ⟨hrules, hweights, hchoices, htotal⟩ := addHeads_eq hheads
  have htotal : x = rule.total := by
    rw [htotal, Rule.total]
    conv_rhs => rw [← List.zipIdx_map_fst 0 rule.head, List.foldl_map]
  rw [hheads] at h
  change (if Scalar.exceedsOne x = true then _ else _) = _ at h
  split at h
  · cases h
  obtain rfl := Except.ok.inj h
  have hzip : (rs ++ [rule]).zipIdx = rs.zipIdx ++ [(rule, rs.length)] := by
    simp [List.zipIdx_append]
  refine ⟨?_, ?_, ?_⟩
  · rw [hzip, List.flatMap_append, List.flatMap_singleton, RuleBase.ofRules, List.foldl_append]
    rw [hrules, hp.rules, hlength]
    rfl
  · rw [hzip, List.flatMap_append, List.flatMap_singleton, Weights.ofPairs_append, ← hp.weights,
      Rule.weightPairs, List.foldl_append, ← hlength, ← hweights, htotal]
    rfl
  · rw [hzip, List.map_append, List.map_singleton, ← hp.choices, ← hlength]
    show q.choices ++ _ = _
    rw [hchoices]
    rfl

theorem Grounds.addQuery {rs : List (Rule α)} {p : Program α} (hp : Grounds rs p) (l : Literal) :
    Grounds rs (p.addQuery l) := ⟨hp.rules, hp.weights, hp.choices⟩

theorem Grounds.addEvidence {rs : List (Rule α)} {p : Program α} (hp : Grounds rs p)
    (l : Literal) : Grounds rs (p.addEvidence l) := ⟨hp.rules, hp.weights, hp.choices⟩

theorem grounds_foldlM {rs : List (Rule α)} {statements : List (Statement α)} {p p' : Program α}
    (hp : Grounds rs p) (h : statements.foldlM Program.addStatement p = .ok p') :
    Grounds (rs ++ annotatedRules statements) p' := by
  induction statements generalizing rs p with
  | nil =>
    obtain rfl := Except.ok.inj h
    simpa [annotatedRules] using hp
  | cons s statements ih =>
    rw [List.foldlM_cons] at h
    cases s with
    | rule rule =>
      rcases hrule : p.addRule rule with e | q
      · simp only [Program.addStatement, hrule] at h
        cases h
      · simp only [Program.addStatement, hrule] at h
        simpa [annotatedRules] using ih (hp.addRule hrule) h
    | query l => exact ih (hp.addQuery l) h
    | evidence l => exact ih (hp.addEvidence l) h

/-- **Grounding.** The rules, weights and choices of a program are those of the annotated
rules among its statements. -/
theorem ofStatements_grounds {statements : List (Statement α)} {p : Program α}
    (h : Program.ofStatements statements = .ok p) : Grounds (annotatedRules statements) p := by
  have hempty : Grounds [] (.empty : Program α) := ⟨rfl, rfl, rfl⟩
  simpa using grounds_foldlM hempty h

end Ground

/-! ### The parts of a grounded program -/

section Parts

variable {rs : List (Rule α)} {p : Program α} {a : Atom}

/-- The atom is a head of the rule, or in its body. -/
def Rule.Mentions (rule : Rule α) (a : Atom) : Prop :=
  (∃ c ∈ rule.head, c.atom = a) ∨ ∃ l ∈ rule.body, l.atom = a

/-- The names in the rules are plain, and no choice atoms. -/
def OwnNames (rs : List (Rule α)) : Prop :=
  ∀ rule ∈ rs, ∀ a, rule.Mentions a → a.Plain ∧ ¬ a.IsChoice

theorem OwnNames.head (h : OwnNames rs) {r : Fin rs.length} {c : Choice α}
    (hc : c ∈ (rs.get r).head) : c.atom.Plain ∧ ¬ c.atom.IsChoice :=
  h _ (List.get_mem rs r) _ (.inl ⟨c, hc, rfl⟩)

theorem OwnNames.body (h : OwnNames rs) {r : Fin rs.length} {l : Literal}
    (hl : l ∈ (rs.get r).body) : l.atom.Plain ∧ ¬ l.atom.IsChoice :=
  h _ (List.get_mem rs r) _ (.inr ⟨l, hl, rfl⟩)

/-- The names of the heads are plain. -/
def PlainHeads (rs : List (Rule α)) : Prop := ∀ rule ∈ rs, ∀ c ∈ rule.head, c.atom.Plain

theorem OwnNames.plainHeads (h : OwnNames rs) : PlainHeads rs := fun rule hrule c hc =>
  (h rule hrule c.atom (.inl ⟨c, hc, rfl⟩)).1

theorem Rule.Mentions.mem_append {rule : Rule α} {a : Atom} (h : rule.Mentions a) :
    a ∈ rule.head.map Choice.atom ++ rule.body.map Literal.atom := by
  rcases h with ⟨c, hc, rfl⟩ | ⟨l, hl, rfl⟩
  · exact List.mem_append_left _ (List.mem_map_of_mem hc)
  · exact List.mem_append_right _ (List.mem_map_of_mem hl)

/-- Names that start with neither a dash nor the letter of choice atoms are the rules' own. -/
theorem ownNames_of_head? (h : ∀ rule ∈ rs,
    ∀ a ∈ rule.head.map Choice.atom ++ rule.body.map Literal.atom,
      a.name.toList.head? ≠ some '-' ∧ a.name.toList.head? ≠ some 'c') : OwnNames rs := by
  intro rule hrule a ha
  obtain ⟨hdash, hc⟩ := h rule hrule a ha.mem_append
  exact ⟨hdash, Atom.not_isChoice_of_head? hc⟩

theorem mem_zipIdx_iff_get {β : Type} {xs : List β} {x : β × Nat} :
    x ∈ xs.zipIdx ↔ ∃ i : Fin xs.length, x = (xs.get i, i.val) := by
  rw [List.mem_zipIdx_iff_getElem?]
  constructor
  · intro h
    obtain ⟨hi, hx⟩ := List.getElem?_eq_some_iff.mp h
    exact ⟨⟨x.2, hi⟩, Prod.ext hx.symm rfl⟩
  · rintro ⟨i, rfl⟩
    simp

/-- The rules of a grounded program. -/
theorem mem_groundRules {b : List Literal} :
    (a, b) ∈ rs.zipIdx.flatMap (fun x => x.1.normalRules x.2) ↔
      ∃ (r : Fin rs.length) (i : Fin (rs.get r).head.length),
        ((rs.get r).head.get i).atom = a ∧
          b = .pos (Program.choiceAtom r i) :: (rs.get r).body := by
  simp only [List.mem_flatMap, Rule.normalRules, List.mem_map, mem_zipIdx_iff_get, Prod.mk.injEq]
  constructor
  · rintro ⟨_, ⟨r, rfl⟩, _, ⟨i, rfl⟩, ha, hb⟩
    exact ⟨r, i, ha, hb.symm⟩
  · rintro ⟨r, i, ha, hb⟩
    exact ⟨_, ⟨r, rfl⟩, _, ⟨i, rfl⟩, ha, hb.symm⟩

/-- Each of them has a body, in which its choice atom stands. -/
theorem groundRules_ne_nil :
    ∀ x ∈ rs.zipIdx.flatMap (fun x => x.1.normalRules x.2), x.2 ≠ [] := by
  rintro ⟨a, b⟩ hx
  obtain ⟨r, i, -, rfl⟩ := mem_groundRules.mp hx
  exact List.cons_ne_nil _ _

theorem OwnNames.mem_body_iff (h : OwnNames rs) {r : Fin rs.length} {i : Nat} {l : Literal} :
    l ∈ Ascending.ofListLast (.pos (Program.choiceAtom r i) :: (rs.get r).body) ↔
      l = .pos (Program.choiceAtom r i) ∨ l ∈ (rs.get r).body := by
  have hplain : ∀ k ∈ Literal.pos (Program.choiceAtom r i) :: (rs.get r).body, k.atom.Plain := by
    intro k hk
    rcases List.mem_cons.mp hk with rfl | hk
    · exact plain_choiceAtom r i
    · exact (h.body hk).1
  rw [Ascending.mem_ofListLast (RuleBase.separated_of_plain hplain), List.mem_cons]

variable [Scalar α]

/-- The weight of an outcome of a rule: the probability of a head, or what the heads leave. -/
def Rule.outcomeWeight (rule : Rule α) (i : Nat) : α :=
  (rule.head[i]?.map Choice.probability).getD (Scalar.rest rule.total)

/-- The weights of a rule. -/
theorem Rule.mem_weightPairs {rule : Rule α} {r : Nat} {e : Atom × α} :
    e ∈ rule.weightPairs r ↔
      (∃ i : Fin (rule.head.length + 1), e = (Program.choiceAtom r i, rule.outcomeWeight i)) ∨
      ∃ c ∈ rule.head, e = (c.atom, Scalar.one) := by
  simp only [Rule.weightPairs, List.mem_append, List.mem_flatMap, mem_zipIdx_iff_get,
    List.mem_cons, List.not_mem_nil, or_false]
  constructor
  · rintro (⟨_, ⟨i, rfl⟩, rfl | rfl⟩ | rfl)
    · exact .inl ⟨i.castSucc, by simp [Rule.outcomeWeight]⟩
    · exact .inr ⟨_, List.get_mem rule.head i, rfl⟩
    · exact .inl ⟨Fin.last _, by simp [Rule.outcomeWeight]⟩
  · rintro (⟨i, rfl⟩ | ⟨c, hc, rfl⟩)
    · rcases Fin.eq_castSucc_or_eq_last i with ⟨j, rfl⟩ | rfl
      · exact .inl ⟨_, ⟨j, rfl⟩, .inl (by simp [Rule.outcomeWeight])⟩
      · exact .inr (by simp [Rule.outcomeWeight])
    · obtain ⟨i, rfl⟩ := List.get_of_mem hc
      exact .inl ⟨_, ⟨i, rfl⟩, .inr rfl⟩

/-- The weights of a grounded program. -/
theorem mem_groundWeights {e : Atom × α} :
    e ∈ rs.zipIdx.flatMap (fun x => x.1.weightPairs x.2) ↔
      ∃ r : Fin rs.length,
        (∃ i : Fin ((rs.get r).head.length + 1),
          e = (Program.choiceAtom r i, (rs.get r).outcomeWeight i)) ∨
        ∃ c ∈ (rs.get r).head, e = (c.atom, Scalar.one) := by
  simp only [List.mem_flatMap, mem_zipIdx_iff_get, Rule.mem_weightPairs]
  constructor
  · rintro ⟨_, ⟨r, rfl⟩, h⟩
    exact ⟨r, h⟩
  · rintro ⟨r, h⟩
    exact ⟨_, ⟨r, rfl⟩, h⟩

namespace Grounds

theorem contains_iff (hp : Grounds rs p) :
    p.rules.contains a = true ↔ ∃ r : Fin rs.length, ∃ c ∈ (rs.get r).head, c.atom = a := by
  rw [hp.rules, RuleBase.contains_ofRules]
  simp only [mem_groundRules]
  constructor
  · rintro ⟨-, r, i, ha, -⟩
    exact ⟨r, _, List.get_mem _ i, ha⟩
  · rintro ⟨r, c, hc, ha⟩
    obtain ⟨i, rfl⟩ := List.get_of_mem hc
    exact ⟨_, r, i, ha, rfl⟩

/-- The bodies of a grounded program. -/
theorem toRules_iff (hp : Grounds rs p) {b : Body} :
    p.rules.toRules a b ↔ ∃ (r : Fin rs.length) (i : Fin (rs.get r).head.length),
      ((rs.get r).head.get i).atom = a ∧
        b = Ascending.ofListLast (.pos (Program.choiceAtom r i) :: (rs.get r).body) := by
  rw [RuleBase.toRules, hp.rules, (RuleBase.bodies_ofRules _ groundRules_ne_nil a).2]
  simp only [List.mem_map, List.mem_filter, decide_eq_true_eq]
  constructor
  · rintro ⟨⟨a', b'⟩, ⟨hx, rfl⟩, rfl⟩
    obtain ⟨r, i, ha, rfl⟩ := mem_groundRules.mp hx
    exact ⟨r, i, ha, rfl⟩
  · rintro ⟨r, i, ha, rfl⟩
    exact ⟨(a, _), ⟨mem_groundRules.mpr ⟨r, i, ha, rfl⟩, rfl⟩, rfl⟩

end Grounds

theorem PlainHeads.plain_of_groundWeights (h : PlainHeads rs) {e : Atom × α}
    (he : e ∈ rs.zipIdx.flatMap (fun x => x.1.weightPairs x.2)) : e.1.Plain := by
  obtain ⟨r, ⟨i, rfl⟩ | ⟨c, hc, rfl⟩⟩ := mem_groundWeights.mp he
  · exact plain_choiceAtom r i
  · exact h _ (List.get_mem rs r) c hc

namespace Grounds

/-- A literal that is weighed is on a choice atom of the program, or on a head and then its
weight is one. -/
theorem weight_cases (hp : Grounds rs p) (h : PlainHeads rs) {l : Literal} {w : α}
    (hl : l.positive = true → l.atom.Plain) (hw : p.weights.get? l = some w) :
    (∃ (r : Fin rs.length) (i : Fin ((rs.get r).head.length + 1)),
      l.atom = Program.choiceAtom r i ∧
        w = if l.positive then (rs.get r).outcomeWeight i else Scalar.one) ∨
      (w = Scalar.one ∧ p.rules.contains l.atom = true) := by
  rw [hp.weights, Weights.get?_ofPairs (fun e he => h.plain_of_groundWeights he) hl] at hw
  obtain ⟨e, hfind, rfl⟩ := Option.map_eq_some_iff.mp hw
  have hatom : e.1 = l.atom := by simpa using List.find?_some hfind
  have hmem := List.mem_reverse.mp (List.mem_of_find?_eq_some hfind)
  obtain ⟨r, ⟨i, rfl⟩ | ⟨c, hc, rfl⟩⟩ := mem_groundWeights.mp hmem
  · exact .inl ⟨r, i, hatom.symm, rfl⟩
  · exact .inr ⟨by simp, hp.contains_iff.mpr ⟨r, c, hc, hatom⟩⟩

/-- An atom without rules that is weighed is a choice atom. -/
theorem choice_of_isSome_weight (hp : Grounds rs p) (h : PlainHeads rs)
    (hc : p.rules.contains a = false) (hw : (p.weights.get? ⟨a, false⟩).isSome = true) :
    ∃ (r : Fin rs.length) (i : Fin ((rs.get r).head.length + 1)), a = Program.choiceAtom r i := by
  obtain ⟨w, hw⟩ := Option.isSome_iff_exists.mp hw
  rcases hp.weight_cases (l := ⟨a, false⟩) h (by simp) hw with ⟨r, i, ha, -⟩ | ⟨-, hc'⟩
  · exact ⟨r, i, ha⟩
  · rw [hc] at hc'
    cases hc'

theorem isSome_weight_choiceAtom (hp : Grounds rs p) (h : PlainHeads rs) (r : Fin rs.length)
    (i : Fin ((rs.get r).head.length + 1)) (b : Bool) :
    (p.weights.get? ⟨Program.choiceAtom r i, b⟩).isSome = true := by
  have hget := Weights.get?_ofPairs (l := ⟨Program.choiceAtom r i, b⟩)
    (fun e he => h.plain_of_groundWeights he) fun _ => plain_choiceAtom r i
  rw [hp.weights, hget, Option.isSome_map, List.find?_isSome]
  refine ⟨(Program.choiceAtom r i, (rs.get r).outcomeWeight i), ?_, decide_eq_true rfl⟩
  exact List.mem_reverse.mpr (mem_groundWeights.mpr ⟨r, .inl ⟨i, rfl⟩⟩)

/-- A choice atom has no rules. -/
theorem not_contains_choiceAtom (hp : Grounds rs p) (h : OwnNames rs) (r i : Nat) :
    p.rules.contains (Program.choiceAtom r i) = false := by
  rw [Bool.eq_false_iff]
  intro hc
  obtain ⟨r', c, hc, ha⟩ := hp.contains_iff.mp hc
  exact (h.head hc).2 ⟨r, i, ha⟩

/-- A choice atom has the weight of its outcome, and its negation the weight one. -/
theorem weight_choiceAtom (hp : Grounds rs p) (h : OwnNames rs) (r : Fin rs.length)
    (i : Fin ((rs.get r).head.length + 1)) (b : Bool) :
    p.weights.get? ⟨Program.choiceAtom r i, b⟩ =
      some (if b then (rs.get r).outcomeWeight i else Scalar.one) := by
  obtain ⟨w, hw⟩ := Option.isSome_iff_exists.mp (hp.isSome_weight_choiceAtom h.plainHeads r i b)
  rcases hp.weight_cases (l := ⟨Program.choiceAtom r i, b⟩) h.plainHeads
      (fun _ => plain_choiceAtom r i) hw
    with ⟨r', i', ha, rfl⟩ | ⟨-, hc⟩
  · obtain ⟨hr, hi⟩ := choiceAtom_inj ha
    obtain rfl := Fin.ext hr
    rw [hw, hi]
  · rw [hp.not_contains_choiceAtom h] at hc
    cases hc

theorem mem_choices_iff (hp : Grounds rs p) {c : Choices} :
    c ∈ p.choices ↔ ∃ r : Fin rs.length, c = (rs.get r).choices r := by
  rw [hp.choices, List.mem_map]
  constructor
  · rintro ⟨x, hx, rfl⟩
    obtain ⟨r, rfl⟩ := mem_zipIdx_iff_get.mp hx
    exact ⟨r, rfl⟩
  · rintro ⟨r, rfl⟩
    exact ⟨_, mem_zipIdx_iff_get.mpr ⟨r, rfl⟩, rfl⟩

end Grounds
end Parts

/-! ### The clauses on choices -/

namespace Choices

variable {N : Interpretation}

theorem holds_exclusions_iff {atoms : List Atom} :
    (∀ c ∈ exclusions atoms, ∃ l ∈ c, l.Holds N) ↔ atoms.Pairwise fun a b => N a → ¬ N b := by
  induction atoms with
  | nil => simp [exclusions]
  | cons a atoms ih =>
    rw [exclusions, List.forall_mem_append, ih, List.pairwise_cons]
    refine and_congr_left fun _ => ?_
    rw [List.forall_mem_map]
    simp only [List.mem_cons, List.not_mem_nil, or_false, exists_eq_or_imp, exists_eq_left,
      Literal.holds_neg, ← imp_iff_not_or]

/-- **The clauses on choices.** They hold exactly if at most one of the atoms is true, each
needs the body, and the body gives one. -/
theorem holds_ofBody_iff {atoms : List Atom} {body : List Literal} :
    (∀ c ∈ (ofBody atoms body).clauses, ∃ l ∈ c, l.Holds N) ↔
      (atoms.Pairwise fun a b => N a → ¬ N b) ∧ (∀ a ∈ atoms, N a → Body.Holds N body) ∧
      (Body.Holds N body → ∃ a ∈ atoms, N a) := by
  have hrequirements : (∀ c ∈ requirements atoms body, ∃ l ∈ c, l.Holds N) ↔
      ∀ a ∈ atoms, N a → Body.Holds N body := by
    simp only [requirements, List.mem_flatMap, List.mem_map]
    constructor
    · intro h a ha hN l hl
      obtain ⟨k, hk, hholds⟩ := h [.neg a, l] ⟨l, hl, a, ha, rfl⟩
      rcases (by simpa using hk : k = .neg a ∨ k = l) with rfl | rfl
      · exact absurd hN (Literal.holds_neg.mp hholds)
      · exact hholds
    · rintro h _ ⟨l, hl, a, ha, rfl⟩
      by_cases hN : N a
      · exact ⟨l, by simp, h a ha hN l hl⟩
      · exact ⟨.neg a, by simp, Literal.holds_neg.mpr hN⟩
  have hcoverage : (∃ l ∈ coverage atoms body, l.Holds N) ↔
      (Body.Holds N body → ∃ a ∈ atoms, N a) := by
    simp only [coverage, List.mem_append, List.mem_map]
    constructor
    · rintro ⟨l, ⟨a, ha, rfl⟩ | ⟨k, hk, rfl⟩, hholds⟩ hbody
      · exact ⟨a, ha, Literal.holds_pos.mp hholds⟩
      · exact absurd (hbody k hk) (Literal.holds_negate.mp hholds)
    · intro h
      by_cases hbody : Body.Holds N body
      · obtain ⟨a, ha, hN⟩ := h hbody
        exact ⟨.pos a, .inl ⟨a, ha, rfl⟩, Literal.holds_pos.mpr hN⟩
      · simp only [Body.Holds, not_forall, exists_prop] at hbody
        obtain ⟨l, hl, hN⟩ := hbody
        exact ⟨l.negate, .inr ⟨l, hl, rfl⟩, Literal.holds_negate.mpr hN⟩
  rw [ofBody, List.forall_mem_append, List.forall_mem_append, List.forall_mem_singleton,
    holds_exclusions_iff, hrequirements, hcoverage, and_assoc]

end Choices

/-- The clauses on the choices of a rule hold exactly if its body gives one of its outcomes. -/
theorem Rule.holds_choices_iff {rule : Rule α} {r : Nat} {N : Interpretation} :
    (∀ c ∈ (rule.choices r).clauses, ∃ l ∈ c, l.Holds N) ↔
      (∀ i j : Fin (rule.head.length + 1), N (Program.choiceAtom r i) →
        N (Program.choiceAtom r j) → i = j) ∧
      ((∃ i : Fin (rule.head.length + 1), N (Program.choiceAtom r i)) ↔
        Body.Holds N rule.body) := by
  have hmem : ∀ a, a ∈ (List.range (rule.head.length + 1)).map (Program.choiceAtom r) ↔
      ∃ i : Fin (rule.head.length + 1), a = Program.choiceAtom r i := by
    intro a
    simp only [List.mem_map, List.mem_range]
    exact ⟨fun ⟨i, hi, ha⟩ => ⟨⟨i, hi⟩, ha.symm⟩, fun ⟨i, ha⟩ => ⟨i, i.2, ha.symm⟩⟩
  rw [Rule.choices, Choices.holds_ofBody_iff, List.pairwise_map]
  refine and_congr ⟨fun h i j hi hj => ?_, fun h => ?_⟩ ⟨fun h => ⟨?_, ?_⟩, fun h => ⟨?_, ?_⟩⟩
  · by_contra hne
    have hpair := List.pairwise_iff_getElem.mp h
    have hbound : ∀ k : Fin (rule.head.length + 1),
        k.val < (List.range (rule.head.length + 1)).length := fun k => by
      rw [List.length_range]
      exact k.isLt
    rcases lt_or_gt_of_ne (Fin.val_ne_of_ne hne) with hlt | hlt
    · exact hpair i j (hbound i) (hbound j) hlt (by simpa using hi) (by simpa using hj)
    · exact hpair j i (hbound j) (hbound i) hlt (by simpa using hj) (by simpa using hi)
  · refine List.pairwise_lt_range.imp_of_mem fun {i j} hi hj hlt hNi hNj => ?_
    have heq := h ⟨i, List.mem_range.mp hi⟩ ⟨j, List.mem_range.mp hj⟩ hNi hNj
    exact absurd (Fin.mk.inj heq) (Nat.ne_of_lt hlt)
  · rintro ⟨i, hi⟩
    exact h.1 _ ((hmem _).mpr ⟨i, rfl⟩) hi
  · intro hbody
    obtain ⟨a, ha, hN⟩ := h.2 hbody
    obtain ⟨i, rfl⟩ := (hmem a).mp ha
    exact ⟨i, hN⟩
  · intro a ha hN
    obtain ⟨i, rfl⟩ := (hmem a).mp ha
    exact h.mp ⟨i, hN⟩
  · intro hbody
    obtain ⟨i, hN⟩ := h.mpr hbody
    exact ⟨_, (hmem _).mpr ⟨i, rfl⟩, hN⟩

end ProbLogic
