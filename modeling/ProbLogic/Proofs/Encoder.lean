/-
# Encoders keep their tables in step

An encoder updates four tables at once: numbers, weights, the nodes of signed
variables, and a CNF under construction. That they belong together is said by
comparison with a completion (`Tracks`). The numbers are the same, the weights
are those of the numbered variables, each node that is remembered for a signed
variable is a leaf with its signed number, and the clauses of the CNF are the
encoded clauses of the completion. Encoded clauses do not change when more
variables are numbered, since numbers only grow at the end (`encode_of_prefix`).

`Encodes` says of one computation that it succeeds, and that the encoder it
leaves tracks a given completion. It has a rule for each construct of the monad
and one for loops, so that the proof for a function follows its text. A node
that is held over other steps still is the leaf that it was (`HasLeaf.mono`).

So every sequence of calls succeeds and leaves what the finished completion has
(`encodes_performAll`). That the tables agree with each other can then be read
off the completion (`Tracks.consistent`).

Key definitions: `Tracks`, `Later`, `HasLeaf`, `Encodes`, `StandsFor`, `Consistent`.
Key theorems: `Encodes.mapM_leaf`, `encodes_leaf`, `encodes_clause`,
`encodesVisits_visit`, `encodes_performAll`, `performAll_consistent`.
-/
import ProbLogic.Completion.Encoder
import ProbLogic.Proofs.Calls
import ProbLogic.Proofs.Cnf.Draft

namespace ProbLogic

variable {α β γ : Type}

/-! ### Leaves of a draft -/

namespace Draft

variable {d : Draft} {cs : List Clause}

/-- A node for a signed variable is made, and the others are still there. -/
theorem exists_leaf (d : Draft) {v : Int} (hv : v ≠ 0) :
    ∃ node d', d.leaf v = (.ok node, d') ∧ d'.IsLeaf node v ∧ d.Extends d' :=
  ⟨_, _, d.leaf_of_ne_zero hv, Array.getElem?_push_size, d.extends_push _⟩

/-- A clause is added on nodes for its signed variables, and such nodes are still there. -/
theorem exists_add_disjunction (h : d.Represents cs) {nodes : List Nat} {c : Clause}
    (hnodes : List.Forall₂ d.IsLeaf nodes c) :
    ∃ d', (d.disjunction nodes).2.add (d.disjunction nodes).1 = (.ok (), d') ∧
      d'.Represents (cs ++ [c]) ∧ ∀ node v, d.IsLeaf node v → d'.IsLeaf node v := by
  have hpush := d.extends_push (.any nodes)
  have hclause : IsClause ⟨⟨d.formula.nodes.push (.any nodes)⟩⟩ d.formula.nodes.size c :=
    ⟨nodes, Array.getElem?_push_size, hnodes.imp fun _ _ hleaf => hleaf.mono hpush⟩
  obtain ⟨hok, hadded⟩ := add_of_isClause (h.mono hpush) hclause
  exact ⟨_, Prod.ext hok rfl, hadded, fun node v hleaf =>
    (h.mono hpush).isLeaf_add (hleaf.mono hpush) _⟩

end Draft

/-- Signed numbers stay what they are. -/
theorem Completion.encode_of_prefix {n n' : Numbering} (h : n.vars <+: n'.vars)
    {x : SignedVariable} (hx : x.1 ∈ n.vars) : encode n' x = encode n x := by
  rw [encode, encode, Numbering.index?_of_prefix h hx]

/-! ### Encoders and completions -/

namespace Encoder

variable {w : Weights Literal α} {e e₁ e₂ : Encoder α} {s s₁ : Completion} {x : SignedVariable}
  {node : Nat}

/-- The node is a leaf with the signed number of a variable. -/
def HasLeaf (e : Encoder α) (x : SignedVariable) (node : Nat) : Prop :=
  x.1 ∈ e.numbering.vars ∧ e.draft.IsLeaf node (Completion.encode e.numbering x)

/-- Numbers and leaves of an encoder are those of a later one. -/
structure Later (e e' : Encoder α) : Prop where
  numbers : e.numbering.vars <+: e'.numbering.vars
  leaves : ∀ node v, e.draft.IsLeaf node v → e'.draft.IsLeaf node v

theorem Later.refl (e : Encoder α) : e.Later e := ⟨List.prefix_refl _, fun _ _ h => h⟩

theorem Later.trans (h : e.Later e₁) (h' : e₁.Later e₂) : e.Later e₂ :=
  ⟨h.numbers.trans h'.numbers, fun node v hv => h'.leaves node v (h.leaves node v hv)⟩

theorem HasLeaf.mono (h : e.HasLeaf x node) (hlater : e.Later e₁) : e₁.HasLeaf x node := by
  refine ⟨hlater.numbers.subset h.1, ?_⟩
  rw [Completion.encode_of_prefix hlater.numbers h.1]
  exact hlater.leaves _ _ h.2

variable [Scalar α]

/-- The tables of an encoder are those of a completion. -/
structure Tracks (e : Encoder α) (w : Weights Literal α) (s : Completion) : Prop where
  numbering : e.numbering = s.numbering
  weights : e.weights = (s.finish w).weights
  leaves : ∀ x node, (x, node) ∈ e.leaves → e.HasLeaf x node
  numbered : ∀ c ∈ s.clauses.toList, ∀ x ∈ c, x.1 ∈ s.numbering.vars
  clauses : e.draft.Represents (s.finish w).cnf.clauses

theorem tracks_empty (w : Weights Literal α) : (empty : Encoder α).Tracks w .empty where
  numbering := rfl
  weights := rfl
  leaves _ _ h := nomatch h
  numbered _ hc := nomatch hc
  clauses := Draft.represents_empty

/-- Variables keep their numbers in the completion of a later encoder. -/
theorem Tracks.prefix_of_later (h : e.Tracks w s) (h₁ : e₁.Tracks w s₁) (hlater : e.Later e₁) :
    s.numbering.vars <+: s₁.numbering.vars := by
  rw [← h.numbering, ← h₁.numbering]
  exact hlater.numbers

theorem Tracks.compilation_eq (h : e.Tracks w s) : e.compilation = s.finish w := by
  rw [compilation, h.clauses.toCnf_eq, h.numbering, h.weights]
  rfl

end Encoder

open Encoder EncoderM

variable [Scalar α] {w : Weights Literal α} {e : Encoder α} {s s' : Completion}

/-- The steps succeed. They leave a later encoder, which tracks a completion, and a result that
meets the condition. -/
def Encodes (w : Weights Literal α) (e : Encoder α) (steps : EncoderM α β) (s : Completion)
    (Q : Encoder α → β → Prop) : Prop :=
  ∃ b e', steps.runOn e = (.ok b, e') ∧ e'.Tracks w s ∧ e.Later e' ∧ Q e' b

namespace Encodes

variable {Q : Encoder α → β → Prop}

theorem pure {b : β} (h : e.Tracks w s) (hb : Q e b) : Encodes w e (Pure.pure b) s Q :=
  ⟨b, e, rfl, h, .refl e, hb⟩

theorem get_bind {f : Encoder α → EncoderM α β} (h : Encodes w e (f e) s Q) :
    Encodes w e (MonadState.get >>= f) s Q := h

theorem bind {x : EncoderM α γ} {f : γ → EncoderM α β} {mid : Encoder α → γ → Prop}
    (hx : Encodes w e x s mid)
    (hf : ∀ c e', e'.Tracks w s → e.Later e' → mid e' c → Encodes w e' (f c) s' Q) :
    Encodes w e (x >>= f) s' Q := by
  obtain ⟨c, e₁, hrun, htracks, hlater, hmid⟩ := hx
  obtain ⟨b, e₂, hrun', htracks', hlater', hpost⟩ := hf c e₁ htracks hlater hmid
  refine ⟨b, e₂, ?_, htracks', hlater.trans hlater', hpost⟩
  have hbind : (x >>= f).runOn e = ExceptT.bindCont f (x.runOn e).1 (x.runOn e).2 := rfl
  rw [hbind, hrun]
  exact hrun'

theorem mono {Q' : Encoder α → β → Prop} {x : EncoderM α β} (hx : Encodes w e x s Q)
    (h : ∀ e' b, e.Later e' → Q e' b → Q' e' b) : Encodes w e x s Q' := by
  obtain ⟨b, e', hrun, htracks, hlater, hpost⟩ := hx
  exact ⟨b, e', hrun, htracks, hlater, h e' b hlater hpost⟩

/-- A loop that gives nodes follows a loop on completions. What a round needs stays true when more
variables are numbered. -/
theorem mapM_leaf {f : γ → EncoderM α Nat} (step : Completion → γ → Completion)
    (g : γ → SignedVariable) {R : Completion → Prop} {xs : List γ}
    (hR : ∀ s s', s.numbering.vars <+: s'.numbering.vars → R s → R s')
    (hstep : ∀ x ∈ xs, ∀ e s, e.Tracks w s → R s →
      Encodes w e (f x) (step s x) fun e' node => e'.HasLeaf (g x) node)
    (h : e.Tracks w s) (hs : R s) :
    Encodes w e (xs.mapM f) (xs.foldl step s) fun e' nodes =>
      List.Forall₂ e'.HasLeaf (xs.map g) nodes := by
  induction xs generalizing e s with
  | nil => exact pure h .nil
  | cons x xs ih =>
    rw [List.mapM_cons]
    refine bind (hstep x List.mem_cons_self e s h hs) fun node e₁ h₁ hlater₁ hnode => ?_
    have hgrows := h.prefix_of_later h₁ hlater₁
    have hxs := ih (fun y hy => hstep y (List.mem_cons_of_mem x hy)) h₁ (hR _ _ hgrows hs)
    refine bind hxs fun nodes e₂ h₂ hlater₂ hnodes => ?_
    exact pure h₂ (.cons (hnode.mono hlater₂) hnodes)

end Encodes

/-! ### The tables -/

/-- The CNF of an encoder is replaced by one with the same leaves and more. -/
theorem Encoder.Tracks.withDraft (h : e.Tracks w s) {d : Draft}
    (hleaves : ∀ node v, e.draft.IsLeaf node v → d.IsLeaf node v)
    (hnumbering : s'.numbering = s.numbering)
    (hnumbered : ∀ c ∈ s'.clauses.toList, ∀ x ∈ c, x.1 ∈ s.numbering.vars)
    (hclauses : d.Represents (s'.finish w).cnf.clauses) :
    Tracks { e with draft := d } w s' ∧ e.Later { e with draft := d } := by
  have hlater : e.Later { e with draft := d } := ⟨List.prefix_refl _, hleaves⟩
  refine ⟨⟨h.numbering.trans hnumbering.symm, ?_, fun x node hx => (h.leaves x node hx).mono hlater,
    ?_, hclauses⟩, hlater⟩
  · rw [Completion.finish, hnumbering]
    exact h.weights
  · rw [hnumbering]
    exact hnumbered

/-- A new variable is numbered and weighed. The signed numbers in the clauses stay what they are. -/
theorem Encoder.Tracks.withNumber (h : e.Tracks w s) {v : Variable} (hv : v ∉ s.numbering.vars) :
    let e' : Encoder α := { e with
      numbering := e.numbering.add v
      weights := e.weights.insertPair ((e.numbering.vars.length + 1 : Nat) : Int)
        (Completion.weightsOf w v).1 (Completion.weightsOf w v).2 }
    e'.Tracks w (s.number v) ∧ e.Later e' := by
  intro e'
  have hnumbering : e'.numbering = (s.number v).numbering := by
    show e.numbering.add v = s.numbering.add v
    rw [h.numbering]
  have hlater : e.Later e' := by
    refine ⟨?_, fun _ _ hleaf => hleaf⟩
    rw [hnumbering, h.numbering]
    exact s.prefix_number v
  refine ⟨⟨hnumbering, ?_, fun x node hx => (h.leaves x node hx).mono hlater, ?_, ?_⟩, hlater⟩
  · have hweights := Completion.weighVars_append (Completion.weightsOf w) s.numbering.vars v
    rw [← Completion.vars_number_of_notMem hv] at hweights
    show e.weights.insertPair _ _ _ = Completion.weighVars _ (s.number v).numbering.vars
    rw [hweights, h.weights, h.numbering]
    rfl
  · exact fun c hc x hx => (s.prefix_number v).subset (h.numbered c hc x hx)
  · have hclauses : ((s.number v).finish w).cnf.clauses = (s.finish w).cnf.clauses :=
      List.map_congr_left fun c hc => List.map_congr_left fun x hx =>
        Completion.encode_of_prefix (s.prefix_number v) (h.numbered c hc x hx)
    rw [hclauses]
    exact h.clauses

/-- A variable is numbered and weighed if it is new. -/
theorem encodes_number (h : e.Tracks w s) (v : Variable) :
    Encodes w e (number w v) (s.number v) fun e' i => e'.numbering.index? v = some i := by
  unfold number
  refine .get_bind ?_
  by_cases hv : v ∈ s.numbering.vars
  · have hindex : e.numbering.index? v = some (s.numbering.vars.idxOf v + 1) := by
      rw [h.numbering, Numbering.index?_of_mem hv]
    rw [hindex, Completion.number_of_mem hv]
    exact .pure h hindex
  · have hindex : e.numbering.index? v = none := by
      rw [h.numbering, Numbering.index?_of_notMem hv]
    obtain ⟨htracks, hlater⟩ := h.withNumber hv
    rw [hindex]
    refine ⟨_, _, rfl, htracks, hlater, ?_⟩
    show (e.numbering.add v).index? v = some (e.numbering.vars.length + 1)
    rw [h.numbering, Numbering.index?_eq_some_iff, Numbering.add, if_neg hv]
    simp [List.idxOf_append, hv]

theorem encodes_onDraft {f : Draft → Except FormulaError β × Draft} {b : β} {d : Draft}
    {Q : Encoder α → β → Prop} (hf : f e.draft = (.ok b, d))
    (h : Tracks { e with draft := d } w s ∧ e.Later { e with draft := d })
    (hpost : Q { e with draft := d } b) : Encodes w e (onDraft f) s Q := by
  refine ⟨b, { e with draft := d }, ?_, h.1, h.2, hpost⟩
  show ((f e.draft).1, { e with draft := (f e.draft).2 }) = _
  rw [hf]

/-- The node of a signed variable is a leaf with its number. The variable is numbered if it is
new. -/
theorem encodes_leaf (h : e.Tracks w s) (x : SignedVariable) :
    Encodes w e (leaf w x) (s.number x.1) fun e' node => e'.HasLeaf x node := by
  unfold leaf
  refine .get_bind ?_
  cases hlookup : e.leaves.lookup x with
  | some node =>
    -- A variable with a node has a number, so that a completion would not number it again.
    obtain ⟨_, _, hmem, -⟩ := List.lookup_eq_some_iff.mp hlookup
    have hleaf : e.HasLeaf x node := h.leaves x node (hmem ▸ List.mem_append_right _
      List.mem_cons_self)
    rw [Completion.number_of_mem (h.numbering ▸ hleaf.1)]
    exact .pure h hleaf
  | none =>
    refine .bind (encodes_number h x.1) fun i e₁ h₁ _ hi => ?_
    have hx : x.1 ∈ e₁.numbering.vars := (Numbering.index?_eq_some_iff.mp hi).1
    have hvalue : (if x.2 then (i : Int) else -i) = Completion.encode e₁.numbering x := by
      rw [Completion.encode, hi]
      rfl
    have hne : Completion.encode e₁.numbering x ≠ 0 := by
      have hnatAbs := Completion.natAbs_encode hx
      intro hzero
      rw [hzero] at hnatAbs
      exact absurd hnatAbs (Nat.succ_ne_zero _).symm
    rw [hvalue]
    obtain ⟨node, d, hrun, hleaf, hd⟩ := e₁.draft.exists_leaf hne
    have hdraft := h₁.withDraft (d := d) (fun _ _ hv => hv.mono hd) rfl h₁.numbered
      (h₁.clauses.mono hd)
    refine .bind (encodes_onDraft hrun hdraft (Q := fun e' n => e'.HasLeaf x n) ⟨hx, hleaf⟩)
      fun n e₂ h₂ _ hn => ?_
    refine ⟨n, { e₂ with leaves := (x, n) :: e₂.leaves }, rfl, ?_, ⟨List.prefix_refl _,
      fun _ _ hv => hv⟩, hn⟩
    refine ⟨h₂.numbering, h₂.weights, fun y m hy => ?_, h₂.numbered, h₂.clauses⟩
    rcases List.mem_cons.mp hy with hy | hy
    · obtain ⟨rfl, rfl⟩ := Prod.mk.inj hy
      exact hn
    · exact h₂.leaves y m hy

theorem encodes_leaf_of_mem (h : e.Tracks w s) {x : SignedVariable} (hx : x.1 ∈ s.numbering.vars) :
    Encodes w e (leaf w x) s fun e' node => e'.HasLeaf x node := by
  have hleaf := encodes_leaf h x
  rwa [Completion.number_of_mem hx] at hleaf

/-- Nodes of signed variables are added as their clause. -/
theorem encodes_clause (h : e.Tracks w s) {c : List SignedVariable} {nodes : List Nat}
    (hnodes : List.Forall₂ e.HasLeaf c nodes) :
    Encodes w e (clause nodes) (s.emit c) fun _ _ => True := by
  have hleaves : List.Forall₂ e.draft.IsLeaf nodes (c.map (Completion.encode s.numbering)) := by
    rw [List.forall₂_map_right_iff, ← h.numbering]
    exact hnodes.flip.imp fun _ _ hleaf => hleaf.2
  have hnumbered : ∀ x ∈ c, x.1 ∈ s.numbering.vars := by
    intro x hx
    obtain ⟨node, -, hleaf⟩ := Draft.exists_of_forall₂ hnodes.flip hx
    exact h.numbering ▸ hleaf.1
  obtain ⟨d, hrun, hadded, hkeep⟩ := Draft.exists_add_disjunction h.clauses hleaves
  refine encodes_onDraft hrun (h.withDraft hkeep rfl ?_ ?_) trivial
  · intro c' hc'
    have hcases : c' ∈ s.clauses.toList ∨ c' = c := by simpa [Completion.emit] using hc'
    rcases hcases with hc' | rfl
    · exact h.numbered c' hc'
    · exact hnumbered
  · have hclauses : ((s.emit c).finish w).cnf.clauses =
        (s.finish w).cnf.clauses ++ [c.map (Completion.encode s.numbering)] := by
      simp [Completion.finish, Completion.emit]
    rw [hclauses]
    exact hadded

theorem encodes_clause_cons (h : e.Tracks w s) {x : SignedVariable} {c : List SignedVariable}
    {node : Nat} {nodes : List Nat} (hx : e.HasLeaf x node)
    (hc : List.Forall₂ e.HasLeaf c nodes) :
    Encodes w e (clause (node :: nodes)) (s.emit (x :: c)) fun e' _ => x.1 ∈ e'.numbering.vars :=
  (encodes_clause h (.cons hx hc)).mono fun _ _ hlater _ => hlater.numbers.subset hx.1

/-- A clause of numbered variables is added. -/
theorem encodes_emit (h : e.Tracks w s) {c : List SignedVariable}
    (hc : ∀ x ∈ c, x.1 ∈ s.numbering.vars) :
    Encodes w e (EncoderM.emit w c) (s.emit c) fun _ _ => True := by
  have hleaves := Encodes.mapM_leaf (f := leaf w) (fun s _ => s) (fun x => x)
    (R := fun s => ∀ x ∈ c, x.1 ∈ s.numbering.vars)
    (fun s s' hgrows hs x hx => hgrows.subset (hs x hx))
    (fun x hx e s h hs => encodes_leaf_of_mem h (hs x hx)) h hc
  rw [List.foldl_fixed, List.map_id'' fun _ => rfl] at hleaves
  exact .bind hleaves fun nodes e' h' _ hnodes => encodes_clause h' hnodes

/-! ### Completing atoms -/

section Visits

variable {rules : RuleBase} {depth : Nat} {complete : Atom → EncoderM α Unit}
  {visit : Atom → Completion → Completion}

/-- Completing atoms with an encoder follows visits of a completion on which at most `depth` heads
are left, and numbers the atom. -/
def EncodesVisits (rules : RuleBase) (w : Weights Literal α) (depth : Nat)
    (complete : Atom → EncoderM α Unit) (visit : Atom → Completion → Completion) : Prop :=
  ∀ e s a, e.Tracks w s → Completion.unnumbered rules s < depth →
    Encodes w e (complete a) (visit a s) fun e' _ => .atom a ∈ e'.numbering.vars

/-- At most `depth` heads are left, and a variable is numbered. -/
def Ready (rules : RuleBase) (depth : Nat) (v : Variable) (s : Completion) : Prop :=
  Completion.unnumbered rules s < depth ∧ v ∈ s.numbering.vars

theorem Ready.mono {v : Variable} (s s' : Completion)
    (hgrows : s.numbering.vars <+: s'.numbering.vars) (h : Ready rules depth v s) :
    Ready rules depth v s' :=
  ⟨(Completion.unnumbered_le_of_subset hgrows.subset).trans_lt h.1, hgrows.subset h.2⟩

/-- The nodes of negated literals are held until the last clause, while other literals are
completed. -/
theorem EncodesVisits.encodes_conjunction (hf : EncodesVisits rules w depth complete visit)
    (h : e.Tracks w s) {v : Variable} (body : Body) (hs : Ready rules depth v (s.number v)) :
    Encodes w e (conjunction w complete v body)
      (Completion.conjunction visit v body (s.number v)) fun e' _ => v ∈ e'.numbering.vars := by
  unfold conjunction Completion.conjunction
  refine .bind (encodes_leaf h (v, true)) fun first e₁ h₁ _ hfirst => ?_
  refine .bind (.mapM_leaf (fun s l => (visit l.atom s).emit [(v, false), l.signed])
    (fun l => l.negate.signed) Ready.mono ?_ h₁ hs) fun others e₂ h₂ hlater₂ hothers => ?_
  · intro l _ e s h hs
    refine .bind (hf e s l.atom h hs.1) fun _ e' h' hlater' hatom => ?_
    have hv : v ∈ (visit l.atom s).numbering.vars := (h.prefix_of_later h' hlater').subset hs.2
    have hl : .atom l.atom ∈ (visit l.atom s).numbering.vars := h'.numbering ▸ hatom
    refine .bind (encodes_emit h' ?_) fun _ e'' h'' _ _ => encodes_leaf_of_mem h'' hl
    simp [hv, hl, Literal.signed]
  · exact encodes_clause_cons h₂ (hfirst.mono hlater₂) hothers

theorem EncodesVisits.encodes_alternative (hf : EncodesVisits rules w depth complete visit)
    (h : e.Tracks w s) {a : Atom} (b : Body × Nat) (hs : Ready rules depth (.atom a) s) :
    Encodes w e (alternative w complete a b) (Completion.alternative visit a s b)
      fun e' node => e'.HasLeaf (.body a b.2, true) node := by
  obtain ⟨hdepth, ha⟩ := hs.mono _ _ (s.prefix_number (.body a b.2))
  have hv := s.mem_number (.body a b.2)
  unfold alternative Completion.alternative
  refine .bind (encodes_leaf h (.body a b.2, true)) fun node e₁ h₁ _ hnode => ?_
  refine .bind (encodes_emit h₁ ?_) fun _ e₂ h₂ hlater₂ _ => ?_
  · simp [hv, ha]
  · -- The body's variable has its number by now; the conjunction finds its node.
    have hsame : ((s.number (.body a b.2)).emit [(.atom a, true), (.body a b.2, false)]).number
        (.body a b.2) = (s.number (.body a b.2)).emit [(.atom a, true), (.body a b.2, false)] :=
      Completion.number_of_mem hv
    have hconjunction := hf.encodes_conjunction h₂ b.1 (v := .body a b.2)
    rw [hsame] at hconjunction
    refine .bind (hconjunction ⟨hdepth, hv⟩) fun _ e₃ h₃ hlater₃ _ => ?_
    exact .pure h₃ ((hnode.mono hlater₂).mono hlater₃)

/-- The nodes of the bodies' variables are held until all bodies are done. -/
theorem EncodesVisits.encodes_several (hf : EncodesVisits rules w depth complete visit)
    (h : e.Tracks w s) {a : Atom} (bodies : List Body)
    (hs : Ready rules depth (.atom a) (s.number (.atom a))) :
    Encodes w e (do
        let first ← leaf w (.atom a, false)
        let others ← bodies.zipIdx.mapM (alternative w complete a)
        clause (first :: others))
      ((bodies.zipIdx.foldl (Completion.alternative visit a) (s.number (.atom a))).emit
        ((.atom a, false) :: bodies.zipIdx.map fun b => (.body a b.2, true)))
      fun e' _ => .atom a ∈ e'.numbering.vars := by
  refine .bind (encodes_leaf h (.atom a, false)) fun first e₁ h₁ _ hfirst => ?_
  refine .bind (.mapM_leaf (Completion.alternative visit a) (fun b => (.body a b.2, true))
    Ready.mono (fun b _ e s h hs => hf.encodes_alternative h b hs) h₁ hs)
    fun others e₂ h₂ hlater₂ hothers => ?_
  exact encodes_clause_cons h₂ (hfirst.mono hlater₂) hothers

/-- **Visits are followed**, if the depth is not less than the number of heads that are left. -/
theorem encodesVisits_visit (rules : RuleBase) (w : Weights Literal α) (depth : Nat) :
    EncodesVisits rules w depth (EncoderM.visit w rules depth) (Completion.visit rules depth) := by
  induction depth with
  | zero => exact fun e s a _ h => absurd h (Nat.not_lt_zero _)
  | succ depth ih =>
    intro e s a h hdepth
    unfold EncoderM.visit Completion.visit
    refine .get_bind ?_
    by_cases ha : .atom a ∈ s.numbering.vars
    · have ha' : .atom a ∈ e.numbering.vars := h.numbering ▸ ha
      rw [if_pos ha, if_pos ha']
      exact .pure h ha'
    · have ha' : .atom a ∉ e.numbering.vars := h.numbering ▸ ha
      -- An atom with bodies is a head, so numbering it leaves one head less for the visits below.
      have hready : rules.bodies a ≠ [] → Ready rules depth (.atom a) (s.number (.atom a)) := by
        intro hne
        have hlt := Completion.unnumbered_number ha hne
        exact ⟨by omega, s.mem_number (.atom a)⟩
      rw [if_neg ha, if_neg ha']
      rcases hb : rules.bodies a with _ | ⟨body, _ | ⟨body', bodies⟩⟩ <;> rw [hb] at hready
      · refine .bind (encodes_number h (.atom a)) fun i e₁ h₁ _ hi => ?_
        exact .pure h₁ (Numbering.index?_eq_some_iff.mp hi).1
      · exact ih.encodes_conjunction h body (hready (List.cons_ne_nil _ _))
      · exact ih.encodes_several h (body :: body' :: bodies) (hready (List.cons_ne_nil _ _))

end Visits

/-! ### Calls -/

namespace EncoderM

/-- The steps of a call. -/
def perform (w : Weights Literal α) (rules : RuleBase) : Completion.Call → EncoderM α Unit
  | .complete l => complete w rules l.atom
  | .deny a => deny w rules a
  | .constrain literals => constrain w rules literals

/-- Calls in turn, up to the first that fails. -/
def performAll (w : Weights Literal α) (rules : RuleBase) (calls : List Completion.Call) :
    EncoderM α Unit := calls.forM (perform w rules)

end EncoderM

variable {rules : RuleBase}

theorem encodes_complete (h : e.Tracks w s) (a : Atom) :
    Encodes w e (EncoderM.complete w rules a) (s.complete rules a)
      fun e' _ => .atom a ∈ e'.numbering.vars :=
  encodesVisits_visit rules w _ e s a h (Nat.lt_succ_of_le (List.length_filter_le _ _))

/-- The node of a completed literal. -/
theorem encodes_literal (h : e.Tracks w s) (l : Literal) :
    Encodes w e (do EncoderM.complete w rules l.atom; leaf w l.signed) (s.complete rules l.atom)
      fun e' node => e'.HasLeaf l.signed node := by
  refine .bind (encodes_complete h l.atom) fun _ e₁ h₁ _ hl => encodes_leaf_of_mem h₁ ?_
  rw [← h₁.numbering]
  exact hl

/-- **One call** succeeds, and does to an encoder what it does to a completion. -/
theorem encodes_perform (h : e.Tracks w s) (c : Completion.Call) :
    Encodes w e (EncoderM.perform w rules c) (c.perform rules s) fun _ _ => True := by
  cases c with
  | complete l => exact (encodes_complete h l.atom).mono fun _ _ _ _ => trivial
  | deny a =>
    refine .bind (encodes_complete h a) fun _ e₁ h₁ _ ha => encodes_emit h₁ ?_
    rw [List.forall_mem_singleton, ← h₁.numbering]
    exact ha
  | constrain literals =>
    refine .bind (.mapM_leaf _ Literal.signed (R := fun _ => True) (fun _ _ _ => id)
      (fun l _ e s h _ => encodes_literal h l) h trivial) fun nodes e₁ h₁ _ hnodes => ?_
    exact encodes_clause h₁ hnodes

/-- **A sequence of calls** succeeds, and leaves the tables of the completion. -/
theorem encodes_performAll (rules : RuleBase) (h : e.Tracks w s)
    (calls : List Completion.Call) :
    Encodes w e (EncoderM.performAll w rules calls) (calls.foldl (Completion.Call.perform rules) s)
      fun _ _ => True := by
  induction calls generalizing e s with
  | nil => exact .pure h trivial
  | cons c calls ih => exact .bind (encodes_perform h c) fun _ e₁ h₁ _ _ => ih h₁

/-! ### Consistent tables -/

/-- The signed number stands for a variable with a polarity. -/
def StandsFor (n : Numbering) (x : SignedVariable) (k : Int) : Prop :=
  (1 ≤ k.natAbs ∧ k.natAbs ≤ n.vars.length) ∧ n.byIndex? k.natAbs = some x.1 ∧
    (0 < k ↔ x.2 = true)

theorem standsFor_encode {n : Numbering} (hn : n.vars.Nodup) {x : SignedVariable}
    (hx : x.1 ∈ n.vars) : StandsFor n x (Completion.encode n x) := by
  have hindex := List.idxOf_lt_length_of_mem hx
  rw [StandsFor, Completion.natAbs_encode hx]
  exact ⟨by omega, (Numbering.byIndex?_eq_some_iff hn).mpr ⟨hx, rfl⟩, Completion.encode_pos_iff hx⟩

/-- The tables of an encoder agree with each other, and with the clauses that were asked for. -/
structure Encoder.Consistent (e : Encoder α) (w : Weights Literal α) (s : Completion) : Prop where
  index?_iff : ∀ v (i : Nat), e.numbering.index? v = some i ↔ e.numbering.byIndex? i = some v
  isSome_byIndex?_iff : ∀ i : Int,
    (e.numbering.byIndex? i).isSome = true ↔ 1 ≤ i ∧ i ≤ e.numbering.vars.length
  leaves : ∀ x node, (x, node) ∈ e.leaves →
    ∃ k, e.draft.IsLeaf node k ∧ StandsFor e.numbering x k
  clauses : List.Forall₂ (List.Forall₂ (StandsFor e.numbering)) s.clauses.toList
    e.draft.toCnf.clauses
  isSome_get?_iff : ∀ k : Int,
    (e.weights.get? k).isSome = true ↔ 1 ≤ k.natAbs ∧ k.natAbs ≤ e.numbering.vars.length
  atom : ∀ a (i : Nat), e.numbering.byIndex? i = some (.atom a) →
    e.weights.get? i = some ((w.get? (.pos a)).getD Scalar.one) ∧
      e.weights.get? (-i) = some ((w.get? (.neg a)).getD Scalar.one)
  body : ∀ a j (i : Nat), e.numbering.byIndex? i = some (.body a j) →
    e.weights.get? i = some Scalar.one ∧ e.weights.get? (-i) = some Scalar.one

namespace Encoder.Tracks

theorem get?_weights (h : e.Tracks w s) (hn : s.numbering.vars.Nodup) {v : Variable} {i : Nat}
    (hv : e.numbering.byIndex? i = some v) :
    e.weights.get? i = some (Completion.weightsOf w v).1 ∧
      e.weights.get? (-i) = some (Completion.weightsOf w v).2 := by
  rw [h.numbering] at hv
  obtain ⟨hmem, rfl⟩ := (Numbering.byIndex?_eq_some_iff hn).mp hv
  have hlt := List.idxOf_lt_length_of_mem hmem
  have hweights := Completion.get?_weighVars (Completion.weightsOf w) s.numbering.vars hlt
  rw [List.getElem_idxOf] at hweights
  rw [h.weights]
  exact hweights

theorem forall₂_clauses (h : e.Tracks w s) (hn : s.numbering.vars.Nodup) :
    List.Forall₂ (List.Forall₂ (StandsFor e.numbering)) s.clauses.toList e.draft.toCnf.clauses := by
  rw [h.clauses.toCnf_eq, h.numbering]
  show List.Forall₂ _ _ (s.clauses.toList.map fun c => c.map (Completion.encode s.numbering))
  rw [List.forall₂_map_right_iff, List.forall₂_same]
  intro c hc
  rw [List.forall₂_map_right_iff, List.forall₂_same]
  exact fun x hx => standsFor_encode hn (h.numbered c hc x hx)

theorem consistent (h : e.Tracks w s) (hn : s.numbering.vars.Nodup) : e.Consistent w s where
  index?_iff v i := by
    rw [h.numbering, Numbering.index?_eq_some_iff, Numbering.byIndex?_eq_some_iff hn]
  isSome_byIndex?_iff := Numbering.isSome_byIndex?_iff e.numbering
  leaves x node hx := by
    obtain ⟨hnumbered, hleaf⟩ := h.leaves x node hx
    exact ⟨_, hleaf, standsFor_encode (h.numbering ▸ hn) hnumbered⟩
  clauses := h.forall₂_clauses hn
  isSome_get?_iff k := by
    rw [h.weights, h.numbering]
    exact Completion.isSome_get?_weighVars _ _ k
  atom _ _ hv := h.get?_weights hn hv
  body _ _ _ hv := h.get?_weights hn hv

end Encoder.Tracks

/-- **No call fails, and the tables stay consistent.** For any rules, weights and calls: all calls
succeed, the encoder has the CNF, the numbers and the weights of the completion, its tables are
consistent, and whatever is called after that succeeds and keeps all numbers. -/
theorem performAll_consistent (rules : RuleBase) (w : Weights Literal α)
    (calls : List Completion.Call) :
    ∃ e : Encoder α, (EncoderM.performAll w rules calls).runOn .empty = (.ok (), e) ∧
      e.compilation = (Completion.performAll rules calls).finish w ∧
      e.Consistent w (Completion.performAll rules calls) ∧
      ∀ more, ∃ e', (EncoderM.performAll w rules more).runOn e = (.ok (), e') ∧
        ∀ v i, e.numbering.index? v = some i → e'.numbering.index? v = some i := by
  obtain ⟨_, e, hrun, htracks, -, -⟩ := encodes_performAll rules (tracks_empty w) calls
  obtain ⟨_, hcompletes, -⟩ := Completion.exists_completes_reachable rules calls
  refine ⟨e, hrun, htracks.compilation_eq, htracks.consistent hcompletes.nodup_vars, fun more => ?_⟩
  obtain ⟨_, e', hrun', -, hlater, -⟩ := encodes_performAll rules htracks more
  refine ⟨e', hrun', fun v i hi => ?_⟩
  rw [Numbering.index?_of_prefix hlater.numbers (Numbering.index?_eq_some_iff.mp hi).1, hi]

end ProbLogic
