/-
# The clauses of a draft

A draft is changed by calls that make nodes, and calls that add a clause. Nodes
may be named before they exist, and a call may fail. Making a node changes no
other (`Extends`), and a clause is looked at when it is added. So the root stays
a conjunction of disjunctions of signed variables (`Represents`), and each call
adds at most one clause to them (`Represents.perform`).

For such a draft the value of the root and its variables are those of the
clauses, whatever other nodes there are.

Key definitions: `Call`, `performAll`, `IsClause`, `Represents`.
Key theorems: `Represents.perform`, `Represents.eval_eq`, `Represents.vars_eq`.
-/
import ProbLogic.Cnf.Draft
import Mathlib.Data.List.Forall2
import Mathlib.Data.List.Induction

namespace ProbLogic
namespace Draft

/-- A call on a draft. -/
inductive Call where
  | leaf (v : Int)
  | disjunction (parts : List Nat)
  | add (node : Nat)
  | addClause (c : Clause)
  deriving DecidableEq, Repr

namespace Call

/-- The signed variables that a call passes in. -/
def vars : Call → List Int
  | leaf v => [v]
  | disjunction _ | add _ => []
  | addClause c => c

/-- The draft after a call, whether the call fails or not. -/
def perform (d : Draft) : Call → Draft
  | leaf v => (d.leaf v).2
  | disjunction parts => (d.disjunction parts).2
  | add node => (d.add node).2
  | addClause c => (d.addClause c).2

end Call

/-- The draft after calls in turn. -/
def performAll (calls : List Call) : Draft := calls.foldl Call.perform empty

/-! ### What a draft represents -/

variable {d d' : Draft} {node : Nat} {v : Int} {c : Clause} {cs : List Clause}

/-- The node is a signed variable. -/
def IsLeaf (d : Draft) (node : Nat) (v : Int) : Prop := d.formula.nodes[node]? = some (.leaf v)

/-- The node is a disjunction of the signed variables of a clause. -/
def IsClause (d : Draft) (node : Nat) (c : Clause) : Prop :=
  ∃ parts, d.formula.nodes[node]? = some (.any parts) ∧ List.Forall₂ d.IsLeaf parts c

/-- The root is a conjunction of clauses. -/
def Represents (d : Draft) (cs : List Clause) : Prop :=
  ∃ nodes, d.formula.nodes[root]? = some (.all nodes) ∧ List.Forall₂ d.IsClause nodes cs

/-- All signed variables of the draft, also those of no clause, satisfy a predicate. -/
def LeavesIn (P : Int → Prop) (d : Draft) : Prop := ∀ node v, d.IsLeaf node v → P v

theorem IsLeaf.leafOf?_eq (h : d.IsLeaf node v) : d.leafOf? node = some v := by
  rw [leafOf?, h]

theorem IsClause.clauseOf_eq (h : d.IsClause node c) : d.clauseOf node = c := by
  obtain ⟨parts, hparts, hleaves⟩ := h
  rw [clauseOf, hparts]
  show parts.filterMap d.leafOf? = c
  clear hparts
  induction hleaves with
  | nil => rfl
  | cons hleaf _ ih => rw [List.filterMap_cons, hleaf.leafOf?_eq, ih]

theorem Represents.toCnf_eq (h : d.Represents cs) : d.toCnf = ⟨cs⟩ := by
  obtain ⟨nodes, hroot, hclauses⟩ := h
  have hnodes : d.clauseNodes = nodes := by rw [clauseNodes, hroot]
  rw [toCnf, hnodes, Cnf.mk.injEq]
  clear hroot hnodes
  induction hclauses with
  | nil => rfl
  | cons hclause _ ih => rw [List.map_cons, hclause.clauseOf_eq, ih]

theorem exists_of_forall₂ {α β : Type} {R : α → β → Prop} {xs : List α} {ys : List β}
    (h : List.Forall₂ R xs ys) {y : β} (hy : y ∈ ys) : ∃ x ∈ xs, R x y := by
  induction h with
  | nil => cases hy
  | cons hR _ ih =>
    rcases List.mem_cons.mp hy with rfl | hy
    · exact ⟨_, List.mem_cons_self, hR⟩
    · obtain ⟨x, hx, hRx⟩ := ih hy
      exact ⟨x, List.mem_cons_of_mem _ hx, hRx⟩

theorem Represents.forall_mem {P : Int → Prop} (h : d.Represents cs) (hd : d.LeavesIn P) :
    ∀ c ∈ cs, ∀ v ∈ c, P v := by
  obtain ⟨nodes, -, hclauses⟩ := h
  intro c hc v hv
  obtain ⟨node, -, parts, -, hleaves⟩ := exists_of_forall₂ hclauses hc
  obtain ⟨part, -, hleaf⟩ := exists_of_forall₂ hleaves hv
  exact hd part v hleaf

theorem represents_empty : empty.Represents [] := ⟨[], rfl, .nil⟩

theorem leavesIn_empty (P : Int → Prop) : empty.LeavesIn P := by
  intro node v h
  have hnodes : empty.formula.nodes = #[.all []] := rfl
  rw [IsLeaf, hnodes] at h
  cases node with
  | zero => cases h
  | succ n => cases h

/-! ### Making nodes -/

/-- All nodes are still there. -/
def Extends (d d' : Draft) : Prop :=
  ∀ (i : Nat) n, d.formula.nodes[i]? = some n → d'.formula.nodes[i]? = some n

theorem Extends.refl (d : Draft) : d.Extends d := fun _ _ h => h

theorem Extends.trans {d₁ d₂ d₃ : Draft} (h : d₁.Extends d₂) (h' : d₂.Extends d₃) :
    d₁.Extends d₃ := fun i n hi => h' i n (h i n hi)

theorem IsLeaf.mono (h : d.IsLeaf node v) (hd : d.Extends d') : d'.IsLeaf node v := hd _ _ h

theorem IsClause.mono (h : d.IsClause node c) (hd : d.Extends d') : d'.IsClause node c := by
  obtain ⟨parts, hparts, hleaves⟩ := h
  exact ⟨parts, hd _ _ hparts, hleaves.imp fun _ _ hleaf => hleaf.mono hd⟩

theorem Represents.mono (h : d.Represents cs) (hd : d.Extends d') : d'.Represents cs := by
  obtain ⟨nodes, hroot, hclauses⟩ := h
  exact ⟨nodes, hd _ _ hroot, hclauses.imp fun _ _ hclause => hclause.mono hd⟩

theorem extends_push (d : Draft) (n : Node) : d.Extends ⟨⟨d.formula.nodes.push n⟩⟩ := by
  intro i m hi
  have hlt : i < d.formula.nodes.size := (Array.getElem?_eq_some_iff.mp hi).1
  rw [Array.getElem?_push, if_neg (Nat.ne_of_lt hlt)]
  exact hi

theorem LeavesIn.push {P : Int → Prop} (h : d.LeavesIn P) {n : Node}
    (hn : ∀ v, n = .leaf v → P v) : LeavesIn P ⟨⟨d.formula.nodes.push n⟩⟩ := by
  intro i v hi
  rw [IsLeaf, Array.getElem?_push] at hi
  split at hi
  · exact hn v (Option.some.inj hi)
  · exact h i v hi

theorem leaf_zero (d : Draft) : d.leaf 0 = (.error .zeroVariable, d) := rfl

theorem leaf_of_ne_zero (d : Draft) (hv : v ≠ 0) :
    d.leaf v = (.ok d.formula.nodes.size, ⟨⟨d.formula.nodes.push (.leaf v)⟩⟩) := by
  rw [leaf, Formula.leaf, if_neg hv]
  rfl

theorem extends_leaf (d : Draft) (v : Int) : d.Extends (d.leaf v).2 := by
  by_cases hv : v = 0
  · rw [hv, leaf_zero]
    exact .refl d
  · rw [d.leaf_of_ne_zero hv]
    exact d.extends_push _

theorem LeavesIn.leaf {P : Int → Prop} (h : d.LeavesIn P) (hP : v ≠ 0 → P v) :
    (d.leaf v).2.LeavesIn P := by
  by_cases hv : v = 0
  · rw [hv, leaf_zero]
    exact h
  · rw [d.leaf_of_ne_zero hv]
    exact h.push fun u hu => Node.leaf.inj hu ▸ hP hv

theorem leaves_zero_cons (d : Draft) (c : Clause) :
    d.leaves (0 :: c) = (.error .zeroVariable, d) := rfl

theorem leaves_cons (d : Draft) (hv : v ≠ 0) (c : Clause) :
    d.leaves (v :: c) = ((d.leaf v).2.leaves c).map
      (fun r => r.map (d.formula.nodes.size :: ·)) id := by
  rw [leaves, d.leaf_of_ne_zero hv]
  dsimp only
  rcases leaves ⟨⟨d.formula.nodes.push (.leaf v)⟩⟩ c with ⟨_ | _, _⟩ <;> rfl

theorem extends_leaves (d : Draft) (c : Clause) : d.Extends (d.leaves c).2 := by
  induction c generalizing d with
  | nil => exact .refl d
  | cons v c ih =>
    by_cases hv : v = 0
    · rw [hv, leaves_zero_cons]
      exact .refl d
    · rw [d.leaves_cons hv]
      exact (d.extends_leaf v).trans (ih _)

theorem LeavesIn.leaves {P : Int → Prop} (h : d.LeavesIn P) (hP : ∀ v ∈ c, v ≠ 0 → P v) :
    (d.leaves c).2.LeavesIn P := by
  induction c generalizing d with
  | nil => exact h
  | cons v c ih =>
    by_cases hv : v = 0
    · rw [hv, leaves_zero_cons]
      exact h
    · rw [d.leaves_cons hv]
      exact ih (h.leaf (hP v List.mem_cons_self)) fun u hu => hP u (List.mem_cons_of_mem _ hu)

/-- Nodes are made for all signed variables if none is zero. -/
theorem exists_leaves (d : Draft) (hc : 0 ∉ c) :
    ∃ parts, (d.leaves c).1 = .ok parts ∧ List.Forall₂ (d.leaves c).2.IsLeaf parts c := by
  induction c generalizing d with
  | nil => exact ⟨[], rfl, .nil⟩
  | cons v c ih =>
    obtain ⟨hv, hc⟩ := not_or.mp (mt List.mem_cons.mpr hc)
    have hv : v ≠ 0 := fun h => hv h.symm
    obtain ⟨parts, hparts, hleaves⟩ := ih (d.leaf v).2 hc
    have hnew : (d.leaf v).2.IsLeaf d.formula.nodes.size v := by
      rw [d.leaf_of_ne_zero hv, IsLeaf, Array.getElem?_push_size]
    refine ⟨d.formula.nodes.size :: parts, ?_, ?_⟩
    · rw [d.leaves_cons hv, Prod.map_fst, hparts]
      rfl
    · rw [d.leaves_cons hv]
      exact .cons (hnew.mono (extends_leaves _ c)) hleaves

/-- No nodes are named if some variable is zero. -/
theorem leaves_of_zero_mem (d : Draft) (hc : 0 ∈ c) :
    (d.leaves c).1 = .error .zeroVariable := by
  induction c generalizing d with
  | nil => cases hc
  | cons v c ih =>
    by_cases hv : v = 0
    · rw [hv, leaves_zero_cons]
    · have hc : 0 ∈ c := (List.mem_cons.mp hc).resolve_left fun h => hv h.symm
      rw [d.leaves_cons hv, Prod.map_fst, ih _ hc]
      rfl

/-! ### Adding clauses -/

theorem get_eq_ok {f : Formula} {n : Node} (h : f.nodes[node]? = some n) : f.get node = .ok n := by
  rw [Formula.get, h]

theorem checkLeaf_iff : d.checkLeaf node = .ok () ↔ ∃ v, d.IsLeaf node v := by
  unfold checkLeaf Formula.get IsLeaf
  rcases d.formula.nodes[node]? with _ | _ | _ | _ <;> simp [bind, Except.bind, pure, Except.pure]

theorem forM_checkLeaf_iff {parts : List Nat} :
    parts.forM d.checkLeaf = .ok () ↔ ∃ c, List.Forall₂ d.IsLeaf parts c := by
  induction parts with
  | nil => exact ⟨fun _ => ⟨[], .nil⟩, fun _ => rfl⟩
  | cons part parts ih =>
    have hbind : (part :: parts).forM d.checkLeaf = .ok () ↔
        d.checkLeaf part = .ok () ∧ parts.forM d.checkLeaf = .ok () := by
      have hforM : (part :: parts).forM d.checkLeaf =
          d.checkLeaf part >>= fun _ => parts.forM d.checkLeaf := rfl
      rw [hforM]
      cases d.checkLeaf part <;> simp [bind, Except.bind]
    rw [hbind, checkLeaf_iff, ih]
    constructor
    · intro h
      obtain ⟨⟨v, hv⟩, c, hc⟩ := h
      exact ⟨v :: c, .cons hv hc⟩
    · intro h
      obtain ⟨_, h⟩ := h
      cases h with
      | cons hv hc => exact ⟨⟨_, hv⟩, _, hc⟩

/-- A node is accepted as a clause if it is a disjunction of signed variables. -/
theorem checkClause_iff : d.checkClause node = .ok () ↔ ∃ c, d.IsClause node c := by
  unfold checkClause Formula.get IsClause
  rcases d.formula.nodes[node]? with _ | _ | _ | parts
  case some.any =>
    simp only [bind, Except.bind, Option.some.injEq, Node.any.injEq, exists_eq_left']
    exact forM_checkLeaf_iff
  all_goals simp [bind, Except.bind]

/-- When the root is replaced, the clauses and signed variables are still there. -/
theorem getElem?_setRoot {nodes : List Nat} (hroot : d.formula.nodes[root]? = some (.all nodes))
    {n : Node} (hn : ∀ parts, n ≠ .all parts) {i : Nat} (hi : d.formula.nodes[i]? = some n)
    (m : Node) : (d.formula.nodes.setIfInBounds root m)[i]? = some n := by
  by_cases hi0 : root = i
  · rw [← hi0, hroot] at hi
    exact absurd (Option.some.inj hi).symm (hn nodes)
  · rw [Array.getElem?_setIfInBounds_ne hi0, hi]

theorem add_of_isClause (h : d.Represents cs) (hc : d.IsClause node c) :
    (d.add node).1 = .ok () ∧ (d.add node).2.Represents (cs ++ [c]) := by
  obtain ⟨nodes, hroot, hclauses⟩ := h
  have hnodes : d.clauseNodes = nodes := by rw [clauseNodes, hroot]
  have hsize : root < d.formula.nodes.size := (Array.getElem?_eq_some_iff.mp hroot).1
  rw [add, checkClause_iff.mpr ⟨c, hc⟩, hnodes]
  have hclause : ∀ n c, d.IsClause n c →
      IsClause ⟨⟨d.formula.nodes.setIfInBounds root (.all (nodes ++ [node]))⟩⟩ n c := by
    intro n c hc
    obtain ⟨parts, hparts, hleaves⟩ := hc
    exact ⟨parts, getElem?_setRoot hroot (by simp) hparts _,
      hleaves.imp fun p v hp => getElem?_setRoot hroot (by simp) hp _⟩
  refine ⟨rfl, nodes ++ [node], ?_, ?_⟩
  · simp [hsize]
  · exact List.rel_append (hclauses.imp hclause) (.cons (hclause node c hc) .nil)

theorem Represents.isLeaf_add (h : d.Represents cs) (hleaf : d.IsLeaf node v) (n : Nat) :
    (d.add n).2.IsLeaf node v := by
  obtain ⟨nodes, hroot, -⟩ := h
  unfold add
  split
  · exact hleaf
  · exact getElem?_setRoot hroot (by simp) hleaf _

theorem add_of_not_isClause (hc : ¬ ∃ c, d.IsClause node c) :
    ∃ e, d.add node = (.error e, d) := by
  rw [← checkClause_iff] at hc
  cases h : d.checkClause node with
  | error e => exact ⟨e, by rw [add, h]⟩
  | ok u => exact absurd h hc

theorem LeavesIn.add {P : Int → Prop} (h : d.LeavesIn P) (node : Nat) :
    (d.add node).2.LeavesIn P := by
  unfold Draft.add
  split
  · exact h
  · intro i v hi
    rw [IsLeaf, Array.getElem?_setIfInBounds] at hi
    split at hi
    · split at hi <;> cases hi
    · exact h i v hi

/-- A clause without zero is added. -/
theorem addClause_of_zero_not_mem (h : d.Represents cs) (hc : 0 ∉ c) :
    (d.addClause c).1 = .ok () ∧ (d.addClause c).2.Represents (cs ++ [c]) := by
  obtain ⟨parts, hparts, hleaves⟩ := d.exists_leaves hc
  have hd := d.extends_leaves c
  unfold addClause
  generalize d.leaves c = r at hparts hleaves hd
  obtain ⟨r, d'⟩ := r
  have hr : r = .ok parts := hparts
  subst hr
  have hpush := d'.extends_push (.any parts)
  apply add_of_isClause (h.mono (hd.trans hpush))
  exact ⟨parts, Array.getElem?_push_size, hleaves.imp fun _ _ hleaf => hleaf.mono hpush⟩

/-- A clause with a zero is not added. -/
theorem addClause_of_zero_mem (h : d.Represents cs) (hc : 0 ∈ c) :
    (d.addClause c).1 = .error .zeroVariable ∧ (d.addClause c).2.Represents cs := by
  have herror := d.leaves_of_zero_mem hc
  have hd := d.extends_leaves c
  unfold addClause
  generalize d.leaves c = r at herror hd
  obtain ⟨r, d'⟩ := r
  have hr : r = .error .zeroVariable := herror
  subst hr
  exact ⟨rfl, h.mono hd⟩

theorem LeavesIn.addClause {P : Int → Prop} (h : d.LeavesIn P) (hP : ∀ v ∈ c, v ≠ 0 → P v) :
    (d.addClause c).2.LeavesIn P := by
  have hleaves := h.leaves hP
  unfold Draft.addClause
  generalize d.leaves c = r at hleaves
  obtain ⟨_ | parts, d'⟩ := r
  · exact hleaves
  · apply LeavesIn.add
    exact hleaves.push fun v hv => by cases hv

/-! ### Sequences of calls -/

/-- **One call** adds at most a clause. -/
theorem Represents.perform (h : d.Represents cs) (call : Call) :
    ∃ new, (call.perform d).Represents (cs ++ new) ∧ new.length ≤ 1 := by
  have hsame : ∀ {d'}, Represents d' cs → ∃ new, Represents d' (cs ++ new) ∧ new.length ≤ 1 :=
    fun hd => ⟨[], by rwa [List.append_nil], Nat.zero_le _⟩
  cases call with
  | leaf v => exact hsame (h.mono (d.extends_leaf v))
  | disjunction parts => exact hsame (h.mono (d.extends_push (.any parts)))
  | add node =>
    by_cases hc : ∃ c, d.IsClause node c
    · obtain ⟨c, hc⟩ := hc
      exact ⟨[c], (add_of_isClause h hc).2, Nat.le_refl 1⟩
    · obtain ⟨e, he⟩ := add_of_not_isClause hc
      rw [Call.perform, he]
      exact hsame h
  | addClause c =>
    by_cases hc : 0 ∈ c
    · exact hsame (addClause_of_zero_mem h hc).2
    · exact ⟨[c], (addClause_of_zero_not_mem h hc).2, Nat.le_refl 1⟩

theorem LeavesIn.perform {P : Int → Prop} (h : d.LeavesIn P) (call : Call)
    (hP : ∀ v ∈ call.vars, v ≠ 0 → P v) : (call.perform d).LeavesIn P := by
  cases call with
  | leaf v => exact h.leaf (hP v List.mem_cons_self)
  | disjunction parts => exact h.push fun v hv => by cases hv
  | add node => exact h.add node
  | addClause c => exact h.addClause hP

/-- **A sequence of calls** leaves a draft that represents clauses. -/
theorem exists_represents_performAll (calls : List Call) :
    ∃ cs, (performAll calls).Represents cs := by
  induction calls using List.reverseRecOn with
  | nil => exact ⟨[], represents_empty⟩
  | append_singleton calls call ih =>
    obtain ⟨cs, h⟩ := ih
    obtain ⟨new, h', -⟩ := h.perform call
    rw [performAll, List.foldl_append]
    exact ⟨cs ++ new, h'⟩

theorem leavesIn_performAll {P : Int → Prop} {calls : List Call}
    (hP : ∀ call ∈ calls, ∀ v ∈ call.vars, v ≠ 0 → P v) : (performAll calls).LeavesIn P := by
  induction calls using List.reverseRecOn with
  | nil => exact leavesIn_empty P
  | append_singleton calls call ih =>
    rw [performAll, List.foldl_append]
    apply LeavesIn.perform (ih fun c hc => hP c (List.mem_append_left _ hc))
    exact hP call (List.mem_append_right _ (List.mem_singleton_self call))

/-! ### Values and variables -/

section Values

variable {α β : Type} {xs : List α} {ys : List β}

theorem anyM_eq_ok {f : α → Except FormulaError Bool} {g : β → Bool}
    (h : List.Forall₂ (fun x y => f x = .ok (g y)) xs ys) : xs.anyM f = .ok (ys.any g) := by
  induction h with
  | nil => rfl
  | @cons x y _ _ hx _ ih =>
    rw [List.anyM, hx, List.any_cons]
    cases hy : g y
    · exact ih
    · rfl

theorem allM_eq_ok {f : α → Except FormulaError Bool} {g : β → Bool}
    (h : List.Forall₂ (fun x y => f x = .ok (g y)) xs ys) : xs.allM f = .ok (ys.all g) := by
  induction h with
  | nil => rfl
  | @cons x y _ _ hx _ ih =>
    rw [List.allM, hx, List.all_cons]
    cases hy : g y
    · rfl
    · exact ih

theorem mapM_eq_ok {γ : Type} {f : α → Except FormulaError γ} {g : β → γ}
    (h : List.Forall₂ (fun x y => f x = .ok (g y)) xs ys) : xs.mapM f = .ok (ys.map g) := by
  induction h with
  | nil => rfl
  | cons hx _ ih =>
    rw [List.mapM_cons, hx, ih]
    rfl

end Values

theorem IsLeaf.evalWithin_eq (h : d.IsLeaf node v) (t : Assignment) (k : Nat) :
    d.formula.evalWithin t (k + 1) node = .ok (t.satisfies v) := by
  rw [Formula.evalWithin, get_eq_ok h]
  rfl

theorem IsClause.evalWithin_eq (h : d.IsClause node c) (t : Assignment) (k : Nat) :
    d.formula.evalWithin t (k + 2) node = .ok (c.eval t) := by
  obtain ⟨parts, hparts, hleaves⟩ := h
  rw [Formula.evalWithin, get_eq_ok hparts]
  exact anyM_eq_ok (hleaves.imp fun _ _ hleaf => hleaf.evalWithin_eq t k)

theorem IsLeaf.varsWithin_eq (h : d.IsLeaf node v) (k : Nat) :
    d.formula.varsWithin (k + 1) node = .ok [v.natAbs] := by
  rw [Formula.varsWithin, get_eq_ok h]
  rfl

theorem varsWithin_of_parts {f : Formula} {n : Node} {parts : List Nat} {vs : List (List Nat)}
    {k : Nat} (hn : f.nodes[node]? = some n) (hparts : n = .all parts ∨ n = .any parts)
    (hvs : parts.mapM (f.varsWithin k) = .ok vs) :
    f.varsWithin (k + 1) node = .ok (Ascending.ofList vs.flatten) := by
  rw [Formula.varsWithin, get_eq_ok hn]
  rcases hparts with rfl | rfl <;> simp only [bind, Except.bind, hvs] <;> rfl

theorem IsClause.varsWithin_eq (h : d.IsClause node c) (k : Nat) :
    d.formula.varsWithin (k + 2) node =
      .ok (Ascending.ofList (c.map fun v => [v.natAbs]).flatten) := by
  obtain ⟨parts, hparts, hleaves⟩ := h
  apply varsWithin_of_parts hparts (.inr rfl)
  exact mapM_eq_ok (hleaves.imp fun _ _ hleaf => hleaf.varsWithin_eq k)

/-- A draft with a clause has a node besides the root, so the bound on the depth is not reached. -/
theorem Represents.exists_depth (h : d.Represents cs) (hcs : cs ≠ []) :
    ∃ k, d.formula.nodes.size = k + 2 := by
  obtain ⟨nodes, hroot, hclauses⟩ := h
  obtain ⟨c, hc⟩ := List.exists_mem_of_ne_nil cs hcs
  obtain ⟨node, -, parts, hparts, -⟩ := exists_of_forall₂ hclauses hc
  have hlt : node < d.formula.nodes.size := (Array.getElem?_eq_some_iff.mp hparts).1
  have hne : node ≠ root := by
    intro heq
    rw [heq, hroot] at hparts
    cases hparts
  unfold root at hne
  exact ⟨d.formula.nodes.size - 2, by omega⟩

/-- **The value of the root** is that of the clauses. -/
theorem Represents.eval_eq (h : d.Represents cs) (t : Assignment) :
    d.formula.eval t root = .ok (Cnf.eval t ⟨cs⟩) := by
  have hdepth := h.exists_depth
  obtain ⟨nodes, hroot, hclauses⟩ := h
  rw [Formula.eval, Formula.evalWithin, get_eq_ok hroot]
  apply allM_eq_ok
  by_cases hcs : cs = []
  · subst hcs
    cases hclauses
    exact .nil
  · obtain ⟨k, hk⟩ := hdepth hcs
    rw [hk]
    exact hclauses.imp fun _ _ hclause => hclause.evalWithin_eq t k

/-- **The variables of the root** are those of the clauses. -/
theorem Represents.vars_eq (h : d.Represents cs) :
    d.formula.vars root = .ok (Cnf.vars ⟨cs⟩) := by
  have hdepth := h.exists_depth
  obtain ⟨nodes, hroot, hclauses⟩ := h
  have hparts : nodes.mapM (d.formula.varsWithin d.formula.nodes.size) =
      .ok (cs.map fun c => Ascending.ofList (c.map fun v => [v.natAbs]).flatten) := by
    apply mapM_eq_ok
    by_cases hcs : cs = []
    · subst hcs
      cases hclauses
      exact .nil
    · obtain ⟨k, hk⟩ := hdepth hcs
      rw [hk]
      exact hclauses.imp fun _ _ hclause => hclause.varsWithin_eq k
  rw [Formula.vars, varsWithin_of_parts hroot (.inl rfl) hparts]
  congr 1
  apply Ascending.eq_of_mem_iff (Ascending.isAscending_ofList _) (Ascending.isAscending_ofList _)
  intro v
  simp [Ascending.mem_ofList, eq_comm]

theorem Represents.draftEval_eq (h : d.Represents cs) (t : Assignment) :
    d.eval t = Cnf.eval t ⟨cs⟩ := by
  rw [Draft.eval, h.eval_eq t]

end Draft
end ProbLogic
