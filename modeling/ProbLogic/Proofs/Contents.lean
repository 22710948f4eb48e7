/-
# The contents of a completion, whatever the order of the calls

Numbers and clauses come up in the order of a traversal that starts where the
calls say and returns early on what it has met. But a completion consists of
the variables and the definitions of the atoms that are reached, and of one
clause for each call that adds one. So its size is known beforehand, as a sum
over these atoms (`size_performAll`), and linear in the rules.

Two completions of the same atoms have the same variables, and the same clauses
over them (`Completes.perm`). They differ in the numbers only: to renumber a
signed number is to look up its variable in one numbering, and the number of
that in the other (`Numbering.renumber`). What was encoded with one numbering is
then encoded with the other (`renumber_encode`). This holds for seeds in any
order, with any repetitions and polarities (`renumber_completion`).

Key definitions: `clauseCount`, `bodyVariableCount`, `Numbering.renumber`, `Compilation.renumber`.
Key theorems: `length_definition`, `size_performAll`, `Completes.perm`, `renumber_encode`,
`mem_weighVars`, `renumber_completion`.
-/
import Mathlib.Algebra.BigOperators.Group.Finset.Basic
import ProbLogic.Proofs.Calls
import ProbLogic.Proofs.RuleBase

namespace ProbLogic
namespace Completion

/-! ### Sizes -/

/-- How many clauses an atom needs: none without rules, those of one equivalence if it has one
body, and of several bodies two more than literals for each and one for all of them. -/
def clauseCount (rules : RuleBase) (a : Atom) : Nat :=
  match rules.bodies a with
  | [] => 0
  | [body] => body.length + 1
  | bodies => 1 + (bodies.map fun body => body.length + 2).sum

/-- How many of the bodies of an atom have a variable: all, if there are at least two. -/
def bodyVariableCount (rules : RuleBase) (a : Atom) : Nat :=
  if 2 ≤ (rules.bodies a).length then (rules.bodies a).length else 0

/-- Whether a call adds a clause of its own. -/
def Call.addsClause : Call → Bool
  | complete _ => false
  | deny _ => true
  | constrain _ => true

section Size

variable {rules : RuleBase} {a : Atom}

theorem length_conjunctionClauses (v : Variable) (body : Body) :
    (conjunctionClauses v body).length = body.length + 1 := by
  simp [conjunctionClauses]

theorem length_alternativeClauses (a : Atom) (b : Body × Nat) :
    (alternativeClauses a b).length = b.1.length + 2 := by
  simp [alternativeClauses, length_conjunctionClauses]

/-- The clauses of all bodies of an atom with several. -/
theorem length_flatMap_alternativeClauses (a : Atom) (bodies : List Body) :
    (bodies.zipIdx.flatMap (alternativeClauses a)).length =
      (bodies.map fun body => body.length + 2).sum := by
  calc (bodies.zipIdx.flatMap (alternativeClauses a)).length
      = (bodies.zipIdx.map fun b => b.1.length + 2).sum := by
        rw [List.length_flatMap, List.map_congr_left fun b _ => length_alternativeClauses a b]
    _ = ((bodies.zipIdx.map Prod.fst).map fun body => body.length + 2).sum := by
        rw [List.map_map]
        rfl
    _ = (bodies.map fun body => body.length + 2).sum := by
        rw [List.zipIdx_map_fst]

/-- **The clauses of a definition** are as many as its bodies tell. -/
theorem length_definition (rules : RuleBase) (a : Atom) :
    (definition rules a).length = clauseCount rules a := by
  unfold clauseCount
  split
  · next h => simp [definition, h]
  · next body h => simp [definition, h, length_conjunctionClauses]
  · next h₀ h₁ =>
    rw [definition_of_several h₀ h₁, List.length_append, length_flatMap_alternativeClauses,
      List.length_singleton, Nat.add_comm]

theorem length_varsOf (rules : RuleBase) (a : Atom) :
    (varsOf rules a).length = 1 + bodyVariableCount rules a := by
  unfold bodyVariableCount
  by_cases h₀ : rules.bodies a = []
  · simp [varsOf, h₀]
  by_cases h₁ : ∃ body, rules.bodies a = [body]
  · obtain ⟨body, hbody⟩ := h₁
    simp [varsOf, hbody]
  · have h₁ : ∀ body, rules.bodies a ≠ [body] := fun body h => h₁ ⟨body, h⟩
    have hpos : (rules.bodies a).length ≠ 0 := by simpa using h₀
    have hone : (rules.bodies a).length ≠ 1 := fun h => by
      obtain ⟨body, hbody⟩ := List.length_eq_one_iff.mp h
      exact h₁ body hbody
    rw [varsOf_of_several h₀ h₁, if_pos (by omega)]
    simp [Nat.add_comm]

theorem length_clauses_of_calls (calls : List Call) :
    (calls.flatMap Call.clauses).length = calls.countP Call.addsClause := by
  induction calls with
  | nil => rfl
  | cons c calls ih =>
    rw [List.flatMap_cons, List.length_append, ih, List.countP_cons]
    cases c <;> simp [Call.clauses, Call.addsClause, Nat.add_comm]

variable {α : Type} [Scalar α]

/-- **The size of a completion.** For any rules, with or without loops, and any calls, a finite
set of atoms is reached. The clauses are as many as these atoms need, and one for each call that
denies an atom or adds a clause. The variables are these atoms, and the bodies of those that have
at least two. -/
theorem size_performAll (rules : RuleBase) (w : Weights Literal α) (calls : List Call) :
    let c := (performAll rules calls).finish w
    ∃ atoms : Finset Atom, (∀ a, a ∈ atoms ↔ Reachable rules calls a) ∧
      c.cnf.clauses.length = (∑ a ∈ atoms, clauseCount rules a) + calls.countP Call.addsClause ∧
      c.numbering.vars.length = atoms.card + ∑ a ∈ atoms, bodyVariableCount rules a := by
  intro c
  obtain ⟨atoms, h, hatoms⟩ := exists_completes_reachable rules calls
  have hsum : ∀ f : Atom → Nat, ∑ a ∈ atoms.toFinset, f a = (atoms.map f).sum := fun f =>
    List.sum_toFinset f h.grows.nodup
  refine ⟨atoms.toFinset, fun a => by rw [List.mem_toFinset, hatoms], ?_, ?_⟩
  · calc c.cnf.clauses.length = (performAll rules calls).clauses.toList.length := List.length_map _
      _ = (calls.flatMap Call.clauses ++ atoms.flatMap (definition rules)).length :=
          h.perm_clauses.length_eq
      _ = calls.countP Call.addsClause + (atoms.map (clauseCount rules)).sum := by
          rw [List.length_append, length_clauses_of_calls, List.length_flatMap,
            List.map_congr_left fun a _ => length_definition rules a]
      _ = ∑ a ∈ atoms.toFinset, clauseCount rules a + calls.countP Call.addsClause := by
          rw [hsum, Nat.add_comm]
  · calc c.numbering.vars.length = (atoms.flatMap (varsOf rules)).length := h.perm_vars.length_eq
      _ = (atoms.map fun a => 1 + bodyVariableCount rules a).sum := by
          rw [List.length_flatMap, List.map_congr_left fun a _ => length_varsOf rules a]
      _ = ∑ a ∈ atoms.toFinset, (1 + bodyVariableCount rules a) := (hsum _).symm
      _ = atoms.toFinset.card + ∑ a ∈ atoms.toFinset, bodyVariableCount rules a := by
          rw [Finset.sum_add_distrib, Finset.card_eq_sum_ones]

end Size

/-! ### The same atoms -/

section Perm

variable {rules : RuleBase} {reached reached' : Atom → Prop} {s s' : Completion}
  {atoms atoms' : List Atom} {extra extra' : List (List SignedVariable)}

/-- **The same atoms give the same completion**, up to the order of variables and clauses. -/
theorem Completes.perm (h : Completes rules reached s atoms extra)
    (h' : Completes rules reached' s' atoms' extra') (hatoms : ∀ a, a ∈ atoms ↔ a ∈ atoms')
    (hextra : extra.Perm extra') :
    s.numbering.vars.Perm s'.numbering.vars ∧ s.clauses.toList.Perm s'.clauses.toList := by
  have hperm : atoms.Perm atoms' :=
    (List.perm_ext_iff_of_nodup h.grows.nodup h'.grows.nodup).mpr hatoms
  constructor
  · exact h.perm_vars.trans ((hperm.flatMap_right _).trans h'.perm_vars.symm)
  · exact h.perm_clauses.trans ((hextra.append (hperm.flatMap_right _)).trans h'.perm_clauses.symm)

theorem foldl_complete_eq_performAll (rules : RuleBase) (seeds : List Literal) :
    seeds.foldl (fun s l => s.complete rules l.atom) .empty =
      performAll rules (seeds.map Call.complete) := by
  unfold performAll
  rw [List.foldl_map]
  rfl

theorem reachable_seeds_iff {seeds : List Literal} {a : Atom} :
    Reachable rules (seeds.map Call.complete) a ↔
      ∃ b ∈ seeds.map Literal.atom, rules.toRules.Reaches b a := by
  simp [Reachable, Call.atoms]

end Perm
end Completion

/-! ### Renumbering -/

variable {α : Type}

/-- The signed number that the variable of a signed number has in another numbering. What is not
the number of a variable stays as it is. -/
def Numbering.renumber (n n' : Numbering) (k : Int) : Int :=
  match n.byIndex? k.natAbs with
  | some v => Completion.encode n' (v, decide (0 < k))
  | none => k

/-- The same CNF and weights over the numbers of another numbering. -/
def Compilation.renumber (c : Compilation α) (n : Numbering) : Compilation α where
  cnf := ⟨c.cnf.clauses.map fun clause => clause.map (c.numbering.renumber n)⟩
  numbering := n
  weights := Weights.empty.insertAll
    (c.weights.entries.map fun e => (c.numbering.renumber n e.1, e.2))

namespace Completion

variable {n : Numbering} {v : Variable}

theorem encode_of_mem (h : v ∈ n.vars) (p : Bool) :
    encode n (v, p) = if p then ((n.vars.idxOf v + 1 : Nat) : Int)
      else -((n.vars.idxOf v + 1 : Nat) : Int) := by
  unfold encode
  rw [Numbering.index?_of_mem h]
  rfl

/-- **Renumbering is encoding again** with the other numbering. -/
theorem renumber_encode (hn : n.vars.Nodup) (n' : Numbering) {x : SignedVariable}
    (hx : x.1 ∈ n.vars) : n.renumber n' (encode n x) = encode n' x := by
  have hvar : n.byIndex? (encode n x).natAbs = some x.1 := by
    rw [Numbering.byIndex?_eq_some_iff hn]
    exact ⟨hx, natAbs_encode hx⟩
  have hsign : decide (0 < encode n x) = x.2 := by
    rw [Bool.eq_iff_iff, decide_eq_true_eq, encode_pos_iff hx]
  unfold Numbering.renumber
  rw [hvar, hsign]

theorem isAscending_weighVars (f : Variable → α × α) (vs : List Variable) :
    Ascending.IsAscending ((weighVars f vs).entries.map Prod.fst) := by
  induction vs using List.reverseRecOn with
  | nil => exact List.Pairwise.nil
  | append_singleton vs v ih =>
    rw [weighVars_append]
    unfold Weights.insertPair Weights.insert
    rw [Ascending.map_fst_put, Ascending.map_fst_put]
    exact Ascending.isAscending_insert (Ascending.isAscending_insert ih)

/-- The entries of a table for numbers are the weights of both signs of each variable. -/
theorem mem_weighVars (hn : n.vars.Nodup) (f : Variable → α × α) {e : Int × α} :
    e ∈ (weighVars f n.vars).entries ↔
      ∃ v ∈ n.vars, ∃ p, e = (encode n (v, p), if p then (f v).1 else (f v).2) := by
  rw [Ascending.mem_iff_get? (isAscending_weighVars f n.vars)]
  constructor
  · intro he
    have hbounds := (isSome_get?_weighVars f n.vars e.1).mp (Option.isSome_of_eq_some he)
    obtain ⟨i, hi⟩ : ∃ i, e.1.natAbs = i + 1 := ⟨e.1.natAbs - 1, by omega⟩
    have hlt : i < n.vars.length := by omega
    have hidx : n.vars.idxOf n.vars[i] = i := hn.idxOf_getElem i hlt
    obtain ⟨hpos, hneg⟩ := get?_weighVars f n.vars hlt
    refine ⟨n.vars[i], List.getElem_mem hlt, decide (0 < e.1), ?_⟩
    rw [encode_of_mem (List.getElem_mem hlt), hidx]
    by_cases hsign : 0 < e.1
    · have hkey : e.1 = (i + 1 : Nat) := by omega
      rw [hkey] at he
      have hval : (f n.vars[i]).1 = e.2 := Option.some.inj (hpos.symm.trans he)
      exact Prod.ext (by simp [hkey]) (by simp [hsign, hval])
    · have hkey : e.1 = -(i + 1 : Nat) := by omega
      rw [hkey] at he
      have hval : (f n.vars[i]).2 = e.2 := Option.some.inj (hneg.symm.trans he)
      exact Prod.ext (by simpa [hsign] using hkey) (by simp [hsign, hval])
  · intro he
    obtain ⟨v, hv, p, rfl⟩ := he
    have hlt := List.idxOf_lt_length_of_mem hv
    obtain ⟨hpos, hneg⟩ := get?_weighVars f n.vars hlt
    rw [List.getElem_idxOf] at hpos hneg
    rw [encode_of_mem hv]
    cases p with
    | true => exact hpos
    | false => exact hneg

variable [Scalar α]

/-- Completions with the same variables and clauses differ in the numbers only. -/
theorem renumber_finish {s s' : Completion} (hn : s.numbering.vars.Nodup)
    (hvars : s.numbering.vars.Perm s'.numbering.vars)
    (hclauses : s.clauses.toList.Perm s'.clauses.toList)
    (hnumbered : ∀ c ∈ s.clauses.toList, ∀ x ∈ c, x.1 ∈ s.numbering.vars)
    (w : Weights Literal α) :
    ((s.finish w).renumber s'.numbering).cnf.clauses.Perm (s'.finish w).cnf.clauses ∧
      ((s.finish w).renumber s'.numbering).weights = (s'.finish w).weights := by
  constructor
  · show ((s.clauses.toList.map fun c => c.map (encode s.numbering)).map
      fun c => c.map (s.numbering.renumber s'.numbering)).Perm
        (s'.clauses.toList.map fun c => c.map (encode s'.numbering))
    have hencode : (s.clauses.toList.map fun c => c.map (encode s.numbering)).map
        (fun c => c.map (s.numbering.renumber s'.numbering)) =
          s.clauses.toList.map fun c => c.map (encode s'.numbering) := by
      rw [List.map_map]
      apply List.map_congr_left
      intro c hc
      show (c.map (encode s.numbering)).map (s.numbering.renumber s'.numbering) = _
      rw [List.map_map]
      exact List.map_congr_left fun x hx => renumber_encode hn _ (hnumbered c hc x hx)
    rw [hencode]
    exact hclauses.map _
  · have hn' : s'.numbering.vars.Nodup := hvars.nodup_iff.mp hn
    apply Weights.insertAll_eq (isAscending_weighVars (weightsOf w) s'.numbering.vars)
    intro e
    have hmem : e ∈ (s.finish w).weights.entries.map
        (fun e => (s.numbering.renumber s'.numbering e.1, e.2)) ↔
          ∃ v ∈ s.numbering.vars, ∃ p, e = (encode s'.numbering (v, p),
            if p then (weightsOf w v).1 else (weightsOf w v).2) := by
      rw [List.mem_map]
      constructor
      · intro h
        obtain ⟨d, hd, rfl⟩ := h
        obtain ⟨v, hv, p, rfl⟩ := (mem_weighVars hn (weightsOf w)).mp hd
        exact ⟨v, hv, p, by rw [renumber_encode hn _ hv]⟩
      · intro h
        obtain ⟨v, hv, p, rfl⟩ := h
        exact ⟨_, (mem_weighVars hn (weightsOf w)).mpr ⟨v, hv, p, rfl⟩,
          by rw [renumber_encode hn _ hv]⟩
    rw [mem_weighVars hn' (weightsOf w)]
    refine hmem.trans (exists_congr fun v => and_congr_left fun _ => ?_)
    exact hvars.mem_iff

/-- **The order of seeds does not matter.** Let two lists of seeds be on the same atoms, in any
order, with any repetitions and polarities. Their completions number the same variables, and if
the numbers of one are replaced by those that its variables have in the other, the clauses are
the same, up to their order, and the tables of weights are equal. -/
theorem renumber_completion (rules : RuleBase) (w : Weights Literal α) (seeds seeds' : List Literal)
    (h : ∀ a, a ∈ seeds.map Literal.atom ↔ a ∈ seeds'.map Literal.atom) :
    let c := (seeds.foldl (fun s l => s.complete rules l.atom) Completion.empty).finish w
    let c' := (seeds'.foldl (fun s l => s.complete rules l.atom) Completion.empty).finish w
    (∀ v, v ∈ c.numbering.vars ↔ v ∈ c'.numbering.vars) ∧
    (c.renumber c'.numbering).cnf.clauses.Perm c'.cnf.clauses ∧
    (c.renumber c'.numbering).weights = c'.weights := by
  rw [foldl_complete_eq_performAll, foldl_complete_eq_performAll]
  obtain ⟨atoms, hc, hatoms⟩ := exists_completes_reachable rules (seeds.map Call.complete)
  obtain ⟨atoms', hc', hatoms'⟩ := exists_completes_reachable rules (seeds'.map Call.complete)
  have hsame : ∀ a, a ∈ atoms ↔ a ∈ atoms' := by
    intro a
    rw [hatoms, hatoms', reachable_seeds_iff, reachable_seeds_iff]
    exact exists_congr fun b => and_congr_left fun _ => h b
  have hnone : ∀ ls : List Literal, (ls.map Call.complete).flatMap Call.clauses = [] := by
    simp [Call.clauses]
  have hextra : ((seeds.map Call.complete).flatMap Call.clauses).Perm
      ((seeds'.map Call.complete).flatMap Call.clauses) := by
    rw [hnone, hnone]
  obtain ⟨hvars, hclauses⟩ := hc.perm hc' hsame hextra
  obtain ⟨hcnf, hweights⟩ :=
    renumber_finish hc.nodup_vars hvars hclauses (fun _ => hc.numbered_of_mem_clauses) w
  exact ⟨fun v => hvars.mem_iff, hcnf, hweights⟩

/-- Atoms on loops of both kinds, one with two bodies. -/
def loopedSupport : RuleBase := .ofRules [(⟨"a"⟩, [.pos ⟨"b"⟩, .neg ⟨"c"⟩]), (⟨"a"⟩, [.pos ⟨"e"⟩]),
  (⟨"b"⟩, [.pos ⟨"a"⟩]), (⟨"c"⟩, [.neg ⟨"b"⟩, .pos ⟨"f"⟩])]

/-- The seeds `a`, `c` and the seeds `-c`, `c`, `-a` give other numbers to all variables. -/
theorem renumber_completion_loopedSupport :
    let w : Weights Literal Rat := ⟨[(.neg ⟨"e"⟩, 2), (.pos ⟨"b"⟩, 3), (.pos ⟨"f"⟩, 5)]⟩
    let c := ([.pos ⟨"a"⟩, .pos ⟨"c"⟩].foldl
      (fun (s : Completion) (l : Literal) => s.complete loopedSupport l.atom) .empty).finish w
    let c' := ([.neg ⟨"c"⟩, .pos ⟨"c"⟩, .neg ⟨"a"⟩].foldl
      (fun (s : Completion) (l : Literal) => s.complete loopedSupport l.atom) .empty).finish w
    c.numbering.vars.map Variable.text = ["a", "a#0", "c", "b", "f", "a#1", "e"] ∧
      c'.numbering.vars.map Variable.text = ["c", "b", "a", "a#0", "a#1", "e", "f"] ∧
      c.cnf ≠ c'.cnf ∧ c.weights ≠ c'.weights ∧
      (c.renumber c'.numbering).cnf.clauses.Perm c'.cnf.clauses ∧
      (c.renumber c'.numbering).weights = c'.weights := by
  intro w c c'
  have hseeds : ∀ a, a ∈ [Literal.pos ⟨"a"⟩, .pos ⟨"c"⟩].map Literal.atom ↔
      a ∈ [Literal.neg ⟨"c"⟩, .pos ⟨"c"⟩, .neg ⟨"a"⟩].map Literal.atom := by
    intro a
    show a ∈ [(⟨"a"⟩ : Atom), ⟨"c"⟩] ↔ a ∈ [(⟨"c"⟩ : Atom), ⟨"c"⟩, ⟨"a"⟩]
    grind
  obtain ⟨-, hcnf, hweights⟩ := renumber_completion loopedSupport w _ _ hseeds
  exact ⟨by decide +kernel, by decide +kernel, by decide +kernel, by decide +kernel, hcnf, hweights⟩

end Completion
end ProbLogic
