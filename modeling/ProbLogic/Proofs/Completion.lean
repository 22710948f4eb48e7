/-
# What a completion consists of

A completion numbers variables and collects clauses while it follows bodies,
and the order of both is that of the traversal. What they are is not: each atom
that is completed contributes its own variables and the clauses of its
definition, once, whatever else is completed in between (`Grows`). The atoms
that its bodies mention are completed as well.

The clauses of a definition hold exactly if the atom is as true as the
disjunction of its bodies and the variables of the bodies are as true as the
bodies (`holds_definition_iff`). So the assignments that satisfy a completed
CNF are the interpretations that support the completed atoms
(`Completes.eval_iff`).

Key definitions: `varsOf`, `definition`, `Grows`, `Completes`.
Key theorems: `visits_visit`, `holds_definition_iff`, `Completes.eval_iff`.
-/
import Mathlib.Tactic.Abel
import ProbLogic.Completion
import ProbLogic.Proofs.LeastModel

namespace ProbLogic

namespace Completion

/-! ### The parts of a completion -/

/-- The clauses of `v ↔ ⋀ body`. -/
def conjunctionClauses (v : Variable) (body : Body) : List (List SignedVariable) :=
  body.map (fun l => [(v, false), l.signed]) ++ [(v, true) :: body.map fun l => l.negate.signed]

/-- The clauses for one of several bodies of `a`. -/
def alternativeClauses (a : Atom) (b : Body × Nat) : List (List SignedVariable) :=
  [(.atom a, true), (.body a b.2, false)] :: conjunctionClauses (.body a b.2) b.1

/-- The variables that completing an atom adds: its own, and those of its bodies if there are
several. -/
def varsOf (rules : RuleBase) (a : Atom) : List Variable :=
  .atom a :: match rules.bodies a with
    | [] | [_] => []
    | bodies => bodies.zipIdx.map fun b => .body a b.2

/-- The clauses that completing an atom adds. -/
def definition (rules : RuleBase) (a : Atom) : List (List SignedVariable) :=
  match rules.bodies a with
  | [] => []
  | [body] => conjunctionClauses (.atom a) body
  | bodies => bodies.zipIdx.flatMap (alternativeClauses a) ++
      [(.atom a, false) :: bodies.zipIdx.map fun b => (.body a b.2, true)]

/-- A completion has grown by the atoms `new`, all reached, with all that their bodies
mention, and besides by some variables and clauses. -/
structure Grows (rules : RuleBase) (reached : Atom → Prop) (s s' : Completion)
    (vs : List Variable) (cs : List (List SignedVariable)) (new : List Atom) : Prop where
  nodup : new.Nodup
  fresh : ∀ a ∈ new, .atom a ∉ s.numbering.vars
  reached : ∀ a ∈ new, reached a
  vars : (s'.numbering.vars : Multiset Variable) =
    s.numbering.vars + vs + (new.flatMap (varsOf rules) : List Variable)
  clauses : (s'.clauses.toList : Multiset (List SignedVariable)) =
    s.clauses.toList + cs + (new.flatMap (definition rules) : List (List SignedVariable))
  closed : ∀ a ∈ new, ∀ b, rules.toRules.Depends a b → .atom b ∈ s'.numbering.vars

section Grows

variable {rules : RuleBase} {reached : Atom → Prop} {s s₁ s₂ : Completion}
  {vs vs₁ vs₂ : List Variable} {cs cs₁ cs₂ : List (List SignedVariable)} {new new₁ new₂ : List Atom}
  {a : Atom}

theorem varsOf_of_several (h₀ : rules.bodies a ≠ []) (h₁ : ∀ b, rules.bodies a ≠ [b]) :
    varsOf rules a = .atom a :: (rules.bodies a).zipIdx.map fun b => .body a b.2 := by
  unfold varsOf
  split
  · next h => exact absurd h h₀
  · next b h => exact absurd h (h₁ b)
  · rfl

theorem definition_of_several (h₀ : rules.bodies a ≠ []) (h₁ : ∀ b, rules.bodies a ≠ [b]) :
    definition rules a = (rules.bodies a).zipIdx.flatMap (alternativeClauses a) ++
      [(.atom a, false) :: (rules.bodies a).zipIdx.map fun b => (.body a b.2, true)] := by
  unfold definition
  split
  · next h => exact absurd h h₀
  · next b h => exact absurd h (h₁ b)
  · rfl

theorem mem_varsOf_atom {b : Atom} : .atom b ∈ varsOf rules a ↔ b = a := by
  unfold varsOf
  split <;> simp

/-- The bodies of an atom have variables if there are several. -/
theorem mem_varsOf_body {b : Atom} {i : Nat} :
    .body b i ∈ varsOf rules a ↔
      b = a ∧ 1 < (rules.bodies a).length ∧ i < (rules.bodies a).length := by
  by_cases h₀ : rules.bodies a = []
  · simp [varsOf, h₀]
  by_cases h₁ : ∃ body, rules.bodies a = [body]
  · obtain ⟨body, hbody⟩ := h₁
    simp [varsOf, hbody]
  · have h₁ : ∀ body, rules.bodies a ≠ [body] := fun body hb => h₁ ⟨body, hb⟩
    have hlength : 1 < (rules.bodies a).length := by
      have hne : (rules.bodies a).length ≠ 0 := by simpa using h₀
      have hne' : (rules.bodies a).length ≠ 1 := fun h => by
        obtain ⟨body, hbody⟩ := List.length_eq_one_iff.mp h
        exact h₁ body hbody
      omega
    rw [varsOf_of_several h₀ h₁]
    constructor
    · intro h
      rcases List.mem_cons.mp h with h | h
      · cases h
      · obtain ⟨x, hx, heq⟩ := List.mem_map.mp h
        obtain ⟨rfl, rfl⟩ := Variable.body.inj heq
        exact ⟨rfl, hlength, List.snd_lt_of_mem_zipIdx hx⟩
    · intro h
      obtain ⟨rfl, -, hi⟩ := h
      have hmem : ((rules.bodies b)[i], i) ∈ (rules.bodies b).zipIdx :=
        List.mk_mem_zipIdx_iff_getElem?.mpr (by simp [hi])
      exact List.mem_cons_of_mem _ (List.mem_map.mpr ⟨_, hmem, rfl⟩)

theorem body_of_mem_varsOf {b : Atom} {i : Nat} (h : .body b i ∈ varsOf rules a) :
    b = a ∧ ∃ body, (body, i) ∈ (rules.bodies a).zipIdx := by
  obtain ⟨hb, -, hi⟩ := mem_varsOf_body.mp h
  exact ⟨hb, (rules.bodies a)[i], List.mk_mem_zipIdx_iff_getElem?.mpr (by simp [hi])⟩

theorem Grows.mem_vars (h : Grows rules reached s s₁ vs cs new) {v : Variable} :
    v ∈ s₁.numbering.vars ↔ v ∈ s.numbering.vars ∨ v ∈ vs ∨ ∃ b ∈ new, v ∈ varsOf rules b := by
  rw [← Multiset.mem_coe, h.vars]
  simp

theorem Grows.refl : Grows rules reached s s [] [] [] where
  nodup := List.nodup_nil
  fresh := by simp
  reached := by simp
  vars := by simp
  clauses := by simp
  closed := by simp

theorem Grows.trans (h₁ : Grows rules reached s s₁ vs₁ cs₁ new₁)
    (h₂ : Grows rules reached s₁ s₂ vs₂ cs₂ new₂) :
    Grows rules reached s s₂ (vs₁ ++ vs₂) (cs₁ ++ cs₂) (new₁ ++ new₂) where
  nodup := by
    refine List.nodup_append.mpr ⟨h₁.nodup, h₂.nodup, fun a ha b hb hab => ?_⟩
    exact h₂.fresh b hb (h₁.mem_vars.mpr (.inr (.inr ⟨a, ha, mem_varsOf_atom.mpr hab.symm⟩)))
  fresh := by
    intro a ha hm
    rcases List.mem_append.mp ha with ha | ha
    · exact h₁.fresh a ha hm
    · exact h₂.fresh a ha (h₁.mem_vars.mpr (.inl hm))
  reached := by
    intro a ha
    rcases List.mem_append.mp ha with ha | ha
    · exact h₁.reached a ha
    · exact h₂.reached a ha
  vars := by
    rw [h₂.vars, h₁.vars, List.flatMap_append]
    simp only [← Multiset.coe_add]
    abel
  clauses := by
    rw [h₂.clauses, h₁.clauses, List.flatMap_append]
    simp only [← Multiset.coe_add]
    abel
  closed := by
    intro a ha b hb
    rcases List.mem_append.mp ha with ha | ha
    · exact h₂.mem_vars.mpr (.inl (h₁.closed a ha b hb))
    · exact h₂.closed a ha b hb

theorem grows_emit (c : List SignedVariable) : Grows rules reached s (s.emit c) [] [c] [] where
  nodup := List.nodup_nil
  fresh := by simp
  reached := by simp
  vars := by simp [emit]
  clauses := by simp [emit, ← Multiset.coe_add]
  closed := by simp

theorem number_of_mem {v : Variable} (h : v ∈ s.numbering.vars) : s.number v = s := by
  rw [number, Numbering.add, if_pos h]

theorem vars_number_of_notMem {v : Variable} (h : v ∉ s.numbering.vars) :
    (s.number v).numbering.vars = s.numbering.vars ++ [v] := by
  rw [number, Numbering.add, if_neg h]

theorem prefix_number (s : Completion) (v : Variable) :
    s.numbering.vars <+: (s.number v).numbering.vars := by
  by_cases h : v ∈ s.numbering.vars
  · rw [number_of_mem h]
  · rw [vars_number_of_notMem h]
    exact List.prefix_append _ _

theorem mem_number (s : Completion) (v : Variable) : v ∈ (s.number v).numbering.vars := by
  by_cases h : v ∈ s.numbering.vars
  · rwa [number_of_mem h]
  · rw [vars_number_of_notMem h]
    exact List.mem_append_right _ (List.mem_singleton_self v)

theorem grows_number {v : Variable} (h : v ∉ s.numbering.vars) :
    Grows rules reached s (s.number v) [v] [] [] where
  nodup := List.nodup_nil
  fresh := by simp
  reached := by simp
  vars := by simp [vars_number_of_notMem h, ← Multiset.coe_add]
  clauses := by simp [number]
  closed := by simp

/-- The bodies with a variable belong to atoms with one. -/
def Scoped (s : Completion) : Prop :=
  ∀ a i, .body a i ∈ s.numbering.vars → .atom a ∈ s.numbering.vars

/-- How many heads have no number yet. -/
def unnumbered (rules : RuleBase) (s : Completion) : Nat :=
  (rules.heads.filter fun a => decide (.atom a ∉ s.numbering.vars)).length

theorem Grows.scoped (h : Grows rules reached s s₁ vs cs new) (hs : s.Scoped)
    (hvs : ∀ b i, .body b i ∈ vs → .atom b ∈ s.numbering.vars) : s₁.Scoped := by
  intro b i hm
  rcases h.mem_vars.mp hm with hm | hm | ⟨c, hc, hm⟩
  · exact h.mem_vars.mpr (.inl (hs b i hm))
  · exact h.mem_vars.mpr (.inl (hvs b i hm))
  · exact h.mem_vars.mpr (.inr (.inr ⟨c, hc, mem_varsOf_atom.mpr (body_of_mem_varsOf hm).1⟩))

theorem unnumbered_le_of_subset (h : s.numbering.vars ⊆ s₁.numbering.vars) :
    unnumbered rules s₁ ≤ unnumbered rules s := by
  refine (List.monotone_filter_right _ fun a ha => ?_).length_le
  simp only [decide_eq_true_eq] at ha ⊢
  exact fun hm => ha (h hm)

theorem Grows.unnumbered_le (h : Grows rules reached s s₁ vs cs new) :
    unnumbered rules s₁ ≤ unnumbered rules s :=
  unnumbered_le_of_subset fun _ hm => h.mem_vars.mpr (.inl hm)

/-! ### Visiting atoms -/

/-- What visiting atoms does to any completion on which at most `depth` heads are left. -/
def Visits (rules : RuleBase) (reached : Atom → Prop) (depth : Nat)
    (visit : Atom → Completion → Completion) : Prop :=
  ∀ s a, s.Scoped → unnumbered rules s < depth → reached a →
    .atom a ∈ (visit a s).numbering.vars ∧ ∃ new, Grows rules reached s (visit a s) [] [] new

variable {depth : Nat} {visit : Atom → Completion → Completion}

theorem Visits.grows_literals (hvisit : Visits rules reached depth visit) (v : Variable)
    (body : Body) (hs : s.Scoped) (hdepth : unnumbered rules s < depth)
    (hreached : ∀ l ∈ body, reached l.atom) :
    ∃ new, Grows rules reached s
      (body.foldl (fun s l => (visit l.atom s).emit [(v, false), l.signed]) s) []
      (body.map fun l => [(v, false), l.signed]) new ∧
      ∀ l ∈ body, .atom l.atom ∈ (body.foldl
        (fun s l => (visit l.atom s).emit [(v, false), l.signed]) s).numbering.vars := by
  induction body generalizing s with
  | nil => exact ⟨[], .refl, by simp⟩
  | cons l body ih =>
    obtain ⟨hl, new₁, h₁⟩ := hvisit s l.atom hs hdepth (hreached l List.mem_cons_self)
    have hemit := h₁.trans (grows_emit [(v, false), l.signed])
    obtain ⟨new₂, h₂, hmem⟩ := ih (hemit.scoped hs (by simp))
      (hemit.unnumbered_le.trans_lt hdepth) fun k hk => hreached k (List.mem_cons_of_mem _ hk)
    refine ⟨new₁ ++ [] ++ new₂, hemit.trans h₂, fun k hk => ?_⟩
    rcases List.mem_cons.mp hk with rfl | hk
    · exact h₂.mem_vars.mpr (.inl hl)
    · exact hmem k hk

theorem Visits.grows_conjunction (hvisit : Visits rules reached depth visit) (v : Variable)
    (body : Body) (hs : s.Scoped) (hdepth : unnumbered rules s < depth)
    (hreached : ∀ l ∈ body, reached l.atom) :
    ∃ new, Grows rules reached s (conjunction visit v body s) [] (conjunctionClauses v body) new ∧
      ∀ l ∈ body, .atom l.atom ∈ (conjunction visit v body s).numbering.vars := by
  obtain ⟨new, h, hmem⟩ := hvisit.grows_literals v body hs hdepth hreached
  refine ⟨new ++ [], h.trans (grows_emit _), hmem⟩

theorem Visits.grows_alternative (hvisit : Visits rules reached depth visit) (b : Body × Nat)
    (hs : s.Scoped) (hdepth : unnumbered rules s < depth) (ha : .atom a ∈ s.numbering.vars)
    (hb : .body a b.2 ∉ s.numbering.vars) (hreached : ∀ l ∈ b.1, reached l.atom) :
    ∃ new, Grows rules reached s (alternative visit a s b) [.body a b.2] (alternativeClauses a b)
        new ∧
      ∀ l ∈ b.1, .atom l.atom ∈ (alternative visit a s b).numbering.vars := by
  have hnumber : Grows rules reached s (s.number (.body a b.2)) [.body a b.2] [] [] :=
    grows_number hb
  have h := hnumber.trans (grows_emit [(.atom a, true), (.body a b.2, false)])
  have hscoped := h.scoped hs fun c i hm => by
    obtain ⟨rfl, -⟩ := Variable.body.inj (List.mem_singleton.mp hm)
    exact ha
  obtain ⟨new, h', hmem⟩ := hvisit.grows_conjunction (.body a b.2) b.1 hscoped
    (h.unnumbered_le.trans_lt hdepth) hreached
  exact ⟨[] ++ [] ++ new, h.trans h', hmem⟩

/-- The variables of the bodies of an atom do not come up while its bodies are visited. -/
theorem Visits.grows_alternatives (hvisit : Visits rules reached depth visit)
    (bs : List (Body × Nat)) (hs : s.Scoped) (hdepth : unnumbered rules s < depth)
    (ha : .atom a ∈ s.numbering.vars)
    (hb : ∀ b ∈ bs, .body a b.2 ∉ s.numbering.vars) (hnodup : (bs.map Prod.snd).Nodup)
    (hreached : ∀ b ∈ bs, ∀ l ∈ b.1, reached l.atom) :
    ∃ new, Grows rules reached s (bs.foldl (alternative visit a) s)
        (bs.map fun b => .body a b.2) (bs.flatMap (alternativeClauses a)) new ∧
      ∀ b ∈ bs, ∀ l ∈ b.1, .atom l.atom ∈ (bs.foldl (alternative visit a) s).numbering.vars := by
  induction bs generalizing s with
  | nil => exact ⟨[], .refl, by simp⟩
  | cons b bs ih =>
    obtain ⟨new₁, h₁, hmem₁⟩ := hvisit.grows_alternative b hs hdepth ha (hb b List.mem_cons_self)
      (hreached b List.mem_cons_self)
    have hscoped := h₁.scoped hs fun c i hm => by
      obtain ⟨rfl, -⟩ := Variable.body.inj (List.mem_singleton.mp hm)
      exact ha
    obtain ⟨hnb, hnodup⟩ := List.nodup_cons.mp hnodup
    have hb' : ∀ b' ∈ bs, .body a b'.2 ∉ (alternative visit a s b).numbering.vars := by
      intro b' hb' hm
      rcases h₁.mem_vars.mp hm with hm | hm | ⟨c, hc, hm⟩
      · exact hb b' (List.mem_cons_of_mem _ hb') hm
      · have hi := (Variable.body.inj (List.mem_singleton.mp hm)).2
        exact hnb (hi ▸ List.mem_map_of_mem hb')
      · exact h₁.fresh c hc ((body_of_mem_varsOf hm).1 ▸ ha)
    obtain ⟨new₂, h₂, hmem₂⟩ := ih hscoped (h₁.unnumbered_le.trans_lt hdepth)
      (h₁.mem_vars.mpr (.inl ha)) hb' hnodup fun b' hb' => hreached b' (List.mem_cons_of_mem _ hb')
    refine ⟨new₁ ++ new₂, h₁.trans h₂, fun b' hb' l hl => ?_⟩
    rcases List.mem_cons.mp hb' with rfl | hb'
    · exact h₂.mem_vars.mpr (.inl (hmem₁ l hl))
    · exact hmem₂ b' hb' l hl

/-- An atom that was numbered, with what else belongs to it. -/
theorem Grows.cons (h₁ : .atom a ∉ s.numbering.vars) (ha : reached a)
    (h : Grows rules reached (s.number (.atom a)) s₁ (varsOf rules a).tail (definition rules a) new)
    (hclosed : ∀ b, rules.toRules.Depends a b → .atom b ∈ s₁.numbering.vars) :
    Grows rules reached s s₁ [] [] (a :: new) where
  nodup := by
    exact List.nodup_cons.mpr ⟨fun hmem => h.fresh a hmem (s.mem_number (.atom a)), h.nodup⟩
  fresh := by
    intro b hb hm
    rcases List.mem_cons.mp hb with rfl | hb
    · exact h₁ hm
    · exact h.fresh b hb ((s.prefix_number (.atom a)).subset hm)
  reached := by
    intro b hb
    rcases List.mem_cons.mp hb with rfl | hb
    · exact ha
    · exact h.reached b hb
  vars := by
    have hvars : varsOf rules a = .atom a :: (varsOf rules a).tail := rfl
    rw [h.vars, List.flatMap_cons, hvars, vars_number_of_notMem h₁]
    simp only [List.tail_cons, List.cons_append, ← Multiset.coe_add, ← Multiset.cons_coe,
      Multiset.coe_nil, ← Multiset.singleton_add]
    abel
  clauses := by
    rw [h.clauses, List.flatMap_cons]
    simp only [number, ← Multiset.coe_add, Multiset.coe_nil]
    abel
  closed := by
    intro b hb c hc
    rcases List.mem_cons.mp hb with rfl | hb
    · exact hclosed c hc
    · exact h.closed b hb c hc

theorem unnumbered_number (ha : .atom a ∉ s.numbering.vars) (hbodies : rules.bodies a ≠ []) :
    unnumbered rules (s.number (.atom a)) < unnumbered rules s := by
  have hhead : a ∈ rules.heads := by
    obtain ⟨b, hb⟩ := List.exists_mem_of_ne_nil _ hbodies
    exact RuleBase.mem_heads_of_contains (RuleBase.contains_of_mem_bodies hb)
  have hfilter : rules.heads.filter (fun b => decide (.atom b ∉ s.numbering.vars ++ [.atom a])) =
      (rules.heads.filter fun b => decide (.atom b ∉ s.numbering.vars)).filter (· ≠ a) := by
    rw [List.filter_filter]
    refine List.filter_congr fun b _ => ?_
    simp [not_or, and_comm]
  rw [unnumbered, unnumbered, vars_number_of_notMem ha, hfilter]
  refine List.length_filter_lt_length_iff_exists.mpr ⟨a, ?_, by simp⟩
  exact List.mem_filter.mpr ⟨hhead, by simpa using ha⟩

/-- An atom with one body has the clauses of the conjunction. -/
theorem Visits.grows_single (hvisit : Visits rules reached depth visit) {body : Body}
    (hbodies : rules.bodies a = [body]) (hs : s.Scoped) (hdepth : unnumbered rules s < depth)
    (hreached : ∀ b ∈ rules.bodies a, ∀ l ∈ b, reached l.atom) :
    ∃ new, Grows rules reached s (conjunction visit (.atom a) body s) (varsOf rules a).tail
        (definition rules a) new ∧
      ∀ b, rules.toRules.Depends a b →
        .atom b ∈ (conjunction visit (.atom a) body s).numbering.vars := by
  obtain ⟨new, h, hlits⟩ := hvisit.grows_conjunction (.atom a) body hs hdepth
    (hreached body (by rw [hbodies]; simp))
  have hvars : (varsOf rules a).tail = [] := by simp [varsOf, hbodies]
  have hdef : definition rules a = conjunctionClauses (.atom a) body := by
    simp [definition, hbodies]
  refine ⟨new, ?_, ?_⟩
  · rw [hvars, hdef]
    exact h
  · rintro b ⟨p, body', hb, hl⟩
    rw [RuleBase.toRules, hbodies, List.mem_singleton] at hb
    exact hlits _ (hb ▸ hl)

/-- An atom with several bodies has the clauses of each, and one for all of them. -/
theorem Visits.grows_several (hvisit : Visits rules reached depth visit)
    (h₀ : rules.bodies a ≠ []) (h₁ : ∀ b, rules.bodies a ≠ [b]) (hs : s.Scoped)
    (hdepth : unnumbered rules s < depth) (ha : .atom a ∈ s.numbering.vars)
    (hfresh : ∀ i, .body a i ∉ s.numbering.vars)
    (hreached : ∀ b ∈ rules.bodies a, ∀ l ∈ b, reached l.atom) :
    let s' := ((rules.bodies a).zipIdx.foldl (alternative visit a) s).emit ((.atom a, false) ::
      (rules.bodies a).zipIdx.map fun b => (.body a b.2, true))
    ∃ new, Grows rules reached s s' (varsOf rules a).tail (definition rules a) new ∧
      ∀ b, rules.toRules.Depends a b → .atom b ∈ s'.numbering.vars := by
  have hnodup : ((rules.bodies a).zipIdx.map Prod.snd).Nodup := by
    rw [List.zipIdx_map_snd]
    exact List.nodup_range'
  obtain ⟨new, h, hlits⟩ := hvisit.grows_alternatives (rules.bodies a).zipIdx hs hdepth ha
    (fun b _ => hfresh b.2) hnodup fun b hb => hreached b.1 (List.fst_mem_of_mem_zipIdx hb)
  have h' := h.trans (grows_emit ((.atom a, false) ::
    (rules.bodies a).zipIdx.map fun b => (.body a b.2, true)))
  refine ⟨new ++ [], ?_, ?_⟩
  · rw [varsOf_of_several h₀ h₁, definition_of_several h₀ h₁, List.tail_cons]
    simpa using h'
  · rintro b ⟨p, body, hb, hl⟩
    obtain ⟨i, hi, rfl⟩ := List.getElem_of_mem hb
    have hmem : ((rules.bodies a)[i], i) ∈ (rules.bodies a).zipIdx :=
      List.mk_mem_zipIdx_iff_getElem?.mpr (by simp [hi])
    exact hlits _ hmem _ hl

/-- **A visit completes an atom** and everything that it depends on, if the depth is not less
than the number of heads that are left. -/
theorem visits_visit (hreached : ∀ a b, reached a → rules.toRules.Depends a b → reached b)
    (depth : Nat) : Visits rules reached depth (Completion.visit rules depth) := by
  induction depth with
  | zero => exact fun s a _ h => absurd h (Nat.not_lt_zero _)
  | succ depth ih =>
    intro s a hs hdepth ha
    unfold Completion.visit
    split
    · next hm => exact ⟨hm, [], .refl⟩
    · next hm =>
      have hnumber : Grows rules reached s (s.number (.atom a)) [.atom a] [] [] := grows_number hm
      have hmem : .atom a ∈ (s.number (.atom a)).numbering.vars :=
        hnumber.mem_vars.mpr (.inr (.inl (List.mem_singleton_self _)))
      have hscoped := hnumber.scoped hs (by simp)
      have hchildren : ∀ b ∈ rules.bodies a, ∀ l ∈ b, reached l.atom := fun b hb l hl =>
        hreached a l.atom ha (Rules.depends_of_mem hb hl)
      split
      · next hbodies =>
        refine ⟨hmem, [a], .cons hm ha ?_ ?_⟩
        · have hvars : (varsOf rules a).tail = [] := by simp [varsOf, hbodies]
          have hdef : definition rules a = [] := by simp [definition, hbodies]
          rw [hvars, hdef]
          exact .refl
        · rintro b ⟨p, body, hb, -⟩
          rw [RuleBase.toRules, hbodies] at hb
          simp at hb
      · next body hbodies =>
        have hlt := unnumbered_number hm (by rw [hbodies]; simp)
        obtain ⟨new, h, hclosed⟩ := ih.grows_single hbodies hscoped (by omega) hchildren
        exact ⟨h.mem_vars.mpr (.inl hmem), a :: new, .cons hm ha h hclosed⟩
      · next hnil hsingle =>
        have hlt := unnumbered_number hm hnil
        have hfresh : ∀ i, .body a i ∉ (s.number (.atom a)).numbering.vars := by
          intro i hb
          rcases hnumber.mem_vars.mp hb with hb | hb | ⟨c, hc, -⟩
          · exact hm (hs a i hb)
          · cases List.mem_singleton.mp hb
          · simp at hc
        obtain ⟨new, h, hclosed⟩ :=
          ih.grows_several hnil hsingle hscoped (by omega) hmem hfresh hchildren
        exact ⟨h.mem_vars.mpr (.inl hmem), a :: new, .cons hm ha h hclosed⟩

end Grows

/-! ### The meaning of definitions -/

section Meaning

variable {τ : Variable → Bool} {rules : RuleBase} {a : Atom}

/-- A clause is true if one of its variables has the value that is asked for. -/
def ClauseHolds (τ : Variable → Bool) (c : List SignedVariable) : Prop := ∃ x ∈ c, τ x.1 = x.2

/-- The atoms whose variables are true. -/
def trueAtoms (τ : Variable → Bool) : Interpretation := fun a => τ (.atom a) = true

theorem holds_signed_iff {l : Literal} :
    τ l.signed.1 = l.signed.2 ↔ l.Holds (trueAtoms τ) := Bool.eq_iff_iff

theorem clauseHolds_map_signed {c : List Literal} :
    ClauseHolds τ (c.map Literal.signed) ↔ ∃ l ∈ c, l.Holds (trueAtoms τ) := by
  simp [ClauseHolds, holds_signed_iff]

theorem holds_conjunctionClauses_iff {v : Variable} {body : Body} :
    (∀ c ∈ conjunctionClauses v body, ClauseHolds τ c) ↔
      (τ v = true ↔ Body.Holds (trueAtoms τ) body) := by
  have hleft : (∀ c ∈ body.map (fun l => [(v, false), l.signed]), ClauseHolds τ c) ↔
      (τ v = true → Body.Holds (trueAtoms τ) body) := by
    simp only [List.mem_map, forall_exists_index, and_imp, forall_apply_eq_imp_iff₂, ClauseHolds,
      List.mem_cons, List.not_mem_nil, or_false, exists_eq_or_imp, exists_eq_left,
      holds_signed_iff, Body.Holds]
    refine ⟨fun h hv l hl => (h l hl).resolve_left (by simp [hv]), fun h l hl => ?_⟩
    by_cases hv : τ v = true
    · exact .inr (h hv l hl)
    · exact .inl (by simpa using hv)
  have hright : ClauseHolds τ ((v, true) :: body.map fun l => l.negate.signed) ↔
      (Body.Holds (trueAtoms τ) body → τ v = true) := by
    simp only [ClauseHolds, List.mem_cons, List.mem_map, exists_eq_or_imp, exists_exists_and_eq_and,
      holds_signed_iff, Literal.holds_negate, Body.Holds]
    constructor
    · rintro (hv | ⟨l, hl, hn⟩) hb
      · exact hv
      · exact absurd (hb l hl) hn
    · intro h
      by_cases hb : ∀ l ∈ body, l.Holds (trueAtoms τ)
      · exact .inl (h hb)
      · simp only [not_forall, exists_prop] at hb
        exact .inr hb
  simp only [conjunctionClauses, List.mem_append, List.mem_singleton, or_imp, forall_and,
    forall_eq]
  rw [hleft, hright]
  exact ⟨fun ⟨h, h'⟩ => ⟨h, h'⟩, fun h => ⟨h.mp, h.mpr⟩⟩

theorem exists_mem_zipIdx {p : Body → Prop} {bs : List Body} :
    (∃ b ∈ bs.zipIdx, p b.1) ↔ ∃ b ∈ bs, p b := by
  constructor
  · rintro ⟨b, hb, hp⟩
    exact ⟨b.1, List.fst_mem_of_mem_zipIdx hb, hp⟩
  · rintro ⟨b, hb, hp⟩
    obtain ⟨i, hi, rfl⟩ := List.getElem_of_mem hb
    exact ⟨(bs[i], i), List.mk_mem_zipIdx_iff_getElem?.mpr (by simp [hi]), hp⟩

theorem holds_alternativeClauses_iff {b : Body × Nat} :
    (∀ c ∈ alternativeClauses a b, ClauseHolds τ c) ↔
      (τ (.body a b.2) = true → trueAtoms τ a) ∧
      (τ (.body a b.2) = true ↔ Body.Holds (trueAtoms τ) b.1) := by
  simp only [alternativeClauses, List.mem_cons, forall_eq_or_imp]
  rw [holds_conjunctionClauses_iff]
  refine and_congr_left fun _ => ?_
  simp only [ClauseHolds, List.mem_cons, List.not_mem_nil, or_false, exists_eq_or_imp,
    exists_eq_left, trueAtoms]
  cases τ (.body a b.2) <;> simp

/-- **The clauses of a definition.** They hold exactly if an atom with rules is as true as the
disjunction of its bodies, and each variable of a body is as true as the body. -/
theorem holds_definition_iff : (∀ c ∈ definition rules a, ClauseHolds τ c) ↔
    (rules.bodies a ≠ [] → (trueAtoms τ a ↔ ∃ b ∈ rules.bodies a, Body.Holds (trueAtoms τ) b)) ∧
    ∀ b ∈ (rules.bodies a).zipIdx, .body a b.2 ∈ varsOf rules a →
      (τ (.body a b.2) = true ↔ Body.Holds (trueAtoms τ) b.1) := by
  by_cases h₀ : rules.bodies a = []
  · simp [definition, h₀]
  by_cases h₁ : ∃ b, rules.bodies a = [b]
  · obtain ⟨b, hb⟩ := h₁
    simp only [definition, varsOf, hb, holds_conjunctionClauses_iff]
    simp [trueAtoms]
  · have h₁ : ∀ b, rules.bodies a ≠ [b] := fun b hb => h₁ ⟨b, hb⟩
    have hvars : ∀ b ∈ (rules.bodies a).zipIdx, .body a b.2 ∈ varsOf rules a := fun b hb => by
      rw [varsOf_of_several h₀ h₁]
      exact List.mem_cons_of_mem _ (List.mem_map.mpr ⟨b, hb, rfl⟩)
    have hlast : ClauseHolds τ ((.atom a, false) ::
        (rules.bodies a).zipIdx.map fun b => (.body a b.2, true)) ↔
        (trueAtoms τ a → ∃ b ∈ (rules.bodies a).zipIdx, τ (.body a b.2) = true) := by
      simp only [ClauseHolds, List.mem_cons, List.mem_map, exists_eq_or_imp,
        exists_exists_and_eq_and, trueAtoms]
      cases τ (.atom a) <;> simp
    have halternatives : (∀ c ∈ (rules.bodies a).zipIdx.flatMap (alternativeClauses a),
        ClauseHolds τ c) ↔ ∀ b ∈ (rules.bodies a).zipIdx,
          (τ (.body a b.2) = true → trueAtoms τ a) ∧
          (τ (.body a b.2) = true ↔ Body.Holds (trueAtoms τ) b.1) := by
      simp only [List.mem_flatMap, forall_exists_index, and_imp, ← holds_alternativeClauses_iff]
      exact ⟨fun h b hb c hc => h c b hb hc, fun h c b hb hc => h b hb c hc⟩
    rw [definition_of_several h₀ h₁, List.forall_mem_append, List.forall_mem_singleton,
      halternatives, hlast]
    constructor
    · rintro ⟨halt, hor⟩
      refine ⟨fun _ => ⟨fun ha => ?_, fun hb => ?_⟩, fun b hb _ => (halt b hb).2⟩
      · obtain ⟨b, hb, hv⟩ := hor ha
        exact ⟨b.1, List.fst_mem_of_mem_zipIdx hb, (halt b hb).2.mp hv⟩
      · obtain ⟨b, hb, hholds⟩ := exists_mem_zipIdx.mpr hb
        exact (halt b hb).1 ((halt b hb).2.mpr hholds)
    · rintro ⟨hdef, haux⟩
      have hdef := hdef h₀
      have haux := fun b hb => haux b hb (hvars b hb)
      refine ⟨fun b hb => ⟨fun hv => hdef.mpr ?_, haux b hb⟩, fun ha => ?_⟩
      · exact ⟨b.1, List.fst_mem_of_mem_zipIdx hb, (haux b hb).mp hv⟩
      · obtain ⟨b, hb, hholds⟩ := exists_mem_zipIdx.mpr (hdef.mp ha)
        exact ⟨b, hb, (haux b hb).mpr hholds⟩

end Meaning

/-! ### Sequences of calls -/

/-- The completion of some atoms and of all that their bodies mention, with extra clauses. -/
structure Completes (rules : RuleBase) (reached : Atom → Prop) (s : Completion)
    (atoms : List Atom) (extra : List (List SignedVariable)) : Prop where
  grows : Grows rules reached .empty s [] extra atoms
  numbered : ∀ c ∈ extra, ∀ x ∈ c, x.1 ∈ s.numbering.vars

section Completes

variable {rules : RuleBase} {reached : Atom → Prop} {s : Completion} {atoms : List Atom}
  {extra : List (List SignedVariable)} {a : Atom}

theorem completes_empty : Completes rules reached .empty [] [] := ⟨.refl, by simp⟩

namespace Completes

theorem mem_vars (h : Completes rules reached s atoms extra) {v : Variable} :
    v ∈ s.numbering.vars ↔ ∃ a ∈ atoms, v ∈ varsOf rules a := by
  simp [h.grows.mem_vars, Completion.empty, Numbering.empty]

theorem mem_vars_atom (h : Completes rules reached s atoms extra) :
    .atom a ∈ s.numbering.vars ↔ a ∈ atoms := by
  simp [h.mem_vars, mem_varsOf_atom]

theorem mem_clauses (h : Completes rules reached s atoms extra) {c : List SignedVariable} :
    c ∈ s.clauses.toList ↔ c ∈ extra ∨ ∃ a ∈ atoms, c ∈ definition rules a := by
  rw [← Multiset.mem_coe, h.grows.clauses]
  simp [Completion.empty]

theorem closed (h : Completes rules reached s atoms extra) {b : Atom} (ha : a ∈ atoms)
    (hab : rules.toRules.Depends a b) : b ∈ atoms :=
  h.mem_vars_atom.mp (h.grows.closed a ha b hab)

theorem isScoped (h : Completes rules reached s atoms extra) : s.Scoped :=
  h.grows.scoped (by simp [Scoped, Completion.empty, Numbering.empty]) (by simp)

variable (hreached : ∀ a b, reached a → rules.toRules.Depends a b → reached b)
include hreached

theorem complete (h : Completes rules reached s atoms extra) (ha : reached a) :
    ∃ new, Completes rules reached (s.complete rules a) (atoms ++ new) extra ∧
      a ∈ atoms ++ new := by
  have hdepth : unnumbered rules s < rules.heads.length + 1 :=
    Nat.lt_succ_of_le (List.length_filter_le _ _)
  obtain ⟨hmem, new, hnew⟩ :=
    visits_visit hreached (rules.heads.length + 1) s a h.isScoped hdepth ha
  have hgrows := h.grows.trans hnew
  simp only [List.append_nil] at hgrows
  have h' : Completes rules reached (s.complete rules a) (atoms ++ new) extra :=
    ⟨hgrows, fun c hc x hx => hnew.mem_vars.mpr (.inl (h.numbered c hc x hx))⟩
  exact ⟨new, h', h'.mem_vars_atom.mp hmem⟩

theorem completeAll (h : Completes rules reached s atoms extra) {ls : List Literal}
    (hls : ∀ l ∈ ls, reached l.atom) :
    ∃ new, Completes rules reached (ls.foldl (fun s l => s.complete rules l.atom) s) (atoms ++ new)
      extra ∧ ∀ l ∈ ls, l.atom ∈ atoms ++ new := by
  induction ls generalizing s atoms with
  | nil => exact ⟨[], by simpa using h, by simp⟩
  | cons l ls ih =>
    obtain ⟨new₁, h₁, hmem⟩ := h.complete hreached (hls l List.mem_cons_self)
    obtain ⟨new₂, h₂, hmem₂⟩ := ih h₁ fun k hk => hls k (List.mem_cons_of_mem _ hk)
    rw [List.append_assoc] at h₂ hmem₂
    refine ⟨new₁ ++ new₂, h₂, fun k hk => ?_⟩
    rcases List.mem_cons.mp hk with rfl | hk
    · rw [← List.append_assoc]
      exact List.mem_append_left _ hmem
    · exact hmem₂ k hk

omit hreached in
theorem emit (h : Completes rules reached s atoms extra) {c : List SignedVariable}
    (hc : ∀ x ∈ c, x.1 ∈ s.numbering.vars) :
    Completes rules reached (s.emit c) atoms (extra ++ [c]) := by
  have hgrows := h.grows.trans (grows_emit c)
  simp only [List.append_nil] at hgrows
  refine ⟨hgrows, fun d hd x hx => ?_⟩
  rcases List.mem_append.mp hd with hd | hd
  · exact h.numbered d hd x hx
  · rw [List.mem_singleton.mp hd] at hx
    exact hc x hx

theorem deny (h : Completes rules reached s atoms extra) (ha : reached a) :
    ∃ new, Completes rules reached (s.deny rules a) (atoms ++ new) (extra ++ [[(.atom a, false)]]) ∧
      a ∈ atoms ++ new := by
  obtain ⟨new, h', hmem⟩ := h.complete hreached ha
  refine ⟨new, h'.emit ?_, hmem⟩
  simpa using h'.mem_vars_atom.mpr hmem

theorem constrain (h : Completes rules reached s atoms extra) {c : List Literal}
    (hc : ∀ l ∈ c, reached l.atom) :
    ∃ new, Completes rules reached (s.constrain rules c) (atoms ++ new)
      (extra ++ [c.map Literal.signed]) ∧ ∀ l ∈ c, l.atom ∈ atoms ++ new := by
  obtain ⟨new, h', hmem⟩ := h.completeAll hreached hc
  refine ⟨new, h'.emit ?_, hmem⟩
  intro x hx
  obtain ⟨l, hl, rfl⟩ := List.mem_map.mp hx
  exact h'.mem_vars_atom.mpr (hmem l hl)

end Completes
end Completes

end Completion

/-! ### Numbers -/

namespace Numbering

variable {n : Numbering} {v : Variable}

theorem index?_of_mem (h : v ∈ n.vars) : n.index? v = some (n.vars.idxOf v + 1) := by
  have hsome : (n.vars.idxOf? v).isSome := by simpa [List.isSome_idxOf?] using h
  obtain ⟨i, hi⟩ := Option.isSome_iff_exists.mp hsome
  have hidx : n.vars.idxOf v = i := by rw [List.idxOf_eq_getD_idxOf?, hi, Option.getD_some]
  rw [index?, hi, hidx, Option.map_some]

theorem index?_of_notMem (h : v ∉ n.vars) : n.index? v = none := by
  rw [index?, List.idxOf?_eq_none_iff.mpr h, Option.map_none]

theorem index?_eq_some_iff {i : Nat} :
    n.index? v = some i ↔ v ∈ n.vars ∧ i = n.vars.idxOf v + 1 := by
  by_cases h : v ∈ n.vars
  · rw [index?_of_mem h, Option.some.injEq]
    exact ⟨fun hi => ⟨h, hi.symm⟩, fun hi => hi.2.symm⟩
  · rw [index?_of_notMem h]
    exact iff_of_false nofun fun hi => h hi.1

/-- Numbers stay what they are when more variables are numbered. -/
theorem index?_of_prefix {n' : Numbering} (h : n.vars <+: n'.vars) (hv : v ∈ n.vars) :
    n'.index? v = n.index? v := by
  obtain ⟨vs, hvs⟩ := h
  rw [index?_of_mem hv, index?_of_mem (hvs ▸ List.mem_append_left vs hv), ← hvs,
    List.idxOf_append_of_mem hv]

/-- The numbers of variables, read both ways. -/
theorem byIndex?_eq_some_iff (hn : n.vars.Nodup) {i : Nat} :
    n.byIndex? i = some v ↔ v ∈ n.vars ∧ i = n.vars.idxOf v + 1 := by
  rw [byIndex?]
  constructor
  · intro h
    split at h
    · next hi =>
      obtain ⟨hlt, hget⟩ := List.getElem?_eq_some_iff.mp h
      have hidx : n.vars.idxOf v = (i : Int).toNat - 1 := by
        rw [← hget]
        exact hn.idxOf_getElem _ hlt
      exact ⟨hget ▸ List.getElem_mem hlt, by omega⟩
    · cases h
  · intro h
    obtain ⟨hv, rfl⟩ := h
    have hlt := List.idxOf_lt_length_of_mem hv
    have hi : (0 : Int) < (n.vars.idxOf v + 1 : Nat) := by omega
    rw [if_pos hi, Int.toNat_natCast, Nat.add_sub_cancel, List.getElem?_eq_getElem hlt,
      List.getElem_idxOf]

theorem isSome_byIndex?_iff (n : Numbering) (i : Int) :
    (n.byIndex? i).isSome = true ↔ 1 ≤ i ∧ i ≤ n.vars.length := by
  rw [byIndex?]
  split
  · rw [isSome_getElem?]
    omega
  · exact iff_of_false nofun (by omega)

end Numbering

namespace Completion

/-! ### Assignments -/

/-- The values of variables under an assignment of their numbers. -/
def valuation (n : Numbering) (t : Assignment) (v : Variable) : Bool := t (n.vars.idxOf v + 1)

/-- The number of a signed variable without its sign. -/
theorem natAbs_encode {n : Numbering} {x : SignedVariable} (h : x.1 ∈ n.vars) :
    (encode n x).natAbs = n.vars.idxOf x.1 + 1 := by
  rw [encode, Numbering.index?_of_mem h]
  dsimp only [Option.getD_some]
  split
  · exact Int.natAbs_natCast _
  · rw [Int.natAbs_neg, Int.natAbs_natCast]

theorem encode_pos_iff {n : Numbering} {x : SignedVariable} (h : x.1 ∈ n.vars) :
    0 < encode n x ↔ x.2 = true := by
  rw [encode, Numbering.index?_of_mem h]
  dsimp only [Option.getD_some]
  split
  · next hx => exact iff_of_true (by omega) hx
  · next hx => exact iff_of_false (by omega) hx

theorem satisfies_encode {n : Numbering} {t : Assignment} {x : SignedVariable}
    (h : x.1 ∈ n.vars) : t.satisfies (encode n x) = true ↔ valuation n t x.1 = x.2 := by
  have hsign : decide (0 < encode n x) = x.2 := by
    rw [Bool.eq_iff_iff, decide_eq_true_eq, encode_pos_iff h]
  rw [Assignment.satisfies, natAbs_encode h, hsign, beq_iff_eq, valuation]

theorem mem_conjunctionClauses {v : Variable} {body : Body} {c : List SignedVariable}
    {x : SignedVariable} (hc : c ∈ conjunctionClauses v body) (hx : x ∈ c) :
    x.1 = v ∨ ∃ l ∈ body, x.1 = .atom l.atom := by
  rcases List.mem_append.mp hc with hc | hc
  · obtain ⟨l, hl, rfl⟩ := List.mem_map.mp hc
    rcases List.mem_cons.mp hx with rfl | hx
    · exact .inl rfl
    · rw [List.mem_singleton.mp hx]
      exact .inr ⟨l, hl, rfl⟩
  · rw [List.mem_singleton.mp hc] at hx
    rcases List.mem_cons.mp hx with rfl | hx
    · exact .inl rfl
    · obtain ⟨l, hl, rfl⟩ := List.mem_map.mp hx
      exact .inr ⟨l, hl, rfl⟩

/-- The variables in a definition are the atom's own, or stand for atoms in its bodies. -/
theorem mem_definition {rules : RuleBase} {a : Atom} {c : List SignedVariable} {x : SignedVariable}
    (hc : c ∈ definition rules a) (hx : x ∈ c) :
    x.1 ∈ varsOf rules a ∨ ∃ b, rules.toRules.Depends a b ∧ x.1 = .atom b := by
  by_cases h₀ : rules.bodies a = []
  · simp [definition, h₀] at hc
  by_cases h₁ : ∃ b, rules.bodies a = [b]
  · obtain ⟨b, hb⟩ := h₁
    simp only [definition, hb] at hc
    rcases mem_conjunctionClauses hc hx with hv | ⟨l, hl, hv⟩
    · exact .inl (hv ▸ mem_varsOf_atom.mpr rfl)
    · have hmem : rules.toRules a b := by simp [RuleBase.toRules, hb]
      exact .inr ⟨l.atom, Rules.depends_of_mem hmem hl, hv⟩
  · have h₁ : ∀ b, rules.bodies a ≠ [b] := fun b hb => h₁ ⟨b, hb⟩
    have hbody : ∀ b ∈ (rules.bodies a).zipIdx, .body a b.2 ∈ varsOf rules a := fun b hb => by
      rw [varsOf_of_several h₀ h₁]
      exact List.mem_cons_of_mem _ (List.mem_map.mpr ⟨b, hb, rfl⟩)
    rw [definition_of_several h₀ h₁] at hc
    rcases List.mem_append.mp hc with hc | hc
    · obtain ⟨b, hb, hc⟩ := List.mem_flatMap.mp hc
      rcases List.mem_cons.mp hc with rfl | hc
      · rcases List.mem_cons.mp hx with rfl | hx
        · exact .inl (mem_varsOf_atom.mpr rfl)
        · rw [List.mem_singleton.mp hx]
          exact .inl (hbody b hb)
      · rcases mem_conjunctionClauses hc hx with hv | ⟨l, hl, hv⟩
        · exact .inl (hv ▸ hbody b hb)
        · exact .inr ⟨l.atom, Rules.depends_of_mem (List.fst_mem_of_mem_zipIdx hb) hl, hv⟩
    · rw [List.mem_singleton.mp hc] at hx
      rcases List.mem_cons.mp hx with rfl | hx
      · exact .inl (mem_varsOf_atom.mpr rfl)
      · obtain ⟨b, hb, rfl⟩ := List.mem_map.mp hx
        exact .inl (hbody b hb)

theorem nodup_varsOf (rules : RuleBase) (a : Atom) : (varsOf rules a).Nodup := by
  unfold varsOf
  split
  · simp
  · simp
  · refine List.nodup_cons.mpr ⟨by simp, ?_⟩
    have hsnd : ((rules.bodies a).zipIdx.map fun b => Variable.body a b.2) =
        ((rules.bodies a).zipIdx.map Prod.snd).map (Variable.body a) := by rw [List.map_map]; rfl
    rw [hsnd, List.zipIdx_map_snd]
    exact List.Nodup.map (fun i j hij => (Variable.body.inj hij).2) List.nodup_range'

namespace Completes

variable {rules : RuleBase} {reached : Atom → Prop} {s : Completion} {atoms : List Atom}
  {extra : List (List SignedVariable)}

theorem numbered_of_mem_clauses (h : Completes rules reached s atoms extra)
    {c : List SignedVariable} (hc : c ∈ s.clauses.toList) : ∀ x ∈ c, x.1 ∈ s.numbering.vars := by
  intro x hx
  rcases h.mem_clauses.mp hc with hc | ⟨a, ha, hc⟩
  · exact h.numbered c hc x hx
  · rcases mem_definition hc hx with hv | ⟨b, hb, hv⟩
    · exact h.mem_vars.mpr ⟨a, ha, hv⟩
    · rw [hv]
      exact h.mem_vars_atom.mpr (h.closed ha hb)

theorem eval_clause_iff {n : Numbering} {t : Assignment} {c : List SignedVariable}
    (hc : ∀ x ∈ c, x.1 ∈ n.vars) :
    Clause.eval t (c.map (encode n)) = true ↔ ClauseHolds (valuation n t) c := by
  simp only [Clause.eval, List.any_map, List.any_eq_true, Function.comp_apply, ClauseHolds]
  exact exists_congr fun x => and_congr_right fun hx => satisfies_encode (hc x hx)

variable {α : Type} [Scalar α]

/-- An assignment satisfies a completion exactly if values that agree with it, on all that have a
number, satisfy the definitions of the completed atoms and the extra clauses. -/
theorem eval_iff_of_agree (h : Completes rules reached s atoms extra) (w : Weights Literal α)
    {t : Assignment} {τ : Variable → Bool}
    (hτ : ∀ v ∈ s.numbering.vars, τ v = valuation s.numbering t v) :
    (s.finish w).cnf.eval t = true ↔
      (∀ a ∈ atoms, ∀ c ∈ definition rules a, ClauseHolds τ c) ∧ ∀ c ∈ extra, ClauseHolds τ c := by
  have hclause : ∀ c ∈ s.clauses.toList,
      (Clause.eval t (c.map (encode s.numbering)) = true ↔ ClauseHolds τ c) := by
    intro c hc
    have hnumbered := h.numbered_of_mem_clauses hc
    rw [eval_clause_iff hnumbered]
    refine exists_congr fun x => and_congr_right fun hx => ?_
    rw [hτ x.1 (hnumbered x hx)]
  have hall : (s.finish w).cnf.eval t = true ↔ ∀ c ∈ s.clauses.toList, ClauseHolds τ c := by
    simp only [Cnf.eval, finish, List.all_eq_true, List.mem_map, forall_exists_index, and_imp,
      forall_apply_eq_imp_iff₂]
    exact forall₂_congr hclause
  rw [hall]
  constructor
  · intro hc
    exact ⟨fun a ha c hca => hc c (h.mem_clauses.mpr (.inr ⟨a, ha, hca⟩)),
      fun c hce => hc c (h.mem_clauses.mpr (.inl hce))⟩
  · rintro ⟨hdef, hextra⟩ c hc
    rcases h.mem_clauses.mp hc with hc | ⟨a, ha, hc⟩
    · exact hextra c hc
    · exact hdef a ha c hc

/-- **The assignments that satisfy a completion.** They satisfy the definitions of the
completed atoms, and the extra clauses. -/
theorem eval_iff (h : Completes rules reached s atoms extra) (w : Weights Literal α)
    (t : Assignment) :
    (s.finish w).cnf.eval t = true ↔
      (∀ a ∈ atoms, ∀ c ∈ definition rules a, ClauseHolds (valuation s.numbering t) c) ∧
      ∀ c ∈ extra, ClauseHolds (valuation s.numbering t) c :=
  h.eval_iff_of_agree w fun _ _ => rfl

theorem perm_vars (h : Completes rules reached s atoms extra) :
    s.numbering.vars.Perm (atoms.flatMap (varsOf rules)) := by
  rw [← Multiset.coe_eq_coe, h.grows.vars]
  simp [Completion.empty, Numbering.empty]

theorem perm_clauses (h : Completes rules reached s atoms extra) :
    s.clauses.toList.Perm (extra ++ atoms.flatMap (definition rules)) := by
  rw [← Multiset.coe_eq_coe, h.grows.clauses]
  simp [Completion.empty]

/-- Each variable has one number. -/
theorem nodup_vars (h : Completes rules reached s atoms extra) : s.numbering.vars.Nodup := by
  refine h.perm_vars.nodup_iff.mpr
    (List.nodup_flatMap.mpr ⟨fun a _ => nodup_varsOf rules a, ?_⟩)
  refine h.grows.nodup.imp fun {a b} hab v hva hvb => hab ?_
  cases v with
  | atom c => rw [← mem_varsOf_atom.mp hva, ← mem_varsOf_atom.mp hvb]
  | body c i => rw [← (body_of_mem_varsOf hva).1, ← (body_of_mem_varsOf hvb).1]

end Completes

/-! ### Weights -/

section Weights

variable {α : Type}

/-- The table that weighs the numbers of variables, counted from one. -/
def weighVars (f : Variable → α × α) (vs : List Variable) : Weights Int α :=
  (vs.zipIdx 1).foldl (fun w x => w.insertPair (x.2 : Int) (f x.1).1 (f x.1).2) .empty

theorem weighVars_append (f : Variable → α × α) (vs : List Variable) (v : Variable) :
    weighVars f (vs ++ [v]) =
      (weighVars f vs).insertPair (vs.length + 1 : Nat) (f v).1 (f v).2 := by
  simp [weighVars, List.zipIdx_append, add_comm 1]

/-- Each number has the weights of its variable. -/
theorem get?_weighVars (f : Variable → α × α) (vs : List Variable) {i : Nat}
    (hi : i < vs.length) :
    (weighVars f vs).get? (i + 1 : Nat) = some (f vs[i]).1 ∧
      (weighVars f vs).get? (-(i + 1 : Nat)) = some (f vs[i]).2 := by
  induction vs using List.reverseRecOn with
  | nil => simp at hi
  | append_singleton vs v ih =>
    rw [weighVars_append, Weights.get?_insertPair, Weights.get?_insertPair]
    simp only [Std.LawfulEqCmp.compare_eq_iff_eq, Signed.opposite]
    have hlast : i ≤ vs.length := by simpa [Nat.lt_succ_iff] using hi
    have hsign : ((i + 1 : Nat) : Int) ≠ -((vs.length + 1 : Nat) : Int) := by omega
    have hsign' : -((i + 1 : Nat) : Int) ≠ ((vs.length + 1 : Nat) : Int) := by omega
    by_cases hlt : i < vs.length
    · have hne : ((i + 1 : Nat) : Int) ≠ ((vs.length + 1 : Nat) : Int) := by omega
      have hne' : -((i + 1 : Nat) : Int) ≠ -((vs.length + 1 : Nat) : Int) := by omega
      rw [if_neg hne, if_neg hsign, if_neg hsign', if_neg hne', List.getElem_append_left hlt]
      exact ih hlt
    · obtain rfl : i = vs.length := by omega
      rw [if_pos rfl, if_neg hsign', if_pos rfl, List.getElem_concat_length rfl]
      exact ⟨rfl, rfl⟩

/-- No other numbers have weights. -/
theorem isSome_get?_weighVars (f : Variable → α × α) (vs : List Variable) (k : Int) :
    ((weighVars f vs).get? k).isSome = true ↔ 1 ≤ k.natAbs ∧ k.natAbs ≤ vs.length := by
  induction vs using List.reverseRecOn with
  | nil => exact iff_of_false nofun (by rw [List.length_nil]; omega)
  | append_singleton vs v ih =>
    rw [weighVars_append, Weights.get?_insertPair, List.length_append, List.length_singleton]
    simp only [Std.LawfulEqCmp.compare_eq_iff_eq, Signed.opposite]
    split
    · exact iff_of_true rfl (by omega)
    · split
      · exact iff_of_true rfl (by omega)
      · rw [ih]
        omega

end Weights

end Completion
end ProbLogic
