/-
# What adding rules does to a rule base

A rule base simplifies what is added to it: positive literals on facts are
left out, rules of facts are ignored, and a new fact is removed from the
bodies of other heads, some of which become facts themselves. `add_cases` says
all that one addition can do, and everything else is derived from it.

The simplifications keep the meaning of the rules (`Represents`). Bodies are
read with one interpretation for the positive and one for the negative
literals. Facts are true wherever the positive literals are closed under the
rules, and where facts are true the stored bodies of a head are as good as
those that were added. So the supported models of a rule base are those of the
rules added to it (`supported_iff`). Rules that do not simplify each other are
stored as they are added (`Irreducible`).

Literals are compared by their texts, so this needs atoms whose names do not
start with a dash (`Atom.Plain`). That a stored body has no new literals
(`exists_rule_of_mem_bodies`) does not.

Key definitions: `Atom.Plain`, `WellFormed`, `RuleBase.ofRules`, `Irreducible`, `Represents`.
Key theorems: `add_cases`, `WellFormed.ext`, `exists_rule_of_mem_bodies`,
`Irreducible.bodies_ofRules`, `represents_ofRules`, `supported_iff`.
-/
import ProbLogic.Proofs.Ascending
import ProbLogic.Proofs.LeastModel

namespace ProbLogic

/-! ### Literals and their texts -/

/-- The name does not start with a dash, so it is not the text of a negative literal. -/
def Atom.Plain (a : Atom) : Prop := a.name.toList.head? ≠ some '-'

instance (a : Atom) : Decidable a.Plain := inferInstanceAs (Decidable (_ ≠ _))

theorem Literal.text_eq_of_compare {l k : Literal} (h : compare l k = .eq) : l.text = k.text :=
  Std.LawfulEqOrd.eq_of_compare (a := l.text) (b := k.text) h

/-- Literals are known by their texts, if the atoms of positive ones are plain. -/
theorem Literal.eq_of_compare {l k : Literal} (hl : l.positive = true → l.atom.Plain)
    (hk : k.positive = true → k.atom.Plain) (h : compare l k = .eq) : l = k := by
  have ht := text_eq_of_compare h
  obtain ⟨⟨a⟩, p⟩ := l
  obtain ⟨⟨b⟩, q⟩ := k
  simp only [Atom.Plain] at hl hk
  cases p <;> cases q
  · have hab : a = b := by simpa [text] using ht
    rw [hab]
  · have hb : b = "-" ++ a := by simpa [text] using ht.symm
    simp [hb] at hk
  · have ha : a = "-" ++ b := by simpa [text] using ht
    simp [ha] at hl
  · have hab : a = b := by simpa [text] using ht
    rw [hab]

namespace RuleBase

/-! ### One addition -/

/-- The body that is added: a set without positive literals on facts. -/
def trim (r : RuleBase) (body : List Literal) : Body :=
  Ascending.ofListLast (body.filter fun l => !(l.positive && r.isFact l.atom))

theorem bodies_put (r : RuleBase) (h a : Atom) (bs : List Body) :
    (⟨Ascending.put h bs r.entries⟩ : RuleBase).bodies a = if a = h then bs else r.bodies a := by
  simp only [bodies, Ascending.get?_put, beq_iff_eq, Std.LawfulEqCmp.compare_eq_iff_eq]
  split <;> rfl

theorem contains_put (r : RuleBase) (h a : Atom) (bs : List Body) :
    (⟨Ascending.put h bs r.entries⟩ : RuleBase).contains a = (decide (a = h) || r.contains a) := by
  simp only [contains, Ascending.get?_put, beq_iff_eq, Std.LawfulEqCmp.compare_eq_iff_eq]
  split <;> simp_all

theorem get?_propagate (r : RuleBase) (h a : Atom) :
    Ascending.get? a (r.propagate h).entries =
      (Ascending.get? a r.entries).map fun bs => if a = h then bs else settle (.pos h) bs := by
  have hf : ∀ j, compare a j = .eq →
      (fun bs => if j = h then bs else settle (.pos h) bs) =
        fun bs => if a = h then bs else settle (.pos h) bs :=
    fun j hj => by rw [Std.LawfulEqCmp.eq_of_compare hj]
  rw [← Ascending.get?_map_snd a r.entries
    (fun j bs => if j = h then bs else settle (.pos h) bs) hf]
  congr 1
  refine List.map_congr_left fun e _ => ?_
  split <;> rfl

theorem settle_nil (l : Literal) : settle l [] = [] := rfl

theorem bodies_propagate (r : RuleBase) (h a : Atom) :
    (r.propagate h).bodies a = if a = h then r.bodies a else settle (.pos h) (r.bodies a) := by
  simp only [bodies, get?_propagate]
  cases Ascending.get? a r.entries <;> simp [settle_nil]

theorem contains_propagate (r : RuleBase) (h a : Atom) :
    (r.propagate h).contains a = r.contains a := by
  simp only [contains, get?_propagate, Option.isSome_map]

theorem isFact_iff {r : RuleBase} {a : Atom} : r.isFact a = true ↔ r.bodies a = [[]] := by
  simp [isFact]

theorem contains_of_isFact {r : RuleBase} {a : Atom} (h : r.isFact a = true) :
    r.contains a = true :=
  contains_of_mem_bodies (b := []) (by rw [isFact_iff.mp h]; exact List.mem_singleton_self _)

theorem add_eq (r : RuleBase) (h : Atom) (b : List Literal) :
    r.add h b = if r.isFact h then r
      else if (r.trim b).isEmpty then (⟨Ascending.put h [[]] r.entries⟩ : RuleBase).propagate h
      else ⟨Ascending.put h (r.bodies h ++ [r.trim b]) r.entries⟩ := rfl

/-- **What one addition can do.** A rule of a fact is ignored, a rule without a body left
makes its head a fact and removes it from all other bodies, and any other rule is added to
the bodies of its head. -/
theorem add_cases (r : RuleBase) (h : Atom) (b : List Literal) :
    (r.isFact h = true ∧ r.add h b = r) ∨
    (r.isFact h = false ∧ r.trim b = [] ∧
      ∀ a, (r.add h b).bodies a = if a = h then [[]] else settle (.pos h) (r.bodies a)) ∨
    (r.isFact h = false ∧ r.trim b ≠ [] ∧
      ∀ a, (r.add h b).bodies a = if a = h then r.bodies a ++ [r.trim b] else r.bodies a) := by
  by_cases hf : r.isFact h = true
  · exact .inl ⟨hf, by simp [add, hf]⟩
  · have hf : r.isFact h = false := by simpa using hf
    by_cases ht : r.trim b = []
    · refine .inr (.inl ⟨hf, ht, fun a => ?_⟩)
      rw [add_eq, hf, ht, if_neg (by simp), if_pos (by simp), bodies_propagate, bodies_put]
      split <;> rfl
    · refine .inr (.inr ⟨hf, ht, fun a => ?_⟩)
      rw [add_eq, hf, if_neg (by simp), if_neg (by simpa using ht), bodies_put]
      split
      · next hah => rw [hah]
      · rfl

theorem contains_add (r : RuleBase) (h a : Atom) (b : List Literal) :
    (r.add h b).contains a = (decide (a = h) || r.contains a) := by
  rw [add_eq]
  split
  · next hf =>
    by_cases hah : a = h
    · simp [hah, contains_of_isFact hf]
    · simp [hah]
  · split
    · rw [contains_propagate, contains_put]
    · rw [contains_put]

theorem mem_trim_subset {r : RuleBase} {b : List Literal} : r.trim b ⊆ b := fun _ hl =>
  (List.mem_filter.mp (Ascending.mem_of_mem_ofListLast hl)).1

theorem exists_of_mem_settle {l : Literal} {bs : List Body} {b : Body} (h : b ∈ settle l bs) :
    ∃ b' ∈ bs, b ⊆ b' := by
  unfold settle at h
  split at h
  · next hany =>
    obtain ⟨b', hb', -⟩ := List.any_eq_true.mp hany
    rw [List.mem_singleton.mp h]
    exact ⟨b', hb', List.nil_subset _⟩
  · obtain ⟨b', hb', rfl⟩ := List.mem_map.mp h
    exact ⟨b', hb', List.filter_subset_self b'⟩

theorem exists_entry_of_mem_bodies {r : RuleBase} {a : Atom} {b : Body} (h : b ∈ r.bodies a) :
    ∃ bs, (a, bs) ∈ r.entries ∧ b ∈ bs := by
  obtain ⟨bs, hbs⟩ := Option.isSome_iff_exists.mp (contains_of_mem_bodies h)
  exact ⟨bs, Ascending.mem_of_get? hbs, by simpa [bodies, hbs] using h⟩

/-! ### The form of a rule base -/

theorem settle_eq_nil {l : Literal} {bs : List Body} : settle l bs = [] ↔ bs = [] := by
  unfold settle
  split
  · next hany =>
    obtain ⟨b, hb, -⟩ := List.any_eq_true.mp hany
    simp [List.ne_nil_of_mem hb]
  · simp

/-- The heads are ascending, each of them has a body, and the bodies are ascending. -/
structure WellFormed (r : RuleBase) : Prop where
  heads : Ascending.IsAscending r.heads
  entries : ∀ e ∈ r.entries, e.2 ≠ [] ∧ ∀ b ∈ e.2, Ascending.IsAscending b

namespace WellFormed

variable {r r' : RuleBase} {a : Atom} {b : Body}

theorem isAscending_body (hr : r.WellFormed) (hb : b ∈ r.bodies a) : Ascending.IsAscending b := by
  obtain ⟨bs, he, hb⟩ := exists_entry_of_mem_bodies hb
  exact (hr.entries _ he).2 b hb

theorem bodies_ne_nil (hr : r.WellFormed) (ha : r.contains a = true) : r.bodies a ≠ [] := by
  obtain ⟨bs, hbs⟩ := Option.isSome_iff_exists.mp ha
  have hbodies : r.bodies a = bs := by rw [bodies, hbs, Option.getD_some]
  rw [hbodies]
  exact (hr.entries _ (Ascending.mem_of_get? hbs)).1

theorem put (hr : r.WellFormed) {bs : List Body} (hne : bs ≠ [])
    (hbs : ∀ b ∈ bs, Ascending.IsAscending b) :
    RuleBase.WellFormed ⟨Ascending.put a bs r.entries⟩ where
  heads := by
    show Ascending.IsAscending ((Ascending.put a bs r.entries).map Prod.fst)
    rw [Ascending.map_fst_put]
    exact Ascending.isAscending_insert hr.heads
  entries e he := by
    rcases Ascending.mem_of_mem_put he with ⟨-, hval⟩ | he
    · rw [hval]
      exact ⟨hne, hbs⟩
    · exact hr.entries e he

theorem propagate (hr : r.WellFormed) (h : Atom) : (r.propagate h).WellFormed where
  heads := by
    have hheads : (r.propagate h).heads = r.heads := by
      unfold RuleBase.heads RuleBase.propagate
      rw [List.map_map]
      apply List.map_congr_left
      intro e _
      show (if e.1 = h then e else (e.1, settle (.pos h) e.2)).1 = e.1
      split <;> rfl
    rw [hheads]
    exact hr.heads
  entries e he := by
    obtain ⟨d, hd, rfl⟩ := List.mem_map.mp he
    obtain ⟨hne, hbs⟩ := hr.entries d hd
    by_cases hh : d.1 = h
    · rw [if_pos hh]
      exact ⟨hne, hbs⟩
    rw [if_neg hh]
    refine ⟨fun hnil => hne (settle_eq_nil.mp hnil), fun b hb => ?_⟩
    have hb : b ∈ settle (.pos h) d.2 := hb
    unfold settle at hb
    split at hb
    · rw [List.mem_singleton.mp hb]
      exact List.Pairwise.nil
    · obtain ⟨b', hb', rfl⟩ := List.mem_map.mp hb
      exact Ascending.isAscending_remove (hbs b' hb')

theorem add (hr : r.WellFormed) (h : Atom) (body : List Literal) : (r.add h body).WellFormed := by
  rw [add_eq]
  split
  · exact hr
  split
  · exact (hr.put (by simp) (by simp [Ascending.IsAscending])).propagate h
  · refine hr.put (by simp) fun b hb => ?_
    rcases List.mem_append.mp hb with hb | hb
    · exact hr.isAscending_body hb
    · rw [List.mem_singleton.mp hb]
      exact Ascending.isAscending_ofListLast _

theorem mem_entries_iff (hr : r.WellFormed) {e : Atom × List Body} :
    e ∈ r.entries ↔ r.bodies e.1 = e.2 ∧ e.2 ≠ [] := by
  constructor
  · intro he
    refine ⟨?_, (hr.entries e he).1⟩
    rw [bodies, Ascending.get?_of_mem hr.heads he, Option.getD_some]
  · rintro ⟨hbodies, hne⟩
    obtain ⟨b, hb⟩ := List.exists_mem_of_ne_nil _ hne
    obtain ⟨bs, he, -⟩ := exists_entry_of_mem_bodies (hbodies ▸ hb)
    have hbs : r.bodies e.1 = bs := by
      rw [bodies, Ascending.get?_of_mem hr.heads he, Option.getD_some]
    rwa [← hbs, hbodies] at he

/-- A rule base is determined by the bodies of its heads. -/
theorem ext (hr : r.WellFormed) (hr' : r'.WellFormed) (h : ∀ a, r.bodies a = r'.bodies a) :
    r = r' := by
  have hentries : r.entries = r'.entries := by
    apply Ascending.eq_of_mem_iff_fst hr.heads hr'.heads
    intro e
    rw [hr.mem_entries_iff, hr'.mem_entries_iff, h]
  exact congrArg RuleBase.mk hentries

end WellFormed

/-! ### Sequences of additions -/

/-- The rule base of rules that are added in turn. -/
def ofRules (rs : List (Atom × List Literal)) : RuleBase :=
  rs.foldl (fun r x => r.add x.1 x.2) empty

theorem ofRules_append (rs : List (Atom × List Literal)) (h : Atom) (b : List Literal) :
    ofRules (rs ++ [(h, b)]) = (ofRules rs).add h b := by simp [ofRules]

theorem wellFormed_ofRules (rs : List (Atom × List Literal)) : (ofRules rs).WellFormed := by
  induction rs using List.reverseRecOn with
  | nil => exact ⟨List.Pairwise.nil, by simp [ofRules, empty]⟩
  | append_singleton rs x ih =>
    rw [show x = (x.1, x.2) from rfl, ofRules_append]
    exact ih.add x.1 x.2

theorem contains_ofRules (rs : List (Atom × List Literal)) (a : Atom) :
    (ofRules rs).contains a = true ↔ ∃ b, (a, b) ∈ rs := by
  induction rs using List.reverseRecOn with
  | nil => simp [ofRules, empty, contains, Ascending.get?]
  | append_singleton rs x ih =>
    obtain ⟨h, b⟩ := x
    rw [ofRules_append, contains_add]
    simp only [Bool.or_eq_true, decide_eq_true_eq, ih, List.mem_append, List.mem_singleton,
      Prod.mk.injEq]
    constructor
    · rintro (rfl | ⟨c, hc⟩)
      · exact ⟨b, .inr ⟨rfl, rfl⟩⟩
      · exact ⟨c, .inl hc⟩
    · rintro ⟨c, hc | ⟨rfl, rfl⟩⟩
      · exact .inr ⟨c, hc⟩
      · exact .inl rfl

/-- Every head has a body. -/
theorem bodies_ofRules_ne_nil (rs : List (Atom × List Literal)) {a : Atom} :
    (ofRules rs).bodies a ≠ [] ↔ (ofRules rs).contains a = true := by
  constructor
  · intro h
    obtain ⟨b, hb⟩ := List.exists_mem_of_ne_nil _ h
    exact contains_of_mem_bodies hb
  · exact (wellFormed_ofRules rs).bodies_ne_nil

theorem mem_atoms_of_contains {r : RuleBase} {a : Atom} (h : r.contains a = true) :
    a ∈ r.atoms := by
  obtain ⟨bs, hbs⟩ := Option.isSome_iff_exists.mp h
  exact Ascending.mem_ofList.mpr
    (List.mem_flatMap.mpr ⟨(a, bs), Ascending.mem_of_get? hbs, List.mem_cons_self⟩)

theorem mem_atoms_of_mem_bodies {r : RuleBase} {a : Atom} {b : Body} {l : Literal}
    (hb : b ∈ r.bodies a) (hl : l ∈ b) : l.atom ∈ r.atoms := by
  obtain ⟨bs, he, hb⟩ := exists_entry_of_mem_bodies hb
  refine Ascending.mem_ofList.mpr
    (List.mem_flatMap.mpr ⟨(a, bs), he, List.mem_cons_of_mem _ ?_⟩)
  exact List.mem_map_of_mem (List.mem_flatten.mpr ⟨b, hb, hl⟩)

/-- All atoms that are stored have a property. -/
def Within (P : Atom → Prop) (r : RuleBase) : Prop :=
  ∀ e ∈ r.entries, P e.1 ∧ ∀ b ∈ e.2, ∀ l ∈ b, P l.atom

theorem Within.put {P : Atom → Prop} {r : RuleBase} {a : Atom} {bs : List Body}
    (hr : r.Within P) (ha : P a) (hbs : ∀ b ∈ bs, ∀ l ∈ b, P l.atom) :
    RuleBase.Within P ⟨Ascending.put a bs r.entries⟩ := by
  intro e he
  rcases Ascending.mem_of_mem_put he with ⟨hkey, hval⟩ | he
  · rw [hval, ← Std.LawfulEqCmp.eq_of_compare hkey]
    exact ⟨ha, hbs⟩
  · exact hr e he

theorem Within.propagate {P : Atom → Prop} {r : RuleBase} (hr : r.Within P) (a : Atom) :
    (r.propagate a).Within P := by
  intro e he
  obtain ⟨e', he', rfl⟩ := List.mem_map.mp he
  split
  · exact hr e' he'
  · refine ⟨(hr e' he').1, fun b' hb' l hl => ?_⟩
    obtain ⟨b, hb, hsub⟩ := exists_of_mem_settle hb'
    exact (hr e' he').2 b hb l (hsub hl)

theorem Within.bodies {P : Atom → Prop} {r : RuleBase} {a : Atom} {b : Body} {l : Literal}
    (hr : r.Within P) (hb : b ∈ r.bodies a) (hl : l ∈ b) : P l.atom := by
  obtain ⟨bs, he, hb⟩ := exists_entry_of_mem_bodies hb
  exact (hr _ he).2 b hb l hl

theorem Within.add {P : Atom → Prop} {r : RuleBase} {a : Atom} {b : List Literal}
    (hr : r.Within P) (ha : P a) (hb : ∀ l ∈ b, P l.atom) : (r.add a b).Within P := by
  rw [add_eq]
  split
  · exact hr
  split
  · exact (hr.put ha (by simp)).propagate a
  · refine hr.put ha fun b' hb' l hl => ?_
    rcases List.mem_append.mp hb' with hb' | hb'
    · exact hr.bodies hb' hl
    · rw [List.mem_singleton.mp hb'] at hl
      exact hb l (mem_trim_subset hl)

theorem Within.atoms {P : Atom → Prop} {r : RuleBase} (hr : r.Within P) : ∀ a ∈ r.atoms, P a := by
  intro a ha
  obtain ⟨e, he, ha⟩ := List.mem_flatMap.mp (Ascending.mem_ofList.mp ha)
  rcases List.mem_cons.mp ha with rfl | ha
  · exact (hr e he).1
  · obtain ⟨l, hl, rfl⟩ := List.mem_map.mp ha
    obtain ⟨b, hb, hl⟩ := List.mem_flatten.mp hl
    exact (hr e he).2 b hb l hl

/-- A property of all atoms in rules is one of all atoms in their rule base. -/
theorem within_ofRules {P : Atom → Prop} {rs : List (Atom × List Literal)}
    (h : ∀ x ∈ rs, P x.1 ∧ ∀ l ∈ x.2, P l.atom) : (ofRules rs).Within P := by
  induction rs using List.reverseRecOn with
  | nil => simp [Within, ofRules, empty]
  | append_singleton rs x ih =>
    obtain ⟨hx, hbody⟩ := h x (by simp)
    rw [show x = (x.1, x.2) from rfl, ofRules_append]
    exact (ih fun y hy => h y (List.mem_append_left _ hy)).add hx hbody

/-- A stored body has only literals of a body that was added. -/
theorem exists_rule_of_mem_bodies (rs : List (Atom × List Literal)) {a : Atom} {b : Body}
    (h : b ∈ (ofRules rs).bodies a) : ∃ b', (a, b') ∈ rs ∧ b ⊆ b' := by
  induction rs using List.reverseRecOn generalizing a b with
  | nil => simp [ofRules, empty, bodies, Ascending.get?] at h
  | append_singleton rs x ih =>
    obtain ⟨head, body⟩ := x
    have hold : ∀ {a b}, b ∈ (ofRules rs).bodies a →
        ∃ b', (a, b') ∈ rs ++ [(head, body)] ∧ b ⊆ b' := fun hb => by
      obtain ⟨b', hb', hsub⟩ := ih hb
      exact ⟨b', List.mem_append_left _ hb', hsub⟩
    rw [ofRules_append] at h
    rcases add_cases (ofRules rs) head body with ⟨-, he⟩ | ⟨-, -, he⟩ | ⟨-, -, he⟩
    · exact hold (he ▸ h)
    · rw [he] at h
      split at h
      · next hah =>
        rw [List.mem_singleton.mp h, hah]
        exact ⟨body, by simp, List.nil_subset _⟩
      · obtain ⟨b', hb', hsub⟩ := exists_of_mem_settle h
        obtain ⟨b'', hb'', hsub'⟩ := hold hb'
        exact ⟨b'', hb'', List.Subset.trans hsub hsub'⟩
    · rw [he] at h
      split at h
      · next hah =>
        rcases List.mem_append.mp h with h | h
        · exact hold h
        · rw [List.mem_singleton.mp h, hah]
          exact ⟨body, by simp, mem_trim_subset⟩
      · exact hold h

theorem settle_eq_self {l : Literal} {bs : List Body} (h : ∀ b ∈ bs, ∀ k ∈ b, compare l k ≠ .eq) :
    settle l bs = bs := by
  have hhas : (bs.any fun b => Ascending.has l b && (Ascending.remove l b).isEmpty) = false := by
    rw [List.any_eq_false]
    intro b hb hany
    obtain ⟨k, hk, heq⟩ := List.any_eq_true.mp (Bool.and_eq_true_iff.mp hany).1
    exact h b hb k hk (by simpa using heq)
  have hremove : ∀ b ∈ bs, Ascending.remove l b = id b := by
    intro b hb
    exact List.filter_eq_self.mpr fun k hk => by simpa using h b hb k hk
  rw [settle, hhas, if_neg Bool.false_ne_true, List.map_congr_left hremove, List.map_id]

/-- Rules that do not simplify each other: one without a body is the only one for its head, and
no body has a literal that is taken for its head. -/
structure Irreducible (rs : List (Atom × List Literal)) : Prop where
  alone : rs.Pairwise fun x y => x.1 = y.1 → x.2 ≠ [] ∧ y.2 ≠ []
  unused : ∀ x ∈ rs, x.2 = [] → ∀ y ∈ rs, ∀ l ∈ y.2, compare (Literal.pos x.1) l ≠ .eq

theorem Irreducible.of_append {rs rs' : List (Atom × List Literal)}
    (h : Irreducible (rs ++ rs')) : Irreducible rs where
  alone := (List.pairwise_append.mp h.alone).1
  unused x hx hnil y hy := h.unused x (List.mem_append_left _ hx) hnil y (List.mem_append_left _ hy)

/-- **Rules are stored as they are added** if they do not simplify each other. -/
theorem Irreducible.bodies_ofRules {rs : List (Atom × List Literal)} (hrs : Irreducible rs)
    (a : Atom) : (ofRules rs).bodies a =
      (rs.filter fun x => x.1 = a).map fun x => Ascending.ofListLast x.2 := by
  induction rs using List.reverseRecOn generalizing a with
  | nil => rfl
  | append_singleton rs x ih =>
    obtain ⟨head, body⟩ := x
    have ih := ih hrs.of_append
    have halone : ∀ y ∈ rs, y.1 = head → y.2 ≠ [] ∧ body ≠ [] := fun y hy =>
      (List.pairwise_append.mp hrs.alone).2.2 y hy (head, body) (List.mem_singleton_self _)
    have hfact : ∀ c, (ofRules rs).isFact c = true → (c, []) ∈ rs := by
      intro c hc
      have hmem : ([] : Body) ∈ (ofRules rs).bodies c := by
        rw [isFact_iff.mp hc]
        exact List.mem_singleton_self _
      rw [ih c] at hmem
      obtain ⟨y, hy, hnil⟩ := List.mem_map.mp hmem
      obtain ⟨hmem, hhead⟩ := List.mem_filter.mp hy
      have hy : y = (c, []) :=
        Prod.ext (by simpa using hhead) (Ascending.ofListLast_eq_nil.mp hnil)
      exact hy ▸ hmem
    have hhead : (ofRules rs).isFact head = false := by
      rw [Bool.eq_false_iff]
      intro hc
      exact (halone _ (hfact head hc) rfl).1 rfl
    have htrim : (ofRules rs).trim body = Ascending.ofListLast body := by
      rw [trim, List.filter_eq_self.mpr]
      intro l hl
      rw [Bool.not_eq_true', Bool.and_eq_false_iff]
      by_contra hboth
      simp only [not_or, Bool.not_eq_false] at hboth
      have hl' : l = .pos l.atom := by rw [Literal.pos, ← hboth.1]
      refine hrs.unused _ (List.mem_append_left _ (hfact l.atom hboth.2)) rfl (head, body)
        (List.mem_append_right _ (List.mem_singleton_self _)) l hl ?_
      rw [← hl']
      exact Std.ReflCmp.compare_self
    have hlast : ((rs ++ [(head, body)]).filter fun x => x.1 = a) =
        (rs.filter fun x => x.1 = a) ++ if a = head then [(head, body)] else [] := by
      by_cases hah : a = head
      · simp [hah, List.filter_append]
      · simp [hah, Ne.symm hah, List.filter_append]
    rw [ofRules_append, hlast, List.map_append, ← ih a]
    rcases add_cases (ofRules rs) head body with ⟨hf, -⟩ | ⟨-, ht, he⟩ | ⟨-, -, he⟩
    · rw [hhead] at hf
      cases hf
    · have hnil : body = [] := Ascending.ofListLast_eq_nil.mp (htrim ▸ ht)
      rw [he]
      split
      · next hah =>
        have hnone : (rs.filter fun x => x.1 = a) = [] := by
          rw [List.filter_eq_nil_iff]
          intro y hy hya
          exact (halone y hy ((by simpa using hya : y.1 = a).trans hah)).2 hnil
        rw [ih a, hnone, hnil]
        rfl
      · rw [settle_eq_self, List.map_nil, List.append_nil]
        intro b hb l hl
        rw [ih a] at hb
        obtain ⟨y, hy, rfl⟩ := List.mem_map.mp hb
        exact hrs.unused (head, body) (List.mem_append_right _ (List.mem_singleton_self _)) hnil y
          (List.mem_append_left _ (List.mem_filter.mp hy).1) l (Ascending.mem_of_mem_ofListLast hl)
    · rw [he, htrim]
      split
      · rfl
      · rw [List.map_nil, List.append_nil]

/-- Rules that all have bodies make no facts, and are stored as they are added. -/
theorem bodies_ofRules (rs : List (Atom × List Literal)) (hrs : ∀ x ∈ rs, x.2 ≠ []) (a : Atom) :
    (ofRules rs).isFact a = false ∧ (ofRules rs).bodies a =
      (rs.filter fun x => x.1 = a).map fun x => Ascending.ofListLast x.2 := by
  have hirreducible : Irreducible rs :=
    ⟨List.pairwise_of_forall_mem_list fun x hx y hy _ => ⟨hrs x hx, hrs y hy⟩,
      fun x hx hnil => absurd hnil (hrs x hx)⟩
  have hbodies := hirreducible.bodies_ofRules a
  refine ⟨?_, hbodies⟩
  -- a body of a fact would be empty, and no stored body is
  by_contra hfact
  rw [Bool.not_eq_false, isFact_iff, hbodies] at hfact
  have hmem : ([] : Body) ∈ (rs.filter fun x => x.1 = a).map fun x => Ascending.ofListLast x.2 := by
    rw [hfact]
    exact List.mem_singleton_self _
  obtain ⟨y, hy, hy'⟩ := List.mem_map.mp hmem
  exact hrs y (List.mem_filter.mp hy).1 (Ascending.ofListLast_eq_nil.mp hy')

/-! ### The meaning of the added rules -/

section Meaning

variable {p m : Interpretation} {r : RuleBase} {h : Atom} {b : Body} {bs : List Body}

/-- A body is true with positive literals read in `p` and negative ones in `m`. -/
def HoldsIn (p m : Interpretation) (b : Body) : Prop :=
  ∀ l ∈ b, if l.positive then p l.atom else ¬ m l.atom

theorem holdsIn_self : HoldsIn m m b ↔ Body.Holds m b := by
  refine forall₂_congr fun l _ => ?_
  cases hp : l.positive <;> simp [Literal.Holds, hp]

theorem holdsIn_pos (hp : p h) {l : Literal} (hl : l = .pos h) :
    if l.positive then p l.atom else ¬ m l.atom := by
  simpa [hl, Literal.pos] using hp

theorem separated_of_plain {ls : List Literal} (h : ∀ l ∈ ls, l.atom.Plain) :
    Ascending.Separated ls := fun l hl k hk =>
  Literal.eq_of_compare (fun _ => h l hl) fun _ => h k hk

/-- Where facts are true, leaving them out of a body does not matter. -/
theorem holdsIn_trim (hb : ∀ l ∈ b, l.atom.Plain) (hfacts : ∀ a, r.isFact a = true → p a) :
    HoldsIn p m (r.trim b) ↔ HoldsIn p m b := by
  refine ⟨fun ht l hl => ?_, fun hb l hl => hb l (mem_trim_subset hl)⟩
  by_cases hf : l.positive = true ∧ r.isFact l.atom = true
  · simpa [hf.1] using hfacts _ hf.2
  · have hsep : Ascending.Separated (b.filter fun l => !(l.positive && r.isFact l.atom)) :=
      (separated_of_plain hb).mono (List.filter_subset_self b)
    refine ht l ((Ascending.mem_ofListLast hsep).mpr (List.mem_filter.mpr ⟨hl, ?_⟩))
    simpa [Bool.and_eq_true, -not_and, Classical.not_and_iff_not_or_not] using hf

theorem holdsIn_remove (hh : h.Plain) (hb : ∀ l ∈ b, l.atom.Plain) (hp : p h) :
    HoldsIn p m (Ascending.remove (.pos h) b) ↔ HoldsIn p m b := by
  refine ⟨fun hr l hl => ?_, fun hb l hl => hb l (List.mem_of_mem_filter hl)⟩
  by_cases hc : compare (Literal.pos h) l = .eq
  · exact holdsIn_pos hp (Literal.eq_of_compare (fun _ => hh) (fun _ => hb l hl) hc).symm
  · exact hr l (List.mem_filter.mpr ⟨hl, by simpa using hc⟩)

theorem exists_remove_eq_nil (hs : settle (.pos h) bs = [[]]) :
    ∃ b ∈ bs, Ascending.remove (.pos h) b = [] := by
  unfold settle at hs
  split at hs
  · next hany =>
    obtain ⟨b, hb, hrem⟩ := List.any_eq_true.mp hany
    simp only [Bool.and_eq_true, List.isEmpty_iff] at hrem
    exact ⟨b, hb, hrem.2⟩
  · have hmem : ([] : Body) ∈ bs.map (Ascending.remove (.pos h)) := by rw [hs]; simp
    exact List.mem_map.mp hmem

/-- Where the new fact is true, removing it from the bodies of a head does not matter. -/
theorem exists_holdsIn_settle (hh : h.Plain) (hbs : ∀ b ∈ bs, ∀ l ∈ b, l.atom.Plain) (hp : p h) :
    (∃ b ∈ settle (.pos h) bs, HoldsIn p m b) ↔ ∃ b ∈ bs, HoldsIn p m b := by
  by_cases hs : settle (.pos h) bs = [[]]
  · obtain ⟨b, hb, hrem⟩ := exists_remove_eq_nil hs
    have hholds : HoldsIn p m b := (holdsIn_remove hh (hbs b hb) hp).mp (by simp [hrem, HoldsIn])
    exact ⟨fun _ => ⟨b, hb, hholds⟩, fun _ => ⟨[], by simp [hs], by simp [HoldsIn]⟩⟩
  · have hmap : settle (.pos h) bs = bs.map (Ascending.remove (.pos h)) := by
      unfold settle at hs ⊢
      split at hs
      · exact absurd rfl hs
      · next hany => rw [if_neg hany]
    rw [hmap]
    simp only [List.mem_map, exists_exists_and_eq_and]
    exact exists_congr fun b => and_congr_right fun hb => holdsIn_remove hh (hbs b hb) hp

/-- A rule base stands for the rules that were added to it: its facts are true wherever
these rules are obeyed, and where its facts are true its bodies are as good as theirs. -/
structure Represents (rs : List (Atom × List Literal)) (r : RuleBase) : Prop where
  facts : ∀ p m, (∀ a b, (a, b) ∈ rs → HoldsIn p m b → p a) → ∀ a, r.isFact a = true → p a
  bodies : ∀ p m, (∀ a, r.isFact a = true → p a) →
    ∀ a, (∃ b, (a, b) ∈ rs ∧ HoldsIn p m b) ↔ ∃ b ∈ r.bodies a, HoldsIn p m b

theorem exists_holdsIn_of_isFact {a : Atom} (hf : r.isFact a = true) :
    ∃ b ∈ r.bodies a, HoldsIn p m b :=
  ⟨[], by simp [isFact_iff.mp hf], by simp [HoldsIn]⟩

theorem exists_mem_append_singleton {rs : List (Atom × List Literal)} {a : Atom}
    {b : List Literal} :
    (∃ c, (a, c) ∈ rs ++ [(h, b)] ∧ HoldsIn p m c) ↔
      (∃ c, (a, c) ∈ rs ∧ HoldsIn p m c) ∨ (a = h ∧ HoldsIn p m b) := by
  simp only [List.mem_append, List.mem_singleton, Prod.mk.injEq]
  constructor
  · rintro ⟨c, hc | ⟨rfl, rfl⟩, hholds⟩
    · exact .inl ⟨c, hc, hholds⟩
    · exact .inr ⟨rfl, hholds⟩
  · rintro (⟨c, hc, hholds⟩ | ⟨rfl, hholds⟩)
    · exact ⟨c, .inl hc, hholds⟩
    · exact ⟨b, .inr ⟨rfl, rfl⟩, hholds⟩

variable {rs : List (Atom × List Literal)}

/-- A head that becomes a fact. Facts stay facts, and the heads that become facts with it
had a body that needed nothing else. -/
theorem Represents.fact (hr : Represents rs r) (hh : h.Plain) (hb : ∀ l ∈ b, l.atom.Plain)
    (hplain : ∀ a, ∀ b ∈ r.bodies a, ∀ l ∈ b, l.atom.Plain) (hf : r.isFact h = false)
    (ht : r.trim b = []) {r' : RuleBase}
    (he : ∀ a, r'.bodies a = if a = h then [[]] else settle (.pos h) (r.bodies a)) :
    Represents (rs ++ [(h, b)]) r' := by
  have hfacts : ∀ a, r.isFact a = true → r'.isFact a = true := fun a ha => by
    have hah : a ≠ h := fun hah => by rw [hah, hf] at ha; cases ha
    rw [isFact_iff, he, if_neg hah, isFact_iff.mp ha]
    rfl
  have hnew : r'.isFact h = true := by rw [isFact_iff, he, if_pos rfl]
  have hholds : ∀ p m, (∀ a, r.isFact a = true → p a) → HoldsIn p m b := fun p m hp =>
    (holdsIn_trim hb hp).mp (by simp [ht, HoldsIn])
  constructor
  · intro p m hclosed a ha
    have hold := hr.facts p m fun a c hc => hclosed a c (List.mem_append_left _ hc)
    have hph : p h := hclosed h b (by simp) (hholds p m hold)
    by_cases hah : a = h
    · rwa [hah]
    · rw [isFact_iff, he, if_neg hah] at ha
      obtain ⟨c, hc, hrem⟩ := exists_remove_eq_nil ha
      have hcholds := (holdsIn_remove (p := p) (m := m) hh (hplain a c hc) hph).mp
        (by simp [hrem, HoldsIn])
      obtain ⟨c', hc', hholds'⟩ := (hr.bodies p m hold a).mpr ⟨c, hc, hcholds⟩
      exact hclosed a c' (List.mem_append_left _ hc') hholds'
  · intro p m hp a
    have hold : ∀ a, r.isFact a = true → p a := fun a ha => hp a (hfacts a ha)
    rw [exists_mem_append_singleton, he]
    by_cases hah : a = h
    · rw [if_pos hah]
      exact ⟨fun _ => ⟨[], by simp, by simp [HoldsIn]⟩, fun _ => .inr ⟨hah, hholds p m hold⟩⟩
    · rw [if_neg hah, exists_holdsIn_settle hh (hplain a) (hp h hnew), hr.bodies p m hold a]
      simp [hah]

/-- A rule that is added to the bodies of its head. -/
theorem Represents.rule (hr : Represents rs r) (hb : ∀ l ∈ b, l.atom.Plain)
    (hf : r.isFact h = false) (ht : r.trim b ≠ []) {r' : RuleBase}
    (he : ∀ a, r'.bodies a = if a = h then r.bodies a ++ [r.trim b] else r.bodies a) :
    Represents (rs ++ [(h, b)]) r' := by
  have hfacts : ∀ a, r'.isFact a = r.isFact a := fun a => by
    rw [isFact, isFact, he]
    by_cases hah : a = h
    · have hne : r.bodies a ++ [r.trim b] ≠ [[]] := fun hc => by
        have := congrArg List.getLast? hc
        simp [ht] at this
      rw [isFact, ← hah] at hf
      rw [if_pos hah, hf, decide_eq_false hne]
    · rw [if_neg hah]
  constructor
  · intro p m hclosed a ha
    exact hr.facts p m (fun a c hc => hclosed a c (List.mem_append_left _ hc)) a (hfacts a ▸ ha)
  · intro p m hp a
    have hold : ∀ a, r.isFact a = true → p a := fun a ha => hp a ((hfacts a).trans ha)
    rw [exists_mem_append_singleton, hr.bodies p m hold a, he]
    by_cases hah : a = h
    · rw [if_pos hah]
      simp only [List.mem_append, List.mem_singleton, or_and_right, exists_or, exists_eq_left,
        hah, true_and, holdsIn_trim hb hold]
    · simp [hah]

theorem represents_ofRules (hrs : ∀ x ∈ rs, x.1.Plain ∧ ∀ l ∈ x.2, l.atom.Plain) :
    Represents rs (ofRules rs) := by
  induction rs using List.reverseRecOn with
  | nil => constructor <;> simp [ofRules, empty, RuleBase.bodies, isFact, Ascending.get?]
  | append_singleton rs x ih =>
    obtain ⟨h, b⟩ := x
    have hr := ih fun x hx => hrs x (List.mem_append_left _ hx)
    obtain ⟨hh, hb⟩ := hrs (h, b) (by simp)
    have hplain : ∀ a, ∀ c ∈ (ofRules rs).bodies a, ∀ l ∈ c, l.atom.Plain := fun a c hc l hl => by
      obtain ⟨c', hc', hsub⟩ := exists_rule_of_mem_bodies rs hc
      exact (hrs (a, c') (List.mem_append_left _ hc')).2 l (hsub hl)
    rw [ofRules_append]
    rcases add_cases (ofRules rs) h b with ⟨hf, he⟩ | ⟨hf, ht, he⟩ | ⟨hf, ht, he⟩
    · -- a rule of a fact is ignored, and the fact is true anyway
      rw [he]
      refine ⟨fun p m hclosed => hr.facts p m fun a c hc => hclosed a c (List.mem_append_left _ hc),
        fun p m hp a => ?_⟩
      rw [exists_mem_append_singleton, hr.bodies p m hp a]
      refine ⟨?_, .inl⟩
      rintro (h' | ⟨rfl, -⟩)
      · exact h'
      · exact exists_holdsIn_of_isFact hf
    · exact hr.fact hh hb hplain hf ht he
    · exact hr.rule hb hf ht he

/-- **Adding rules keeps their supported models.** -/
theorem supported_iff (hrs : ∀ x ∈ rs, x.1.Plain ∧ ∀ l ∈ x.2, l.atom.Plain) (m : Interpretation) :
    IsSupported (fun a b => (a, b) ∈ rs) (fun a => ∃ b, (a, b) ∈ rs) m ↔
      IsSupported (ofRules rs).toRules (fun a => (ofRules rs).contains a = true) m := by
  have hr := represents_ofRules hrs
  have hbodies : (∀ a, (ofRules rs).isFact a = true → m a) → ∀ a,
      (∃ b, (a, b) ∈ rs ∧ Body.Holds m b) ↔ ∃ b, (ofRules rs).toRules a b ∧ Body.Holds m b := by
    intro hfacts a
    simpa only [holdsIn_self, toRules] using hr.bodies m m hfacts a
  constructor
  · intro hm a ha
    have hfacts := hr.facts m m fun a b hab hholds =>
      (hm a ⟨b, hab⟩).mpr ⟨b, hab, holdsIn_self.mp hholds⟩
    rw [hm a ((contains_ofRules rs a).mp ha), hbodies hfacts]
  · intro hm a ha
    have hfacts : ∀ a, (ofRules rs).isFact a = true → m a := fun a hf =>
      (hm a (contains_of_isFact hf)).mpr
        ⟨[], by simp [toRules, isFact_iff.mp hf], by simp [Body.Holds]⟩
    rw [hm a ((contains_ofRules rs a).mpr ha), hbodies hfacts]

end Meaning

end RuleBase
end ProbLogic
