/-
# Facts of a rule base

A fact is a head with one body, the empty one. Some atoms become facts by a
rule of their own, others are promoted when such a rule is added, because a
body of theirs needed nothing but the new fact. The two kinds differ in what
the bodies may still ask for: a fact that was added is gone from all bodies and
stays so, since it is removed when it is added and left out of every later
body, while a promoted fact stays in the bodies that had it before.

`Kept` is what holds of a rule base after any rules, for the atoms that have
been added as facts. One addition keeps it (`Kept.add`), with a head that it
makes a fact among these atoms, and so do all (`kept_ofRules`).

Key definitions: `Unneeded`, `AddedAsFact`, `Kept`.
Key theorems: `isFact_add`, `Kept.add`, `kept_ofRules`, `facts_ofRules`.
-/
import ProbLogic.Proofs.RuleBase

namespace ProbLogic
namespace RuleBase

variable {r : RuleBase} {a h : Atom} {b : List Literal} {rs : List (Atom × List Literal)}

/-! ### One addition -/

/-- No body has the positive literal on the atom. -/
def Unneeded (r : RuleBase) (a : Atom) : Prop := ∀ head, ∀ b ∈ r.bodies head, Literal.pos a ∉ b

theorem pos_notMem_trim (ha : r.isFact a = true) : Literal.pos a ∉ r.trim b := by
  intro hl
  have hfilter := (List.mem_filter.mp (Ascending.mem_of_mem_ofListLast hl)).2
  simp [Literal.pos, ha] at hfilter

theorem pos_notMem_settle {bs : List Body} {c : Body} (hc : c ∈ settle (.pos h) bs) :
    Literal.pos h ∉ c := by
  unfold settle at hc
  split at hc
  · rw [List.mem_singleton.mp hc]
    exact List.not_mem_nil
  · obtain ⟨b, -, rfl⟩ := List.mem_map.mp hc
    intro hl
    have hne := (List.mem_filter.mp hl).2
    simp at hne

/-- A body that is emptied is the only one left; others were empty before. -/
theorem settle_of_nil_mem {l : Literal} {bs : List Body} (hbs : [] ∈ bs → bs = [[]])
    (hnil : [] ∈ settle l bs) : settle l bs = [[]] := by
  by_cases hany : (bs.any fun b => Ascending.has l b && (Ascending.remove l b).isEmpty) = true
  · rw [settle, if_pos hany]
  · rw [settle, if_neg hany] at hnil
    obtain ⟨b, hb, hempty⟩ := List.mem_map.mp hnil
    have hhas : Ascending.has l b = false := by
      by_contra hhas
      refine hany (List.any_eq_true.mpr ⟨b, hb, ?_⟩)
      simp [hempty, Bool.eq_true_of_not_eq_false hhas]
    have hsame : Ascending.remove l b = b := by
      rw [Ascending.remove, List.filter_eq_self]
      intro k hk
      have hne := List.any_eq_false.mp hhas k hk
      simpa using hne
    rw [hsame] at hempty
    rw [hbs (hempty ▸ hb)]
    rfl

/-- **Facts stay facts.** -/
theorem isFact_add (ha : r.isFact a = true) (h : Atom) (b : List Literal) :
    (r.add h b).isFact a = true := by
  rcases add_cases r h b with ⟨-, he⟩ | ⟨-, -, he⟩ | ⟨hf, -, he⟩
  · rwa [he]
  · rw [isFact_iff, he]
    split
    · rfl
    · rw [isFact_iff.mp ha]
      rfl
  · have hah : a ≠ h := by
      rintro rfl
      rw [ha] at hf
      cases hf
    rw [isFact_iff, he, if_neg hah, isFact_iff.mp ha]

/-- A rule changes nothing if its head is a fact. -/
theorem add_of_isFact (ha : r.isFact a = true) (b : List Literal) : r.add a b = r := by
  rcases add_cases r a b with ⟨-, he⟩ | ⟨hf, -⟩ | ⟨hf, -⟩
  · exact he
  · rw [ha] at hf
    cases hf
  · rw [ha] at hf
    cases hf

/-- A fact that no body needs is not needed after a further rule. -/
theorem Unneeded.add (hr : r.Unneeded a) (ha : r.isFact a = true) (h : Atom) (b : List Literal) :
    (r.add h b).Unneeded a := by
  intro head c hc
  rcases add_cases r h b with ⟨-, he⟩ | ⟨-, -, he⟩ | ⟨-, -, he⟩
  · rw [he] at hc
    exact hr head c hc
  · rw [he] at hc
    split at hc
    · rw [List.mem_singleton.mp hc]
      exact List.not_mem_nil
    · obtain ⟨c', hc', hsub⟩ := exists_of_mem_settle hc
      exact fun hl => hr head c' hc' (hsub hl)
  · rw [he] at hc
    split at hc
    · rcases List.mem_append.mp hc with hc | hc
      · exact hr head c hc
      · rw [List.mem_singleton.mp hc]
        exact pos_notMem_trim ha
    · exact hr head c hc

/-- A head that its own rule makes a fact is removed from all bodies. -/
theorem unneeded_add (hold : r.isFact h = false) (hnew : (r.add h b).isFact h = true) :
    (r.add h b).Unneeded h := by
  intro head c hc
  rcases add_cases r h b with ⟨hf, -⟩ | ⟨-, -, he⟩ | ⟨-, ht, he⟩
  · rw [hold] at hf
    cases hf
  · rw [he] at hc
    split at hc
    · rw [List.mem_singleton.mp hc]
      exact List.not_mem_nil
    · exact pos_notMem_settle hc
  · -- a rule with a body left does not make its head a fact
    rw [isFact_iff, he, if_pos rfl] at hnew
    have hlast := congrArg List.getLast? hnew
    rw [List.getLast?_append_cons] at hlast
    exact absurd (by simpa using hlast) ht

/-! ### Whole runs -/

/-- The atom became a fact when a rule of its own was added, rather than by promotion. -/
def AddedAsFact (rs : List (Atom × List Literal)) (a : Atom) : Prop :=
  ∃ before body after, rs = before ++ (a, body) :: after ∧
    (ofRules before).isFact a = false ∧ (ofRules (before ++ [(a, body)])).isFact a = true

theorem not_addedAsFact_nil : ¬ AddedAsFact [] a := by
  rintro ⟨before, body, after, heq, -⟩
  exact List.append_ne_nil_of_right_ne_nil before (List.cons_ne_nil _ _) heq.symm

/-- The last rule adds its own head as a fact, or none. -/
theorem AddedAsFact.of_append (ha : AddedAsFact (rs ++ [(h, b)]) a) :
    AddedAsFact rs a ∨ (a = h ∧ (ofRules rs).isFact h = false ∧
      ((ofRules rs).add h b).isFact h = true) := by
  obtain ⟨before, body, after, heq, hold, hnew⟩ := ha
  rcases List.eq_nil_or_concat after with rfl | ⟨after, x, rfl⟩
  · obtain ⟨rfl, hx⟩ := List.append_inj' heq rfl
    obtain ⟨rfl, rfl⟩ := Prod.mk.inj (List.cons.inj hx).1
    rw [ofRules_append] at hnew
    exact .inr ⟨rfl, hold, hnew⟩
  · rw [List.concat_eq_append, ← List.cons_append, ← List.append_assoc] at heq
    obtain ⟨hrs, -⟩ := List.append_inj' heq rfl
    exact .inl ⟨before, body, after, hrs, hold, hnew⟩

/-- What holds of a rule base at all times, for the atoms that were added as facts: an empty
body is the only one of its head, and the atoms are facts that no body needs. -/
structure Kept (added : Atom → Prop) (r : RuleBase) : Prop where
  alone : ∀ a, [] ∈ r.bodies a → r.bodies a = [[]]
  isFact : ∀ a, added a → r.isFact a = true
  unneeded : ∀ a, added a → r.Unneeded a

theorem alone_add (hr : ∀ a, [] ∈ r.bodies a → r.bodies a = [[]]) (h : Atom) (b : List Literal)
    (a : Atom) (hnil : [] ∈ (r.add h b).bodies a) : (r.add h b).bodies a = [[]] := by
  rcases add_cases r h b with ⟨-, he⟩ | ⟨-, -, he⟩ | ⟨hf, ht, he⟩
  · rw [he] at hnil ⊢
    exact hr a hnil
  · rw [he] at hnil ⊢
    split at hnil
    · next hah => rw [if_pos hah]
    · next hah =>
      rw [if_neg hah]
      exact settle_of_nil_mem (hr a) hnil
  · rw [he] at hnil ⊢
    split at hnil
    · next hah =>
      -- the head would have been a fact
      rcases List.mem_append.mp hnil with hnil | hnil
      · have hfact : r.isFact h = true := isFact_iff.mpr (hah ▸ hr a hnil)
        rw [hf] at hfact
        cases hfact
      · exact absurd (List.mem_singleton.mp hnil).symm ht
    · next hah =>
      rw [if_neg hah]
      exact hr a hnil

/-- **One addition keeps the facts.** -/
theorem Kept.add {added : Atom → Prop} (hr : Kept added r) (h : Atom) (b : List Literal) :
    Kept (fun a => added a ∨ (a = h ∧ r.isFact h = false ∧ (r.add h b).isFact h = true))
      (r.add h b) where
  alone := alone_add hr.alone h b
  isFact a ha := by
    rcases ha with ha | ⟨rfl, -, hnew⟩
    · exact isFact_add (hr.isFact a ha) h b
    · exact hnew
  unneeded a ha := by
    rcases ha with ha | ⟨rfl, hold, hnew⟩
    · exact (hr.unneeded a ha).add (hr.isFact a ha) h b
    · exact unneeded_add hold hnew

theorem Kept.mono {added added' : Atom → Prop} (hr : Kept added r)
    (hsub : ∀ a, added' a → added a) : Kept added' r where
  alone := hr.alone
  isFact a ha := hr.isFact a (hsub a ha)
  unneeded a ha := hr.unneeded a (hsub a ha)

theorem kept_ofRules (rs : List (Atom × List Literal)) : Kept (AddedAsFact rs) (ofRules rs) := by
  induction rs using List.reverseRecOn with
  | nil =>
    refine ⟨fun a hnil => ?_, fun a ha => absurd ha not_addedAsFact_nil,
      fun a ha => absurd ha not_addedAsFact_nil⟩
    cases hnil
  | append_singleton rs x ih =>
    obtain ⟨h, b⟩ := x
    rw [ofRules_append]
    exact (ih.add h b).mono fun _ ha => ha.of_append

theorem isFact_ofRules_append (ha : (ofRules rs).isFact a = true)
    (more : List (Atom × List Literal)) : (ofRules (rs ++ more)).isFact a = true := by
  induction more using List.reverseRecOn with
  | nil => rwa [List.append_nil]
  | append_singleton more x ih =>
    obtain ⟨h, b⟩ := x
    rw [← List.append_assoc, ofRules_append]
    exact isFact_add ih h b

theorem contains_of_mem_heads (ha : a ∈ r.heads) : r.contains a = true := by
  obtain ⟨es⟩ := r
  simp only [contains, heads] at ha ⊢
  induction es with
  | nil => cases ha
  | cons e es ih =>
    by_cases he : compare a e.1 = .eq
    · simp [Ascending.get?, he]
    · have hne : a ≠ e.1 := fun heq => he (heq ▸ Std.ReflCmp.compare_self)
      have hrest := ih ((List.mem_cons.mp ha).resolve_left hne)
      simpa [Ascending.get?, he] using hrest

/-- **Facts are kept.** After any rules that are added to an empty rule base, the heads of these
rules are recorded and no others, each head has a body, and an empty body is the only one of its
head. A fact stays one whatever is added, and rules with it as their head change nothing. An
atom that became a fact by a rule of its own is in no body as a positive literal. -/
theorem facts_ofRules (rs : List (Atom × List Literal)) :
    (∀ a, a ∈ (ofRules rs).heads ↔ ∃ body, (a, body) ∈ rs) ∧
    (∀ a ∈ (ofRules rs).heads, (ofRules rs).bodies a ≠ []) ∧
    (∀ a, [] ∈ (ofRules rs).bodies a → (ofRules rs).bodies a = [[]]) ∧
    (∀ a, (ofRules rs).isFact a = true →
      (∀ more, (ofRules (rs ++ more)).isFact a = true) ∧
      ∀ body, (ofRules rs).add a body = ofRules rs) ∧
    ∀ a, AddedAsFact rs a → ∀ head, ∀ b ∈ (ofRules rs).bodies head, Literal.pos a ∉ b := by
  have hkept := kept_ofRules rs
  have hheads : ∀ a, a ∈ (ofRules rs).heads ↔ (ofRules rs).contains a = true := fun a =>
    ⟨contains_of_mem_heads, mem_heads_of_contains⟩
  refine ⟨fun a => ?_, fun a ha => ?_, hkept.alone, fun a ha => ⟨?_, ?_⟩, hkept.unneeded⟩
  · rw [hheads, contains_ofRules]
  · exact (bodies_ofRules_ne_nil rs).mpr ((hheads a).mp ha)
  · exact isFact_ofRules_append ha
  · exact add_of_isFact ha

/-- A fact `a` that had a rule on itself before, and `b` that is promoted by it. -/
def interleavedRules : List (Atom × List Literal) :=
  [(⟨"b"⟩, [.pos ⟨"a"⟩]), (⟨"c"⟩, [.pos ⟨"b"⟩, .neg ⟨"d"⟩]), (⟨"a"⟩, [.pos ⟨"a"⟩, .pos ⟨"e"⟩]),
    (⟨"a"⟩, []), (⟨"e"⟩, [.pos ⟨"a"⟩, .pos ⟨"b"⟩, .pos ⟨"d"⟩]), (⟨"b"⟩, [.pos ⟨"e"⟩])]

/-- The added fact is in no body, the promoted one still is in one, and it stays a fact. -/
theorem facts_ofRules_interleavedRules :
    (ofRules interleavedRules).text = "a.\nb.\nc :- not(d), b.\ne :- d.\n" ∧
      AddedAsFact interleavedRules ⟨"a"⟩ ∧ (ofRules interleavedRules).isFact ⟨"b"⟩ = true ∧
      (∀ head, ∀ b ∈ (ofRules interleavedRules).bodies head, Literal.pos ⟨"a"⟩ ∉ b) ∧
      ∀ more, (ofRules (interleavedRules ++ more)).isFact ⟨"b"⟩ = true := by
  obtain ⟨-, -, -, hfacts, hadded⟩ := facts_ofRules interleavedRules
  have ha : AddedAsFact interleavedRules ⟨"a"⟩ :=
    ⟨interleavedRules.take 3, [], interleavedRules.drop 4, rfl, by decide +kernel,
      by decide +kernel⟩
  have hb : (ofRules interleavedRules).isFact ⟨"b"⟩ = true := by decide +kernel
  exact ⟨by decide +kernel, ha, hb, hadded _ ha, (hfacts _ hb).1⟩

end RuleBase
end ProbLogic
