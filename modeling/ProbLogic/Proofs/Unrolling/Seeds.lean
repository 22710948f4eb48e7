/-
# Cuts are ancestors, and seeds keep their names

A variant has a name of its own only if it has cuts, and its cuts are the
ancestors that it was built below: a body is cut for an ancestor, what is found
in the store serves below these ancestors, and the cuts that come up from a
literal are those of its own context, which is larger by the atom above it;
that atom is taken out again. So the cuts of whatever is expanded or resolved
are among the ancestors it was asked for, from any state and at any depth
(`yields_expand`). `Yields` says this of one computation.

A seed has no ancestors, hence no cuts, and a variant without cuts has the name
of its atom.

Key definitions: `Yields`.
Key theorems: `yields_expand`, `exists_seedOutcome`, `resolveSeed_keeps_name`.
-/
import ProbLogic.Proofs.Unrolling.Loops
import ProbLogic.Proofs.Unrolling.Reentry

namespace ProbLogic

open UnrollM

variable {α β γ : Type}

/-! ### Results from any state -/

/-- Whatever a computation results in, from any state, meets the condition. -/
def Yields (x : UnrollM α β) (post : β → Prop) : Prop := ∀ s b, (x.runOn s).1 = .ok b → post b

namespace Yields

variable {post : β → Prop}

theorem pure {b : β} (h : post b) : Yields (Pure.pure b : UnrollM α β) post := by
  intro s b' hb
  rwa [← Except.ok.inj hb]

theorem throw (e : Stop) : Yields (MonadExcept.throw e : UnrollM α β) post :=
  fun _ _ hb => nomatch hb

theorem any (x : UnrollM α β) : Yields x fun _ => True := fun _ _ _ => trivial

theorem bind {x : UnrollM α γ} {f : γ → UnrollM α β} {mid : γ → Prop} (hx : Yields x mid)
    (hf : ∀ c, mid c → Yields (f c) post) : Yields (x >>= f) post := by
  intro s b hb
  rw [runOn_bind] at hb
  rcases hrun : x.runOn s with ⟨e | c, s'⟩
  · rw [hrun] at hb
    cases hb
  · rw [hrun] at hb
    have hc : mid c := hx s c (by rw [hrun])
    exact hf c hc s' b hb

theorem pure_bind {c : γ} {f : γ → UnrollM α β} (h : Yields (f c) post) :
    Yields (Pure.pure c >>= f) post := h

theorem get_bind {f : Unrolling α → UnrollM α β} (h : ∀ s, Yields (f s) post) :
    Yields (MonadState.get >>= f) post := fun s => h s s

theorem whileBuilding {a : Atom} {A : List Atom} {x : UnrollM α β} (h : Yields x post) :
    Yields (UnrollM.whileBuilding a A x) post := fun _ b hb => h _ b hb

end Yields

/-! ### Cuts -/

section Cuts

variable {given : WeightedRules α} {X : List Atom}

theorem yields_record (a : Atom) (v : Variant) :
    Yields (record a v : UnrollM α Variant) fun u => u = v :=
  .bind (.any _) fun _ _ => .pure rfl

/-- An atom ends as a variant with no other cuts than those that were made. -/
theorem yields_finishAtom (a : Atom) (bodies : List Body) (cuts : List Atom) :
    Yields (finishAtom given a bodies cuts) fun v => v.cuts ⊆ cuts := by
  have hrecord : ∀ v : Variant, v.cuts = cuts →
      Yields (record a v : UnrollM α Variant) fun u => u.cuts ⊆ cuts := by
    intro v hv s u hu
    rw [yields_record a v s u hu, hv]
    exact List.Subset.refl cuts
  unfold finishAtom
  apply Yields.get_bind
  intro s
  split
  · next v hv => exact .pure (Unrolling.mem_of_lookup hv).2
  · split
    · exact .bind (.any _) fun _ _ => hrecord _ rfl
    · refine .bind (.any _) fun name _ => .bind (.any _) fun _ _ => .bind (.any _) fun _ _ => ?_
      exact .bind (.any _) fun _ _ => hrecord _ rfl

/-- The cuts of a fate are of a set. -/
def Fate.CutsIn (X : List Atom) : Fate → Prop
  | .kept _ cuts => cuts ⊆ X
  | .lost cuts => cuts ⊆ X

theorem yields_resolveBody {resolve : Literal → UnrollM α (Resolved × List Atom)}
    {ls : List Literal} (h : ∀ l ∈ ls, Yields (resolve l) fun r => r.2 ⊆ X) (body : Body)
    {cuts : List Atom} (hcuts : cuts ⊆ X) :
    Yields (resolveBody resolve ls body cuts) (Fate.CutsIn X) := by
  induction ls generalizing body cuts with
  | nil => exact .pure hcuts
  | cons l ls ih =>
    have hrest : ∀ k ∈ ls, Yields (resolve k) fun r => r.2 ⊆ X :=
      fun k hk => h k (List.mem_cons_of_mem l hk)
    refine .bind (h l List.mem_cons_self) fun r hr => ?_
    obtain ⟨r, c⟩ := r
    cases r with
    | variant m => exact ih hrest _ (Ascending.union_subset hcuts hr)
    | vacuous => exact ih hrest _ hcuts
    | eliminated =>
      have hlost : Fate.CutsIn X (.lost c) := hr
      exact .pure hlost

theorem yields_resolveBodies {resolve : Literal → UnrollM α (Resolved × List Atom)}
    {A : List Atom} (hA : A ⊆ X) {bs : List Body}
    (h : ∀ b ∈ bs, ∀ l ∈ b, Yields (resolve l) fun r => r.2 ⊆ X) :
    Yields (resolveBodies resolve A bs) fun r => r.2 ⊆ X := by
  induction bs with
  | nil => exact .pure (List.nil_subset X)
  | cons b bs ih =>
    have hrest := ih fun b' hb' => h b' (List.mem_cons_of_mem _ hb')
    rw [resolveBodies]
    split
    · refine .bind (yields_resolveBody (h b List.mem_cons_self) [] (List.nil_subset X)) ?_
      intro fate hf
      refine .bind hrest ?_
      intro r hr
      cases fate with
      | kept body c => exact .pure (Ascending.union_subset (t := r.2) hf hr)
      | lost c => exact .pure (Ascending.union_subset (t := r.2) hf hr)
    · refine .pure_bind (.bind hrest ?_)
      intro r hr
      exact .pure (Ascending.union_subset (t := r.2) (fun c hc => hA (mem_closedLoops.mp hc).1) hr)

theorem yields_resolveBy {expand : Atom → List Atom → UnrollM α Variant}
    (h : ∀ a A, Yields (expand a A) fun v => v.cuts ⊆ A) (A : List Atom) (l : Literal) :
    Yields (resolveBy expand A l) fun r => r.2 ⊆ if l.positive then A else [] :=
  .bind (h _ _) fun _ hv => .pure hv

/-- **Cuts are ancestors.** An atom is expanded to a variant whose cuts are among the ancestors
that it is expanded below, in any state. -/
theorem yields_expand (depth : Nat) (a : Atom) (A : List Atom) :
    Yields (expand given depth a A) fun v => v.cuts ⊆ A := by
  induction depth generalizing a A with
  | zero => exact .throw _
  | succ depth ih =>
    apply Yields.get_bind
    intro s
    split
    · next v hv => exact .pure (Unrolling.mem_of_lookup hv).2
    · apply Yields.get_bind
      intro s'
      split
      · exact .bind (.any _) fun _ _ => .pure (List.nil_subset A)
      · split
        · have hbodies : Yields
              (resolveBodies (resolveBy (expand given depth) (Ascending.insert a A)) A
                (given.rules.bodies a)) fun r => r.2 ⊆ Ascending.insert a A := by
            apply yields_resolveBodies fun c hc => Ascending.mem_insert.mpr (.inr hc)
            intro b _ l _ s r hr
            have hsub := yields_resolveBy ih (Ascending.insert a A) l s r hr
            split at hsub
            · exact hsub
            · exact List.Subset.trans hsub (List.nil_subset _)
          refine .bind hbodies.whileBuilding fun r hr => ?_
          intro s v hv
          refine List.Subset.trans (yields_finishAtom a r.1 _ s v hv) fun c hc => ?_
          -- the atom itself is no cut of its own
          obtain ⟨hc, hne⟩ := Ascending.mem_remove.mp hc
          exact (Ascending.mem_insert.mp (hr hc)).resolve_left hne
        · refine .bind (.any _) fun _ _ => ?_
          intro s v hv
          rw [yields_record a _ s v hv]
          exact List.nil_subset A

end Cuts

/-! ### Seeds -/

/-- What is known of a seed that is resolved after others, of which some may have stopped. -/
theorem exists_seedOutcome {given : WeightedRules α} {seeds : List Literal} {l : Literal}
    {r : Resolved} {s : Unrolling α}
    (h : (resolveSeed given l).runOn (afterSeeds given seeds) = (.ok r, s)) :
    ∃ recs, Reached given recs s ∧ SeedOutcome recs s l r := by
  obtain ⟨recs, hr⟩ := exists_reached_afterSeeds given seeds
  obtain ⟨recs', hsteps, -, hpost⟩ := leads_resolveSeed l hr (building_afterSeeds seeds)
  rw [h] at hsteps hpost
  exact ⟨recs', hr.trans hsteps, hpost r rfl⟩

/-- **Seeds keep their names.** For any rules, with any loops, and any weights: after any seeds, a
seed that is resolved gives the same literal, whose atom then has a variant without cuts under
its own name or is pending, or the atom is known to be false, and then the result is that of the
polarity. The cuts of an atom that is expanded, and of a literal that is resolved, are among the
ancestors of the context, in any state; below a negative literal there are none. -/
theorem resolveSeed_keeps_name (given : WeightedRules α) :
    (∀ (seeds : List Literal) (l : Literal) (r : Resolved) (s : Unrolling α),
      (resolveSeed given l).runOn (afterSeeds given seeds) = (.ok r, s) →
        (r = .variant l ∧ (⟨some l.atom, []⟩ ∈ s.variantsOf l.atom ∨ l.atom ∈ s.pending)) ∨
        (l.atom ∈ s.falsified ∧
          (l.positive = true ∧ r = .eliminated ∨ l.positive = false ∧ r = .vacuous))) ∧
    ∀ (depth : Nat) (A : List Atom) (s : Unrolling α),
      (∀ a v, ((expand given depth a A).runOn s).1 = .ok v → v.cuts ⊆ A) ∧
      ∀ l r, ((resolveBy (expand given depth) A l).runOn s).1 = .ok r →
        r.2 ⊆ if l.positive then A else [] := by
  refine ⟨fun seeds l r s h => ?_, fun depth A s => ⟨fun a => ?_, fun l => ?_⟩⟩
  · obtain ⟨recs, hr, hout⟩ := exists_seedOutcome h
    rcases hout with ⟨hnamed, rfl⟩ | ⟨hfalse, rfl⟩
    · refine .inl ⟨rfl, hnamed.imp_left ?_⟩
      rintro ⟨x, hx, ha, hv⟩
      exact hr.mem_variantsOf.mpr ⟨x, hx, ha, hv⟩
    · refine .inr ⟨hfalse, ?_⟩
      cases hp : l.positive with
      | true => exact .inl ⟨rfl, rfl⟩
      | false => exact .inr ⟨rfl, rfl⟩
  · exact yields_expand depth a A s
  · exact yields_resolveBy (yields_expand depth) A l s

/-- After the seed `x` there is a variant of `a` with another name, for which the loop through `y`
is cut, and still the seed `a` keeps its name. Below `y`, in the state that the seeds start from,
the atom `a` is expanded to a variant with `y` as its cut. -/
theorem resolveSeed_keeps_name_tangledSupport :
    ∃ s v,
      (resolveSeed tangledSupport (.neg ⟨"a"⟩)).runOn (afterSeeds tangledSupport [.pos ⟨"x"⟩]) =
        (.ok (.variant (.neg ⟨"a"⟩)), s) ∧
      (⟨some ⟨"a_0"⟩, [⟨"y"⟩]⟩ : Variant) ∈ s.variantsOf ⟨"a"⟩ ∧
      ((⟨some ⟨"a"⟩, []⟩ : Variant) ∈ s.variantsOf ⟨"a"⟩ ∨ (⟨"a"⟩ : Atom) ∈ s.pending) ∧
      ((expand tangledSupport 9 ⟨"a"⟩ [⟨"y"⟩]).runOn (.start tangledSupport)).1 = .ok v ∧
      v.cuts ≠ [] ∧ v.cuts ⊆ [⟨"y"⟩] := by
  obtain ⟨hname, hcuts⟩ := resolveSeed_keeps_name tangledSupport
  have hexpand : ((expand tangledSupport 9 ⟨"a"⟩ [⟨"y"⟩]).runOn (.start tangledSupport)).1 =
      .ok ⟨some ⟨"a_0"⟩, [⟨"y"⟩]⟩ := by
    decide +kernel
  have hcut := (hcuts 9 [⟨"y"⟩] (.start tangledSupport)).1 ⟨"a"⟩ _ hexpand
  have hresult : ((resolveSeed tangledSupport (.neg ⟨"a"⟩)).runOn
      (afterSeeds tangledSupport [.pos ⟨"x"⟩])).1 = .ok (.variant (.neg ⟨"a"⟩)) := by
    decide +kernel
  have hother : (⟨some ⟨"a_0"⟩, [⟨"y"⟩]⟩ : Variant) ∈ ((resolveSeed tangledSupport
      (.neg ⟨"a"⟩)).runOn (afterSeeds tangledSupport [.pos ⟨"x"⟩])).2.variantsOf ⟨"a"⟩ := by
    decide +kernel
  rcases hrun : (resolveSeed tangledSupport (.neg ⟨"a"⟩)).runOn
    (afterSeeds tangledSupport [.pos ⟨"x"⟩]) with ⟨r, s⟩
  rw [hrun] at hresult hother
  obtain rfl : r = .ok (.variant (.neg ⟨"a"⟩)) := hresult
  refine ⟨s, _, rfl, hother, ?_, hexpand, by decide, hcut⟩
  rcases hname _ _ _ _ hrun with ⟨-, hnamed⟩ | ⟨-, ⟨-, h⟩ | ⟨-, h⟩⟩
  · exact hnamed
  · cases h
  · cases h

end ProbLogic
