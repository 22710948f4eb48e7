/-
# What an unrolling covers

An unrolling that does not stop records a variant of each atom that it meets,
with one delay: an atom that is met while it is being built is pending, and is
recorded when its open expansion ends. So at any time a pending atom has a
variant, or is one of those that are open. In the other direction the atoms
with variants are all reached from the seeds, since expansions follow the
literals of bodies (`Explored`).

`Ends` says of one computation what holds at its end if it gives a result. An
atom is taken off the stack before it is recorded, so between the two steps it
has to be excepted by name (`ends_finishAtom`).

Key definitions: `Ends`, `Explored`.
Key theorems: `ends_finishAtom`, `ends_expand`, `explored_of_resolveSeeds`.
-/
import ProbLogic.Proofs.Unrolling.Run

namespace ProbLogic

open Rules UnrollM

variable {α β γ : Type}

/-! ### The ends of runs -/

/-- If the run from the state `s` gives a result, the state at its end meets the condition. -/
def Ends (s : Unrolling α) (x : UnrollM α β) (post : Unrolling α → Prop) : Prop :=
  ∀ b s', x.runOn s = (.ok b, s') → post s'

namespace Ends

variable {s : Unrolling α} {post : Unrolling α → Prop}

theorem pure {b : β} (h : post s) : Ends s (Pure.pure b : UnrollM α β) post := by
  intro b' s' hrun
  rwa [← (Prod.mk.inj hrun).2]

theorem throw (e : Stop) : Ends s (MonadExcept.throw e : UnrollM α β) post := by
  intro b s' hrun
  cases (Prod.mk.inj hrun).1

theorem modify_bind {f : Unrolling α → Unrolling α} {g : Unit → UnrollM α β}
    (h : Ends (f s) (g ()) post) : Ends s (modify f >>= g) post := h

theorem modify {f : Unrolling α → Unrolling α} (h : post (f s)) : Ends s (modify f) post := by
  intro b s' hrun
  rwa [← (Prod.mk.inj hrun).2]

theorem bind {x : UnrollM α γ} {f : γ → UnrollM α β} {mid : Unrolling α → Prop} (hx : Ends s x mid)
    (hf : ∀ c s', mid s' → Ends s' (f c) post) : Ends s (x >>= f) post := by
  intro b s' hrun
  rw [runOn_bind] at hrun
  rcases hx' : x.runOn s with ⟨e | c, s₁⟩
  · rw [hx'] at hrun
    cases (Prod.mk.inj hrun).1
  · rw [hx'] at hrun
    exact hf c s₁ (hx c s₁ hx') b s' hrun

theorem pure_bind {c : γ} {f : γ → UnrollM α β} (h : Ends s (f c) post) :
    Ends s (Pure.pure c >>= f) post := h

theorem get_bind {f : Unrolling α → UnrollM α β} (h : Ends s (f s) post) :
    Ends s (MonadState.get >>= f) post := h

theorem whileBuilding {a : Atom} {A : List Atom} {x : UnrollM α β}
    (h : Ends { s with building := (a, A) :: s.building } x
      fun s' => post { s' with building := s'.building.tail }) :
    Ends s (UnrollM.whileBuilding a A x) post := by
  intro b s' hrun
  rw [runOn_whileBuilding] at hrun
  obtain ⟨hresult, rfl⟩ := Prod.mk.inj hrun
  exact h b _ (Prod.ext hresult rfl)

end Ends

/-! ### Atoms with variants -/

theorem Unrolling.visited_record (s : Unrolling α) (a b : Atom) (v : Variant) :
    (s.record a v).visited b = (decide (b = a) || s.visited b) := by
  simp only [visited, record, Ascending.adjust, Ascending.get?_put, beq_iff_eq,
    Std.LawfulEqCmp.compare_eq_iff_eq]
  by_cases hba : b = a
  · simp [hba]
  · simp [hba]

theorem Unrolling.visited_of_lookup {s : Unrolling α} {a : Atom} {A : List Atom} {v : Variant}
    (h : s.lookup a A = some v) : s.visited a = true := by
  have hv := (mem_of_lookup h).1
  unfold variantsOf at hv
  unfold visited
  cases hget : Ascending.get? a s.variants with
  | some vs => rfl
  | none =>
    rw [hget] at hv
    cases hv

/-- With the expansions `st` open, all atoms with variants are of a kind `P`, and each pending
atom has a variant or is still to get one, as one of `due`. -/
structure Explored (P : Atom → Prop) (st : List (Atom × List Atom)) (due : List Atom)
    (s : Unrolling α) : Prop where
  building : s.building = st
  within : ∀ a, s.visited a = true → P a
  awaited : ∀ a ∈ s.pending, s.visited a = true ∨ a ∈ due

section Explored

variable {given : WeightedRules α} {P : Atom → Prop} {st : List (Atom × List Atom)}
  {due : List Atom} {s s' : Unrolling α} {a : Atom}

theorem Explored.congr (h : Explored P st due s) (hb : s'.building = s.building)
    (hv : s'.variants = s.variants) (hp : s'.pending = s.pending) : Explored P st due s' := by
  have hvisited : ∀ a, s'.visited a = s.visited a := fun a => by
    unfold Unrolling.visited
    rw [hv]
  refine ⟨hb.trans h.building, fun a ha => h.within a (hvisited a ▸ ha), fun a ha => ?_⟩
  rw [hvisited]
  exact h.awaited a (hp ▸ ha)

/-- An atom with a variant is no longer due. -/
theorem Explored.settle (h : Explored P st (a :: due) s) (ha : s.visited a = true) :
    Explored P st due s := by
  refine ⟨h.building, h.within, fun b hb => ?_⟩
  rcases h.awaited b hb with hvisited | hdue
  · exact .inl hvisited
  · rcases List.mem_cons.mp hdue with rfl | hdue
    · exact .inl ha
    · exact .inr hdue

theorem Explored.record (h : Explored P st (a :: due) s) (ha : P a) (v : Variant) :
    Explored P st due (s.record a v) := by
  refine Explored.settle (a := a) ⟨h.building, fun b hb => ?_, fun b hb => ?_⟩ ?_
  · rw [Unrolling.visited_record, Bool.or_eq_true, decide_eq_true_eq] at hb
    rcases hb with rfl | hb
    · exact ha
    · exact h.within b hb
  · rw [Unrolling.visited_record, Bool.or_eq_true]
    exact (h.awaited b hb).imp .inr id
  · rw [Unrolling.visited_record]
    simp

theorem ends_record (h : Explored P st (a :: due) s) (ha : P a) (v : Variant) :
    Ends s (record a v) (Explored P st due) := .modify_bind (.pure (h.record ha v))

theorem ends_copyWeight (h : Explored P st due s) (source target : Literal) :
    Ends s (copyWeight given source target) (Explored P st due) := by
  unfold copyWeight
  split
  · exact .modify (h.congr rfl rfl rfl)
  · exact .throw _

theorem ends_copyWeights (h : Explored P st due s) (source target : Atom) :
    Ends s (copyWeights given source target) (Explored P st due) :=
  .bind (ends_copyWeight h _ _) fun _ _ h => ends_copyWeight h _ _

theorem ends_nameVariant (h : Explored P st due s) (cuts : List Atom) :
    Ends s (nameVariant a cuts) (Explored P st due) := by
  unfold nameVariant
  split
  · exact .pure h
  · exact .get_bind (.modify_bind (.pure (h.congr rfl rfl rfl)))

/-- An atom whose building ends has a variant. -/
theorem ends_finishAtom (h : Explored P st (a :: due) s) (ha : P a) (bodies : List Body)
    (cuts : List Atom) : Ends s (finishAtom given a bodies cuts) (Explored P st due) := by
  unfold finishAtom
  refine .get_bind ?_
  split
  · next v hv => exact .pure (h.settle (Unrolling.visited_of_lookup hv))
  · split
    · have hreport : Explored P st (a :: due) (s.report (.eliminated a cuts)) :=
        h.congr rfl rfl rfl
      exact .modify_bind (ends_record hreport ha _)
    · refine .bind (ends_nameVariant h cuts) fun name s₁ h₁ => .modify_bind ?_
      have hreport : Explored P st (a :: due) (s₁.report (.built a name cuts)) :=
        h₁.congr rfl rfl rfl
      refine .bind (ends_copyWeights hreport a name) fun _ s₂ h₂ => .modify_bind ?_
      have hrules : Explored P st (a :: due) (s₂.addRules name bodies) := h₂.congr rfl rfl rfl
      exact ends_record hrules ha _

/-! ### Bodies, atoms and seeds -/

theorem ends_resolveBody {resolve : Literal → UnrollM α (Resolved × List Atom)} {ls : List Literal}
    (hres : ∀ l ∈ ls, ∀ s, Explored P st due s → Ends s (resolve l) (Explored P st due))
    (h : Explored P st due s) (body : Body) (cuts : List Atom) :
    Ends s (resolveBody resolve ls body cuts) (Explored P st due) := by
  induction ls generalizing s body cuts with
  | nil => exact .pure h
  | cons l ls ih =>
    have hrest := (List.forall_mem_cons.mp hres).2
    refine .bind (hres l List.mem_cons_self s h) fun r s' h' => ?_
    obtain ⟨r, c⟩ := r
    cases r with
    | variant m => exact ih hrest h' _ _
    | vacuous => exact ih hrest h' _ _
    | eliminated => exact .pure h'

theorem ends_resolveBodies {resolve : Literal → UnrollM α (Resolved × List Atom)} {bs : List Body}
    (hres : ∀ b ∈ bs, ∀ l ∈ b, ∀ s, Explored P st due s → Ends s (resolve l) (Explored P st due))
    (A : List Atom) (h : Explored P st due s) :
    Ends s (resolveBodies resolve A bs) (Explored P st due) := by
  induction bs generalizing s with
  | nil => exact .pure h
  | cons b bs ih =>
    obtain ⟨hb, hrest⟩ := List.forall_mem_cons.mp hres
    rw [resolveBodies]
    split
    · refine .bind (ends_resolveBody hb h [] []) fun fate s₁ h₁ => ?_
      refine .bind (ih hrest h₁) fun r s₂ h₂ => ?_
      cases fate with
      | kept body c => exact .pure h₂
      | lost c => exact .pure h₂
    · exact .pure_bind (.bind (ih hrest h) fun r s₂ h₂ => .pure h₂)

/-- **Expanding an atom.** If all that the atoms of a kind depend on is of this kind, an expansion
of one of them gives variants to such atoms only, and to all that were pending in it but for the
atoms that are still open. -/
theorem ends_expand (hP : ∀ a b, P a → given.rules.toRules.Depends a b → P b) (depth : Nat)
    {A : List Atom} (ha : P a) (h : Explored P st (st.map Prod.fst) s) :
    Ends s (expand given depth a A) (Explored P st (st.map Prod.fst)) := by
  induction depth generalizing s st a A with
  | zero => exact .throw _
  | succ depth ih =>
    refine .get_bind ?_
    split
    · exact .pure h
    refine .get_bind ?_
    split
    · next hopen =>
      -- the atom is met while it is built
      refine .modify_bind (.pure ⟨h.building, h.within, fun b hb => ?_⟩)
      rcases Ascending.mem_insert.mp hb with rfl | hb
      · exact .inr (List.mem_map.mpr ⟨(b, A), h.building ▸ hopen, rfl⟩)
      · exact h.awaited b hb
    split
    · have hinner : Explored P ((a, A) :: st) (a :: st.map Prod.fst)
          { s with building := (a, A) :: s.building } :=
        ⟨congrArg ((a, A) :: ·) h.building, h.within,
          fun b hb => (h.awaited b hb).imp id (List.mem_cons_of_mem a)⟩
      have hbodies : Ends s (UnrollM.whileBuilding a A
          (resolveBodies (resolveBy (expand given depth) (Ascending.insert a A)) A
            (given.rules.bodies a))) (Explored P st (a :: st.map Prod.fst)) := by
        refine .whileBuilding fun r s' hrun => ?_
        have hs' := ends_resolveBodies (fun b hb l hl s₁ h₁ =>
          .bind (ih (hP a l.atom ha (depends_of_mem hb hl)) h₁) fun _ _ h₂ => .pure h₂)
          A hinner r s' hrun
        exact ⟨congrArg List.tail hs'.building, hs'.within, hs'.awaited⟩
      exact .bind hbodies fun r s' h' => ends_finishAtom h' ha _ _
    · refine .bind (ends_copyWeights h a a) fun _ s' h' => ?_
      exact ends_record ⟨h'.building, h'.within,
        fun b hb => (h'.awaited b hb).imp id (List.mem_cons_of_mem a)⟩ ha _

theorem ends_resolveSeed (hP : ∀ a b, P a → given.rules.toRules.Depends a b → P b) {l : Literal}
    (hl : P l.atom) (h : Explored P [] [] s) :
    Ends s (resolveSeed given l) (Explored P [] []) := by
  have hres : Ends s (resolveBy (expand given (depthBound given.rules)) [] l) (Explored P [] []) :=
    .bind (ends_expand hP _ hl h) fun _ _ h' => .pure h'
  refine .bind hres fun r s' h' => ?_
  obtain ⟨r, c⟩ := r
  cases r with
  | variant m => exact .pure h'
  | eliminated => exact .modify_bind (.pure (h'.congr rfl rfl rfl))
  | vacuous => exact .modify_bind (.pure (h'.congr rfl rfl rfl))

theorem ends_resolveSeeds (hP : ∀ a b, P a → given.rules.toRules.Depends a b → P b)
    {seeds : List Literal} (hseeds : ∀ l ∈ seeds, P l.atom) (h : Explored P [] [] s) :
    Ends s (resolveSeeds given seeds) (Explored P [] []) := by
  induction seeds generalizing s with
  | nil => exact .pure h
  | cons l seeds ih =>
    obtain ⟨hl, hrest⟩ := List.forall_mem_cons.mp hseeds
    have hseed : Ends s (discard (resolveSeed given l)) (Explored P [] []) :=
      .bind (ends_resolveSeed hP hl h) fun _ _ h' => .pure h'
    exact .bind hseed fun _ s' h' => ih hrest h'

/-- **What seeds cover.** If no seed stops, all atoms with variants are reached from the seeds,
and no atom is left pending without a variant. -/
theorem explored_of_resolveSeeds {seeds : List Literal}
    (h : (resolveSeeds given seeds).runOn (.start given) = (.ok (), s)) :
    (∀ a, s.visited a = true → ∃ l ∈ seeds, given.rules.toRules.Reaches l.atom a) ∧
      ∀ a ∈ s.pending, s.visited a = true := by
  let P : Atom → Prop := fun a => ∃ l ∈ seeds, given.rules.toRules.Reaches l.atom a
  have hP : ∀ a b, P a → given.rules.toRules.Depends a b → P b := by
    rintro a b ⟨l, hl, hla⟩ hab
    exact ⟨l, hl, hla.tail hab⟩
  have hstart : Explored P [] [] (Unrolling.start given) :=
    ⟨rfl, fun _ ha => absurd ha Bool.false_ne_true, fun _ ha => absurd ha List.not_mem_nil⟩
  have hend := ends_resolveSeeds hP (fun l hl => ⟨l, hl, .refl⟩) hstart () s h
  exact ⟨hend.within, fun a ha => (hend.awaited a ha).resolve_right List.not_mem_nil⟩

end Explored
end ProbLogic
