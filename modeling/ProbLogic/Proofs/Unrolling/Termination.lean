/-
# Unrolling ends

Expansions are nested without a measure that goes down from one to the next:
the ancestors grow below positive literals, but a negative literal starts again
without any. What bounds the nesting is the stack. An expansion is opened only
if its pair of an atom and ancestors is not open, and such pairs are heads with
sets of heads (`Descent.context`). The ancestors are kept ascending, so that a
set of heads is one list, and no more pairs can be open than there are heads
times sets of heads (`Descent.length_le`).

A depth that exceeds what is left of this bound is therefore never exhausted,
and the result is the same at any such depth (`settles_expandOr`). The judgement
`Settles` says this of two computations on the states with a given stack, and
that the stack is left as it is; it is closed under the ways in which steps are
put together. The steps for an atom that is met while it is built may differ as
well, if they settle wherever that happens.

Key definitions: `Context`, `Settles`, `afterSeeds`.
Key theorems: `Descent.length_le`, `settles_expandOr`, `resolveSeed_ends`.
-/
import Mathlib.Data.Finset.Powerset
import Mathlib.Data.Finset.Prod
import ProbLogic.Proofs.Unrolling.Run

namespace ProbLogic

open UnrollM

/-! ### How many expansions can be open -/

/-- A head with a set of heads. -/
structure Context (heads : List Atom) (c : Atom × List Atom) : Prop where
  head : c.1 ∈ heads
  ascending : Ascending.IsAscending c.2
  subset : c.2 ⊆ heads

theorem Context.eq_of_toFinset_eq {heads : List Atom} {c d : Atom × List Atom}
    (hc : Context heads c) (hd : Context heads d) (hatom : c.1 = d.1)
    (hset : c.2.toFinset = d.2.toFinset) : c = d := by
  refine Prod.ext hatom (Ascending.eq_of_mem_iff hc.ascending hd.ascending fun a => ?_)
  rw [← List.mem_toFinset, hset, List.mem_toFinset]

/-- There are no more contexts than heads times sets of heads. -/
theorem length_le_of_contexts {heads : List Atom} {st : List (Atom × List Atom)}
    (hnodup : st.Nodup) (h : ∀ c ∈ st, Context heads c) :
    st.length ≤ heads.length * 2 ^ heads.length := by
  let code (c : Atom × List Atom) : Atom × Finset Atom := (c.1, c.2.toFinset)
  have hinj : ∀ c ∈ st, ∀ d ∈ st, code c = code d → c = d := by
    intro c hc d hd hcode
    obtain ⟨hatom, hset⟩ := Prod.mk.inj hcode
    exact (h c hc).eq_of_toFinset_eq (h d hd) hatom hset
  have hsub : (st.map code).toFinset ⊆ heads.toFinset ×ˢ heads.toFinset.powerset := by
    intro x hx
    obtain ⟨c, hc, rfl⟩ := List.mem_map.mp (List.mem_toFinset.mp hx)
    rw [Finset.mem_product, List.mem_toFinset, Finset.mem_powerset]
    refine ⟨(h c hc).head, fun a ha => ?_⟩
    exact List.mem_toFinset.mpr ((h c hc).subset (List.mem_toFinset.mp ha))
  have hheads : heads.toFinset.card ≤ heads.length := heads.toFinset_card_le
  calc st.length = (st.map code).toFinset.card := by
        rw [List.toFinset_card_of_nodup (hnodup.map_on hinj), List.length_map]
    _ ≤ (heads.toFinset ×ˢ heads.toFinset.powerset).card := Finset.card_le_card hsub
    _ = heads.toFinset.card * 2 ^ heads.toFinset.card := by
        rw [Finset.card_product, Finset.card_powerset]
    _ ≤ heads.length * 2 ^ heads.length :=
        Nat.mul_le_mul hheads (Nat.pow_le_pow_right (by omega) hheads)

namespace Descent

variable {R : Rules} {heads : List Atom} {st : List (Atom × List Atom)} {a : Atom} {A : List Atom}

theorem isAscending (h : Descent R st a A) : Ascending.IsAscending A := by
  induction h with
  | seed a => exact List.Pairwise.nil
  | positive _ _ _ ih => exact Ascending.isAscending_insert ih
  | negative _ _ _ => exact List.Pairwise.nil

theorem subset_heads (hR : R.HeadsIn heads) (h : Descent R st a A) : A ⊆ heads := by
  induction h with
  | seed a => exact List.nil_subset _
  | @positive st a b A _ hu _ ih =>
    intro c hc
    rcases Ascending.mem_insert.mp hc with rfl | hc
    · exact hR _ _ hu.depends
    · exact ih hc
  | negative _ _ _ => exact List.nil_subset _

/-- An open expansion was left through a literal of its atom, so that the atom is a head. -/
theorem context (hR : R.HeadsIn heads) (h : Descent R st a A) :
    ∀ c ∈ st, Context heads c := by
  induction h with
  | seed a => simp
  | positive above hu _ ih | negative above hu ih =>
    intro c hc
    rcases List.mem_cons.mp hc with rfl | hc
    · exact ⟨hR _ _ hu.depends, above.isAscending, above.subset_heads hR⟩
    · exact ih c hc

/-- **The stack is bounded** if no expansion is opened twice. -/
theorem length_le (hR : R.HeadsIn heads) (h : Descent R st a A) (hnodup : st.Nodup) :
    st.length ≤ heads.length * 2 ^ heads.length :=
  length_le_of_contexts hnodup (h.context hR)

end Descent

/-! ### Computations that settle -/

variable {α β γ : Type}

/-- On the states with these expansions open, `y` does the same as `x`, which does not exhaust
its depth and leaves the open expansions as they are, also if it stops. -/
def Settles (stack : List (Atom × List Atom)) (x y : UnrollM α β) : Prop :=
  ∀ s, s.building = stack →
    y.runOn s = x.runOn s ∧ (x.runOn s).1 ≠ .error .exhausted ∧ (x.runOn s).2.building = stack

namespace Settles

variable {stack : List (Atom × List Atom)}

theorem pure (b : β) : Settles stack (Pure.pure b : UnrollM α β) (Pure.pure b) :=
  fun _ hs => ⟨rfl, nofun, hs⟩

theorem throw {e : Stop} (he : e ≠ .exhausted) :
    Settles stack (MonadExcept.throw e : UnrollM α β) (MonadExcept.throw e) :=
  fun _ hs => ⟨rfl, fun h => he (Except.error.inj h), hs⟩

theorem modify {f : Unrolling α → Unrolling α} (hf : ∀ s, (f s).building = s.building) :
    Settles stack (modify f : UnrollM α PUnit) (modify f) :=
  fun s hs => ⟨rfl, nofun, (hf s).trans hs⟩

theorem bind {x y : UnrollM α γ} {f g : γ → UnrollM α β} (hx : Settles stack x y)
    (hf : ∀ c, Settles stack (f c) (g c)) : Settles stack (x >>= f) (y >>= g) := by
  intro s hs
  obtain ⟨heq, hne, hb⟩ := hx s hs
  rw [runOn_bind, runOn_bind, heq]
  rcases hrun : x.runOn s with ⟨e | c, s'⟩
  · rw [hrun] at hne hb
    refine ⟨rfl, fun he => hne ?_, hb⟩
    rw [Except.error.inj he]
  · rw [hrun] at hb
    exact hf c s' hb

theorem pure_bind {c : γ} {f g : γ → UnrollM α β} (h : Settles stack (f c) (g c)) :
    Settles stack (Pure.pure c >>= f) (Pure.pure c >>= g) := h

theorem get_bind {f g : Unrolling α → UnrollM α β}
    (h : ∀ s, s.building = stack → Settles stack (f s) (g s)) :
    Settles stack (MonadState.get >>= f) (MonadState.get >>= g) :=
  fun s hs => h s hs s hs

theorem whileBuilding {a : Atom} {A : List Atom} {x y : UnrollM α β}
    (h : Settles ((a, A) :: stack) x y) :
    Settles stack (UnrollM.whileBuilding a A x) (UnrollM.whileBuilding a A y) := by
  intro s hs
  obtain ⟨heq, hne, hb⟩ := h { s with building := (a, A) :: s.building } (by rw [hs])
  rw [runOn_whileBuilding, runOn_whileBuilding, heq]
  exact ⟨rfl, hne, by simp only [hb, List.tail_cons]⟩

end Settles

section Building

variable {stack : List (Atom × List Atom)} {given : WeightedRules α}

theorem settles_copyWeight (source target : Literal) :
    Settles stack (copyWeight given source target) (copyWeight given source target) := by
  unfold copyWeight
  split
  · exact .modify fun _ => rfl
  · exact .throw nofun

theorem settles_copyWeights (source target : Atom) :
    Settles stack (copyWeights given source target) (copyWeights given source target) :=
  .bind (settles_copyWeight _ _) fun _ => settles_copyWeight _ _

theorem settles_record (a : Atom) (v : Variant) :
    Settles stack (record a v : UnrollM α Variant) (record a v) :=
  .bind (.modify fun _ => rfl) fun _ => .pure v

theorem settles_awaitItself (a : Atom) (A : List Atom) :
    Settles stack (awaitItself a A : UnrollM α Variant) (awaitItself a A) :=
  .bind (.modify fun _ => rfl) fun _ => .pure _

theorem settles_nameVariant (a : Atom) (cuts : List Atom) :
    Settles stack (nameVariant a cuts : UnrollM α Atom) (nameVariant a cuts) := by
  unfold nameVariant
  split
  · exact .pure a
  · apply Settles.get_bind
    intro s _
    exact .bind (.modify fun _ => rfl) fun _ => .pure _

theorem settles_finishAtom (a : Atom) (bodies : List Body) (cuts : List Atom) :
    Settles stack (finishAtom given a bodies cuts) (finishAtom given a bodies cuts) := by
  unfold finishAtom
  apply Settles.get_bind
  intro s _
  split
  · exact .pure _
  · split
    · exact .bind (.modify fun _ => rfl) fun _ => settles_record _ _
    · apply Settles.bind (settles_nameVariant _ _)
      intro name
      refine .bind (.modify fun _ => rfl) fun _ => ?_
      apply Settles.bind (settles_copyWeights _ _)
      intro _
      exact .bind (.modify fun _ => rfl) fun _ => settles_record _ _

variable {resolve resolve' : Literal → UnrollM α (Resolved × List Atom)}

theorem settles_resolveBody {ls : List Literal}
    (h : ∀ l ∈ ls, Settles stack (resolve l) (resolve' l)) (body : Body) (cuts : List Atom) :
    Settles stack (resolveBody resolve ls body cuts) (resolveBody resolve' ls body cuts) := by
  induction ls generalizing body cuts with
  | nil => exact .pure _
  | cons l ls ih =>
    have hrest := ih fun k hk => h k (List.mem_cons_of_mem _ hk)
    apply Settles.bind (h l List.mem_cons_self)
    intro r
    obtain ⟨r, c⟩ := r
    cases r with
    | variant m => exact hrest _ _
    | vacuous => exact hrest _ _
    | eliminated => exact .pure _

theorem settles_resolveBodies {A : List Atom} {bs : List Body}
    (h : ∀ b ∈ bs, closedLoops A b = [] → ∀ l ∈ b, Settles stack (resolve l) (resolve' l)) :
    Settles stack (resolveBodies resolve A bs) (resolveBodies resolve' A bs) := by
  induction bs with
  | nil => exact .pure _
  | cons b bs ih =>
    have hrest := ih fun b' hb' => h b' (List.mem_cons_of_mem _ hb')
    rw [resolveBodies, resolveBodies]
    by_cases hloops : (closedLoops A b).isEmpty = true
    · rw [if_pos hloops, if_pos hloops]
      have hnil : closedLoops A b = [] := by simpa using hloops
      apply Settles.bind (settles_resolveBody (h b List.mem_cons_self hnil) [] [])
      intro fate
      apply Settles.bind hrest
      intro _
      cases fate with
      | kept body c => exact .pure _
      | lost c => exact .pure _
    · rw [if_neg hloops, if_neg hloops]
      exact .pure_bind (.bind hrest fun _ => .pure _)

theorem settles_resolveBy {expand expand' : Atom → List Atom → UnrollM α Variant}
    {inner : List Atom} {l : Literal}
    (h : Settles stack (expand l.atom (if l.positive then inner else []))
      (expand' l.atom (if l.positive then inner else []))) :
    Settles stack (resolveBy expand inner l) (resolveBy expand' inner l) :=
  .bind h fun _ => .pure _

end Building

/-! ### Expansions settle -/

variable {given : WeightedRules α} {reenter reenter' : Atom → List Atom → UnrollM α Variant}

/-- **Enough depth is never exhausted.** An expansion whose depth exceeds the number of contexts
that are not open does not exhaust it, and does the same at any other such depth, if the same is
done with the atoms that are met while they are being built. -/
theorem settles_expandOr
    (hreenter : ∀ st a A, Descent given.rules.toRules st a A → (a, A) ∈ st →
      Settles st (reenter a A) (reenter' a A))
    (n m : Nat) {st : List (Atom × List Atom)} {a : Atom} {A : List Atom}
    (hd : Descent given.rules.toRules st a A) (hnodup : st.Nodup)
    (hn : given.rules.heads.length * 2 ^ given.rules.heads.length < st.length + n)
    (hm : given.rules.heads.length * 2 ^ given.rules.heads.length < st.length + m) :
    Settles st (expandOr given reenter n a A) (expandOr given reenter' m a A) := by
  induction n generalizing m st a A with
  | zero =>
    have hlength := hd.length_le given.rules.headsIn_toRules hnodup
    omega
  | succ n ih =>
    have hlength := hd.length_le given.rules.headsIn_toRules hnodup
    obtain ⟨m, rfl⟩ : ∃ k, m = k + 1 := ⟨m - 1, by omega⟩
    apply Settles.get_bind
    intro s hs
    split
    · exact .pure _
    · apply Settles.get_bind
      intro s' hs'
      rw [hs']
      by_cases hopen : (a, A) ∈ st
      · rw [if_pos hopen, if_pos hopen]
        exact hreenter st a A hd hopen
      · rw [if_neg hopen, if_neg hopen]
        split
        · -- the stack grows by a context that was not on it, and so stays without repetition
          have hnodup' : ((a, A) :: st).Nodup := List.nodup_cons.mpr ⟨hopen, hnodup⟩
          have hbodies : Settles ((a, A) :: st)
              (resolveBodies (resolveBy (expandOr given reenter n) (Ascending.insert a A)) A
                (given.rules.bodies a))
              (resolveBodies (resolveBy (expandOr given reenter' m) (Ascending.insert a A)) A
                (given.rules.bodies a)) := by
            apply settles_resolveBodies
            intro b hb hloops l hl
            apply settles_resolveBy
            apply ih m (hd.literal hb hloops hl) hnodup'
            · rw [List.length_cons]
              omega
            · rw [List.length_cons]
              omega
          apply Settles.bind hbodies.whileBuilding
          intro _
          exact settles_finishAtom _ _ _
        · exact .bind (settles_copyWeights _ _) fun _ => settles_record _ _

/-! ### Seeds -/

/-- A literal at the top settles at every depth from the bound on. -/
theorem settles_top
    (hreenter : ∀ st a A, Descent given.rules.toRules st a A → (a, A) ∈ st →
      Settles st (reenter a A) (reenter' a A)) (l : Literal) (extra : Nat) :
    Settles [] (resolveBy (expandOr given reenter (depthBound given.rules)) [] l)
      (resolveBy (expandOr given reenter' (depthBound given.rules + extra)) [] l) := by
  apply settles_resolveBy
  rw [ite_self]
  have hbound : depthBound given.rules =
      given.rules.heads.length * 2 ^ given.rules.heads.length + 1 := rfl
  apply settles_expandOr hreenter
  · exact .seed l.atom
  · exact List.nodup_nil
  · rw [hbound, List.length_nil]
    omega
  · rw [hbound, List.length_nil]
    omega

theorem settles_seed (l : Literal) (extra : Nat) :
    Settles [] (resolveBy (expand given (depthBound given.rules)) [] l)
      (resolveBy (expand given (depthBound given.rules + extra)) [] l) :=
  settles_top (fun _ a A _ _ => settles_awaitItself a A) l extra

theorem settles_resolveSeed (l : Literal) :
    Settles [] (resolveSeed given l) (resolveSeed given l) := by
  apply Settles.bind (settles_seed l 0)
  intro r
  obtain ⟨r, cuts⟩ := r
  cases r with
  | variant k => exact .pure _
  | eliminated => exact .bind (.modify fun _ => rfl) fun _ => .pure _
  | vacuous => exact .bind (.modify fun _ => rfl) fun _ => .pure _

/-- The state after seeds in turn, each resolved from where the one before has ended, also if
that has stopped. -/
def afterSeeds (given : WeightedRules α) (seeds : List Literal) : Unrolling α :=
  seeds.foldl (fun s l => ((resolveSeed given l).runOn s).2) (.start given)

theorem building_afterSeeds (seeds : List Literal) : (afterSeeds given seeds).building = [] := by
  unfold afterSeeds
  induction seeds using List.reverseRecOn with
  | nil => rfl
  | append_singleton seeds l ih =>
    rw [List.foldl_append]
    exact (settles_resolveSeed l _ ih).2.2

/-- **Unrolling ends.** For any rules, with any loops, and any weights, after any seeds: a seed
is resolved in the same way at every depth from the bound on, it ends with a result or for a
weight that is missing, and no expansion is left open. -/
theorem resolveSeed_ends (given : WeightedRules α) (seeds : List Literal) (l : Literal) :
    let s := afterSeeds given seeds
    (∀ extra, (resolveBy (expand given (depthBound given.rules + extra)) [] l).runOn s =
      (resolveBy (expand given (depthBound given.rules)) [] l).runOn s) ∧
    ((∃ r, ((resolveSeed given l).runOn s).1 = .ok r) ∨
      ∃ k, ((resolveSeed given l).runOn s).1 = .error (.missingWeight k)) ∧
    ((resolveSeed given l).runOn s).2.building = s.building := by
  intro s
  have hs : s.building = [] := building_afterSeeds seeds
  have hseed : Settles [] (resolveSeed given l) (resolveSeed given l) := settles_resolveSeed l
  obtain ⟨-, hne, hb⟩ := hseed s hs
  refine ⟨fun extra => (settles_seed l extra s hs).1, ?_, hb.trans hs.symm⟩
  rcases hr : ((resolveSeed given l).runOn s).1 with e | r
  · cases e with
    | missingWeight k => exact .inr ⟨k, rfl⟩
    | exhausted => exact absurd hr hne
  · exact .inl ⟨r, rfl⟩

end ProbLogic
