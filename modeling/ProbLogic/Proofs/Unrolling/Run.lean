/-
# What unrolling runs do

Every run of an unrolling, whether it ends or stops, is made of the steps that
`Steps` lists, and closes the expansions that it opens. What it returns is
justified by the records at its end: an atom is expanded to a variant that
serves below its ancestors, a body to a copy of it on such variants, and so on
upwards to the seeds (`leads_expand`, `leads_resolveSeeds`).

`Leads` says this of one computation. It has a rule for each construct of the
monad, so that the proof for a function follows its text.

Key definitions: `Leads`.
Key theorems: `Leads.bind`, `freshName_spec`, `leads_expand`, `leads_resolveSeeds`.
-/
import ProbLogic.Proofs.Text
import ProbLogic.Proofs.Unrolling.Trace

namespace ProbLogic

open Rules Relation

variable {α β γ : Type}

/-! ### Runs and the rules for them -/

namespace UnrollM

theorem runOn_bind (x : UnrollM α β) (f : β → UnrollM α γ) (s : Unrolling α) :
    (x >>= f).runOn s = match x.runOn s with
      | (.ok b, s') => (f b).runOn s'
      | (.error e, s') => (.error e, s') := by
  have h : (x >>= f).runOn s = ExceptT.bindCont f (x.runOn s).1 (x.runOn s).2 := rfl
  rw [h]
  rcases x.runOn s with ⟨_ | _, _⟩ <;> rfl

theorem runOn_whileBuilding (a : Atom) (A : List Atom) (steps : UnrollM α β) (s : Unrolling α) :
    (whileBuilding a A steps).runOn s =
      let r := steps.runOn { s with building := (a, A) :: s.building }
      (r.1, { r.2 with building := r.2.building.tail }) := rfl

end UnrollM

open UnrollM

/-- A run from the state `s`, which has these records, is made of steps and leaves the open
expansions as they are. If it ends with a result, that meets the condition. -/
def Leads (given : WeightedRules α) (recs : List Record) (s : Unrolling α) (steps : UnrollM α β)
    (post : List Record → Unrolling α → β → Prop) : Prop :=
  ∃ recs', Steps given recs s recs' (steps.runOn s).2 ∧
    (steps.runOn s).2.building = s.building ∧
    ∀ x, (steps.runOn s).1 = .ok x → post recs' (steps.runOn s).2 x

namespace Leads

variable {given : WeightedRules α} {recs : List Record} {s : Unrolling α}
  {post : List Record → Unrolling α → β → Prop}

theorem pure {x : β} (h : post recs s x) : Leads given recs s (Pure.pure x) post := by
  refine ⟨recs, .refl, rfl, fun y hy => ?_⟩
  obtain rfl : x = y := Except.ok.inj hy
  exact h

theorem throw (e : Stop) : Leads given recs s (MonadExcept.throw e) post :=
  ⟨recs, .refl, rfl, fun _ hy => nomatch hy⟩

theorem modify_bind {f : Unrolling α → Unrolling α} {g : Unit → UnrollM α β}
    (hs : Steps given recs s recs (f s)) (hb : (f s).building = s.building)
    (h : Leads given recs (f s) (g ()) post) : Leads given recs s (modify f >>= g) post := by
  obtain ⟨recs', hsteps, hb', hpost⟩ := h
  exact ⟨recs', hs.trans hsteps, hb'.trans hb, hpost⟩

theorem modify {f : Unrolling α → Unrolling α} {recs' : List Record}
    {post : List Record → Unrolling α → Unit → Prop} (hs : Steps given recs s recs' (f s))
    (hb : (f s).building = s.building) (h : post recs' (f s) ()) :
    Leads given recs s (modify f) post :=
  ⟨recs', hs, hb, fun _ _ => h⟩

theorem bind {x : UnrollM α γ} {f : γ → UnrollM α β}
    {mid : List Record → Unrolling α → γ → Prop} (hx : Leads given recs s x mid)
    (hf : ∀ recs' s' c, Steps given recs s recs' s' → s'.building = s.building →
      mid recs' s' c → Leads given recs' s' (f c) post) : Leads given recs s (x >>= f) post := by
  obtain ⟨recs', hsteps, hb, hmid⟩ := hx
  unfold Leads
  rw [runOn_bind]
  rcases h : x.runOn s with ⟨e | c, s'⟩
  · rw [h] at hsteps hb
    exact ⟨recs', hsteps, hb, fun _ hy => nomatch hy⟩
  · rw [h] at hsteps hb hmid
    obtain ⟨recs'', hsteps', hb', hpost⟩ := hf recs' s' c hsteps hb (hmid c rfl)
    exact ⟨recs'', hsteps.trans hsteps', hb'.trans hb, hpost⟩

theorem of_runOn {x : UnrollM α β} {b : β} {s' : Unrolling α} {recs' : List Record}
    (h : x.runOn s = (.ok b, s')) (hs : Steps given recs s recs' s')
    (hb : s'.building = s.building) (hpost : post recs' s' b) : Leads given recs s x post := by
  unfold Leads
  rw [h]
  refine ⟨recs', hs, hb, fun c hc => ?_⟩
  rwa [← Except.ok.inj hc]

theorem pure_bind {x : γ} {f : γ → UnrollM α β} (h : Leads given recs s (f x) post) :
    Leads given recs s (Pure.pure x >>= f) post := h

theorem get_bind {f : Unrolling α → UnrollM α β} (h : Leads given recs s (f s) post) :
    Leads given recs s (MonadState.get >>= f) post := h

theorem mono {mid : List Record → Unrolling α → β → Prop} {x : UnrollM α β}
    (hx : Leads given recs s x mid)
    (h : ∀ recs' s' b, Steps given recs s recs' s' → mid recs' s' b → post recs' s' b) :
    Leads given recs s x post := by
  obtain ⟨recs', hsteps, hb, hmid⟩ := hx
  exact ⟨recs', hsteps, hb, fun b hr => h _ _ _ hsteps (hmid b hr)⟩

/-- The result and the state after it are those of the run. -/
theorem with_run {x : UnrollM α β} (hx : Leads given recs s x post) :
    Leads given recs s x fun recs' s' b => post recs' s' b ∧ x.runOn s = (.ok b, s') := by
  obtain ⟨recs', hsteps, hb, hpost⟩ := hx
  exact ⟨recs', hsteps, hb, fun b hr => ⟨hpost b hr, Prod.ext hr rfl⟩⟩

theorem whileBuilding {a : Atom} {A : List Atom} {x : UnrollM α β}
    (hx : Leads given recs { s with building := (a, A) :: s.building } x
      fun recs' s' b => post recs' { s' with building := s.building } b) :
    Leads given recs s (UnrollM.whileBuilding a A x) post := by
  obtain ⟨recs', hsteps, hb, hpost⟩ := hx
  unfold Leads
  rw [runOn_whileBuilding]
  refine ⟨recs', ?_, by simp [hb], fun b hr => ?_⟩
  · exact ((Steps.refl.frame ((a, A) :: s.building) s.log).trans hsteps).frame _ _
  · simpa [hb] using hpost b hr

end Leads

/-! ### Names, weights and records -/

theorem Atom.suffixed_injective (a : Atom) :
    Function.Injective fun i : Nat => a.suffixed (toString i) := by
  intro i j h
  have h : a.name ++ "_" ++ toString i = a.name ++ "_" ++ toString j := congrArg Atom.name h
  have hij : Nat.repr i = Nat.repr j := by simpa using h
  apply Text.toDigits_inj
  rw [← Nat.toList_repr, hij, Nat.toList_repr]

/-- A new name is made from the atom, and is not taken. -/
theorem Unrolling.freshName_spec (s : Unrolling α) (a : Atom) :
    (∃ t, s.freshName a = a.suffixed t) ∧ s.freshName a ∉ s.taken := by
  let start := (s.variantsOf a).length
  let free (i : Nat) : Option Atom :=
    if a.suffixed (toString (start + i)) ∈ s.taken then none
    else some (a.suffixed (toString (start + i)))
  have heq : s.freshName a = ((List.range (s.taken.length + 1)).findSome? free).getD a := rfl
  rw [heq]
  cases hfind : (List.range (s.taken.length + 1)).findSome? free with
  | some n =>
    obtain ⟨i, -, hi⟩ := List.exists_of_findSome?_eq_some hfind
    simp only [free] at hi
    split at hi
    · cases hi
    · next hfree =>
      obtain rfl := Option.some.inj hi
      exact ⟨⟨_, rfl⟩, hfree⟩
  | none =>
    -- more names than are taken would all be taken
    have hall : (List.range (s.taken.length + 1)).map
        (fun i => a.suffixed (toString (start + i))) ⊆ s.taken := by
      intro n hn
      obtain ⟨i, hi, rfl⟩ := List.mem_map.mp hn
      by_contra hfree
      have hnone := List.findSome?_eq_none_iff.mp hfind i hi
      simp only [free, if_neg hfree] at hnone
      cases hnone
    have hnodup : ((List.range (s.taken.length + 1)).map
        fun i => a.suffixed (toString (start + i))).Nodup :=
      List.nodup_range.map ((Atom.suffixed_injective a).comp (add_right_injective start))
    have hle := (hnodup.subperm hall).length_le
    rw [List.length_map, List.length_range] at hle
    omega

section Building

variable {given : WeightedRules α} {recs : List Record} {s : Unrolling α}

theorem Unrolling.mem_of_lookup {a : Atom} {A : List Atom} {v : Variant}
    (h : s.lookup a A = some v) : v ∈ s.variantsOf a ∧ v.cuts ⊆ A := by
  have hall : ∀ c ∈ v.cuts, c ∈ A := by simpa using List.find?_some h
  exact ⟨List.mem_of_find?_eq_some h, fun c hc => hall c hc⟩

theorem Unrolling.not_subset_of_lookup {a : Atom} {A : List Atom} (h : s.lookup a A = none)
    {v : Variant} (hv : v ∈ s.variantsOf a) : ¬ v.cuts ⊆ A := by
  intro hsub
  have hall : ∀ c ∈ v.cuts, c ∈ A := fun c hc => hsub hc
  exact List.find?_eq_none.mp h v hv (by simpa using hall)

theorem Reached.serves_of_lookup (hr : Reached given recs s) {a : Atom} {A : List Atom}
    {v : Variant} (h : s.lookup a A = some v) : Serves recs s.pending a A v := by
  obtain ⟨hv, hcuts⟩ := Unrolling.mem_of_lookup h
  obtain ⟨x, hx, ha, rfl⟩ := hr.mem_variantsOf.mp hv
  exact .inl ⟨x, hx, ha, rfl, hcuts⟩

theorem Reached.new_of_lookup (hr : Reached given recs s) {a : Atom} {A : List Atom}
    (h : s.lookup a A = none) : ∀ y ∈ recs, y.atom = a → ¬ y.variant.cuts ⊆ A :=
  fun _ hy ha => Unrolling.not_subset_of_lookup h (hr.mem_variantsOf.mpr ⟨_, hy, ha, rfl⟩)

theorem Reached.fresh_of_notMem (hr : Reached given recs s) {a n : Atom}
    (ht : ∃ t, n = a.suffixed t) (hn : n ∉ s.taken) : Fresh given recs a n := by
  refine ⟨ht, fun h => hn (hr.taken_subset h), fun y hy hyn => ?_⟩
  exact ((hr.name_taken y hy n hyn).resolve_right hn).symm

theorem weights_get?_setWeight {l k : Literal} {w : α} (h : (s.built.weights.get? l).isSome) :
    ((s.setWeight k w).built.weights.get? l).isSome := by
  show ((s.built.weights.insert k w).get? l).isSome
  rw [Weights.get?_insert]
  split
  · rfl
  · exact h

theorem Literal.compare_pos_neg (a : Atom) : compare (Literal.pos a) (.neg a) ≠ .eq := by
  intro h
  have hlength := congrArg String.length (Literal.text_eq_of_compare h)
  have htext : (Literal.neg a).text = "-" ++ a.name := rfl
  have hone : "-".length = 1 := rfl
  rw [htext, String.length_append, hone] at hlength
  have hpos : (Literal.pos a).text.length = a.name.length := rfl
  omega

theorem sameWeights_setWeight {a n : Atom} {w w' : α} (hw : given.weights.get? (.pos a) = some w)
    (hw' : given.weights.get? (.neg a) = some w') :
    SameWeights given.weights ((s.setWeight (.pos n) w).setWeight (.neg n) w').built.weights
      a n := by
  intro p
  show ∃ x, given.weights.get? ⟨a, p⟩ = some x ∧
    ((s.built.weights.insert (.pos n) w).insert (.neg n) w').get? ⟨n, p⟩ = some x
  cases p with
  | false =>
    refine ⟨w', hw', ?_⟩
    rw [Weights.get?_insert]
    exact if_pos Std.ReflCmp.compare_self
  | true =>
    refine ⟨w, hw, ?_⟩
    rw [Weights.get?_insert, Weights.get?_insert]
    refine (if_neg (Literal.compare_pos_neg n)).trans ?_
    exact if_pos Std.ReflCmp.compare_self

theorem leads_copyWeight {a n : Atom} {p : Bool}
    (hn : n = a ∨ (Fresh given recs a n ∧ given.rules.contains a = true)) :
    Leads given recs s (copyWeight given ⟨a, p⟩ ⟨n, p⟩) fun recs' s' _ =>
      recs' = recs ∧ ∃ w, given.weights.get? ⟨a, p⟩ = some w ∧ s' = s.setWeight ⟨n, p⟩ w := by
  unfold copyWeight
  split
  · next w hw => exact .modify (Steps.refl.weight hw hn) rfl ⟨rfl, w, hw, rfl⟩
  · exact .throw _

/-- Copying the weights of an atom changes nothing else. -/
theorem leads_copyWeights {a n : Atom}
    (hn : n = a ∨ (Fresh given recs a n ∧ given.rules.contains a = true)) :
    Leads given recs s (copyWeights given a n) fun recs' s' _ =>
      recs' = recs ∧ (∃ w w', s' = (s.setWeight (.pos n) w).setWeight (.neg n) w') ∧
        SameWeights given.weights s'.built.weights a n := by
  refine .bind (leads_copyWeight hn) ?_
  rintro recs' s' - - - ⟨rfl, w, hw, rfl⟩
  refine (leads_copyWeight hn).mono ?_
  rintro recs' s' - - ⟨rfl, w', hw', rfl⟩
  exact ⟨rfl, ⟨w, w', rfl⟩, sameWeights_setWeight hw hw'⟩

theorem leads_nameVariant {a : Atom} {cuts : List Atom} :
    Leads given recs s (nameVariant a cuts) fun recs' s' n => recs' = recs ∧
      ((cuts = [] ∧ n = a ∧ s' = s) ∨
        (cuts ≠ [] ∧ (∃ t, n = a.suffixed t) ∧ n ∉ s.taken ∧
          s' = { s with taken := Ascending.insert n s.taken })) := by
  unfold nameVariant
  split
  · next h => exact .pure ⟨rfl, .inl ⟨by simpa using h, rfl, rfl⟩⟩
  · next h =>
    obtain ⟨ht, hn⟩ := s.freshName_spec a
    refine .get_bind (.modify_bind (Steps.refl.taken _) rfl (.pure ⟨rfl, .inr ⟨?_, ht, hn, rfl⟩⟩))
    simpa using h

theorem runOn_record (s : Unrolling α) (a : Atom) (v : Variant) :
    (record a v).runOn s = (.ok v, s.enter ⟨a, v, []⟩) := by
  rcases v with ⟨_ | n, cuts⟩ <;> rfl

theorem runOn_addRules_record (s : Unrolling α) (a n : Atom) (bodies : List Body)
    (cuts : List Atom) :
    runOn (do
      modify fun s => s.addRules n bodies
      record a ⟨some n, cuts⟩) s = (.ok ⟨some n, cuts⟩, s.enter ⟨a, ⟨some n, cuts⟩, bodies⟩) := by
  have h : (s.addRules n bodies).record a ⟨some n, cuts⟩ = s.enter ⟨a, ⟨some n, cuts⟩, bodies⟩ := by
    simp [Unrolling.enter, Unrolling.record, Unrolling.addRules, Record.rules, List.foldl_map]
  rw [← h]
  rfl

/-- Entering a record makes it serve. -/
theorem leads_enter (x : Record) {A : List Atom} {steps : UnrollM α Variant}
    (hrun : steps.runOn s = (.ok x.variant, s.enter x))
    (hx : Justified given s.pending recs x)
    (htaken : ∀ n, x.variant.name = some n → n = x.atom ∨ n ∈ s.taken)
    (hweights : ∀ n, x.variant.name = some n →
      SameWeights given.weights s.built.weights x.atom n)
    (hA : x.variant.cuts ⊆ A) :
    Leads given recs s steps fun recs' s' v => Serves recs' s'.pending x.atom A v :=
  .of_runOn hrun (Steps.refl.enter hx htaken hweights) rfl
    (.inl ⟨x, List.mem_cons_self, rfl, rfl, hA⟩)

/-- An atom whose bodies are resolved ends as a variant that serves it. -/
theorem leads_finishAtom {a : Atom} {A : List Atom} {bodies : List Body} {cuts : List Atom}
    (hr : Reached given recs s) (hc : given.rules.contains a = true)
    (hleft : Left (Answers recs s.pending (Ascending.insert a A)) A (given.rules.bodies a)
      bodies cuts)
    (hA : Ascending.remove a cuts ⊆ A)
    (habove : ∀ c ∈ A, TransGen (given.rules.toRules.Uses true) c a) :
    Leads given recs s (finishAtom given a bodies (Ascending.remove a cuts)) fun recs' s' v =>
      Serves recs' s'.pending a A v := by
  unfold finishAtom
  refine .get_bind ?_
  split
  · next v hv =>
    rcases hr.serves_of_lookup hv with ⟨x, hx, ha, hxv, hcuts⟩ | hp
    · exact .pure (.inl ⟨x, hx, ha, hxv, List.Subset.trans hcuts hA⟩)
    · exact .pure (.inr hp)
  · next hnone =>
    have hnew := hr.new_of_lookup hnone
    have habove := fun c hc => habove c (hA hc)
    split
    · next hempty =>
      have hnil : bodies = [] := by simpa using hempty
      subst hnil
      have hx : Justified given s.pending recs ⟨a, ⟨none, Ascending.remove a cuts⟩, []⟩ :=
        ⟨hnew, by simp, .inr ⟨hc, by simp, A, cuts, rfl, hleft⟩, habove⟩
      refine .modify_bind (Steps.refl.frame s.building _) rfl ?_
      exact leads_enter ⟨a, _, _⟩ (runOn_record _ _ _) hx (by simp) (by simp) hA
    · next hne =>
      have hne : bodies ≠ [] := by simpa using hne
      refine .bind leads_nameVariant ?_
      rintro recs' s₁ n - - ⟨rfl, hn⟩
      have hname : if Ascending.remove a cuts = [] then n = a else Fresh given recs' a n := by
        rcases hn with ⟨hnil, ha, -⟩ | ⟨hnil, ht, hfresh, -⟩
        · rwa [if_pos hnil]
        · rw [if_neg hnil]
          exact hr.fresh_of_notMem ht hfresh
      have hx : Justified given s.pending recs' ⟨a, ⟨some n, Ascending.remove a cuts⟩, bodies⟩ := by
        refine ⟨hnew, fun m hm => ?_, .inr ⟨hc, by simpa using hne, A, cuts, rfl, hleft⟩,
          habove⟩
        rwa [← Option.some.inj hm]
      have htaken : n = a ∨ n ∈ s₁.taken := by
        rcases hn with ⟨-, ha, -⟩ | ⟨-, -, -, rfl⟩
        · exact .inl ha
        · exact .inr (Ascending.mem_insert.mpr (.inl rfl))
      have hsource : n = a ∨ (Fresh given recs' a n ∧ given.rules.contains a = true) := by
        split at hname
        · exact .inl hname
        · exact .inr ⟨hname, hc⟩
      have hpending : s₁.pending = s.pending := by
        rcases hn with ⟨-, -, rfl⟩ | ⟨-, -, -, rfl⟩ <;> rfl
      refine .modify_bind (Steps.refl.frame s₁.building _) rfl
        (.bind (leads_copyWeights hsource) ?_)
      rintro recs'' s₂ - - - ⟨rfl, ⟨w, w', rfl⟩, hweights⟩
      refine leads_enter ⟨a, ⟨some n, _⟩, bodies⟩ (runOn_addRules_record _ a n bodies _) ?_ ?_ ?_ hA
      · exact hpending ▸ hx
      · intro m hm
        rwa [← Option.some.inj hm]
      · intro m hm
        rw [← Option.some.inj hm]
        exact hweights

end Building

/-! ### Bodies, atoms and seeds -/

section Expanding

variable {given : WeightedRules α} {recs : List Record} {s : Unrolling α}

/-- A literal is resolved to what a variant that answers it makes of it, whenever only the
given expansions are open. -/
def Resolves (given : WeightedRules α) (building : List (Atom × List Atom)) (inner : List Atom)
    (resolve : Literal → UnrollM α (Resolved × List Atom)) (l : Literal) : Prop :=
  ∀ recs s, Reached given recs s → s.building = building →
    Leads given recs s (resolve l) fun recs' s' r =>
      ∃ v, Answers recs' s'.pending inner l v ∧ r = (v.resolve l, v.cuts)

/-- What a fate says of a body. -/
def Fate.Fits (ans : Literal → Variant → Prop) (b : Body) : Fate → Prop
  | .kept body cuts => Copies ans b body cuts
  | .lost cuts => ∃ l ∈ b, ∃ v, ans l v ∧ v.resolve l = .eliminated ∧ cuts = v.cuts

/-- The literals before `ls` have left a copy, and so do all in the end. -/
theorem leads_resolveBody {inner : List Atom}
    {resolve : Literal → UnrollM α (Resolved × List Atom)} {before ls : List Literal} {body : Body}
    {cuts : List Atom} (hr : Reached given recs s)
    (hres : ∀ l ∈ ls, Resolves given s.building inner resolve l)
    (hcopy : Copies (Answers recs s.pending inner) before body cuts) :
    Leads given recs s (resolveBody resolve ls body cuts) fun recs' s' f =>
      Fate.Fits (Answers recs' s'.pending inner) (before ++ ls) f := by
  induction ls generalizing before body cuts recs s with
  | nil =>
    rw [List.append_nil]
    exact .pure hcopy
  | cons l ls ih =>
    refine .bind (hres l List.mem_cons_self recs s hr rfl) ?_
    rintro recs' s' - hsteps hb ⟨v, hv, rfl⟩
    have hcopy := hcopy.mono fun l v (h : Answers recs s.pending inner l v) =>
      h.mono hsteps.recs_subset hsteps.pending_subset
    have hres : ∀ l ∈ ls, Resolves given s'.building inner resolve l := fun k hk =>
      hb ▸ hres k (List.mem_cons_of_mem _ hk)
    rw [List.append_cons]
    cases hv' : v.resolve l with
    | variant k => exact ih (hr.trans hsteps) hres (hcopy.snoc_variant hv hv')
    | vacuous => exact ih (hr.trans hsteps) hres (hcopy.snoc_vacuous hv hv')
    | eliminated => exact .pure ⟨l, by simp, v, hv, hv', rfl⟩

theorem leads_resolveBodies {A inner : List Atom}
    {resolve : Literal → UnrollM α (Resolved × List Atom)} {bs : List Body}
    (hr : Reached given recs s)
    (hres : ∀ b ∈ bs, closedLoops A b = [] → ∀ l ∈ b, Resolves given s.building inner resolve l) :
    Leads given recs s (resolveBodies resolve A bs) fun recs' s' r =>
      Left (Answers recs' s'.pending inner) A bs r.1 r.2 := by
  induction bs generalizing recs s with
  | nil => exact .pure .nil
  | cons b bs ih =>
    have hrest : ∀ {recs₁ s₁}, Steps given recs s recs₁ s₁ → s₁.building = s.building →
        Leads given recs₁ s₁ (resolveBodies resolve A bs) fun recs' s' r =>
          Left (Answers recs' s'.pending inner) A bs r.1 r.2 := fun hsteps hb =>
      ih (hr.trans hsteps) fun b' hb' => hb ▸ hres b' (List.mem_cons_of_mem _ hb')
    rw [resolveBodies]
    split
    · next hloops =>
      have hloops : closedLoops A b = [] := by simpa using hloops
      refine .bind (leads_resolveBody hr (hres b List.mem_cons_self hloops) .nil) ?_
      intro recs₁ s₁ f hsteps₁ hb₁ hf
      refine .bind (hrest hsteps₁ hb₁) ?_
      rintro recs₂ s₂ ⟨bodies, cuts⟩ hsteps₂ - hleft
      have hmono : ∀ l v, Answers recs₁ s₁.pending inner l v →
          Answers recs₂ s₂.pending inner l v :=
        fun l v h => h.mono hsteps₂.recs_subset hsteps₂.pending_subset
      cases f with
      | kept body c => exact .pure (.kept hloops (Copies.mono hf hmono) hleft)
      | lost c =>
        obtain ⟨l, hl, v, hv, he, rfl⟩ := hf
        exact .pure (.lost hloops hl (hmono l v hv) he hleft)
    · next hloops =>
      refine .pure_bind (.bind (hrest .refl rfl) ?_)
      rintro recs₂ s₂ ⟨bodies, cuts⟩ - - hleft
      exact .pure (.cut (by simpa using hloops) hleft)

theorem resolves_resolveBy {expand : Atom → List Atom → UnrollM α Variant}
    {building : List (Atom × List Atom)} {inner : List Atom} {l : Literal}
    (h : ∀ recs s, Reached given recs s → s.building = building →
      Leads given recs s (expand l.atom (if l.positive then inner else [])) fun recs' s' v =>
        Serves recs' s'.pending l.atom (if l.positive then inner else []) v) :
    Resolves given building inner (resolveBy expand inner) l := by
  intro recs s hr hb
  refine .bind (h recs s hr hb) ?_
  rintro recs' s' v - - hv
  exact .pure ⟨v, hv, rfl⟩

/-- The literals of a body that closes no loop are met in a descent. -/
theorem Descent.literal {a : Atom} {A : List Atom} {st : List (Atom × List Atom)} {b : Body}
    {l : Literal} (hd : Descent given.rules.toRules st a A) (hb : b ∈ given.rules.bodies a)
    (hloops : closedLoops A b = []) (hl : l ∈ b) :
    Descent given.rules.toRules ((a, A) :: st) l.atom
      (if l.positive then Ascending.insert a A else []) := by
  obtain ⟨c, p⟩ := l
  cases p
  · exact .negative hd ⟨b, hb, hl⟩
  · refine .positive hd ⟨b, hb, hl⟩ fun hc => ?_
    have hmem := mem_closedLoops.mpr ⟨hc, hl⟩
    rw [hloops] at hmem
    simp at hmem

/-- **Expanding an atom.** Whatever happens below it, an expansion is made of steps, and
gives a variant that serves the atom below its ancestors. -/
theorem leads_expand (depth : Nat) {a : Atom} {A : List Atom} (hr : Reached given recs s)
    (hd : Descent given.rules.toRules s.building a A) :
    Leads given recs s (expand given depth a A) fun recs' s' v =>
      Serves recs' s'.pending a A v := by
  induction depth generalizing recs s a A with
  | zero => exact .throw _
  | succ depth ih =>
    refine .get_bind ?_
    split
    · next v hv => exact .pure (hr.serves_of_lookup hv)
    · next hnone =>
      refine .get_bind ?_
      split
      · next hm =>
        have hloop := hd.negationLoopsAt hm
        refine .modify_bind (Steps.refl.pending hloop) rfl (.pure (.inr ⟨?_, rfl⟩))
        exact Ascending.mem_insert.mpr (.inl rfl)
      · split
        · next hc =>
          have hopen := hr.trans (Steps.refl.frame ((a, A) :: s.building) s.log)
          have hbodies : Leads given recs s (UnrollM.whileBuilding a A
              (resolveBodies (resolveBy (expand given depth) (Ascending.insert a A)) A
                (given.rules.bodies a))) fun recs' s' r =>
              Left (Answers recs' s'.pending (Ascending.insert a A)) A (given.rules.bodies a)
                r.1 r.2 := by
            refine .whileBuilding (leads_resolveBodies hopen fun b hb hloops l hl => ?_)
            refine resolves_resolveBy fun recs' s' hr' hb' => ih hr' ?_
            rw [hb']
            exact hd.literal hb hloops hl
          refine .bind hbodies ?_
          rintro recs' s' ⟨bodies, cuts⟩ hsteps - hleft
          have hinner : ∀ c ∈ cuts, c ∈ Ascending.insert a A :=
            hleft.forall_cuts
              (fun b _ c hc => Ascending.mem_insert.mpr (.inr (mem_closedLoops.mp hc).1))
              fun b _ l _ v hv c hc => hv.cuts_subset hc
          refine leads_finishAtom (hr.trans hsteps) hc hleft (fun c hcut => ?_) fun c hc =>
            hd.transGen_of_mem hc
          obtain ⟨hcut, hne⟩ := Ascending.mem_remove.mp hcut
          exact (Ascending.mem_insert.mp (hinner c hcut)).resolve_left hne
        · next hc =>
          refine .bind (leads_copyWeights (.inl rfl)) ?_
          rintro recs' s' - - - ⟨rfl, ⟨w, w', rfl⟩, hweights⟩
          have hnew : ∀ y ∈ recs', y.atom = a → ¬ y.variant.cuts ⊆ [] := fun y hy ha hsub =>
            hr.new_of_lookup hnone y hy ha (List.Subset.trans hsub (List.nil_subset _))
          have hgiven : ∀ p, (given.weights.get? ⟨a, p⟩).isSome := fun p => by
            obtain ⟨w, hw, -⟩ := hweights p
            exact Option.isSome_of_eq_some hw
          have hopen : given.rules.contains a = false := by simpa using hc
          refine leads_enter ⟨a, ⟨some a, []⟩, []⟩ (runOn_record _ _ _)
            ⟨hnew, ?_, .inl ⟨hopen, rfl, rfl, hgiven⟩, by simp⟩ ?_ ?_ (List.nil_subset _)
          · simp
          · simp
          · intro n hn
            rw [← Option.some.inj hn]
            exact hweights

/-- The atom keeps its name: it has a variant without cuts under it, or is pending. -/
def Named (recs : List Record) (pend : List Atom) (a : Atom) : Prop :=
  (∃ x ∈ recs, x.atom = a ∧ x.variant = ⟨some a, []⟩) ∨ a ∈ pend

/-- Without ancestors an atom keeps its name, or has no derivation. -/
theorem Serves.named_or {pend : List Atom} {a : Atom} {v : Variant} (h : Serves recs pend a [] v)
    (hvalid : Valid given pend recs) :
    (v = ⟨some a, []⟩ ∧ Named recs pend a) ∨
      (v = ⟨none, []⟩ ∧ ∃ x ∈ recs, x.atom = a ∧ x.variant = v) := by
  rcases h with ⟨x, hx, ha, hv, hcuts⟩ | ⟨hp, hv⟩
  · have hnil : v.cuts = [] := List.subset_nil.mp hcuts
    rcases hn : v.name with _ | n
    · exact .inr ⟨by rw [← hn, ← hnil], x, hx, ha, hv⟩
    · rcases hvalid.name_cases hx (hv ▸ hn) with ⟨-, hna⟩ | ⟨hne, -⟩
      · have hv' : v = ⟨some a, []⟩ := by rw [← ha, ← hna, ← hn, ← hnil]
        exact .inl ⟨hv', .inl ⟨x, hx, ha, hv.trans hv'⟩⟩
      · exact absurd (hv ▸ hnil) hne
  · exact .inl ⟨hv, .inr hp⟩

/-- The atom of a seed keeps its name or is found false. -/
def Seeded (recs : List Record) (s : Unrolling α) (a : Atom) : Prop :=
  Named recs s.pending a ∨ a ∈ s.falsified

theorem Named.mono {recs' : List Record} {s' : Unrolling α} {a : Atom}
    (h : Named recs s.pending a) (hsteps : Steps given recs s recs' s') :
    Named recs' s'.pending a := by
  rcases h with ⟨x, hx, hv⟩ | hp
  · exact .inl ⟨x, hsteps.recs_subset hx, hv⟩
  · exact .inr (hsteps.pending_subset hp)

theorem Seeded.mono {recs' : List Record} {s' : Unrolling α} {a : Atom} (h : Seeded recs s a)
    (hsteps : Steps given recs s recs' s') : Seeded recs' s' a :=
  h.imp (fun hn => hn.mono hsteps) fun hf => hsteps.falsified_subset hf

/-- What a seed resolves to: itself, or what becomes of a literal whose atom is false. -/
def SeedOutcome (recs : List Record) (s : Unrolling α) (l : Literal) (r : Resolved) : Prop :=
  (Named recs s.pending l.atom ∧ r = .variant l) ∨
    (l.atom ∈ s.falsified ∧ r = if l.positive then .eliminated else .vacuous)

/-- **Seeds keep their names.** A seed resolves to itself, or its atom is found false. -/
theorem leads_resolveSeed (l : Literal) (hr : Reached given recs s) (hb : s.building = []) :
    Leads given recs s (resolveSeed given l) fun recs' s' r => SeedOutcome recs' s' l r := by
  have hres : Resolves given s.building []
      (resolveBy (expand given (depthBound given.rules)) []) l := by
    refine resolves_resolveBy fun recs' s' hr' hb' => leads_expand _ hr' ?_
    rw [hb', hb, ite_self]
    exact .seed _
  refine .bind (hres recs s hr rfl) ?_
  rintro recs' s' - hsteps - ⟨v, hv, rfl⟩
  have hv : Serves recs' s'.pending l.atom [] v := by rwa [Answers, ite_self] at hv
  have hr' : Reached given recs' s' := hr.trans hsteps
  rcases hv.named_or hr'.valid with ⟨rfl, hnamed⟩ | ⟨rfl, x, hx, ha, hxv⟩
  · exact .pure (.inl ⟨hnamed, rfl⟩)
  · have hfalse : Steps given recs' s' recs'
        { s'.report (.underivable l.atom) with
          falsified := Ascending.insert l.atom s'.falsified } := by
      rw [← ha]
      exact (Steps.refl.frame s'.building _).falsified hx hxv
    have hmem : l.atom ∈ Ascending.insert l.atom s'.falsified :=
      Ascending.mem_insert.mpr (.inl rfl)
    cases hp : l.positive with
    | true =>
      have he : Variant.resolve ⟨none, []⟩ l = .eliminated := resolve_eq_eliminated.mpr ⟨rfl, hp⟩
      rw [he]
      exact .modify_bind hfalse rfl (.pure (.inr ⟨hmem, by rw [hp]; rfl⟩))
    | false =>
      have he : Variant.resolve ⟨none, []⟩ l = .vacuous := resolve_eq_vacuous.mpr ⟨rfl, hp⟩
      rw [he]
      exact .modify_bind hfalse rfl (.pure (.inr ⟨hmem, by rw [hp]; rfl⟩))

theorem SeedOutcome.seeded {l : Literal} {r : Resolved} (h : SeedOutcome recs s l r) :
    Seeded recs s l.atom := h.imp And.left And.left

/-- **Resolving seeds.** A run of any seeds is made of steps, and if it does not stop, the atom
of each seed keeps its name or is found false. -/
theorem leads_resolveSeeds (seeds : List Literal) (hr : Reached given recs s)
    (hb : s.building = []) :
    Leads given recs s (resolveSeeds given seeds) fun recs' s' _ =>
      ∀ l ∈ seeds, Seeded recs' s' l.atom := by
  induction seeds generalizing recs s with
  | nil => exact .pure (by simp)
  | cons l seeds ih =>
    have hseed : Leads given recs s (discard (resolveSeed given l)) fun recs' s' _ =>
        Seeded recs' s' l.atom := by
      refine .bind (leads_resolveSeed l hr hb) ?_
      intro recs' s' r _ _ h
      exact .pure h.seeded
    refine .bind hseed ?_
    intro recs' s' _ hsteps hb' hl
    refine (ih (hr.trans hsteps) (hb'.trans hb)).mono ?_
    intro recs'' s'' _ hsteps' hrest k hk
    rcases List.mem_cons.mp hk with rfl | hk
    · exact hl.mono hsteps'
    · exact hrest k hk

/-- What is known of the state that the seeds lead to. -/
theorem exists_reached_of_resolveSeeds {seeds : List Literal} {r : Except Stop Unit}
    (h : (resolveSeeds given seeds).runOn (.start given) = (r, s)) :
    ∃ recs, Reached given recs s ∧ (r = .ok () → ∀ l ∈ seeds, Seeded recs s l.atom) := by
  obtain ⟨recs, hsteps, -, hpost⟩ :=
    leads_resolveSeeds seeds (Steps.refl : Reached given [] (.start given)) rfl
  rw [h] at hsteps hpost
  exact ⟨recs, hsteps, hpost ()⟩

end Expanding
end ProbLogic
