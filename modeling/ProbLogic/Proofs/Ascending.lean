/-
# The elements of ascending lists

What the operations on sets and maps as ascending lists do to their elements
and entries. Elements that compare equal need not be equal, and then an
insertion may do nothing. It is as expected where the elements are known by
their place in the order (`Separated`).

An ascending list is put together again from its elements (`ofList_eq_self`), and
a map from its entries in any order (`foldl_put_eq`).

Key definitions: `Separated`, `Weights.insertAll`.
Key theorems: `mem_insert_of_separated`, `ofListLast_eq`, `eq_of_mem_iff_fst`, `foldl_put_eq`,
`Weights.insertAll_eq`.
-/
import Mathlib.Tactic.Tauto
import ProbLogic.Weights

namespace ProbLogic

namespace Ascending

variable {α κ ν : Type} [Ord α] [Ord κ]

/-! ### Sets -/

theorem mem_of_mem_ofListLast {x : α} {xs : List α} (h : x ∈ ofListLast xs) : x ∈ xs := by
  induction xs with
  | nil => simp [ofListLast] at h
  | cons y ys ih =>
    rcases eq_or_mem_of_mem_insert h with rfl | h
    · exact List.mem_cons_self
    · exact List.mem_cons_of_mem _ (ih h)

theorem insert_ne_nil {x : α} {s : List α} : insert x s ≠ [] := by
  cases s with
  | nil => simp [insert]
  | cons y ys =>
    unfold insert
    split <;> simp

theorem ofListLast_eq_nil {xs : List α} : ofListLast xs = [] ↔ xs = [] := by
  cases xs with
  | nil => simp [ofListLast]
  | cons x xs => simp [ofListLast, insert_ne_nil]

theorem mem_of_mem_union {x : α} {s xs : List α} (h : x ∈ union s xs) : x ∈ s ∨ x ∈ xs := by
  induction xs generalizing s with
  | nil => exact .inl h
  | cons y ys ih =>
    rcases ih (s := insert y s) h with h | h
    · rcases eq_or_mem_of_mem_insert h with rfl | h
      · exact .inr List.mem_cons_self
      · exact .inl h
    · exact .inr (List.mem_cons_of_mem _ h)

/-- Elements are known by their place in the order. -/
def Separated (s : List α) : Prop := ∀ x ∈ s, ∀ y ∈ s, compare x y = .eq → x = y

theorem Separated.mono {s t : List α} (h : Separated t) (hs : s ⊆ t) : Separated s :=
  fun x hx y hy => h x (hs hx) y (hs hy)

theorem Separated.of_isAscending [Std.OrientedOrd α] {s : List α} (h : IsAscending s) :
    Separated s := by
  induction s with
  | nil => intro x hx; cases hx
  | cons z s ih =>
    obtain ⟨hz, hs⟩ := List.pairwise_cons.mp h
    intro x hx y hy hxy
    rcases List.mem_cons.mp hx with rfl | hx'
    · rcases List.mem_cons.mp hy with rfl | hy'
      · rfl
      · rw [hz y hy'] at hxy
        cases hxy
    · rcases List.mem_cons.mp hy with rfl | hy'
      · rw [Std.OrientedCmp.eq_comm, hz x hx'] at hxy
        cases hxy
      · exact ih hs x hx' y hy' hxy

theorem mem_insert_of_separated {x y : α} {s : List α} (h : Separated (x :: s)) :
    y ∈ insert x s ↔ y = x ∨ y ∈ s := by
  refine ⟨eq_or_mem_of_mem_insert, fun hy => ?_⟩
  induction s with
  | nil => simpa [insert] using hy
  | cons z zs ih =>
    unfold insert
    split
    · simpa using hy
    · next hxz =>
      have : x = z := h x (by simp) z (by simp) hxz
      simpa [this] using hy
    · rcases hy with rfl | hy
      · exact List.mem_cons_of_mem _ (ih (h.mono (by simp)) (.inl rfl))
      · rcases List.mem_cons.mp hy with rfl | hy
        · exact List.mem_cons_self
        · exact List.mem_cons_of_mem _ (ih (h.mono (by simp)) (.inr hy))

theorem mem_ofListLast {y : α} {xs : List α} (h : Separated xs) : y ∈ ofListLast xs ↔ y ∈ xs := by
  induction xs with
  | nil => simp [ofListLast]
  | cons x xs ih =>
    have hsub : x :: ofListLast xs ⊆ x :: xs := by
      intro z hz
      rcases List.mem_cons.mp hz with rfl | hz
      · exact List.mem_cons_self
      · exact List.mem_cons_of_mem _ (mem_of_mem_ofListLast hz)
    have ih := ih (h.mono (List.subset_cons_self x xs))
    show y ∈ insert x (ofListLast xs) ↔ _
    rw [mem_insert_of_separated (h.mono hsub), ih, List.mem_cons]

theorem mem_union_of_separated {y : α} {s xs : List α} (h : Separated (s ++ xs)) :
    y ∈ union s xs ↔ y ∈ s ∨ y ∈ xs := by
  induction xs generalizing s with
  | nil => simp [union]
  | cons x xs ih =>
    have hx : Separated (x :: s) := h.mono (by simp)
    have hins : insert x s ++ xs ⊆ s ++ x :: xs := by
      intro z hz
      rcases List.mem_append.mp hz with hz | hz
      · rcases eq_or_mem_of_mem_insert hz with rfl | hz
        · simp
        · simp [hz]
      · simp [hz]
    have ih := ih (s := insert x s) (h.mono hins)
    show y ∈ union (insert x s) xs ↔ _
    rw [ih, mem_insert_of_separated hx, List.mem_cons]
    tauto

theorem mem_insert_of_mem {x y : α} {s : List α} (h : y ∈ s) : y ∈ insert x s := by
  induction s with
  | nil => simp at h
  | cons z zs ih =>
    unfold insert
    split
    · exact List.mem_cons_of_mem _ h
    · exact h
    · rcases List.mem_cons.mp h with rfl | h
      · exact List.mem_cons_self
      · exact List.mem_cons_of_mem _ (ih h)

theorem exists_mem_insert [Std.ReflOrd α] (x : α) (s : List α) :
    ∃ y ∈ insert x s, compare x y = .eq := by
  induction s with
  | nil => exact ⟨x, by simp [insert], Std.ReflCmp.compare_self⟩
  | cons z zs ih =>
    unfold insert
    split
    · exact ⟨x, List.mem_cons_self, Std.ReflCmp.compare_self⟩
    · next h => exact ⟨z, List.mem_cons_self, h⟩
    · obtain ⟨y, hy, hc⟩ := ih
      exact ⟨y, List.mem_cons_of_mem _ hy, hc⟩

theorem subset_union_left [Std.LawfulEqOrd α] {s t : List α} : s ⊆ union s t := fun _ hx =>
  mem_union.mpr (.inl hx)

theorem subset_union_right [Std.LawfulEqOrd α] {s t : List α} : t ⊆ union s t := fun _ hx =>
  mem_union.mpr (.inr hx)

theorem union_subset [Std.LawfulEqOrd α] {s t X : List α} (hs : s ⊆ X) (ht : t ⊆ X) :
    union s t ⊆ X := fun _ hx => (mem_union.mp hx).elim (fun h => hs h) fun h => ht h

theorem insert_of_forall_lt [Std.OrientedOrd α] {x : α} {s : List α}
    (h : ∀ y ∈ s, compare y x = .lt) : insert x s = s ++ [x] := by
  induction s with
  | nil => rfl
  | cons y s ih =>
    have hxy : compare x y = .gt := Std.OrientedCmp.gt_of_lt (h y List.mem_cons_self)
    rw [insert, hxy, ih fun z hz => h z (List.mem_cons_of_mem y hz), List.cons_append]

theorem union_of_isAscending [Std.OrientedOrd α] {s xs : List α} (h : IsAscending (s ++ xs)) :
    union s xs = s ++ xs := by
  induction xs generalizing s with
  | nil => rw [List.append_nil]; rfl
  | cons x xs ih =>
    have hlast : insert x s = s ++ [x] :=
      insert_of_forall_lt fun y hy => (List.pairwise_append.mp h).2.2 y hy x List.mem_cons_self
    show union (insert x s) xs = s ++ x :: xs
    rw [List.append_cons] at h ⊢
    rw [hlast, ih h]

/-- **A set is put together from its elements** in their order. -/
theorem ofList_eq_self [Std.OrientedOrd α] {s : List α} (h : IsAscending s) : ofList s = s :=
  union_of_isAscending h

theorem isAscending_ofListLast [Std.TransOrd α] (xs : List α) : IsAscending (ofListLast xs) := by
  induction xs with
  | nil => exact List.Pairwise.nil
  | cons x xs ih => exact isAscending_insert ih

/-- The elements of an ascending list make it up, in any order and with any repetitions. -/
theorem ofListLast_eq [Std.TransOrd α] {s xs : List α} (hs : IsAscending s)
    (h : ∀ x, x ∈ xs ↔ x ∈ s) : ofListLast xs = s := by
  have hsep : Separated xs := (Separated.of_isAscending hs).mono fun x hx => (h x).mp hx
  apply eq_of_mem_iff (isAscending_ofListLast xs) hs
  intro x
  rw [mem_ofListLast hsep, h x]

/-! ### Maps -/

theorem get?_map_snd {μ : Type} (k : κ) (m : List (κ × ν)) (f : κ → ν → μ)
    (hf : ∀ j, compare k j = .eq → f j = f k) :
    get? k (m.map fun e => (e.1, f e.1 e.2)) = (get? k m).map (f k) := by
  induction m with
  | nil => rfl
  | cons e es ih =>
    by_cases h : compare k e.1 = .eq
    · simp [get?, h, hf e.1 h]
    · simp [get?, h, ih]

theorem get?_filter_fst [Std.LawfulEqOrd κ] (p : κ → Bool) (k : κ) (m : List (κ × ν)) :
    get? k (m.filter fun e => p e.1) = if p k then get? k m else none := by
  induction m with
  | nil => simp [get?]
  | cons e m ih =>
    by_cases he : compare k e.1 = .eq
    · have hk : k = e.1 := Std.LawfulEqCmp.eq_of_compare he
      cases hp : p e.1 with
      | true => simp [get?, hk, hp]
      | false => simpa [hk, hp] using ih
    · cases hp : p e.1 with
      | true => simp [get?, he, hp, ih]
      | false => simp [get?, he, hp, ih]

theorem exists_mem_of_get? {k : κ} {v : ν} {m : List (κ × ν)} (h : get? k m = some v) :
    ∃ e ∈ m, compare k e.1 = .eq ∧ e.2 = v := by
  induction m with
  | nil => cases h
  | cons e m ih =>
    by_cases he : compare k e.1 = .eq
    · simp only [get?, he, beq_self_eq_true, if_true, Option.some.injEq] at h
      exact ⟨e, List.mem_cons_self, he, h⟩
    · simp only [get?, beq_iff_eq, he, if_false] at h
      obtain ⟨e', he', hkey⟩ := ih h
      exact ⟨e', List.mem_cons_of_mem _ he', hkey⟩

theorem mem_of_get? [Std.LawfulEqOrd κ] {k : κ} {v : ν} {m : List (κ × ν)}
    (h : get? k m = some v) : (k, v) ∈ m := by
  obtain ⟨e, he, hkey, rfl⟩ := exists_mem_of_get? h
  rwa [Std.LawfulEqCmp.eq_of_compare hkey]

theorem mem_of_mem_put [Std.ReflOrd κ] {k : κ} {v : ν} {m : List (κ × ν)} {e : κ × ν}
    (h : e ∈ put k v m) : (compare k e.1 = .eq ∧ e.2 = v) ∨ e ∈ m := by
  induction m with
  | nil =>
    rw [List.mem_singleton.mp h]
    exact .inl ⟨Std.ReflCmp.compare_self, rfl⟩
  | cons e' es ih =>
    unfold put at h
    split at h
    · rcases List.mem_cons.mp h with rfl | h
      · exact .inl ⟨Std.ReflCmp.compare_self, rfl⟩
      · exact .inr h
    · next heq =>
      rcases List.mem_cons.mp h with rfl | h
      · exact .inl ⟨heq, rfl⟩
      · exact .inr (List.mem_cons_of_mem _ h)
    · rcases List.mem_cons.mp h with rfl | h
      · exact .inr List.mem_cons_self
      · exact (ih h).imp id (List.mem_cons_of_mem _)

theorem map_fst_put (k : κ) (v : ν) (m : List (κ × ν)) :
    (put k v m).map Prod.fst = insert k (m.map Prod.fst) := by
  induction m with
  | nil => rfl
  | cons e m ih =>
    rw [put, List.map_cons, insert]
    cases compare k e.1 with
    | lt => rfl
    | eq => rfl
    | gt => exact congrArg (e.1 :: ·) ih

variable [Std.TransOrd κ] {m es : List (κ × ν)}

/-- The entries of a map are known by their keys. -/
theorem eq_of_compare_fst (hm : IsAscending (m.map Prod.fst)) {e e' : κ × ν} (he : e ∈ m)
    (he' : e' ∈ m) (h : compare e.1 e'.1 = .eq) : e = e' := by
  let byKey : Ord (κ × ν) := ⟨compareOn Prod.fst⟩
  have : Std.TransOrd (κ × ν) := inferInstanceAs (Std.TransCmp (compareOn Prod.fst))
  exact Separated.of_isAscending (List.pairwise_map.mp hm) e he e' he' h

theorem get?_of_mem (hm : IsAscending (m.map Prod.fst)) {e : κ × ν} (he : e ∈ m) :
    get? e.1 m = some e.2 := by
  have hsome : ∀ es : List (κ × ν), e ∈ es → (get? e.1 es).isSome := by
    intro es hes
    induction es with
    | nil => cases hes
    | cons d es ih =>
      rw [get?]
      split
      · rfl
      · next hne =>
        rcases List.mem_cons.mp hes with rfl | hes
        · simp [Std.ReflCmp.compare_self] at hne
        · exact ih hes
  obtain ⟨v, hv⟩ := Option.isSome_iff_exists.mp (hsome m he)
  obtain ⟨e', he', hkey, rfl⟩ := exists_mem_of_get? hv
  rw [hv, eq_of_compare_fst hm he he' hkey]

theorem mem_iff_get? [Std.LawfulEqOrd κ] (hm : IsAscending (m.map Prod.fst)) {e : κ × ν} :
    e ∈ m ↔ get? e.1 m = some e.2 := ⟨get?_of_mem hm, mem_of_get?⟩

/-- Among the entries of a map, setting a value adds an entry. -/
theorem mem_put_of_subset (hm : IsAscending (m.map Prod.fst)) {e d : κ × ν} (hes : es ⊆ m)
    (he : e ∈ m) : d ∈ put e.1 e.2 es ↔ d = e ∨ d ∈ es := by
  induction es with
  | nil => simp [put]
  | cons e' es ih =>
    have hrest := ih fun d hd => hes (List.mem_cons_of_mem _ hd)
    unfold put
    split
    · simp
    · next heq =>
      obtain rfl := eq_of_compare_fst hm he (hes List.mem_cons_self) heq
      simp
    · rw [List.mem_cons, hrest, List.mem_cons]
      exact or_left_comm

theorem isAscending_foldl_put {s : List (κ × ν)} (hs : IsAscending (s.map Prod.fst))
    (es : List (κ × ν)) :
    IsAscending ((es.foldl (fun m e => put e.1 e.2 m) s).map Prod.fst) := by
  induction es generalizing s with
  | nil => exact hs
  | cons e es ih =>
    apply ih
    rw [map_fst_put]
    exact isAscending_insert hs

/-- A map is determined by its entries. -/
theorem eq_of_mem_iff_fst (hes : IsAscending (es.map Prod.fst)) (hm : IsAscending (m.map Prod.fst))
    (h : ∀ e, e ∈ es ↔ e ∈ m) : es = m := by
  let byKey : Ord (κ × ν) := ⟨compareOn Prod.fst⟩
  have : Std.TransOrd (κ × ν) := inferInstanceAs (Std.TransCmp (compareOn Prod.fst))
  exact eq_of_mem_iff (List.pairwise_map.mp hes) (List.pairwise_map.mp hm) h

/-- Among the entries of a map, setting values adds entries. -/
theorem mem_foldl_put_of_subset (hm : IsAscending (m.map Prod.fst)) {s : List (κ × ν)}
    (hs : s ⊆ m) (hes : es ⊆ m) {d : κ × ν} :
    d ∈ es.foldl (fun m e => put e.1 e.2 m) s ↔ d ∈ s ∨ d ∈ es := by
  induction es generalizing s with
  | nil => simp
  | cons e es ih =>
    have he : e ∈ m := hes List.mem_cons_self
    have hput : put e.1 e.2 s ⊆ m := fun d hd =>
      ((mem_put_of_subset hm hs he).mp hd).elim (fun h => h ▸ he) fun h => hs h
    rw [List.foldl_cons, ih hput fun d hd => hes (List.mem_cons_of_mem _ hd),
      mem_put_of_subset hm hs he, List.mem_cons]
    tauto

/-- **A map is put together from its entries** in any order. -/
theorem foldl_put_eq (hm : IsAscending (m.map Prod.fst)) (h : ∀ e, e ∈ es ↔ e ∈ m) :
    es.foldl (fun m e => put e.1 e.2 m) [] = m := by
  apply eq_of_mem_iff_fst (isAscending_foldl_put (s := []) List.Pairwise.nil es) hm
  intro d
  rw [mem_foldl_put_of_subset hm (List.nil_subset m) fun e he => (h e).mp he, h d]
  simp

end Ascending

/-! ### Tables of weights -/

namespace Weights

variable {κ α : Type} [Signed κ]

/-- Sets the weights of several keys, from the first on. -/
def insertAll (w : Weights κ α) (es : List (κ × α)) : Weights κ α :=
  es.foldl (fun w e => w.insert e.1 e.2) w

theorem entries_insertAll (w : Weights κ α) (es : List (κ × α)) :
    (w.insertAll es).entries = es.foldl (fun m e => Ascending.put e.1 e.2 m) w.entries := by
  induction es generalizing w with
  | nil => rfl
  | cons e es ih => exact ih (w.insert e.1 e.2)

theorem insertAll_append (w : Weights κ α) (es es' : List (κ × α)) :
    w.insertAll (es ++ es') = (w.insertAll es).insertAll es' := List.foldl_append

/-- A table is put together from its entries in any order. -/
theorem insertAll_eq [Std.TransOrd κ] {w : Weights κ α}
    (hw : Ascending.IsAscending (w.entries.map Prod.fst)) {es : List (κ × α)}
    (h : ∀ e, e ∈ es ↔ e ∈ w.entries) : empty.insertAll es = w := by
  have hentries : (empty.insertAll es).entries = w.entries := by
    rw [entries_insertAll]
    exact Ascending.foldl_put_eq hw h
  exact congrArg Weights.mk hentries

end Weights
end ProbLogic
