/-
# Sets and maps as ascending lists

A finite set is the list of its elements in ascending order, a finite map the
list of its entries in ascending order of keys. Two sets with the same
elements are then the same list, and printing in order is printing the list.

Elements that compare equal need not be equal: a literal is compared by its
text alone. Inserting keeps the element that is already there.

Key definitions:
* `insert`, `union`, `ofList`, `remove` : sets.
* `get?`, `put`, `adjust` : maps.
* `IsAscending` : what the lists are kept to.

Key theorems:
* `mem_insert`, `mem_union`, `mem_remove` : the elements, where equal in the
  order is equal.
* `eq_of_mem_iff` : a set is determined by its elements.
* `get?_put` : the value under a key after setting one.
-/
namespace ProbLogic
namespace Ascending

variable {α κ ν : Type} [Ord α] [Ord κ]

/-- Adds an element at its place; one that compares equal stays instead. -/
def insert (x : α) : List α → List α
  | [] => [x]
  | y :: ys =>
    match compare x y with
    | .lt => x :: y :: ys
    | .eq => y :: ys
    | .gt => y :: insert x ys

/-- Adds the elements of a list, from the first on. -/
def union (s : List α) (xs : List α) : List α := xs.foldl (fun s x => insert x s) s

/-- The set of a list's elements; the first of those that compare equal stays. -/
def ofList (xs : List α) : List α := union [] xs

/-- The set of a list's elements; the last of those that compare equal stays. -/
def ofListLast (xs : List α) : List α := xs.foldr insert []

/-- Whether some element compares equal. -/
def has (x : α) (s : List α) : Bool := s.any fun y => compare x y == .eq

/-- The set without the elements that compare equal. -/
def remove (x : α) (s : List α) : List α := s.filter fun y => compare x y != .eq

/-- The value under a key. -/
def get? (k : κ) : List (κ × ν) → Option ν
  | [] => none
  | e :: es => if compare k e.1 == .eq then some e.2 else get? k es

/-- Sets the value under a key; a key that compares equal stays. -/
def put (k : κ) (v : ν) : List (κ × ν) → List (κ × ν)
  | [] => [(k, v)]
  | e :: es =>
    match compare k e.1 with
    | .lt => (k, v) :: e :: es
    | .eq => (e.1, v) :: es
    | .gt => e :: put k v es

/-- Changes the value under a key, which is `d` if there is none. -/
def adjust (k : κ) (d : ν) (f : ν → ν) (m : List (κ × ν)) : List (κ × ν) :=
  put k (f ((get? k m).getD d)) m

/-- Each element comes before all later ones. -/
def IsAscending (s : List α) : Prop := s.Pairwise fun x y => compare x y = .lt

/-! ### Sets -/

theorem eq_or_mem_of_mem_insert {x y : α} {s : List α} (h : y ∈ insert x s) : y = x ∨ y ∈ s := by
  induction s with
  | nil => simpa [insert] using h
  | cons z zs ih =>
    unfold insert at h
    split at h
    · simpa using h
    · exact Or.inr h
    · rcases List.mem_cons.mp h with rfl | h
      · simp
      · rcases ih h with rfl | h
        · simp
        · simp [h]

theorem isAscending_insert [Std.TransOrd α] {x : α} {s : List α} (h : IsAscending s) :
    IsAscending (insert x s) := by
  induction s with
  | nil => simp [insert, IsAscending]
  | cons y ys ih =>
    have hy := List.pairwise_cons.mp h
    unfold insert
    split
    · next hxy =>
      refine List.pairwise_cons.mpr ⟨fun z hz => ?_, h⟩
      rcases List.mem_cons.mp hz with rfl | hz
      · exact hxy
      · exact Std.TransCmp.lt_trans hxy (hy.1 z hz)
    · exact h
    · next hxy =>
      refine List.pairwise_cons.mpr ⟨fun z hz => ?_, ih hy.2⟩
      rcases eq_or_mem_of_mem_insert hz with rfl | hz
      · exact Std.OrientedCmp.lt_of_gt hxy
      · exact hy.1 z hz

theorem isAscending_union [Std.TransOrd α] {s xs : List α} (h : IsAscending s) :
    IsAscending (union s xs) := by
  induction xs generalizing s with
  | nil => exact h
  | cons x xs ih => exact ih (isAscending_insert h)

theorem isAscending_ofList [Std.TransOrd α] (xs : List α) : IsAscending (ofList xs) :=
  isAscending_union List.Pairwise.nil

theorem isAscending_remove {x : α} {s : List α} (h : IsAscending s) : IsAscending (remove x s) :=
  h.filter _

/-- A set is determined by its elements. -/
theorem eq_of_mem_iff [Std.TransOrd α] : ∀ {s t : List α}, IsAscending s → IsAscending t →
    (∀ x, x ∈ s ↔ x ∈ t) → s = t
  | [], t, _, _, h =>
    (List.eq_nil_iff_forall_not_mem.mpr fun x hx => by simpa using (h x).mpr hx).symm
  | x :: xs, [], _, _, h => by simpa using h x
  | x :: xs, y :: ys, hs, ht, h => by
    have hx := List.pairwise_cons.mp hs
    have hy := List.pairwise_cons.mp ht
    have irrefl : ∀ z : α, compare z z ≠ .lt := fun z hz => by simp [Std.ReflCmp.compare_self] at hz
    have asymm : ∀ {z w : α}, compare z w = .lt → compare w z ≠ .lt := fun hz hw =>
      irrefl _ (Std.TransCmp.lt_trans hz hw)
    have hxy : x = y := by
      rcases List.mem_cons.mp ((h x).mp List.mem_cons_self) with hm | hm
      · exact hm
      · rcases List.mem_cons.mp ((h y).mpr List.mem_cons_self) with hn | hn
        · exact hn.symm
        · exact absurd (hx.1 y hn) (asymm (hy.1 x hm))
    subst hxy
    refine congrArg _ (eq_of_mem_iff hx.2 hy.2 fun z => ?_)
    have hz := h z
    simp only [List.mem_cons] at hz
    constructor
    · intro hm
      rcases hz.mp (Or.inr hm) with rfl | hm'
      · exact absurd (hx.1 z hm) (irrefl z)
      · exact hm'
    · intro hm
      rcases hz.mpr (Or.inr hm) with rfl | hm'
      · exact absurd (hy.1 z hm) (irrefl z)
      · exact hm'

section Lawful

variable [Std.LawfulEqOrd α]

theorem mem_insert {x y : α} {s : List α} : y ∈ insert x s ↔ y = x ∨ y ∈ s := by
  induction s with
  | nil => simp [insert]
  | cons z zs ih =>
    unfold insert
    split
    · simp
    · next h => simp [Std.LawfulEqCmp.eq_of_compare h]
    · simp only [List.mem_cons, ih]
      exact or_left_comm

theorem mem_union {y : α} {s xs : List α} : y ∈ union s xs ↔ y ∈ s ∨ y ∈ xs := by
  induction xs generalizing s with
  | nil => simp [union]
  | cons x xs ih =>
    have h := ih (s := insert x s)
    simp only [union, List.foldl_cons, List.mem_cons] at h ⊢
    rw [h, mem_insert, or_assoc]
    exact or_left_comm

theorem mem_ofList {y : α} {xs : List α} : y ∈ ofList xs ↔ y ∈ xs := by
  simp [ofList, mem_union]

theorem mem_remove {x y : α} {s : List α} : y ∈ remove x s ↔ y ∈ s ∧ y ≠ x := by
  simp only [remove, List.mem_filter, bne_iff_ne, ne_eq, Std.LawfulEqCmp.compare_eq_iff_eq]
  exact and_congr_right fun _ => not_congr eq_comm

end Lawful

/-! ### Maps -/

theorem get?_put [Std.TransOrd κ] (j k : κ) (v : ν) (m : List (κ × ν)) :
    get? j (put k v m) = if compare j k == .eq then some v else get? j m := by
  induction m with
  | nil => simp [put, get?]
  | cons e es ih =>
    unfold put
    split
    · simp [get?]
    · next h =>
      have hj : compare j k = compare j e.1 := Std.TransCmp.congr_right h
      by_cases hk : compare j e.1 = .eq
      · simp [get?, hj, hk]
      · simp [get?, hj, hk]
    · next h =>
      by_cases he : compare j e.1 = .eq
      · have hk : compare j k ≠ .eq := fun hk => by
          have := Std.TransCmp.eq_trans (Std.OrientedCmp.eq_symm hk) he
          rw [this] at h
          exact absurd h (by decide)
        simp [get?, he, hk]
      · simp [get?, he, ih]

theorem get?_congr [Std.TransOrd κ] {j k : κ} (h : compare j k = .eq) (m : List (κ × ν)) :
    get? j m = get? k m := by
  induction m with
  | nil => rfl
  | cons e es ih =>
    have he : compare j e.1 = compare k e.1 := Std.TransCmp.congr_left h
    simp [get?, he, ih]

end Ascending
end ProbLogic
