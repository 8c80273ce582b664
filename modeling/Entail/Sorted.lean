set_option autoImplicit false

/-! # Lists in ascending order

Sets and tables of this library are lists in ascending order of a comparison `cmp`. A set is
searched and changed by walking it up to the place where an element belongs, so `.eq` answers of
`cmp` decide membership: two elements that compare equal are one element of the set, and the
functions here say which of the two is kept. -/

namespace Entail.Sorted

variable {α : Type} (cmp : α → α → Ordering)

/-- Whether some element compares equal to `x`. -/
def contains (x : α) : List α → Bool
  | [] => false
  | y :: ys => (cmp x y).isEq || contains x ys

/-- Add `x`; an equal element that is already there stays. -/
def insert (x : α) : List α → List α
  | [] => [x]
  | y :: ys =>
    match cmp x y with
    | .lt => x :: y :: ys
    | .eq => y :: ys
    | .gt => y :: insert x ys

/-- Add `x`; it takes the place of an equal element. -/
def put (x : α) : List α → List α
  | [] => [x]
  | y :: ys =>
    match cmp x y with
    | .lt => x :: y :: ys
    | .eq => x :: ys
    | .gt => y :: put x ys

/-- Remove the elements that compare equal to `x`. -/
def erase (x : α) (ys : List α) : List α :=
  ys.filter fun y => !(cmp x y).isEq

/-- The set of the elements of a list; of equal elements the first is kept. -/
def ofList (xs : List α) : List α :=
  xs.foldl (fun set x => insert cmp x set) []

/-- The set of the elements of a list; of equal elements the last is kept. -/
def ofListLast (xs : List α) : List α :=
  xs.foldl (fun set x => put cmp x set) []

/-- Add every element of `xs`; what is already there stays. -/
def union (set xs : List α) : List α :=
  xs.foldl (fun set x => insert cmp x set) set

/-- Compare two lists element by element; a proper initial part comes first. -/
def compareLists : List α → List α → Ordering
  | [], [] => .eq
  | [], _ :: _ => .lt
  | _ :: _, [] => .gt
  | x :: xs, y :: ys => (cmp x y).then (compareLists xs ys)

/-- Drop every element that compares equal to an earlier one. The order is otherwise kept. -/
def dedup (xs : List α) : List α :=
  (xs.foldl (fun kept x => if contains cmp x kept then kept else x :: kept) []).reverse

theorem contains_iff (x : α) (ys : List α) :
    contains cmp x ys = true ↔ ∃ y ∈ ys, (cmp x y).isEq = true := by
  induction ys with
  | nil => simp [contains]
  | cons y ys ih => simp [contains, ih]

theorem mem_insert {x z : α} {ys : List α} (h : z ∈ insert cmp x ys) : z = x ∨ z ∈ ys := by
  induction ys with
  | nil => simpa [insert] using h
  | cons y ys ih =>
    simp only [insert] at h
    split at h
    · simpa using h
    · exact Or.inr h
    · rcases List.mem_cons.mp h with rfl | h
      · exact Or.inr (by simp)
      · rcases ih h with rfl | h
        · exact Or.inl rfl
        · exact Or.inr (List.mem_cons_of_mem _ h)

theorem mem_put {x z : α} {ys : List α} (h : z ∈ put cmp x ys) : z = x ∨ z ∈ ys := by
  induction ys with
  | nil => simpa [put] using h
  | cons y ys ih =>
    simp only [put] at h
    split at h
    · simpa using h
    · rcases List.mem_cons.mp h with rfl | h
      · exact Or.inl rfl
      · exact Or.inr (List.mem_cons_of_mem _ h)
    · rcases List.mem_cons.mp h with rfl | h
      · exact Or.inr (by simp)
      · rcases ih h with rfl | h
        · exact Or.inl rfl
        · exact Or.inr (List.mem_cons_of_mem _ h)

end Entail.Sorted
