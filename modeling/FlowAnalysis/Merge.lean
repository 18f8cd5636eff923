/-! # Merging facts

Facts are merged from left to right, beginning with the first of them. Only
when there are none does the initial fact come in.
-/
namespace FlowAnalysis
variable {F G : Type}

def mergeAll (merge : F → F → F) (initial : F) : List F → F
  | [] => initial
  | x :: xs => xs.foldl merge x

/-- A map that turns one merge into another turns merged facts into the merge of what they become. -/
theorem map_mergeAll {f : F → G} {merge : F → F → F} {merge' : G → G → G}
    (h : ∀ x y, f (merge x y) = merge' (f x) (f y)) (initial : F) (xs : List F) :
    f (mergeAll merge initial xs) = mergeAll merge' (f initial) (xs.map f) := by
  cases xs with
  | nil => rfl
  | cons x xs => exact (List.foldl_map_hom fun x y => (h x y).symm).symm

/-- The arguments of the merges that follow, one after the other, once acc has been reached. -/
def mergeCallsFrom (merge : F → F → F) (acc : F) : List F → List (F × F)
  | [] => []
  | x :: xs => (acc, x) :: mergeCallsFrom merge (merge acc x) xs

/-- The arguments of each merge that folding the facts takes, in order. -/
def mergeCalls (merge : F → F → F) : List F → List (F × F)
  | [] => []
  | x :: xs => mergeCallsFrom merge x xs

/-- Every fact but the first is merged once. -/
theorem length_mergeCalls (merge : F → F → F) (xs : List F) :
    (mergeCalls merge xs).length = xs.length - 1 := by
  cases xs with
  | nil => rfl
  | cons x xs =>
    simp only [mergeCalls, List.length_cons, Nat.add_sub_cancel]
    induction xs generalizing x with
    | nil => rfl
    | cons y ys ih => simp [mergeCallsFrom, ih]

end FlowAnalysis
