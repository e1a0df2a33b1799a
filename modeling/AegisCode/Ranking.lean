import AegisCode.Text
import Mathlib.Data.List.Sort

/-!
# Windows of a ranking

A ranking is a stable sort, and a window is what stands at its front. Leaving
items out before the ranking or after it comes to the same, but not leaving them
out before the window is cut or after it.
-/
namespace AegisCode.Ranking

variable {α : Type}

section Sorting
variable (r : α → α → Prop) [DecidableRel r]

theorem orderedInsert_front {x : α} {l : List α} (h : ∀ y ∈ l, r x y) :
    l.orderedInsert r x = x :: l := by
  cases l with
  | nil => rfl
  | cons y l => exact List.orderedInsert_cons_of_le r l (h y List.mem_cons_self)

theorem filter_orderedInsert [IsTrans α r] {p : α → Bool} {x : α} {l : List α}
    (hl : l.Pairwise r) : (l.orderedInsert r x).filter p =
      if p x then (l.filter p).orderedInsert r x else l.filter p := by
  induction l with
  | nil => by_cases hx : p x <;> simp [hx]
  | cons y l ih =>
    have hyl : ∀ z ∈ l, r y z := fun z hz => List.rel_of_pairwise_cons hl hz
    by_cases hxy : r x y
    · rw [List.orderedInsert_cons_of_le r l hxy]
      have hfront : ∀ z ∈ (y :: l).filter p, r x z := by
        intro z hz
        obtain rfl | hz := List.mem_cons.mp (List.mem_of_mem_filter hz)
        · exact hxy
        · exact IsTrans.trans _ _ _ hxy (hyl z hz)
      rw [orderedInsert_front r hfront, List.filter_cons]
    · rw [List.orderedInsert_of_not_le r l hxy, List.filter_cons, ih hl.of_cons, List.filter_cons]
      by_cases hx : p x <;> by_cases hy : p y <;> simp [hx, hy, hxy]

/-- Leaving items out before the sorting is leaving them out behind it. -/
theorem filter_insertionSort [IsTrans α r] [Std.Total r] (p : α → Bool) (l : List α) :
    (l.insertionSort r).filter p = (l.filter p).insertionSort r := by
  induction l with
  | nil => rfl
  | cons x l ih =>
    rw [List.insertionSort_cons, filter_orderedInsert r (List.pairwise_insertionSort r l), ih,
      List.filter_cons]
    by_cases hx : p x <;> simp [hx]

end Sorting

/-- What a predicate keeps of a window is a window of what it keeps. -/
theorem filter_take (p : α → Bool) (k : ℕ) (l : List α) :
    (l.take k).filter p = (l.filter p).take ((l.take k).countP p) := by
  have hsplit : l.filter p = (l.take k).filter p ++ (l.drop k).filter p := by
    rw [← List.filter_append, List.take_append_drop]
  rw [hsplit, List.countP_eq_length_filter, List.take_left]

end AegisCode.Ranking
