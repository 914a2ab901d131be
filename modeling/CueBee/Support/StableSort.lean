import Mathlib.Data.List.Sort
import CueBee.Support.FirstGreatest

/-! # Insertion sort keeps the places of equal elements

`List.insertionSort` with a relation `r` sorts by every strict order that refines `r` and ranks
elements that `r` does not tell apart by their places in the list.
-/
namespace CueBee
variable {α : Type*} {r R : α → α → Prop} [DecidableRel r] {x : α} {xs : List α}

/-- `R` ranks `x`, whose place is before that of `y`, as `r` does. -/
def RefinesAt (r R : α → α → Prop) (x y : α) : Prop := (r x y → R x y) ∧ (¬r x y → R y x)

theorem pairwise_orderedInsert (htrans : ∀ a b c, R a b → R b c → R a c)
    (hx : ∀ y ∈ xs, RefinesAt r R x y) (hxs : xs.Pairwise R) :
    (xs.orderedInsert r x).Pairwise R := by
  induction xs with
  | nil => exact List.pairwise_singleton R x
  | cons y rest ih =>
    obtain ⟨hy,hrest⟩ := List.pairwise_cons.mp hxs
    obtain ⟨hbefore,hafter⟩ := hx y List.mem_cons_self
    by_cases hr : r x y
    · rw [List.orderedInsert_cons_of_le r rest hr]
      refine List.pairwise_cons.mpr ⟨fun z hz => ?_,hxs⟩
      rcases List.mem_cons.mp hz with rfl | hz
      · exact hbefore hr
      · exact htrans x y z (hbefore hr) (hy z hz)
    · rw [List.orderedInsert_of_not_le r rest hr]
      refine List.pairwise_cons.mpr ⟨fun z hz => ?_,?_⟩
      · rcases (List.mem_orderedInsert r).mp hz with rfl | hz
        · exact hafter hr
        · exact hy z hz
      · exact ih (fun z hz => hx z (List.mem_cons_of_mem y hz)) hrest

/-- The sorted list is in the refined order. -/
theorem pairwise_insertionSort (htrans : ∀ a b c, R a b → R b c → R a c)
    (hxs : xs.Pairwise (RefinesAt r R)) : (xs.insertionSort r).Pairwise R := by
  induction xs with
  | nil => exact .nil
  | cons x rest ih =>
    obtain ⟨hx,hrest⟩ := List.pairwise_cons.mp hxs
    rw [List.insertionSort_cons]
    exact pairwise_orderedInsert htrans (fun y hy => hx y ((List.mem_insertionSort r).mp hy))
      (ih hrest)

/-- Sorting by descending keys puts the first greatest element first and sorts the rest. -/
theorem FirstGreatest.insertionSort {κ : Type*} [LinearOrder κ] [DecidableEq α] {key : α → κ}
    (h : FirstGreatest key xs x) : xs.insertionSort (fun a b => key b ≤ key a) =
      x :: (xs.erase x).insertionSort (fun a b => key b ≤ key a) := by
  obtain ⟨pre,post,rfl,hpre,hpost⟩ := h
  induction pre with
  | nil =>
    rw [List.nil_append,List.erase_cons_head,List.insertionSort_cons]
    cases hsort : post.insertionSort (fun a b => key b ≤ key a) with
    | nil => rfl
    | cons z rest =>
      have hz : z ∈ post := (List.mem_insertionSort _).mp (hsort ▸ List.mem_cons_self)
      exact List.orderedInsert_cons_of_le _ rest (hpost z hz)
  | cons y pre ih =>
    have hlt := hpre y List.mem_cons_self
    have hne : y ≠ x := fun he => hlt.ne (congrArg key he)
    rw [List.cons_append,List.erase_cons_tail (by simpa using hne),List.insertionSort_cons,
      ih (fun z hz => hpre z (List.mem_cons_of_mem y hz)),
      List.orderedInsert_of_not_le (fun a b => key b ≤ key a) _ (not_le.mpr hlt),List.insertionSort_cons]

end CueBee
