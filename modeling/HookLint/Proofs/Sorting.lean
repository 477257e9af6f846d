/-
Stable sorting.

Members that are level in an order keep the places they have among themselves
(`filter_mergeSort`).  There is only one list in order that keeps these places
(`eq_of_pairwise_of_filter_eq`), so to say that a list is in order and that level members
stand as they stood is to say what the list is.
-/
import Mathlib.Data.List.Basic

namespace HookLint.Sorting

variable {α : Type} {le : α → α → Bool}

/-- Sorting leaves members that are all level where they are. -/
theorem filter_mergeSort (htrans : ∀ a b c, le a b = true → le b c = true → le a c = true)
    (htotal : ∀ a b, (le a b || le b a) = true) {p : α → Bool}
    (hlevel : ∀ a b, p a = true → p b = true → le a b = true) (l : List α) :
    (l.mergeSort le).filter p = l.filter p := by
  have hordered : (l.filter p).Pairwise fun a b => le a b = true :=
    List.pairwise_of_forall_mem_list fun a ha b hb =>
      hlevel a b (List.mem_filter.mp ha).2 (List.mem_filter.mp hb).2
  have hsub := (List.sublist_mergeSort htrans htotal hordered List.filter_sublist).filter p
  rw [List.filter_filter] at hsub
  simp only [Bool.and_self] at hsub
  exact (hsub.eq_of_length ((List.mergeSort_perm l le).filter p).length_eq.symm).symm

/-- Neither member comes before the other. -/
def level (le : α → α → Bool) (a b : α) : Bool := le a b && le b a

/-- The first of a list in order does not come after the first of a list with the same
members. -/
theorem le_head_of_filter_eq (hrefl : ∀ a, le a a = true) {x y : α} {xs ys : List α}
    (hys : (y :: ys).Pairwise fun a b => le a b = true)
    (h : (x :: xs).filter (level le x) = (y :: ys).filter (level le x)) : le y x = true := by
  have hself : level le x x = true := by simp [level, hrefl]
  have hmem : x ∈ (y :: ys).filter (level le x) := by
    rw [← h, List.filter_cons_of_pos hself]
    exact List.mem_cons_self
  rcases List.mem_cons.mp (List.mem_filter.mp hmem).1 with rfl | hx
  · exact hrefl x
  · exact (List.pairwise_cons.mp hys).1 x hx

/-- Lists in order that have the same members of every level, in the same order, are equal. -/
theorem eq_of_pairwise_of_filter_eq (hrefl : ∀ a, le a a = true) {xs ys : List α}
    (hxs : xs.Pairwise fun a b => le a b = true) (hys : ys.Pairwise fun a b => le a b = true)
    (h : ∀ a, xs.filter (level le a) = ys.filter (level le a)) : xs = ys := by
  have hself : ∀ a, level le a a = true := fun a => by simp [level, hrefl]
  induction xs generalizing ys with
  | nil =>
      cases ys with
      | nil => rfl
      | cons y ys =>
          have hy := h y
          rw [List.filter_cons_of_pos (hself y)] at hy
          contradiction
  | cons x xs ih =>
      cases ys with
      | nil =>
          have hx := h x
          rw [List.filter_cons_of_pos (hself x)] at hx
          contradiction
      | cons y ys =>
          -- Each head comes before the other, so both head the members of one level.
          have hxy : level le x y = true := by
            rw [level, Bool.and_eq_true]
            exact ⟨le_head_of_filter_eq hrefl hxs (h y).symm,
              le_head_of_filter_eq hrefl hys (h x)⟩
          have hheads := h x
          rw [List.filter_cons_of_pos (hself x), List.filter_cons_of_pos hxy] at hheads
          injection hheads with hhead
          subst hhead
          rw [ih (List.pairwise_cons.mp hxs).2 (List.pairwise_cons.mp hys).2 fun a => ?_]
          have ha := h a
          by_cases hax : level le a x = true
          · rw [List.filter_cons_of_pos hax, List.filter_cons_of_pos hax] at ha
            injection ha
          · rwa [List.filter_cons_of_neg hax, List.filter_cons_of_neg hax] at ha

end HookLint.Sorting
