/-
The lines of a text.

A text is cut at its line feeds, and `place` says at which offset each line starts.
The line a piece of the text lies on is then found by comparing offsets, and
`lineOf?_place` says which one that is: a piece without a line feed lies on the line
whose number is the count of the line feeds before it, and a piece with one lies on
no line.
-/
import HookLint.Dependency.ArrayText
import HookLint.Proofs.Slices

namespace HookLint.Text

variable {α : Type} [DecidableEq α] {sep : α}

/-! ### Cutting at a separator -/

@[simp] theorem cutAt_nil : cutAt sep [] = [[]] := rfl

@[simp] theorem cutAt_cons_self (xs : List α) : cutAt sep (sep :: xs) = [] :: cutAt sep xs := by
  rw [cutAt, if_pos rfl]

theorem cutAt_cons_of_ne {x : α} (h : x ≠ sep) {xs : List α} {piece : List α}
    {rest : List (List α)} (hxs : cutAt sep xs = piece :: rest) :
    cutAt sep (x :: xs) = (x :: piece) :: rest := by
  rw [cutAt, if_neg h, hxs]

theorem cutAt_of_notMem {xs : List α} (h : sep ∉ xs) : cutAt sep xs = [xs] := by
  induction xs with
  | nil => rfl
  | cons x xs ih =>
      rw [List.mem_cons, not_or] at h
      exact cutAt_cons_of_ne (fun hx => h.1 hx.symm) (ih h.2)

/-- Cutting at one occurrence of the separator and then the two sides. -/
theorem cutAt_append_cons (xs ys : List α) :
    cutAt sep (xs ++ sep :: ys) = cutAt sep xs ++ cutAt sep ys := by
  induction xs with
  | nil => simp
  | cons x xs ih =>
      by_cases hx : x = sep
      · subst hx
        simp [ih]
      · obtain ⟨piece, rest, hp⟩ := List.exists_cons_of_ne_nil (cutAt_ne_nil sep xs)
        rw [cutAt_cons_of_ne hx hp, List.cons_append, List.cons_append]
        exact cutAt_cons_of_ne hx (by rw [ih, hp, List.cons_append])

/-- A list with no separator is added to the first piece. -/
theorem cutAt_notMem_append {xs ys : List α} (h : sep ∉ xs) {piece : List α}
    {rest : List (List α)} (hys : cutAt sep ys = piece :: rest) :
    cutAt sep (xs ++ ys) = (xs ++ piece) :: rest := by
  induction xs with
  | nil => exact hys
  | cons x xs ih =>
      rw [List.mem_cons, not_or] at h
      exact cutAt_cons_of_ne (fun hx => h.1 hx.symm) (ih h.2)

/-- A list with no separator is added to the last piece. -/
theorem cutAt_append_of_notMem (xs : List α) {ys : List α} (h : sep ∉ ys) :
    cutAt sep (xs ++ ys) = (cutAt sep xs).dropLast ++ [(cutAt sep xs).getLastD [] ++ ys] := by
  induction xs with
  | nil => simp [cutAt_of_notMem h]
  | cons x xs ih =>
      obtain ⟨piece, rest, hp⟩ := List.exists_cons_of_ne_nil (cutAt_ne_nil sep xs)
      by_cases hx : x = sep
      · subst hx
        rw [List.cons_append, cutAt_cons_self, ih, cutAt_cons_self, hp]
        simp
      · rw [cutAt_cons_of_ne hx hp, List.cons_append]
        rw [hp] at ih
        cases rest with
        | nil => simpa using cutAt_cons_of_ne hx ih
        | cons next rest => simpa using cutAt_cons_of_ne hx ih

/-- The first piece, when there is another. -/
theorem cutAt_of_mem {xs : List α} (h : sep ∈ xs) :
    ∃ piece rest, sep ∉ piece ∧ xs = piece ++ sep :: rest ∧
      cutAt sep xs = piece :: cutAt sep rest := by
  obtain ⟨piece, rest, rfl, hpiece⟩ := List.eq_append_cons_of_mem h
  exact ⟨piece, rest, hpiece, rfl, by rw [cutAt_append_cons, cutAt_of_notMem hpiece]; rfl⟩

theorem notMem_of_mem_cutAt {xs piece : List α} (h : piece ∈ cutAt sep xs) : sep ∉ piece := by
  induction xs generalizing piece with
  | nil => simp_all
  | cons x xs ih =>
      by_cases hx : x = sep
      · subst hx
        rw [cutAt_cons_self, List.mem_cons] at h
        rcases h with rfl | h
        · exact List.not_mem_nil
        · exact ih h
      · obtain ⟨first, rest, hp⟩ := List.exists_cons_of_ne_nil (cutAt_ne_nil sep xs)
        rw [cutAt_cons_of_ne hx hp, List.mem_cons] at h
        rw [hp] at ih
        rcases h with rfl | h
        · rw [List.mem_cons, not_or]
          exact ⟨fun hs => hx hs.symm, ih List.mem_cons_self⟩
        · exact ih (List.mem_cons_of_mem _ h)

theorem mem_of_mem_cutAt {xs piece : List α} (h : piece ∈ cutAt sep xs) {x : α} (hx : x ∈ piece) :
    x ∈ xs := by
  induction xs generalizing piece with
  | nil => simp_all
  | cons y ys ih =>
      by_cases hy : y = sep
      · subst hy
        rw [cutAt_cons_self, List.mem_cons] at h
        rcases h with rfl | h
        · contradiction
        · exact List.mem_cons_of_mem _ (ih h hx)
      · obtain ⟨first, rest, hp⟩ := List.exists_cons_of_ne_nil (cutAt_ne_nil sep ys)
        rw [cutAt_cons_of_ne hy hp, List.mem_cons] at h
        rw [hp] at ih
        rcases h with rfl | h
        · rcases List.mem_cons.mp hx with rfl | hx
          · exact List.mem_cons_self
          · exact List.mem_cons_of_mem _ (ih List.mem_cons_self hx)
        · exact List.mem_cons_of_mem _ (ih (List.mem_cons_of_mem _ h) hx)

theorem length_cutAt (xs : List α) : (cutAt sep xs).length = xs.count sep + 1 := by
  induction xs with
  | nil => rfl
  | cons x xs ih =>
      by_cases hx : x = sep
      · subst hx
        rw [cutAt_cons_self, List.length_cons, ih, List.count_cons_self]
      · obtain ⟨piece, rest, hp⟩ := List.exists_cons_of_ne_nil (cutAt_ne_nil sep xs)
        rw [cutAt_cons_of_ne hx hp, List.count_cons_of_ne hx, ← ih, hp]
        rfl

/-! ### Joining with a separator -/

theorem mem_join {sep : String} {parts : List String} {c : Char} (h : c ∈ (join sep parts).toList) :
    c ∈ sep.toList ∨ ∃ part ∈ parts, c ∈ part.toList := by
  induction parts with
  | nil => contradiction
  | cons part parts ih =>
      cases parts with
      | nil => exact Or.inr ⟨part, List.mem_cons_self, h⟩
      | cons next parts =>
          rw [join, String.toList_append, String.toList_append, List.mem_append,
            List.mem_append] at h
          · rcases h with (h | h) | h
            · exact Or.inr ⟨part, List.mem_cons_self, h⟩
            · exact Or.inl h
            · rcases ih h with h | ⟨part', hpart', h⟩
              · exact Or.inl h
              · exact Or.inr ⟨part', List.mem_cons_of_mem _ hpart', h⟩
          · simp

end HookLint.Text

namespace HookLint.Dependency.ArrayText

open HookLint.Text

/-! ### Placing lines -/

theorem lineOf?_place_cons (r : ByteRange) (l : String) (ls : List String) (offset : Nat) :
    lineOf? (place offset (l :: ls)) r =
      if offset ≤ r.start ∧ r.stop ≤ offset + byteLength l then some 0
      else (lineOf? (place (offset + byteLength l + 1) ls) r).map (· + 1) := by
  unfold lineOf?
  rw [place, List.findIdx?_cons]
  refine if_congr ?_ rfl rfl
  rw [Bool.and_eq_true, decide_eq_true_iff, decide_eq_true_iff]
  rfl

/-- Lines that start after a piece do not hold it. -/
theorem lineOf?_place_of_lt {r : ByteRange} (ls : List String) {offset : Nat}
    (h : r.start < offset) : lineOf? (place offset ls) r = none := by
  induction ls generalizing offset with
  | nil => rfl
  | cons l ls ih =>
      rw [lineOf?_place_cons, if_neg (by omega), ih (by omega)]
      rfl

/-- The line a piece of a text lies on. -/
theorem lineOf?_place (before : List Char) {piece : List Char} (after : List Char)
    (hpiece : piece ≠ []) (offset : Nat) :
    lineOf? (place offset ((cutAt '\n' (before ++ (piece ++ after))).map String.ofList))
        ⟨offset + bytes before, offset + bytes before + bytes piece⟩ =
      if '\n' ∈ piece then none else some (before.count '\n') := by
  have hpos : 0 < bytes piece := bytes_pos hpiece
  induction before generalizing offset with
  | nil =>
      by_cases hmem : '\n' ∈ piece
      · obtain ⟨first, rest, hfirst, rfl, -⟩ := cutAt_of_mem hmem
        rw [if_pos hmem, List.nil_append, List.append_assoc, List.cons_append,
          cutAt_notMem_append hfirst (cutAt_cons_self _), List.append_nil, List.map_cons,
          lineOf?_place_cons, if_neg, lineOf?_place_of_lt]
        · rfl
        · show offset + 0 < _
          omega
        · have : ('\n' : Char).utf8Size = 1 := rfl
          simp; omega
      · obtain ⟨first, rest, hafter⟩ := List.exists_cons_of_ne_nil (cutAt_ne_nil '\n' after)
        rw [if_neg hmem, List.nil_append, cutAt_notMem_append hmem hafter, List.map_cons,
          lineOf?_place_cons, if_pos (by simp)]
        rfl
  | cons c before ih =>
      obtain ⟨first, rest, hcut⟩ :=
        List.exists_cons_of_ne_nil (cutAt_ne_nil '\n' (before ++ (piece ++ after)))
      by_cases hc : c = '\n'
      · subst hc
        have hnext := ih (offset + 1)
        have hsize : ('\n' : Char).utf8Size = 1 := rfl
        rw [List.cons_append, cutAt_cons_self, List.map_cons, lineOf?_place_cons,
          if_neg (by simp [hsize]; omega), List.count_cons_self, byteLength_ofList, bytes_nil,
          bytes_cons, hsize, ← Nat.add_assoc, Nat.add_zero, hnext]
        split <;> rfl
      · have hnext := ih (offset + c.utf8Size)
        rw [hcut, List.map_cons, lineOf?_place_cons] at hnext
        rw [List.cons_append, cutAt_cons_of_ne hc hcut, List.map_cons, lineOf?_place_cons,
          List.count_cons_of_ne hc, ← hnext]
        simp only [byteLength_ofList, bytes_cons, Nat.add_assoc]
        refine if_congr ⟨fun h => ⟨by omega, by omega⟩, fun h => ⟨by omega, by omega⟩⟩ rfl rfl

end HookLint.Dependency.ArrayText
