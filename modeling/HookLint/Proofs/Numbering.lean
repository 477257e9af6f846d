/-
Trees that are read are numbered.

Reading a tree gives every node its place in the pre-order list as its number, so
no number occurs twice.  Every statement about numbered trees therefore holds of
every tree the program is given.
-/
import HookLint.Command.Snapshot
import HookLint.Proofs.Sites

namespace HookLint.Syntax.Tree

theorem ids_attach (e : Entry) (finished : List Tree) :
    (e.attach finished).flatMap ids = e.label.id :: finished.flatMap ids := by
  unfold Entry.attach
  rw [List.flatMap_cons, ids_eq, List.cons_append, children, ← List.flatMap_append,
    List.take_append_drop]
  rfl

theorem ids_foldr_attach (entries : List Entry) :
    (entries.foldr Entry.attach []).flatMap ids = entries.map (·.label.id) := by
  induction entries with
  | nil => rfl
  | cons e es ih => rw [List.foldr_cons, ids_attach, ih, List.map_cons]

theorem ids_ofPreorder? {entries : List Entry} {t : Tree} (h : ofPreorder? entries = some t) :
    t.ids = entries.map (·.label.id) := by
  have hids := ids_foldr_attach entries
  unfold ofPreorder? at h
  split at h
  · rename_i u hu
    injection h with h
    rw [hu, h] at hids
    simpa using hids
  · contradiction

end HookLint.Syntax.Tree

namespace HookLint.Command.Snapshot

open HookLint.Syntax

theorem ids_entries? {id : Nat} {nodes : List Json} {entries : List Tree.Entry}
    (h : entries? id nodes = some entries) :
    entries.map (·.label.id) = List.range' id entries.length := by
  fun_induction entries? id nodes generalizing entries with
  | case1 =>
      injection h with h
      subst h
      rfl
  | case2 id label start stop count rest ih =>
      simp only [Option.bind_eq_bind, Option.bind_eq_some_iff, Option.pure_def,
        Option.some.injEq] at h
      obtain ⟨_, -, _, -, _, -, _, -, es, hes, rfl⟩ := h
      rw [List.map_cons, ih hes, List.length_cons, List.range'_succ]
      rfl
  | case3 => contradiction

/-- The nodes of a tree that is read are numbered by their place in the list. -/
theorem numbered_of_tree? {j : Json} {t : Tree} (h : tree? j = some t) : t.Numbered := by
  unfold tree? at h
  split at h
  · obtain ⟨entries, hentries, ht⟩ := Option.bind_eq_some_iff.mp h
    unfold Tree.Numbered
    rw [Tree.ids_ofPreorder? ht, ids_entries? hentries]
    exact List.nodup_range'
  · contradiction

end HookLint.Command.Snapshot
