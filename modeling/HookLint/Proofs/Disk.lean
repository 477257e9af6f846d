/-
Writing files.

A write puts one file at the place its path leads to and leaves every other place as it was
(`node?_put`).  The directories on the way there are still directories afterwards, so the
path leads to the same place and what is read there is what was written
(`Written.read`).  What could be read can be written (`exists_write`).
-/
import HookLint.Files.Disk
import Mathlib.Data.List.Basic

namespace HookLint.Files.Disk

variable {d d' : Disk} {place q : Place} {path text : String}

/-! ### One file put -/

theorem lookup_put (place : Place) (content : Content) (files : List (Place × Content))
    (q : Place) :
    (put place content files).lookup q = if q = place then some content else files.lookup q := by
  induction files with
  | nil =>
      by_cases hq : q = place
      · simp [put, hq]
      · simp [put, hq, List.lookup_cons, beq_false_of_ne hq]
  | cons entry rest ih =>
      obtain ⟨p, old⟩ := entry
      by_cases hp : p = place
      · rw [put, if_pos hp, List.lookup_cons, List.lookup_cons]
        by_cases hq : q = place
        · simp [hq, hp]
        · have hqp : (q == p) = false := beq_false_of_ne (hp ▸ hq)
          rw [hqp, if_neg hq]
      · rw [put, if_neg hp, List.lookup_cons, List.lookup_cons, ih]
        cases hqp : q == p with
        | false => rfl
        | true =>
            have hq : q = p := beq_iff_eq.mp hqp
            exact (if_neg (hq ▸ hp)).symm

/-- The places of the files are those there were and the new one. -/
theorem any_put (place : Place) (content : Content) (files : List (Place × Content))
    (P : Place → Bool) :
    (put place content files).any (fun entry => P entry.1) =
      (files.any (fun entry => P entry.1) || P place) := by
  induction files with
  | nil => simp [put]
  | cons entry rest ih =>
      obtain ⟨p, old⟩ := entry
      by_cases hp : p = place
      · rw [put, if_pos hp, hp, List.any_cons, List.any_cons]
        cases P place <;> simp
      · rw [put, if_neg hp, List.any_cons, List.any_cons, ih, Bool.or_assoc]

theorem node?_of_lookup {content : Content} (h : d.files.lookup q = some content) :
    d.node? q = some (.file content) := by
  rw [node?, h]

theorem node?_of_lookup_none (h : d.files.lookup q = none) :
    d.node? q = if q.isEmpty || d.files.any (fun entry => q.isPrefixOf entry.1) then
      some .directory else none := by
  rw [node?, h]

/-- A directory is the root or has a file in it or below it. -/
theorem holds_of_directory (h : d.node? q = some .directory) :
    (q.isEmpty || d.files.any fun entry => q.isPrefixOf entry.1) = true := by
  cases hlookup : d.files.lookup q with
  | some content =>
      rw [node?_of_lookup hlookup] at h
      simp at h
  | none =>
      rw [node?_of_lookup_none hlookup] at h
      by_contra hnot
      rw [if_neg hnot] at h
      contradiction

/-- What is above a place in a directory holds a file already, or is the root. -/
theorem holds_of_prefix (hparent : d.node? place.dropLast = some .directory)
    (hq : q <+: place) (hne : q ≠ place) :
    (q.isEmpty || d.files.any fun entry => q.isPrefixOf entry.1) = true := by
  have hup : q <+: place.dropLast := by
    obtain ⟨rest, rfl⟩ := hq
    have hrest : rest ≠ [] := fun h => hne (by rw [h, List.append_nil])
    rw [List.dropLast_append_of_ne_nil hrest]
    exact List.prefix_append _ _
  rcases Bool.or_eq_true_iff.mp (holds_of_directory hparent) with hempty | hany
  · rw [List.isEmpty_iff.mp hempty, List.prefix_nil] at hup
    rw [hup]
    rfl
  · obtain ⟨entry, hmem, hentry⟩ := List.any_eq_true.mp hany
    refine Bool.or_eq_true_iff.mpr (Or.inr (List.any_eq_true.mpr ⟨entry, hmem, ?_⟩))
    exact List.isPrefixOf_iff_prefix.mpr (hup.trans (List.isPrefixOf_iff_prefix.mp hentry))

/-- A file put into a directory changes what is at its place and nowhere else. -/
theorem node?_put (hparent : d.node? place.dropLast = some .directory) (content : Content)
    (q : Place) :
    ({ d with files := put place content d.files } : Disk).node? q =
      if q = place then some (.file content) else d.node? q := by
  have hlookup := lookup_put place content d.files q
  by_cases hq : q = place
  · rw [if_pos hq] at hlookup ⊢
    exact node?_of_lookup hlookup
  · rw [if_neg hq] at hlookup ⊢
    cases hold : d.files.lookup q with
    | some old => rw [node?_of_lookup hold, node?_of_lookup (hlookup.trans hold)]
    | none =>
        rw [node?_of_lookup_none hold, node?_of_lookup_none (hlookup.trans hold), any_put]
        -- A place above the new file was a directory before.
        cases hprefix : q.isPrefixOf place with
        | false => rw [Bool.or_false]
        | true =>
            have hholds :=
              holds_of_prefix hparent (List.isPrefixOf_iff_prefix.mp hprefix) hq
            rw [if_pos hholds, Bool.or_true, Bool.or_true, if_pos rfl]

/-! ### Where paths lead -/

/-- What succeeds has succeeded step by step. -/
theorem bind_eq_ok {ε α β : Type} {x : Except ε α} {f : α → Except ε β} {b : β}
    (h : x >>= f = .ok b) : ∃ a, x = .ok a ∧ f a = .ok b := by
  cases x with
  | error e => contradiction
  | ok a => exact ⟨a, rfl, h⟩

theorem follow_eq_ok {step : Component} (h : d.follow place step = .ok q) :
    d.node? place = some .directory := by
  unfold follow at h
  split at h
  · contradiction
  · contradiction
  · assumption

theorem follow_congr {step : Component} (h : d'.node? place = d.node? place) :
    d'.follow place step = d.follow place step := by
  unfold follow
  rw [h]

/-- A path leads to the same place as long as the directories on its way stay. -/
theorem foldlM_follow (hdir : ∀ p, d.node? p = some .directory → d'.node? p = some .directory)
    (steps : List Component) (start : Place) (h : steps.foldlM d.follow start = .ok place) :
    steps.foldlM d'.follow start = .ok place := by
  induction steps generalizing start with
  | nil => exact h
  | cons step steps ih =>
      rw [List.foldlM_cons] at h ⊢
      obtain ⟨next, hstep, hrest⟩ := bind_eq_ok h
      have hstart := follow_eq_ok hstep
      rw [follow_congr ((hdir start hstart).trans hstart.symm), hstep]
      exact ih next hrest

theorem resolve_eq_ok (hroot : d'.root = d.root)
    (hdir : ∀ p, d.node? p = some .directory → d'.node? p = some .directory)
    (h : d.resolve path = .ok place) : d'.resolve path = .ok place := by
  unfold resolve at h ⊢
  rw [hroot]
  exact foldlM_follow hdir _ _ h

/-- Every directory above a place is one. -/
def Below (d : Disk) (place : Place) : Prop :=
  ∀ q, q <+: place → q ≠ place → d.node? q = some .directory

theorem below_follow {step : Component} (hbelow : d.Below place) (h : d.follow place step = .ok q) :
    d.Below q := by
  have hplace := follow_eq_ok h
  have hprefix : ∀ {p}, p <+: place → d.node? p = some .directory := by
    intro p hp
    by_cases hne : p = place
    · exact hne ▸ hplace
    · exact hbelow p hp hne
  unfold follow at h
  rw [hplace] at h
  cases step with
  | normal name =>
      injection h with h
      subst h
      intro p hp hne
      rcases List.prefix_concat_iff.mp hp with heq | hp
      · exact absurd heq hne
      · exact hprefix hp
  | current =>
      injection h with h
      exact h ▸ hbelow
  | parent =>
      simp only at h
      split at h
      · contradiction
      · injection h with h
        subst h
        intro p hp _
        exact hprefix (hp.trans (List.dropLast_prefix _))
  | root => contradiction

theorem below_foldlM (steps : List Component) (start : Place) (hstart : d.Below start)
    (h : steps.foldlM d.follow start = .ok place) : d.Below place := by
  induction steps generalizing start with
  | nil =>
      injection h with h
      exact h ▸ hstart
  | cons step steps ih =>
      rw [List.foldlM_cons] at h
      obtain ⟨next, hstep, hrest⟩ := bind_eq_ok h
      exact ih next (below_follow hstart hstep) hrest

/-- A path leads through directories. -/
theorem below_resolve (h : d.resolve path = .ok place) : d.Below place := by
  refine below_foldlM _ [] (fun q hq hne => ?_) h
  exact absurd (List.prefix_nil.mp hq) hne

/-! ### Reading what was written -/

theorem locate_eq_ok {node : Node} (h : d.locate path = .ok (place, node)) :
    d.resolve path = .ok place ∧ d.node? place = some node ∧
      (node ≠ .directory → asksForDirectory path = false) := by
  obtain ⟨place', hresolve, h⟩ := bind_eq_ok h
  split at h
  · contradiction
  · rename_i found hnode
    split at h
    · contradiction
    · rename_i hasks
      injection h with h
      injection h with hplace hfound
      subst hplace
      subst hfound
      refine ⟨hresolve, hnode, fun hne => ?_⟩
      simpa [hne] using hasks

theorem locate_of_file {content : Content} (hresolve : d.resolve path = .ok place)
    (hnode : d.node? place = some (.file content)) (hasks : asksForDirectory path = false) :
    d.locate path = .ok (place, .file content) := by
  unfold locate
  rw [hresolve]
  simp only [bind, Except.bind, hnode, hasks]
  rfl

theorem locate_of_read (h : d.read path = .ok text) :
    ∃ place, d.locate path = .ok (place, .file (.text text)) := by
  obtain ⟨⟨place, node⟩, hlocate, h⟩ := bind_eq_ok h
  cases node with
  | directory => contradiction
  | file content =>
      cases content with
      | binary => contradiction
      | text s =>
          injection h with h
          exact ⟨place, h ▸ hlocate⟩

theorem read_of_locate (h : d.locate path = .ok (place, .file (.text text))) :
    d.read path = .ok text := by
  unfold read
  rw [h]
  rfl

/-- What a write has found, and what it has done. -/
structure Written (d : Disk) (path text : String) (place : Place) (d' : Disk) : Prop where
  resolved : d.resolve path = .ok place
  /-- The file is in a directory and is none itself. -/
  parent : d.node? place.dropLast = some .directory
  notDirectory : d.node? place ≠ some .directory
  namesFile : asksForDirectory path = false
  disk : d' = { d with files := put place (.text text) d.files }

theorem written_of_write (h : d.write path text = .ok d') :
    ∃ place, Written d path text place d' := by
  obtain ⟨place, hresolve, h⟩ := bind_eq_ok h
  refine ⟨place, ?_⟩
  split at h
  · contradiction
  · rename_i hparent hnot
    split at h
    · contradiction
    · rename_i hfile
      injection h with h
      exact ⟨hresolve, hparent, hnot, by simpa using hfile, h.symm⟩
  · contradiction
  · contradiction

/-- A file that can be read can be written, unless it takes the place of the root. -/
theorem exists_write {old : String} (hroot : d.node? [] = some .directory)
    (hread : d.read path = .ok old) (text : String) : ∃ d', d.write path text = .ok d' := by
  obtain ⟨place, hlocate⟩ := locate_of_read hread
  obtain ⟨hresolve, hnode, hasks⟩ := locate_eq_ok hlocate
  have hne : place ≠ [] := by
    rintro rfl
    rw [hnode] at hroot
    simp at hroot
  have hup : place.dropLast ≠ place := by
    intro heq
    have hlength := congrArg List.length heq
    have hpos := List.length_pos_iff.mpr hne
    rw [List.length_dropLast] at hlength
    omega
  have hparent := below_resolve hresolve _ (List.dropLast_prefix place) hup
  refine ⟨{ d with files := put place (.text text) d.files }, ?_⟩
  unfold write
  rw [hresolve]
  simp only [bind, Except.bind, hparent, hnode, hasks (by simp)]
  rfl

theorem Written.node? (h : Written d path text place d') (q : Place) :
    d'.node? q = if q = place then some (.file (.text text)) else d.node? q := by
  rw [h.disk]
  exact node?_put h.parent _ q

/-- A file holds what was written to it. -/
theorem Written.read (h : Written d path text place d') : d'.read path = .ok text := by
  have hdir : ∀ p, d.node? p = some .directory → d'.node? p = some .directory := by
    intro p hp
    have hne : p ≠ place := fun heq => h.notDirectory (heq ▸ hp)
    rw [h.node?, if_neg hne]
    exact hp
  have hresolve : d'.resolve path = .ok place :=
    resolve_eq_ok (by rw [h.disk]) hdir h.resolved
  have hnode : d'.node? place = some (.file (.text text)) := by rw [h.node?, if_pos rfl]
  exact read_of_locate (locate_of_file hresolve hnode h.namesFile)

end HookLint.Files.Disk
