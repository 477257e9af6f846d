/-
New entries for an array.

An edit replaces the children of one array and the text they stand in.  All other
nodes stay, with new numbers and at new positions.  What is asked of a site outside
of the array is answered as before: the edit commutes with going down and up
(`children_site`, `parent?_site`), with looking through wrapping (`unwrap_site`,
`outermost_site`), and with the texts that are read, which stand before the array or
after it (`text_site`).
-/
import HookLint.Proofs.Arguments
import HookLint.Proofs.Relocation
import HookLint.Proofs.Slices

namespace HookLint.Syntax

open HookLint.Text

/-! ### Fresh values -/

/-- The part of the expression in a field is built afresh. -/
def Site.builds (s : Site) (f : Field) : Bool := (s.unwrap.field? f).any (·.construction?.isSome)

theorem Site.construction?_eq (s : Site) : s.construction? =
    match s.unwrap.kind with
    | .object => some .object
    | .array => some .array
    | .arrowFunction | .functionExpression => some .function
    | .classExpression => some .classValue
    | .element | .elementSelfClosing => some .element
    | .regex => some .regex
    | .construct => some .newObject
    | .ternary => if s.builds .consequence || s.builds .alternative then some .conditional else none
    | .binary =>
      if (s.unwrap.field? .operator).any (·.kind == .logicalOperator) then
        if s.builds .left || s.builds .right then some .logical else none
      else none
    | _ => none := by
  rw [Site.construction?]
  unfold Site.builds
  generalize s.unwrap.kind = k
  cases k with
  | ternary =>
      refine if_congr ?_ rfl rfl
      beta_reduce
      split <;> split <;> simp [*]
  | binary =>
      refine if_congr Iff.rfl (if_congr ?_ rfl rfl) rfl
      beta_reduce
      split <;> split <;> simp [*]
  | _ => rfl

/-! ### Edits -/

/-- What is written in place of the entries of an array. -/
structure Edit where
  /-- the number of the array -/
  array : Nat
  /-- its new children -/
  entries : List Tree
  /-- the new numbers of the nodes that stay -/
  number : Nat → Nat
  /-- the text before the array -/
  before : String
  /-- the array as it was written -/
  old : String
  /-- the array as it is written -/
  new : String
  /-- the text after the array -/
  after : String

namespace Edit

variable (e : Edit)

def source : String := e.before ++ e.old ++ e.after

/-- The source with the new array. -/
def edited : String := e.before ++ e.new ++ e.after

/-- Where a position goes. -/
def move (x : Nat) : Nat :=
  if x ≤ byteLength e.before then x else x + byteLength e.new - byteLength e.old

def label (l : Label) : Label :=
  { l with id := e.number l.id, start := e.move l.start, stop := e.move l.stop }

mutual

/-- The tree with the new entries. -/
def tree : Tree → Tree
  | .node l cs => .node (e.label l) (if l.id = e.array then e.entries else trees cs)

def trees : List Tree → List Tree
  | [] => []
  | t :: ts => tree t :: trees ts

end

/-- Where a site goes that is not an entry. -/
def site (s : Site) : Site := ⟨e.tree s.tree, s.above.map e.tree⟩

/-- The site is not below the array. -/
structure Outside (root : Tree) (s : Site) : Prop where
  under : Site.Under (Site.root root) s
  above : ∀ p ∈ s.above, p.id ≠ e.array

/-- The edit is one of an array of the tree, and no text that is read elsewhere reaches into it. -/
structure Fits (root : Tree) : Prop where
  isArray : ∀ s, Site.Under (Site.root root) s → s.id = e.array → s.kind = .array
  isArgument : ∀ s, Site.Under (Site.root root) s → s.id = e.array →
    ∃ p ∈ s.parent?, p.kind.holdsArgument = true
  injective : Function.Injective e.number
  beside : ∀ s, e.Outside root s → s.isSpelled = true → s.start ≤ s.stop ∧
    (s.stop ≤ byteLength e.before ∨ byteLength e.before + byteLength e.old ≤ s.start)
  old_ne : e.old ≠ ""
  new_ne : e.new ≠ ""

/-! ### Trees -/

theorem trees_eq_map (ts : List Tree) : e.trees ts = ts.map e.tree := by
  induction ts with
  | nil => rfl
  | cons t ts ih => rw [trees, ih, List.map_cons]

@[simp] theorem label_tree (t : Tree) : (e.tree t).label = e.label t.label := by
  cases t
  rfl

theorem children_tree {t : Tree} (h : t.id ≠ e.array) :
    (e.tree t).children = t.children.map e.tree := by
  cases t with
  | node l cs =>
      have hl : l.id ≠ e.array := h
      rw [tree, if_neg hl, trees_eq_map]
      rfl

theorem children_tree_array {t : Tree} (h : t.id = e.array) : (e.tree t).children = e.entries := by
  cases t with
  | node l cs =>
      have hl : l.id = e.array := h
      rw [tree, if_pos hl]
      rfl

/-! ### Sites -/

variable {e} {s c : Site}

@[simp] theorem kind_site : (e.site s).kind = s.kind :=
  (congrArg Label.kind (e.label_tree s.tree) :)

@[simp] theorem id_site : (e.site s).id = e.number s.id :=
  congrArg Label.id (e.label_tree s.tree)

@[simp] theorem start_site : (e.site s).start = e.move s.start :=
  congrArg Label.start (e.label_tree s.tree)

@[simp] theorem stop_site : (e.site s).stop = e.move s.stop :=
  congrArg Label.stop (e.label_tree s.tree)

@[simp] theorem fields_site : (e.site s).label.fields = s.label.fields :=
  (congrArg Label.fields (e.label_tree s.tree) :)

@[simp] theorem named_site : (e.site s).label.named = s.label.named :=
  (congrArg Label.named (e.label_tree s.tree) :)

@[simp] theorem hasError_site : (e.site s).label.hasError = s.label.hasError :=
  (congrArg Label.hasError (e.label_tree s.tree) :)

@[simp] theorem isProper_site : (e.site s).isProper = s.isProper := by simp [Site.isProper]

theorem parent?_site : (e.site s).parent? = s.parent?.map e.site := by
  obtain ⟨t, above⟩ := s
  cases above <;> rfl

theorem children_site (h : s.id ≠ e.array) : (e.site s).children = s.children.map e.site := by
  unfold Site.children
  rw [site, children_tree e h, List.map_map, List.map_map]
  rfl

theorem namedChildren_site (h : s.id ≠ e.array) :
    (e.site s).namedChildren = s.namedChildren.map e.site := by
  unfold Site.namedChildren
  rw [children_site h, List.filter_map]
  simp [Function.comp_def]

theorem firstNamed?_site (h : s.id ≠ e.array) :
    (e.site s).firstNamed? = s.firstNamed?.map e.site := by
  unfold Site.firstNamed?
  rw [children_site h, List.find?_map, Function.comp_def]
  simp

theorem field?_site (h : s.id ≠ e.array) (f : Field) :
    (e.site s).field? f = (s.field? f).map e.site := by
  unfold Site.field?
  rw [children_site h, List.find?_map, Function.comp_def]
  simp

/-! ### Outside of the array -/

section Outside

variable {root : Tree}

theorem Outside.ne (hf : e.Fits root) (hs : e.Outside root s) (hk : s.kind ≠ .array) :
    s.id ≠ e.array :=
  fun h => hk (hf.isArray s hs.under h)

theorem Outside.child (hs : e.Outside root s) (hne : s.id ≠ e.array) (hc : c ∈ s.children) :
    e.Outside root c := by
  refine ⟨.child hs.under hc, fun p hp => ?_⟩
  rw [Site.above_of_mem_children hc] at hp
  rcases List.mem_cons.mp hp with rfl | hp
  · exact hne
  · exact hs.above p hp

/-- The array is no child of most nodes. -/
theorem Outside.child_ne (hf : e.Fits root) (hs : e.Outside root s)
    (hk : s.kind.holdsArgument = false) (hc : c ∈ s.children) : c.id ≠ e.array := by
  intro h
  obtain ⟨p, hp, hkp⟩ := hf.isArgument c (.child hs.under hc) h
  rw [Site.parent?_of_mem_children hc, Option.mem_some_iff] at hp
  rw [← hp, hk] at hkp
  contradiction

theorem Outside.field (hs : e.Outside root s) (hne : s.id ≠ e.array) {f : Field}
    (hc : s.field? f = some c) : e.Outside root c :=
  hs.child hne (Site.mem_children_of_field? hc)

theorem Outside.namedChild (hs : e.Outside root s) (hne : s.id ≠ e.array)
    (hc : c ∈ s.namedChildren) : e.Outside root c :=
  hs.child hne (Site.mem_children_of_mem_namedChildren hc)

theorem Outside.parent {t p : Tree} {above : List Tree} (hs : e.Outside root ⟨t, p :: above⟩) :
    e.Outside root ⟨p, above⟩ :=
  ⟨hs.under.parent rfl rfl, fun q hq => hs.above q (List.mem_cons_of_mem _ hq)⟩

theorem Outside.parent_ne {t p : Tree} {above : List Tree} (hs : e.Outside root ⟨t, p :: above⟩) :
    (⟨p, above⟩ : Site).id ≠ e.array :=
  hs.above p List.mem_cons_self

theorem beq_id_site (hf : e.Fits root) (s c : Site) :
    ((e.site s).id == (e.site c).id) = (s.id == c.id) := by
  rw [id_site, id_site, Bool.eq_iff_iff, beq_iff_eq, beq_iff_eq, hf.injective.eq_iff]

theorem isField_site (hf : e.Fits root) (h : s.id ≠ e.array) (f : Field) (c : Site) :
    (e.site s).isField f (e.site c) = s.isField f c := by
  unfold Site.isField
  rw [field?_site h, Option.any_map]
  congr 1
  funext d
  exact beq_id_site hf d c

/-! ### Texts -/

theorem Fits.old_pos (hf : e.Fits root) : 0 < byteLength e.old :=
  Nat.pos_of_ne_zero fun h => hf.old_ne (byteLength_eq_zero.mp h)

theorem Fits.new_pos (hf : e.Fits root) : 0 < byteLength e.new :=
  Nat.pos_of_ne_zero fun h => hf.new_ne (byteLength_eq_zero.mp h)

/-- What is read outside of the array is read as before. -/
theorem text_site (hf : e.Fits root) (hs : e.Outside root s) (hspelled : s.isSpelled = true) :
    (e.site s).text e.edited = s.text e.source := by
  obtain ⟨hle, hbeside⟩ := hf.beside s hs hspelled
  have hold := hf.old_pos
  have hmove :
      slice? e.edited (e.move s.start) (e.move s.stop) = slice? e.source s.start s.stop := by
    unfold edited source move
    rcases hbeside with hb | ha
    · rw [if_pos (by omega), if_pos hb, String.append_assoc, String.append_assoc,
        slice?_append_left hb, slice?_append_left hb]
    · rw [if_neg (by omega), if_neg (by omega),
        slice?_append_right (by rw [byteLength_append]; omega) (by omega),
        slice?_append_right (by rw [byteLength_append]; omega) hle, byteLength_append,
        byteLength_append]
      congr 1 <;> omega
  unfold Site.text
  rw [start_site, stop_site, hmove]

/-- What is read outside of the array stays in order. -/
theorem start_site_le_iff (hf : e.Fits root) (hs : e.Outside root s) (hspelled : s.isSpelled = true)
    (hc : e.Outside root c) (hspelled' : c.isSpelled = true) :
    (e.site s).start ≤ (e.site c).start ↔ s.start ≤ c.start := by
  obtain ⟨hle, hbeside⟩ := hf.beside s hs hspelled
  obtain ⟨hle', hbeside'⟩ := hf.beside c hc hspelled'
  have hold := hf.old_pos
  have hnew := hf.new_pos
  rw [start_site, start_site]
  unfold move
  split <;> split <;> omega

/-! ### Wrapping -/

theorem flattened_site (hf : e.Fits root) (hs : e.Outside root s) (hne : s.id ≠ e.array) :
    (e.site s).flattened = s.flattened.map e.site := by
  unfold Site.flattened
  rw [children_site hne, List.flatMap_map, List.map_flatMap]
  refine List.flatMap_congr fun c hc => ?_
  rw [kind_site]
  split
  · have hk : c.kind ≠ .array := by simp [‹c.kind = .error›]
    exact children_site ((hs.child hne hc).ne hf hk)
  · rfl

theorem beforeColon?_map (tokens : List Site) :
    Site.beforeColon? (tokens.map e.site) = (Site.beforeColon? tokens).map (List.map e.site) := by
  unfold Site.beforeColon?
  rw [List.any_map, List.takeWhile_map]
  simp only [Function.comp_def, kind_site]
  split <;> rfl

theorem castOperand?_site (hf : e.Fits root) (hs : e.Outside root s) :
    (e.site s).castOperand? = s.castOperand?.map e.site := by
  unfold Site.castOperand?
  rw [kind_site, hasError_site]
  split
  · rename_i hcond
    have hne : s.id ≠ e.array := hs.ne hf (by simp [hcond.1])
    rw [flattened_site hf hs hne, beforeColon?_map]
    cases Site.beforeColon? s.flattened with
    | none => rfl
    | some tokens =>
        simp only [Option.map_some, List.filter_map, Function.comp_def, isProper_site, kind_site]
        generalize (tokens.filter fun t => t.isProper && t.kind != .error) = operands
        match operands with
        | [] => rfl
        | [_] => rfl
        | _ :: _ :: _ => rfl
  · rfl

theorem wrapped?_site (hf : e.Fits root) (hs : e.Outside root s) :
    (e.site s).wrapped? = s.wrapped?.map e.site := by
  have hnamed : s.kind ≠ .array → (e.site s).namedChildren = s.namedChildren.map e.site :=
    fun hk => namedChildren_site (hs.ne hf hk)
  unfold Site.wrapped?
  rw [kind_site]
  split
  · rw [hnamed (by simp [*]), List.getLast?_map]
  · rw [castOperand?_site hf hs]
    cases s.castOperand? with
    | some operand => rfl
    | none => exact (congrArg List.head? (hnamed (by simp [*]))).trans List.head?_map
  · rw [hnamed (by simp [*]), List.head?_map]
  · rfl

theorem Outside.wrapped (hf : e.Fits root) (hs : e.Outside root s) (h : s.wrapped? = some c) :
    e.Outside root c := by
  have hk := Scope.Visit.isTransparent_of_wrapped? h
  have hne : s.id ≠ e.array := hs.ne hf fun harray => by simp [harray, Kind.isTransparent] at hk
  rcases Site.mem_of_wrapped? h with hc | ⟨-, d, hd, hkd, hc⟩
  · exact hs.child hne hc
  · have hd' := hs.child hne hd
    exact hd'.child (hd'.ne hf (by simp [hkd])) hc

theorem Outside.unwrap (hf : e.Fits root) (hs : e.Outside root s) : e.Outside root s.unwrap := by
  fun_induction Site.unwrap s with
  | case1 s inner h ih => exact ih (hs.wrapped hf h)
  | case2 s h => exact hs

theorem unwrap_site (hf : e.Fits root) (hs : e.Outside root s) :
    (e.site s).unwrap = e.site s.unwrap := by
  fun_induction Site.unwrap s with
  | case1 s inner h ih =>
      have hsite : (e.site s).wrapped? = some (e.site inner) := by rw [wrapped?_site hf hs, h]; rfl
      rw [Site.unwrap]
      split
      · rename_i inner' h'
        rw [hsite, Option.some.injEq] at h'
        rw [← h', ih (hs.wrapped hf h)]
      · rename_i h'
        rw [hsite] at h'
        contradiction
  | case2 s h =>
      have hsite : (e.site s).wrapped? = none := by rw [wrapped?_site hf hs, h]; rfl
      rw [Site.unwrap]
      split
      · rename_i inner' h'
        rw [hsite] at h'
        contradiction
      · rfl

theorem wraps_site (hf : e.Fits root) (hs : e.Outside root s) (c : Site) :
    (e.site s).wraps (e.site c) = s.wraps c := by
  unfold Site.wraps
  rw [wrapped?_site hf hs, Option.any_map]
  congr 1
  funext d
  exact beq_id_site hf d c

theorem outermostFrom_tree (hf : e.Fits root) (t : Tree) (above : List Tree)
    (hs : e.Outside root ⟨t, above⟩) :
    Site.outermostFrom (e.tree t) (above.map e.tree) = e.site (Site.outermostFrom t above) := by
  induction above generalizing t with
  | nil => rfl
  | cons p above ih =>
      have hwraps := wraps_site hf hs.parent ⟨t, p :: above⟩
      rw [List.map_cons, Site.outermostFrom, Site.outermostFrom]
      simp only [site] at hwraps
      rw [List.map_cons] at hwraps
      rw [hwraps]
      split
      · exact ih p hs.parent
      · rfl

theorem outermost_site (hf : e.Fits root) (hs : e.Outside root s) :
    (e.site s).outermost = e.site s.outermost :=
  outermostFrom_tree hf s.tree s.above hs

theorem Outside.outermost (hs : e.Outside root s) : e.Outside root s.outermost := by
  have key : ∀ (above : List Tree) (t : Tree), e.Outside root ⟨t, above⟩ →
      e.Outside root (Site.outermostFrom t above) := by
    intro above
    induction above with
    | nil => exact fun t h => h
    | cons p above ih =>
        intro t h
        rw [Site.outermostFrom]
        split
        · exact ih p h.parent
        · exact h
  exact key s.above s.tree hs

/-! ### Expressions -/

theorem calleeName?_site (hf : e.Fits root) (hs : e.Outside root s) :
    (e.site s).calleeName? e.edited = s.calleeName? e.source := by
  have hu := hs.unwrap hf
  unfold Site.calleeName?
  simp only [unwrap_site hf hs, kind_site]
  split
  · rename_i hk
    rw [text_site hf hu (Site.isSpelled_of_kind (by rw [hk]; rfl))]
  · rename_i hk
    have hne := hu.ne hf (by simp [hk])
    rw [field?_site hne, Option.map_map]
    refine Option.map_congr fun p hp => ?_
    exact text_site hf (hu.field hne hp) (Site.isSpelled_of_field hp (Or.inl rfl))
  · rfl

theorem isPrimitive_site (hf : e.Fits root) (hs : e.Outside root s) :
    (e.site s).isPrimitive = s.isPrimitive := by
  have hu := hs.unwrap hf
  unfold Site.isPrimitive
  simp only [unwrap_site hf hs, kind_site]
  split
  · rfl
  · rfl
  · rfl
  · rename_i hk
    rw [namedChildren_site (hu.ne hf (by simp [hk])), List.any_map]
    simp [Function.comp_def]
  · rename_i hk
    rw [field?_site (hu.ne hf (by simp [hk])), Option.any_map]
    simp
  · rfl

theorem construction?_site (hf : e.Fits root) (hs : e.Outside root s) :
    (e.site s).construction? = s.construction? := by
  induction hn : sizeOf s.tree using Nat.strong_induction_on generalizing s with
  | _ n ih =>
      have hu := hs.unwrap hf
      -- A part of the expression is smaller than it.
      have hbuilds : s.unwrap.kind ≠ .array → ∀ f, (e.site s).builds f = s.builds f := by
        intro hk f
        have hne := hu.ne hf hk
        unfold Site.builds
        rw [unwrap_site hf hs, field?_site hne]
        cases hfield : s.unwrap.field? f with
        | none => rfl
        | some part =>
            have hlt : sizeOf part.tree < n := hn ▸ Nat.lt_of_lt_of_le
              (Site.sizeOf_lt_of_field? hfield) (Site.sizeOf_unwrap_le s)
            simp only [Option.map_some, Option.any_some, ih _ hlt (hu.field hne hfield) rfl]
      rw [Site.construction?_eq, Site.construction?_eq, unwrap_site hf hs, kind_site]
      split
      all_goals try rfl
      · rw [hbuilds (by simp [*]), hbuilds (by simp [*])]
      · have hk : s.unwrap.kind ≠ .array := by simp [*]
        rw [hbuilds hk, hbuilds hk, field?_site (hu.ne hf hk), Option.any_map]
        simp only [kind_site]

theorem stringContents?_site (hf : e.Fits root) (hs : e.Outside root s) :
    (e.site s).stringContents? e.edited = s.stringContents? e.source := by
  unfold Site.stringContents?
  rw [kind_site]
  split
  · rename_i hk
    rw [text_site hf hs (Site.isSpelled_of_kind (by rw [hk]; rfl))]
  · rfl

theorem subscriptKey?_site (hf : e.Fits root) (hs : e.Outside root s) (hne : s.id ≠ e.array) :
    (e.site s).subscriptKey? e.edited = s.subscriptKey? e.source := by
  unfold Site.subscriptKey?
  rw [field?_site hne]
  cases hindex : s.field? .index with
  | none => rfl
  | some index =>
      have hi := hs.field hne hindex
      simp only [Option.map_some, unwrap_site hf hi, stringContents?_site hf (hi.unwrap hf)]

end Outside

end Edit

end HookLint.Syntax
