/-
Nodes of a tree and the numbers that identify them.

`Site.Under` says that one site is another or stands below it.  In a tree whose
nodes carry different numbers a site is determined by its number, so "below" can
be asked of the numbers alone: a site is below another exactly when the other is
among the trees above it (`isBelow_iff`).

`Tree.weight i t` counts the nodes of `t` with number `i`.  It is at most one in a
numbered tree, and it adds up over children; what is counted once can be followed
down a tree along one way only.
-/
import HookLint.Syntax.Wrapper
import Mathlib.Algebra.Order.BigOperators.Group.List
import Mathlib.Algebra.Order.Group.Nat
import Mathlib.Algebra.Ring.Nat
import Mathlib.Data.List.Nodup

namespace HookLint.Syntax

namespace Tree

/-! ### The trees below a tree -/

mutual

/-- `t` and every tree below it, in pre-order. -/
def subtrees : Tree → List Tree
  | node l cs => node l cs :: forest cs

/-- Every tree of a list and every tree below one of them, in pre-order. -/
def forest : List Tree → List Tree
  | [] => []
  | t :: ts => subtrees t ++ forest ts

end

/-- The numbers of all nodes of a tree, in pre-order. -/
def ids (t : Tree) : List Nat := t.subtrees.map (·.id)

/-- No two nodes carry the same number. -/
def Numbered (t : Tree) : Prop := t.ids.Nodup

/-- No node fills two fields of its parent. -/
def OneField (t : Tree) : Prop := ∀ u ∈ t.subtrees, u.label.fields.length ≤ 1

instance (t : Tree) : Decidable t.Numbered := inferInstanceAs (Decidable t.ids.Nodup)

instance (t : Tree) : Decidable t.OneField :=
  inferInstanceAs (Decidable (∀ u ∈ t.subtrees, u.label.fields.length ≤ 1))

/-- How many nodes of a tree carry a number. -/
def weight (i : Nat) (t : Tree) : Nat := t.ids.count i

theorem forest_eq_flatMap (ts : List Tree) : forest ts = ts.flatMap subtrees := by
  induction ts with
  | nil => rfl
  | cons t ts ih => rw [forest, ih, List.flatMap_cons]

theorem subtrees_eq (t : Tree) : t.subtrees = t :: t.children.flatMap subtrees := by
  cases t with
  | node l cs => rw [subtrees, forest_eq_flatMap, children]

theorem self_mem_subtrees (t : Tree) : t ∈ t.subtrees := by
  rw [subtrees_eq]
  exact List.mem_cons_self

theorem mem_subtrees_of_child {c t u : Tree} (hc : c ∈ t.children) (hu : u ∈ c.subtrees) :
    u ∈ t.subtrees := by
  rw [subtrees_eq]
  exact List.mem_cons_of_mem _ (List.mem_flatMap.mpr ⟨c, hc, hu⟩)

theorem ids_eq (t : Tree) : t.ids = t.id :: t.children.flatMap ids := by
  unfold ids
  rw [subtrees_eq, List.map_cons, List.map_flatMap]

/-! ### Weights -/

/-- The weight of several trees together. -/
def weights (i : Nat) (ts : List Tree) : Nat := (ts.map (weight i)).sum

theorem weights_cons (i : Nat) (t : Tree) (ts : List Tree) :
    weights i (t :: ts) = weight i t + weights i ts := by
  simp [weights]

theorem count_flatMap_ids (i : Nat) (ts : List Tree) : (ts.flatMap ids).count i = weights i ts := by
  induction ts with
  | nil => rfl
  | cons t ts ih => rw [List.flatMap_cons, List.count_append, ih, weights_cons, weight]

/-- A tree weighs what its root and its children weigh. -/
theorem weight_eq (i : Nat) (t : Tree) :
    weight i t = (if t.id = i then 1 else 0) + weights i t.children := by
  unfold weight
  rw [ids_eq, List.count_cons, count_flatMap_ids]
  simp only [beq_iff_eq]
  omega

theorem weights_le (i : Nat) (t : Tree) : weights i t.children ≤ weight i t := by
  rw [weight_eq i t]
  omega

theorem one_le_weight_self (t : Tree) : 1 ≤ weight t.id t := by
  rw [weight_eq]
  simp

theorem weight_le_weights {i : Nat} {t : Tree} {ts : List Tree} (h : t ∈ ts) :
    weight i t ≤ weights i ts := by
  induction ts with
  | nil => contradiction
  | cons u us ih =>
      rw [weights_cons]
      rcases List.mem_cons.mp h with rfl | h
      · omega
      · have := ih h
        omega

theorem one_le_weight_iff {i : Nat} {t : Tree} : 1 ≤ weight i t ↔ i ∈ t.ids := by
  unfold weight
  rw [Nat.succ_le_iff, List.count_pos_iff]

theorem Numbered.weight_le {t : Tree} (h : t.Numbered) (i : Nat) : weight i t ≤ 1 :=
  List.nodup_iff_count_le_one.mp h i

end Tree

namespace Site

/-! ### Sites below a site -/

/-- The second site is the first or stands below it. -/
inductive Under : Site → Site → Prop
  | self (s : Site) : Under s s
  | child {s t c : Site} (h : Under s t) (hc : c ∈ t.children) : Under s c

/-- How many nodes at or below a site carry a number. -/
def weight (i : Nat) (s : Site) : Nat := s.tree.weight i

theorem tree_mem_of_mem_children {c s : Site} (h : c ∈ s.children) : c.tree ∈ s.tree.children := by
  obtain ⟨t, ht, rfl⟩ := List.mem_map.mp h
  exact ht

theorem mem_children_of_mem_namedChildren {c s : Site} (h : c ∈ s.namedChildren) :
    c ∈ s.children :=
  (List.mem_filter.mp h).1

theorem mem_children_of_field? {c s : Site} {f : Field} (h : s.field? f = some c) :
    c ∈ s.children :=
  List.mem_of_find?_eq_some h

theorem mem_children_of_firstNamed? {c s : Site} (h : s.firstNamed? = some c) :
    c ∈ s.children :=
  List.mem_of_find?_eq_some h

theorem above_of_mem_children {c s : Site} (h : c ∈ s.children) : c.above = s.tree :: s.above := by
  obtain ⟨t, -, rfl⟩ := List.mem_map.mp h
  rfl

theorem parent?_of_mem_children {c s : Site} (h : c ∈ s.children) : c.parent? = some s := by
  rw [parent?, above_of_mem_children h]

theorem kind_of_castOperand? {c s : Site} (h : s.castOperand? = some c) :
    s.kind = .parenthesized := by
  unfold castOperand? at h
  split at h
  · rename_i hcond
    exact hcond.1
  · contradiction

theorem wrapped?_of_castOperand? {c s : Site} (h : s.castOperand? = some c) :
    s.wrapped? = some c := by
  simp [wrapped?, kind_of_castOperand? h, h]

/-- What a wrapper wraps is a child, or the operand of a cast inside an error. -/
theorem mem_of_wrapped? {c s : Site} (h : s.wrapped? = some c) :
    c ∈ s.children ∨
      s.castOperand? = some c ∧ ∃ d ∈ s.children, d.kind = .error ∧ c ∈ d.children := by
  have hnamed : ∀ {x}, x ∈ s.namedChildren → x ∈ s.children := mem_children_of_mem_namedChildren
  unfold wrapped? at h
  split at h
  · exact Or.inl (hnamed (List.mem_of_getLast? h))
  · split at h
    · rename_i operand hcast
      injection h with h
      subst h
      obtain ⟨d, hd, hx⟩ := List.mem_flatMap.mp (mem_flattened_of_castOperand? hcast)
      split at hx
      · exact Or.inr ⟨hcast, d, hd, ‹_›, hx⟩
      · exact Or.inl (List.mem_singleton.mp hx ▸ hd)
    · exact Or.inl (hnamed (List.mem_of_head? h))
  · exact Or.inl (hnamed (List.mem_of_head? h))
  · contradiction

/-- A site is the child of one site only. -/
theorem eq_of_mem_children {c s t : Site} (hs : c ∈ s.children) (ht : c ∈ t.children) : s = t := by
  have habove : s.tree :: s.above = t.tree :: t.above :=
    (above_of_mem_children hs).symm.trans (above_of_mem_children ht)
  injection habove with htree hrest
  cases s
  cases t
  simp_all

namespace Under

theorem of_child {c s : Site} (h : c ∈ s.children) : Under s c := .child (.self s) h

theorem trans {a b c : Site} (hab : Under a b) (hbc : Under b c) : Under a c := by
  induction hbc with
  | self => exact hab
  | child _ hc ih => exact .child ih hc

theorem mem_subtrees {a b : Site} {u : Tree} (h : Under a b) (hu : u ∈ b.tree.subtrees) :
    u ∈ a.tree.subtrees := by
  induction h with
  | self => exact hu
  | child _ hc ih => exact ih (Tree.mem_subtrees_of_child (tree_mem_of_mem_children hc) hu)

theorem tree_mem {a b : Site} (h : Under a b) : b.tree ∈ a.tree.subtrees :=
  h.mem_subtrees (Tree.self_mem_subtrees _)

theorem weight_le {a b : Site} (h : Under a b) (i : Nat) : b.weight i ≤ a.weight i := by
  induction h with
  | self => exact Nat.le_refl _
  | child _ hc ih =>
      refine Nat.le_trans (Nat.le_trans ?_ (Tree.weights_le i _)) ih
      exact Tree.weight_le_weights (tree_mem_of_mem_children hc)

theorem one_le_weight {a b : Site} (h : Under a b) : 1 ≤ a.weight b.id :=
  Nat.le_trans (Tree.one_le_weight_self b.tree) (h.weight_le b.id)

theorem sizeOf_le {a b : Site} (h : Under a b) : sizeOf b.tree ≤ sizeOf a.tree := by
  induction h with
  | self => exact Nat.le_refl _
  | child _ hc ih => exact Nat.le_trans (Nat.le_of_lt (sizeOf_lt_of_mem_children hc)) ih

/-- A site is another, or is under one of its children. -/
theorem cases_head {a b : Site} (h : Under a b) : b = a ∨ ∃ c ∈ a.children, Under c b := by
  induction h with
  | self => exact Or.inl rfl
  | child _ hc ih =>
      rcases ih with rfl | ⟨d, hd, hdt⟩
      · exact Or.inr ⟨_, hc, .self _⟩
      · exact Or.inr ⟨d, hd, .child hdt hc⟩

theorem parent {a s : Site} {p : Tree} {above : List Tree} (h : Under a s)
    (hs : s.above = p :: above) (ha : a.above = []) : Under a ⟨p, above⟩ := by
  cases h with
  | self =>
      rw [ha] at hs
      contradiction
  | @child t c ht hc =>
      rw [above_of_mem_children hc] at hs
      injection hs with htree habove
      subst htree
      subst habove
      exact ht

/-- Two sites above a third stand one above the other. -/
theorem total {a b x : Site} (ha : Under a x) (hb : Under b x) : Under a b ∨ Under b a := by
  induction ha with
  | self => exact Or.inr hb
  | @child t c hat hc ih =>
      cases hb with
      | self => exact Or.inl (.child hat hc)
      | child hbu hc' => exact ih (eq_of_mem_children hc' hc ▸ hbu)

/-- What lies below a site is not the site. -/
theorem ne_of_child {s c x : Site} (h : Under c x) (hc : c ∈ s.children) : x ≠ s := by
  rintro rfl
  exact absurd (sizeOf_lt_of_mem_children hc) (Nat.not_lt.mpr h.sizeOf_le)

theorem antisymm {a b : Site} (hab : Under a b) (hba : Under b a) : b = a := by
  rcases hab.cases_head with heq | ⟨c, hc, hcb⟩
  · exact heq
  · exact absurd rfl ((hcb.trans hba).ne_of_child hc)

/-- Nothing stands between a site and its child. -/
theorem eq_or_eq_of_child {s t c : Site} (hst : Under s t) (htc : Under t c) (hc : c ∈ s.children) :
    t = s ∨ t = c := by
  cases htc with
  | self => exact Or.inr rfl
  | child htp hc' => exact Or.inl (hst.antisymm (eq_of_mem_children hc' hc ▸ htp))

theorem eq_of_grandchild {s t d c : Site} (hst : Under s t) (htc : Under t c) (hd : d ∈ s.children)
    (hc : c ∈ d.children) : t = s ∨ t = d ∨ t = c := by
  cases htc with
  | self => exact Or.inr (Or.inr rfl)
  | child htp hc' =>
      exact (hst.eq_or_eq_of_child (eq_of_mem_children hc' hc ▸ htp) hd).imp_right Or.inl

/-- A site lies in one child only. -/
theorem child_eq {s c d x : Site} (hcx : Under c x) (hdx : Under d x) (hc : c ∈ s.children)
    (hd : d ∈ s.children) : c = d := by
  have hsibling : ∀ {a b : Site}, Under a b → a ∈ s.children → b ∈ s.children → b = a := by
    intro a b hab ha hb
    rcases (Under.of_child ha).eq_or_eq_of_child hab hb with heq | heq
    · exact absurd heq ((Under.self a).ne_of_child ha)
    · exact heq.symm
  rcases hcx.total hdx with h | h
  · exact (hsibling h hc hd).symm
  · exact hsibling h hd hc

/-- Whatever stands above a site of a tree is a site of the tree. -/
theorem of_root {t : Tree} {m x : Site} (hm : Under m x) (hx : Under (root t) x) :
    Under (root t) m := by
  rcases hx.total hm with h | h
  · exact h
  · cases h with
    | self => exact .self _
    | child _ hc => exact absurd (above_of_mem_children hc) nofun

end Under

/-- A site and all sites below it, in pre-order. -/
def descendants (s : Site) : List Site :=
  s :: s.children.attach.flatMap fun ⟨c, _⟩ => descendants c
termination_by sizeOf s.tree
decreasing_by exact sizeOf_lt_of_mem_children ‹_›

theorem mem_descendants {a : Site} : ∀ {b : Site}, Under a b → b ∈ a.descendants := by
  have hstep : ∀ {c b : Site}, c ∈ a.children → b ∈ c.descendants → b ∈ a.descendants := by
    intro c b hc hb
    rw [descendants]
    exact List.mem_cons_of_mem _ (List.mem_flatMap.mpr ⟨⟨c, hc⟩, List.mem_attach _ _, hb⟩)
  intro b h
  rcases h.cases_head with rfl | ⟨c, hc, hcb⟩
  · rw [descendants]
    exact List.mem_cons_self
  · exact hstep hc (mem_descendants hcb)
termination_by sizeOf a.tree
decreasing_by exact sizeOf_lt_of_mem_children ‹_›

theorem weight_eq (i : Nat) (s : Site) :
    s.weight i = (if s.id = i then 1 else 0) + (s.children.map (weight i)).sum := by
  unfold weight children below
  rw [Tree.weight_eq, Tree.weights, List.map_map]
  rfl

theorem sum_children_le (i : Nat) (s : Site) : (s.children.map (weight i)).sum ≤ s.weight i := by
  rw [weight_eq]
  omega

/-! ### Numbers identify sites -/

/-- Of two members that both add to a sum of at most one there is only one. -/
theorem eq_of_sum_le_one {α : Type} {f : α → Nat} {l : List α} (hsum : (l.map f).sum ≤ 1) {a b : α}
    (ha : a ∈ l) (hb : b ∈ l) (hfa : 1 ≤ f a) (hfb : 1 ≤ f b) : a = b := by
  induction l with
  | nil => contradiction
  | cons x xs ih =>
      rw [List.map_cons, List.sum_cons] at hsum
      have hle : ∀ {y}, y ∈ xs → f y ≤ (xs.map f).sum := by
        intro y hy
        exact List.le_sum_of_mem (List.mem_map.mpr ⟨y, hy, rfl⟩)
      rcases List.mem_cons.mp ha with hax | ha <;> rcases List.mem_cons.mp hb with hbx | hb
      · rw [hax, hbx]
      · have := hle hb
        subst hax
        omega
      · have := hle ha
        subst hbx
        omega
      · exact ih (by omega) ha hb

/-- Of two children that both hold a number of weight one there is only one. -/
theorem child_unique {s c d : Site} {i : Nat} (hw : s.weight i ≤ 1) (hc : c ∈ s.children)
    (hd : d ∈ s.children) (hci : 1 ≤ c.weight i) (hdi : 1 ≤ d.weight i) : c = d :=
  eq_of_sum_le_one (Nat.le_trans (sum_children_le i s) hw) hc hd hci hdi

/-- A number of weight one belongs to one site. -/
theorem Under.eq_of_id {a : Site} :
    ∀ {b c : Site}, a.weight b.id ≤ 1 → Under a b → Under a c → b.id = c.id → b = c := by
  have key : ∀ (n : Nat) (a : Site), sizeOf a.tree = n → ∀ b c : Site, a.weight b.id ≤ 1 →
      Under a b → Under a c → b.id = c.id → b = c := by
    intro n
    induction n using Nat.strong_induction_on with
    | _ n ih =>
        intro a hn b c hw hb hc hid
        -- The root's own number is used up by the root.
        have hroot : ∀ d ∈ a.children, a.id = b.id → ¬ 1 ≤ d.weight b.id := by
          intro d hd ha hdw
          rw [weight_eq, if_pos ha] at hw
          have := List.le_sum_of_mem (List.mem_map.mpr ⟨d, hd, rfl⟩ : _ ∈ a.children.map (weight b.id))
          omega
        rcases hb.cases_head with rfl | ⟨d, hd, hdb⟩ <;> rcases hc.cases_head with rfl | ⟨e, he, hec⟩
        · rfl
        · exact absurd (hid ▸ hec.one_le_weight) (hroot e he rfl)
        · exact absurd hdb.one_le_weight (hroot d hd hid.symm)
        · have hde : d = e := child_unique hw hd he hdb.one_le_weight (hid ▸ hec.one_le_weight)
          subst hde
          have hdw : d.weight b.id ≤ 1 := Nat.le_trans ((Under.of_child hd).weight_le _) hw
          exact ih _ (hn ▸ sizeOf_lt_of_mem_children hd) d rfl b c hdw hdb hec hid
  intro b c
  exact key _ a rfl b c

/-- In a numbered tree a site is known by its number. -/
theorem eq_of_id {t : Tree} (hnum : t.Numbered) {b c : Site} (hb : Under (root t) b)
    (hc : Under (root t) c) (h : b.id = c.id) : b = c :=
  Under.eq_of_id (a := root t) (hnum.weight_le _) hb hc h

theorem mem_ids_of_under {a b : Site} (h : Under a b) : b.id ∈ a.tree.ids :=
  Tree.one_le_weight_iff.mp h.one_le_weight

/-- No node is at or below two children of one site. -/
theorem pairwise_namedChildren {t : Tree} (hnum : t.Numbered) {s : Site} (hs : Under (root t) s) :
    s.namedChildren.Pairwise fun c d => ∀ i ∈ c.tree.ids, i ∉ d.tree.ids := by
  have hnodup : s.tree.ids.Nodup := List.nodup_iff_count_le_one.mpr fun i =>
    Nat.le_trans (hs.weight_le i) (hnum.weight_le i)
  rw [Tree.ids_eq, List.nodup_cons, List.nodup_flatMap] at hnodup
  refine List.Pairwise.filter _ (List.pairwise_map.mpr ?_)
  exact hnodup.2.2.imp fun hdisjoint i hc hd => hdisjoint hc hd

/-- `s` is a node below `outer`: one of the trees above it carries that number. -/
def isBelow (s outer : Site) : Bool := s.above.any (·.id == outer.id)

theorem mem_above_iff {a x : Site} (h : Under a x) (p : Tree) :
    p ∈ x.above ↔ p ∈ a.above ∨ ∃ t, Under a t ∧ t.tree = p ∧ ∃ c ∈ t.children, Under c x := by
  induction h with
  | self =>
      constructor
      · exact Or.inl
      · rintro (h | ⟨t, hat, -, c, hc, hcx⟩)
        · exact h
        · have h1 := hat.sizeOf_le
          have h2 := hcx.sizeOf_le
          have h3 := sizeOf_lt_of_mem_children hc
          omega
  | @child t c hat hc ih =>
      rw [above_of_mem_children hc, List.mem_cons, ih]
      constructor
      · rintro (rfl | h | ⟨u, hau, rfl, d, hd, hdt⟩)
        · exact Or.inr ⟨t, hat, rfl, c, hc, .self c⟩
        · exact Or.inl h
        · exact Or.inr ⟨u, hau, rfl, d, hd, .child hdt hc⟩
      · rintro (h | ⟨u, hau, rfl, d, hd, hdc⟩)
        · exact Or.inr (Or.inl h)
        · cases hdc with
          | self => exact Or.inl (congrArg Site.tree (eq_of_mem_children hd hc))
          | child hdv hcv =>
              exact Or.inr (Or.inr ⟨u, hau, rfl, d, hd, eq_of_mem_children hcv hc ▸ hdv⟩)

/-- In a numbered tree the trees above a site say what it is below. -/
theorem isBelow_iff {t : Tree} (hnum : t.Numbered) {x outer : Site} (hx : Under (root t) x)
    (ho : Under (root t) outer) :
    x.isBelow outer = true ↔ ∃ c ∈ outer.children, Under c x := by
  simp only [isBelow, List.any_eq_true, beq_iff_eq]
  constructor
  · rintro ⟨p, hp, hid⟩
    rcases (mem_above_iff hx p).mp hp with h | ⟨u, hu, rfl, c, hc, hcx⟩
    · simp [root] at h
    · have : u = outer := eq_of_id hnum hu ho hid
      exact ⟨c, this ▸ hc, hcx⟩
  · rintro ⟨c, hc, hcx⟩
    exact ⟨outer.tree, (mem_above_iff hx _).mpr (Or.inr ⟨outer, ho, rfl, c, hc, hcx⟩), rfl⟩

end Site

end HookLint.Syntax
