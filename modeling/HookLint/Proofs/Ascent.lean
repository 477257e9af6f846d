/-
The climb of a read, and what it never takes.

A climb goes from a name to the access around it, from there to the next, and so on.
`Takes` says which access comes next and what key it adds: wrappers apart it stands right
around what has been climbed, has it for its object, and neither leads into a slot nor is
assigned.  `Climbs` is a whole climb, which ends where there is no such access or where the
access is called.

From every site there is one climb, no longer than the way to the root, and the path of the
read is the name and the keys the climb takes (`climbs_iff`, `pathAt_eq_of_climbs`).  None of
the keys is `current`.  What a callback requires are paths of its reads, so no required path
goes through a slot, and no missing one is a slot (`required_paths_avoid_slots`).
-/
import HookLint.Proofs.Slots
import HookLint.Proofs.Wrapping

namespace HookLint.Syntax.Site

theorem outermost_cons (t p : Tree) (above : List Tree) :
    outermost ⟨t, p :: above⟩ =
      if wraps ⟨p, above⟩ ⟨t, p :: above⟩ then outermost ⟨p, above⟩ else ⟨t, p :: above⟩ := rfl

theorem length_above_outermostFrom_le (above : List Tree) : ∀ t : Tree,
    (outermostFrom t above).above.length ≤ above.length := by
  induction above with
  | nil => exact fun t => Nat.le_refl 0
  | cons p above ih =>
      intro t
      rw [outermostFrom]
      split
      · exact Nat.le_succ_of_le (ih p)
      · exact Nat.le_refl _

theorem above_of_parent? {s p : Site} (h : s.parent? = some p) : s.above = p.tree :: p.above := by
  unfold parent? at h
  split at h
  · contradiction
  · obtain rfl := Option.some.inj h
    assumption

end HookLint.Syntax.Site

namespace HookLint.Dependency

open HookLint.Syntax HookLint.Scope HookLint.Dependency.Path

variable {source : String} {root : Tree} {s s' a a' : Site} {key key' : String}
  {keys keys' : List String}

/-! ### One step of a climb -/

/-- A climb that has come to `s` goes on through the access `a` and takes its key. -/
structure Takes (source : String) (s a : Site) (key : String) : Prop where
  /-- only wrappers stand between -/
  around : s.outermost.parent? = some a
  object : a.isField .object s.outermost = true
  /-- the link is not optional -/
  plain : a.field? .optionalChain = none
  /-- the property of a member, or the string of a subscript that could follow a dot -/
  names : keyOf? source a = some key
  notSlot : key ≠ "current"
  notTarget : isAssigned a = false

theorem takes_iff : Takes source s a key ↔ s.outermost.parent? = some a ∧
    accessKey? source a s.outermost = some key ∧ key ≠ "current" ∧ isAssigned a = false := by
  have hkey : accessKey? source a s.outermost =
      if a.isField .object s.outermost && (a.field? .optionalChain).isNone then keyOf? source a
      else none := rfl
  rw [hkey, Option.ite_none_right_eq_some, Bool.and_eq_true, Option.isNone_iff_eq_none]
  constructor
  · rintro ⟨haround, hobject, hplain, hkey, hslot, htarget⟩
    exact ⟨haround, ⟨⟨hobject, hplain⟩, hkey⟩, hslot, htarget⟩
  · rintro ⟨haround, ⟨⟨hobject, hplain⟩, hkey⟩, hslot, htarget⟩
    exact ⟨haround, hobject, hplain, hkey, hslot, htarget⟩

/-- Where the parent is no wrapper, a climb can only go on through the parent. -/
theorem takes_cons_iff {t p : Tree} {above : List Tree}
    (hwraps : ¬ Site.wraps ⟨p, above⟩ ⟨t, p :: above⟩ = true) :
    Takes source ⟨t, p :: above⟩ a key ↔ a = ⟨p, above⟩ ∧
      accessKey? source ⟨p, above⟩ ⟨t, p :: above⟩ = some key ∧ key ≠ "current" ∧
      isAssigned ⟨p, above⟩ = false := by
  rw [takes_iff, Site.outermost_cons, if_neg hwraps, Site.parent?, Option.some.injEq,
    eq_comm (b := a)]
  exact and_congr_right fun ha => by rw [ha]

/-- There is one way to go on. -/
theorem Takes.unique (h : Takes source s a key) (h' : Takes source s a' key') :
    a = a' ∧ key = key' := by
  obtain rfl : a = a' := Option.some.inj (h.around.symm.trans h'.around)
  exact ⟨rfl, Option.some.inj (h.names.symm.trans h'.names)⟩

/-- A climb does not tell an expression from its wrapping. -/
theorem Takes.of_outermost_eq (heq : s.outermost = s'.outermost) (h : Takes source s a key) :
    Takes source s' a key := by
  rw [takes_iff] at h ⊢
  rwa [← heq]

/-- A climb stays in the tree. -/
theorem Takes.under (h : Takes source s a key) (hs : Site.Under (Site.root root) s) :
    Site.Under (Site.root root) a := by
  have hout : Site.Under (Site.root root) s.outermost := (Site.outermost_under hs).of_root hs
  exact hout.parent (Site.above_of_parent? h.around) rfl

/-- Every step leads nearer to the root. -/
theorem Takes.length_above_lt (h : Takes source s a key) : a.above.length < s.above.length := by
  have hout : s.outermost.above.length ≤ s.above.length :=
    Site.length_above_outermostFrom_le s.above s.tree
  rw [Site.above_of_parent? h.around, List.length_cons] at hout
  exact hout

/-! ### A whole climb -/

/-- A climb from `s` takes the keys, one after the other. -/
inductive Climbs (source : String) : Site → List String → Prop
  | ends {s : Site} (hends : ∀ a key, ¬ Takes source s a key) : Climbs source s []
  | called {s a : Site} {key : String} (htakes : Takes source s a key)
      (hcalled : isCalled a = true) : Climbs source s [key]
  | goes {s a : Site} {key : String} {keys : List String} (htakes : Takes source s a key)
      (hcalled : isCalled a = false) (hrest : Climbs source a keys) : Climbs source s (key :: keys)

namespace Climbs

theorem of_outermost_eq (heq : s.outermost = s'.outermost) (h : Climbs source s keys) :
    Climbs source s' keys := by
  cases h with
  | ends hends => exact .ends fun a key htakes => hends a key (htakes.of_outermost_eq heq.symm)
  | called htakes hcalled => exact .called (htakes.of_outermost_eq heq) hcalled
  | goes htakes hcalled hrest => exact .goes (htakes.of_outermost_eq heq) hcalled hrest

theorem unique (h : Climbs source s keys) (h' : Climbs source s keys') : keys = keys' := by
  induction h generalizing keys' with
  | ends hends =>
      cases h' with
      | ends => rfl
      | called htakes => exact absurd htakes (hends _ _)
      | goes htakes => exact absurd htakes (hends _ _)
  | called htakes hcalled =>
      cases h' with
      | ends hends => exact absurd htakes (hends _ _)
      | called htakes' => rw [(htakes.unique htakes').2]
      | goes htakes' hcalled' =>
          rw [(htakes.unique htakes').1, hcalled'] at hcalled
          contradiction
  | goes htakes hcalled _ ih =>
      cases h' with
      | ends hends => exact absurd htakes (hends _ _)
      | called htakes' hcalled' =>
          rw [(htakes.unique htakes').1, hcalled'] at hcalled
          contradiction
      | goes htakes' _ hrest' =>
          obtain ⟨rfl, rfl⟩ := htakes.unique htakes'
          rw [ih hrest']

/-- A climb has no more steps than there are nodes above. -/
theorem length_le (h : Climbs source s keys) : keys.length ≤ s.above.length := by
  induction h with
  | ends => exact Nat.zero_le _
  | called htakes => exact Nat.lt_of_le_of_lt (Nat.zero_le _) htakes.length_above_lt
  | goes htakes _ _ ih => exact Nat.lt_of_le_of_lt ih htakes.length_above_lt

/-- Whatever holds of the key of every step in a tree holds of all keys of a climb in it. -/
theorem forall_keys {P : String → Prop}
    (hstep : ∀ s a key, Site.Under (Site.root root) s → Takes source s a key → P key)
    (h : Climbs source s keys) (hs : Site.Under (Site.root root) s) : ∀ key ∈ keys, P key := by
  induction h with
  | ends => exact fun key hkey => absurd hkey List.not_mem_nil
  | called htakes => exact List.forall_mem_singleton.mpr (hstep _ _ _ hs htakes)
  | goes htakes _ _ ih =>
      exact List.forall_mem_cons.mpr ⟨hstep _ _ _ hs htakes, ih (htakes.under hs)⟩

end Climbs

/-! ### The climb of a read -/

/-- The keys of the accesses that a path goes through are those of a climb. -/
theorem climbs_takenFrom (source : String) (above : List Tree) : ∀ t : Tree,
    Climbs source ⟨t, above⟩ ((takenFrom source t above).filterMap (keyOf? source)) := by
  induction above with
  | nil =>
      intro t
      refine .ends fun a key htakes => ?_
      have haround : none = some a := htakes.around
      contradiction
  | cons p above ih =>
      intro t
      rw [takenFrom]
      split
      · -- A wrapper is passed without a step: the climb is that of the wrapper.
        rename_i hwraps
        refine (ih p).of_outermost_eq ?_
        rw [Site.outermost_cons, if_pos hwraps]
      · rename_i hwraps
        split
        · rename_i hnone
          refine .ends fun a key h => ?_
          obtain ⟨-, hkey, -⟩ := (takes_cons_iff hwraps).mp h
          rw [hnone] at hkey
          contradiction
        · rename_i key hkey
          have hkeyOf := keyOf?_of_accessKey? hkey
          split
          · -- The parent is an access, but into a slot or assigned.
            rename_i hstop
            refine .ends fun a key' h => ?_
            obtain ⟨-, hkey', hslot, htarget⟩ := (takes_cons_iff hwraps).mp h
            obtain rfl : key = key' := Option.some.inj (hkey.symm.trans hkey')
            rcases hstop with hcurrent | hassigned
            · exact hslot hcurrent
            · rw [hassigned] at htarget
              contradiction
          · rename_i hgoes
            rw [not_or, Bool.not_eq_true] at hgoes
            have hnext : Takes source ⟨t, p :: above⟩ ⟨p, above⟩ key :=
              (takes_cons_iff hwraps).mpr ⟨rfl, hkey, hgoes⟩
            split
            · rename_i hcalled
              rw [List.filterMap_cons_some hkeyOf, List.filterMap_nil]
              exact .called hnext hcalled
            · rename_i hcalled
              rw [List.filterMap_cons_some hkeyOf]
              exact .goes hnext (by simpa using hcalled) (ih p)

/-- From every site there is one climb. -/
theorem climbs_iff : Climbs source s keys ↔ keys = (taken source s).filterMap (keyOf? source) := by
  have hclimbs : Climbs source s ((taken source s).filterMap (keyOf? source)) :=
    climbs_takenFrom source s.above s.tree
  exact ⟨fun h => h.unique hclimbs, fun h => h ▸ hclimbs⟩

/-- The path of a read is its name and the keys that the climb takes. -/
theorem pathAt_eq_of_climbs (h : Climbs source s keys) :
    pathAt source s = ofKeys (s.text source) keys := by
  rw [pathAt_eq, ← climbs_iff.mp h]

/-! ### Slots -/

/-- Names and properties hold no dot. -/
structure Dotless (source : String) (root : Tree) : Prop where
  names : ∀ s, Site.Under (Site.root root) s → isNameKind s.kind = true → Plain (s.text source)
  properties : ∀ s, Site.Under (Site.root root) s → s.kind = .member →
    ∀ p ∈ s.field? .property, Plain (p.text source)

theorem Dotless.plain_key (hdots : Dotless source root) (ha : Site.Under (Site.root root) a)
    (h : keyOf? source a = some key) : Plain key := by
  unfold keyOf? at h
  split at h
  · obtain ⟨p, hp, rfl⟩ := Option.map_eq_some_iff.mp h
    exact hdots.properties a ha ‹_› p hp
  · exact plain_of_subscriptKey? h
  · contradiction

/-- The keys of a climb are segments, none of them a slot. -/
theorem Climbs.keys_plain (hdots : Dotless source root) (hs : Site.Under (Site.root root) s)
    (h : Climbs source s keys) : ∀ key ∈ keys, Plain key ∧ key ≠ "current" :=
  h.forall_keys (fun _ _ _ hs htakes =>
    ⟨hdots.plain_key (htakes.under hs) htakes.names, htakes.notSlot⟩) hs

/-- The path of a read has the name and the keys of the climb for segments. -/
theorem segments_of_climbs (hdots : Dotless source root) (hs : Site.Under (Site.root root) s)
    (hname : isNameKind s.kind = true) (h : Climbs source s keys) :
    (pathAt source s).segments = s.text source :: keys := by
  rw [pathAt_eq_of_climbs h]
  exact segments_ofKeys (hdots.names s hs hname) fun key hkey => (h.keys_plain hdots hs key hkey).1

theorem current_not_mem_segments (hdots : Dotless source root)
    (hs : Site.Under (Site.root root) s) (hname : isNameKind s.kind = true) :
    "current" ∉ (pathAt source s).segments.tail := by
  have hclimbs : Climbs source s _ := climbs_iff.mpr rfl
  rw [segments_of_climbs hdots hs hname hclimbs, List.tail_cons]
  exact fun hcurrent => (hclimbs.keys_plain hdots hs _ hcurrent).2 rfl

theorem isMutableSlot_pathAt (hdots : Dotless source root) (hs : Site.Under (Site.root root) s)
    (hname : isNameKind s.kind = true) : (pathAt source s).isMutableSlot = false := by
  have hclimbs : Climbs source s _ := climbs_iff.mpr rfl
  have hkeys := hclimbs.keys_plain hdots hs
  rw [Bool.eq_false_iff, pathAt_eq_of_climbs hclimbs]
  intro hslot
  have hcurrent := isMutableSlot_ofKeys (hdots.names s hs hname)
    (fun key hkey => (hkeys key hkey).1) hslot
  exact (hkeys _ hcurrent).2 rfl

/-- A read is of a name in the tree. -/
theorem exists_name_of_mem_reads {callback : Site} {read : Read}
    (h : read ∈ (extract (Graph.build source root) source callback).reads) :
    ∃ x, Site.Under (Site.root root) x ∧ isNameKind x.kind = true ∧
      read.path = pathAt source x := by
  obtain ⟨scope, r, -, hr, -, hpath⟩ := mem_reads h
  obtain ⟨hunder, hname, -⟩ := Graph.site_of_mem_references (mem_outerReferences.mp hr).1
  exact ⟨r.site, hunder, hname, hpath⟩

/-- Required paths never enter a slot.  From every name of a tree there is exactly one climb, and it
takes no more keys than there are nodes above the name.  The path read at the name starts with the
name, its other segments are the keys of the climb, and none of them is `current`.  So no path that
a callback requires goes through a slot, and none that its array lacks is a mutable slot. -/
theorem required_paths_avoid_slots (hdots : Dotless source root) :
    (∀ x, Site.Under (Site.root root) x → isNameKind x.kind = true →
      (∃! keys, Climbs source x keys) ∧
      (∀ keys, Climbs source x keys → keys.length ≤ x.above.length ∧
        (pathAt source x).segments = x.text source :: keys) ∧
      (pathAt source x).root = x.text source ∧
      "current" ∉ (pathAt source x).segments.tail) ∧
    ∀ (callback : Site) (classify : BindingId → Stability),
      let required := Requirements.ofReads
        (extract (Graph.build source root) source callback).reads classify
      (∀ p ∈ required.reactive, "current" ∉ p.segments.tail) ∧
      ∀ declared, ∀ p ∈ (compare required declared classify).missing, p.isMutableSlot = false := by
  refine ⟨fun x hx hname => ?_, fun callback classify => ⟨fun p hp => ?_, fun declared p hp => ?_⟩⟩
  · refine ⟨⟨_, climbs_iff.mpr rfl, fun keys h => climbs_iff.mp h⟩, fun keys h => ?_, ?_, ?_⟩
    · exact ⟨h.length_le, segments_of_climbs hdots hx hname h⟩
    · exact root_pathAt (hdots.names x hx hname)
    · exact current_not_mem_segments hdots hx hname
  · obtain ⟨read, hread, rfl, -⟩ := mem_reactive.mp hp
    obtain ⟨x, hx, hname, hpath⟩ := exists_name_of_mem_reads hread
    rw [hpath]
    exact current_not_mem_segments hdots hx hname
  · obtain ⟨read, hread, rfl, -⟩ := mem_reactive.mp (mem_missing hp).1
    obtain ⟨x, hx, hname, hpath⟩ := exists_name_of_mem_reads hread
    rw [hpath]
    exact isMutableSlot_pathAt hdots hx hname

/-! ### An instance -/

def refSource : String := "p => useMemo(() => (p.a!)[\"b\"].current, [])"

/-- The tree of `refSource`: the callback reads a ref out of `p` and enters its slot. -/
def refTree : Tree :=
  .node ⟨0, "program", .other, true, false, [], 0, 43⟩
    [.node ⟨1, "arrow_function", .arrowFunction, true, false, [], 0, 43⟩
      [.node ⟨2, "identifier", .identifier, true, false, [.parameter], 0, 1⟩ [],
      .node ⟨3, "call_expression", .call, true, false, [.body], 5, 43⟩
        [.node ⟨4, "identifier", .identifier, true, false, [.function], 5, 12⟩ [],
        .node ⟨5, "arguments", .arguments, true, false, [.arguments], 12, 43⟩
          [.node ⟨6, "arrow_function", .arrowFunction, true, false, [], 13, 38⟩
            [.node ⟨7, "formal_parameters", .other, true, false, [.parameters], 13, 15⟩ [],
            .node ⟨8, "member_expression", .member, true, false, [.body], 19, 38⟩
              [.node ⟨9, "subscript_expression", .subscript, true, false, [.object], 19, 30⟩
                [.node ⟨10, "parenthesized_expression", .parenthesized, true, false, [.object], 19, 25⟩
                  [.node ⟨11, "non_null_expression", .assertion, true, false, [], 20, 24⟩
                    [.node ⟨12, "member_expression", .member, true, false, [], 20, 23⟩
                      [.node ⟨13, "identifier", .identifier, true, false, [.object], 20, 21⟩ [],
                      .node ⟨14, "property_identifier", .other, true, false, [.property], 22, 23⟩ []]]],
                .node ⟨15, "string", .string, true, false, [.index], 26, 29⟩ []],
              .node ⟨16, "property_identifier", .other, true, false, [.property], 31, 38⟩ []]],
          .node ⟨17, "array", .array, true, false, [], 40, 42⟩ []]]]]

def refSubject : Subject :=
  { source := refSource, graph := Graph.build refSource refTree
    options := { severity := .high, convention := .default }
    call := Hook.firstCall refSource refTree (by decide +kernel) }

theorem ref_dotless : Dotless refSource refTree := by
  have hnames : ∀ s ∈ (Site.root refTree).descendants,
      isNameKind s.kind = true → Plain (s.text refSource) := by decide +kernel
  have hproperties : ∀ s ∈ (Site.root refTree).descendants, s.kind = .member →
      ∀ p ∈ s.field? .property, Plain (p.text refSource) := by decide +kernel
  exact ⟨fun s hs => hnames s (Site.mem_descendants hs),
    fun s hs => hproperties s (Site.mem_descendants hs)⟩

theorem ref_read : ∃ read ∈ refSubject.extraction.reads,
    read.path = ⟨"p.a.b"⟩ ∧ refSubject.classifier.classify read.binding = .reactive := by
  have hscope : refSubject.graph.scopeAt? refSubject.call.callback = some 2 := by decide +kernel
  have houter : ∃ p ∈ outerReferences refSubject.graph 2, p.1.access.isRead = true ∧
      (freeRead refSource p).path = ⟨"p.a.b"⟩ ∧
        refSubject.classifier.classify (freeRead refSource p).binding = .reactive := by
    decide +kernel
  obtain ⟨p, hp, hread, hpath, hclass⟩ := houter
  exact ⟨_, freeRead_mem_reads hscope hp hread, hpath, hclass⟩

theorem required_paths_avoid_slots_wrapped :
    Dotless refSource refTree ∧
    (∃ x, Site.Under (Site.root refTree) x ∧ isNameKind x.kind = true ∧
      pathAt refSource x = ⟨"p.a.b"⟩ ∧ Climbs refSource x ["a", "b"]) ∧
    ∃ m ∈ (refSubject.diff []).missing, m.covers ⟨"p.a.b"⟩ = true ∧ m.isMutableSlot = false := by
  obtain ⟨hclimbs, hslots⟩ := required_paths_avoid_slots ref_dotless
  obtain ⟨read, hread, hpath, hclass⟩ := ref_read
  refine ⟨ref_dotless, ?_, ?_⟩
  · obtain ⟨x, hx, hname, hat⟩ := exists_name_of_mem_reads hread
    obtain ⟨⟨keys, hkeys, -⟩, hsegments, -⟩ := hclimbs x hx hname
    have hpathAt : pathAt refSource x = ⟨"p.a.b"⟩ := hat.symm.trans hpath
    have hcut : segments ⟨"p.a.b"⟩ = ["p", "a", "b"] := by decide +kernel
    obtain ⟨-, hsegments⟩ := hsegments keys hkeys
    rw [hpathAt, hcut] at hsegments
    injection hsegments with _ htail
    exact ⟨x, hx, hname, hpathAt, htail ▸ hkeys⟩
  · have hrequired : ⟨"p.a.b"⟩ ∈ refSubject.requirements.reactive :=
      mem_reactive.mpr ⟨read, hread, hpath, hclass⟩
    have hnot : ¬ IsCovered [] ⟨"p.a.b"⟩ := by
      rintro ⟨e, he, -⟩
      exact absurd he List.not_mem_nil
    obtain ⟨m, hm, hcovers⟩ :=
      exists_missing_covers refSubject.classifier.classify hrequired hnot
    obtain ⟨-, hmissing⟩ := hslots refSubject.call.callback refSubject.classifier.classify
    exact ⟨m, hm, hcovers, hmissing [] m hm⟩

end HookLint.Dependency
