/-
A path stands for one binding.

Paths are compared as texts, although a name may be declared many times.  This is sound
because everything that is compared is seen from one place.  Climbing adds keys after a
dot, so what stands before the first dot of a path is the name of its identifier
(`root_pathAt`, `Spells.root_eq`); and that name, read inside the callback of something
outside or spelled in the array, means what it means in the scope that the callback and
the array share.  An inner declaration of the same name hides the outer one, and what it
hides is not read from outside.

So the name a path starts with decides the binding (`path_stands_for_binding`), no path is
required twice over, once as reactive and once as stable, and leaving out repeated paths
loses no binding.
-/
import HookLint.Proofs.Settled

namespace HookLint.Dependency

open HookLint.Syntax HookLint.Scope HookLint.Dependency.Path

namespace Path

/-! ### The name before the first dot -/

@[simp]
theorem root_push (p : Path) (key : String) : (p.push key).root = p.root := by
  have htext : (p.push key).text.toList = p.text.toList ++ '.' :: key.toList := by
    rw [push, String.toList_append, String.toList_append]
    simp
  -- The dot that is added ends the name, unless it has ended before.
  rw [root, root, htext]
  congr 1
  induction p.text.toList with
  | nil => simp
  | cons c cs ih =>
      rw [List.cons_append, List.takeWhile_cons, List.takeWhile_cons, ih]

theorem root_of_plain {name : String} (h : Plain name) : (⟨name⟩ : Path).root = name := by
  have hall : ∀ c ∈ name.toList, decide (c ≠ '.') = true := by
    intro c hc
    exact decide_eq_true fun hdot => h (hdot ▸ hc)
  have htake : (name.toList ++ []).takeWhile (· ≠ '.') = name.toList ++ [].takeWhile (· ≠ '.') :=
    List.takeWhile_append_of_pos hall
  rw [List.append_nil, List.takeWhile_nil, List.append_nil] at htake
  rw [root, htake, String.ofList_toList]

end Path

variable {source : String} {root : Tree} {convention : Hook.Convention} {call : Hook.Call}

/-- Climbing leaves the name in front as it is. -/
theorem root_climb (source : String) (above : List Tree) :
    ∀ (path : Path) (t : Tree), (climb source path t above).root = path.root := by
  induction above with
  | nil =>
      intro path t
      rfl
  | cons p above ih =>
      intro path t
      rw [climb]
      split
      · exact ih path p
      · split
        · rfl
        · split
          · rfl
          · split
            · exact root_push path _
            · rw [ih, root_push]

theorem root_pathAt {x : Site} (h : Plain (x.text source)) :
    (pathAt source x).root = x.text source := by
  rw [pathAt, root_climb, root_of_plain h]

/-- A spelled path starts with the name of its identifier. -/
theorem Spells.root_eq {s : Site} {path : Path} {ident : Site} (h : Spells source s path ident)
    (hplain : Plain (ident.text source)) : path.root = ident.text source := by
  induction h with
  | name => exact root_of_plain hplain
  | member _ _ _ _ ih => rw [root_push, ih hplain]
  | subscript _ _ _ _ ih => rw [root_push, ih hplain]

/-! ### Names -/

/-- What the grammars promise of names: a node fills one field, names hold no dot, and the object
of an access is an expression. -/
structure PlainNames (source : String) (root : Tree) : Prop where
  oneField : root.OneField
  plain : ∀ s, Site.Under (Site.root root) s → isNameKind s.kind = true → Plain (s.text source)
  properObjects : ProperObjects root

/-- A read's path starts with a name that means its binding beside the callback. -/
theorem ReadBeside.lookup?_root (hnames : PlainNames source root) {beside : ScopeId} {read : Read}
    (h : ReadBeside source root beside read) :
    (Graph.build source root).lookup? beside read.path.root = some read.binding := by
  rw [h.path, root_pathAt (hnames.plain _ h.under h.kind)]
  exact h.meaning

/-- An entry's path starts with a name that means the entry's root beside the callback. -/
theorem root_eq_lookup?_root (hnum : root.Numbered) (hnames : PlainNames source root)
    (hcall : call ∈ Hook.calls source convention root) {scope beside : ScopeId} {inside : List Site}
    (hstands : StandsIn source root call.callback scope beside inside) {deps : Site}
    (hdeps : call.dependencies = some deps) {array : Site} {entries : List Entry}
    (hdecl : Declared.ofSite (Graph.build source root) source deps = .array array entries)
    {e : Entry} (he : e ∈ entries) {path : Path} (hpath : e.path? = some path) :
    e.root = (Graph.build source root).lookup? beside path.root := by
  obtain ⟨site, ident, hunder, hspells, hroot⟩ := exists_ident_of_entry hnum hnames.oneField
    hnames.properObjects hcall hstands hdeps hdecl he hpath
  obtain ⟨hident, hidentUnder⟩ := hspells.ident_kind hunder
  have hplain : Plain (ident.text source) := hnames.plain _ hidentUnder (by rw [hident]; rfl)
  rw [hroot, hspells.root_eq hplain]

/-! ### Requirements -/

/-- What is allowed as stable is the path of a read of a stable binding. -/
theorem mem_stable {reads : List Read} {classify : BindingId → Stability} {q : Path} :
    q ∈ (Requirements.ofReads reads classify).stable ↔
      ∃ read ∈ reads, read.path = q ∧ (classify read.binding).isStable = true := by
  unfold Requirements.ofReads
  rw [mem_firsts, List.mem_map]
  constructor
  · rintro ⟨read, hread, hpath⟩
    obtain ⟨hread, hclass⟩ := List.mem_filter.mp hread
    exact ⟨read, hread, hpath, hclass⟩
  · rintro ⟨read, hread, hpath, hclass⟩
    exact ⟨read, List.mem_filter.mpr ⟨hread, hclass⟩, hpath⟩

/-- The path is read, and every read of it is a read of the binding. -/
structure StandsFor (reads : List Read) (p : Path) (b : BindingId) : Prop where
  read : ∃ r ∈ reads, r.path = p
  only : ∀ r ∈ reads, r.path = p → r.binding = b

/-- Names decide bindings in a list of reads. -/
def NamesDecide (reads : List Read) : Prop :=
  ∀ r ∈ reads, ∀ r' ∈ reads, r.path.root = r'.path.root → r.binding = r'.binding

theorem NamesDecide.standsFor {reads : List Read} (h : NamesDecide reads) {r : Read}
    (hr : r ∈ reads) : StandsFor reads r.path r.binding :=
  ⟨⟨r, hr, rfl⟩, fun r' hr' hpath => h r' hr' r hr (congrArg Path.root hpath)⟩

/-- No path is both reactive and stable. -/
theorem NamesDecide.disjoint {reads : List Read} (h : NamesDecide reads)
    (classify : BindingId → Stability) {p : Path}
    (hp : p ∈ (Requirements.ofReads reads classify).reactive) :
    p ∉ (Requirements.ofReads reads classify).stable := by
  intro hstable
  obtain ⟨r, hr, hpath, hclass⟩ := mem_reactive.mp hp
  obtain ⟨r', hr', hpath', hclass'⟩ := mem_stable.mp hstable
  have hbinding : r'.binding = r.binding := (h.standsFor hr).only r' hr' (hpath'.trans hpath.symm)
  rw [hbinding, hclass] at hclass'
  contradiction

/-- A path stands for one binding.  Reads of a callback whose paths start with the same name are
reads of one binding, and an entry of the array whose path starts with that name starts at it too.
So no path is required as reactive and as stable at once, and where repeated paths are left out,
all reads of a path that stays are reads of one binding, of the stability the path stays for. -/
theorem path_stands_for_binding (hnum : root.Numbered) (hnames : PlainNames source root)
    (hcall : call ∈ Hook.calls source convention root) :
    let graph := Graph.build source root
    let reads := (extract graph source call.callback).reads
    NamesDecide reads ∧
    (∀ deps array entries, call.dependencies = some deps →
      Declared.ofSite graph source deps = .array array entries →
      ∀ e ∈ entries, ∀ p, e.path? = some p → ∀ r ∈ reads, r.path.root = p.root →
        e.root = some r.binding) ∧
    ∀ classify : BindingId → Stability,
      (∀ p ∈ (Requirements.ofReads reads classify).reactive,
        p ∉ (Requirements.ofReads reads classify).stable) ∧
      (∀ p ∈ (Requirements.ofReads reads classify).reactive,
        ∃ b, classify b = .reactive ∧ StandsFor reads p b) ∧
      ∀ p ∈ (Requirements.ofReads reads classify).stable,
        ∃ b, (classify b).isStable = true ∧ StandsFor reads p b := by
  intro graph reads
  obtain ⟨beside, inside, hreads⟩ := readBeside_of_mem_reads hnum hnames.oneField hcall
  have hdecide : NamesDecide reads := by
    intro r hr r' hr' hroot
    have hlookup := (hreads r hr).2.lookup?_root hnames
    have hlookup' := (hreads r' hr').2.lookup?_root hnames
    rw [hroot, hlookup'] at hlookup
    exact (Option.some.inj hlookup).symm
  refine ⟨hdecide, ?_, fun classify => ⟨fun p hp => hdecide.disjoint classify hp, ?_, ?_⟩⟩
  · intro deps array entries hdeps hdecl e he p hpath r hr hroot
    obtain ⟨⟨scope, hstands⟩, hbeside⟩ := hreads r hr
    have hlookup := hbeside.lookup?_root hnames
    rw [root_eq_lookup?_root hnum hnames hcall hstands hdeps hdecl he hpath, ← hroot]
    exact hlookup
  · intro p hp
    obtain ⟨r, hr, rfl, hclass⟩ := mem_reactive.mp hp
    exact ⟨r.binding, hclass, hdecide.standsFor hr⟩
  · intro p hp
    obtain ⟨r, hr, rfl, hclass⟩ := mem_stable.mp hp
    exact ⟨r.binding, hclass, hdecide.standsFor hr⟩

/-! ### An instance -/

def hidingSource : String := "x => useMemo(() => [x.a, x => x.a, x], [x.b])"

/-- The tree of `hidingSource`: the path `x.a` stands twice in the callback, the second time for an
`x` that the callback declares itself. -/
def hidingTree : Tree :=
  .node ⟨0, "program", .other, true, false, [], 0, 45⟩
    [.node ⟨1, "arrow_function", .arrowFunction, true, false, [], 0, 45⟩
      [.node ⟨2, "identifier", .identifier, true, false, [.parameter], 0, 1⟩ [],
      .node ⟨3, "call_expression", .call, true, false, [.body], 5, 45⟩
        [.node ⟨4, "identifier", .identifier, true, false, [.function], 5, 12⟩ [],
        .node ⟨5, "arguments", .arguments, true, false, [.arguments], 12, 45⟩
          [.node ⟨6, "arrow_function", .arrowFunction, true, false, [], 13, 37⟩
            [.node ⟨7, "formal_parameters", .other, true, false, [.parameters], 13, 15⟩ [],
            .node ⟨8, "array", .array, true, false, [.body], 19, 37⟩
              [.node ⟨9, "member_expression", .member, true, false, [], 20, 23⟩
                [.node ⟨10, "identifier", .identifier, true, false, [.object], 20, 21⟩ [],
                .node ⟨11, "property_identifier", .other, true, false, [.property], 22, 23⟩ []],
              .node ⟨12, "arrow_function", .arrowFunction, true, false, [], 25, 33⟩
                [.node ⟨13, "identifier", .identifier, true, false, [.parameter], 25, 26⟩ [],
                .node ⟨14, "member_expression", .member, true, false, [.body], 30, 33⟩
                  [.node ⟨15, "identifier", .identifier, true, false, [.object], 30, 31⟩ [],
                  .node ⟨16, "property_identifier", .other, true, false, [.property], 32, 33⟩ []]],
              .node ⟨17, "identifier", .identifier, true, false, [], 35, 36⟩ []]],
          .node ⟨18, "array", .array, true, false, [], 39, 44⟩
            [.node ⟨19, "member_expression", .member, true, false, [], 40, 43⟩
              [.node ⟨20, "identifier", .identifier, true, false, [.object], 40, 41⟩ [],
              .node ⟨21, "property_identifier", .other, true, false, [.property], 42, 43⟩ []]]]]]]

def hidingCall : Hook.Call := Hook.firstCall hidingSource hidingTree (by decide +kernel)

/-- The array of `hidingSource`. -/
def hidingDeps : Site := hidingCall.dependencies.get (by decide +kernel)

theorem hiding_plainNames : PlainNames hidingSource hidingTree := by
  have hplain : ∀ s ∈ (Site.root hidingTree).descendants,
      isNameKind s.kind = true → Plain (s.text hidingSource) := by decide +kernel
  have hobjects : ∀ s ∈ (Site.root hidingTree).descendants, s.kind = .member ∨ s.kind = .subscript →
      ∀ o ∈ s.field? .object, o.isProper = true := by decide +kernel
  exact ⟨by decide, fun s hs => hplain s (Site.mem_descendants hs),
    fun s hs => hobjects s (Site.mem_descendants hs)⟩

theorem path_stands_for_binding_hiding :
    hidingTree.Numbered ∧ PlainNames hidingSource hidingTree ∧
    (∃ r ∈ (extract (Graph.build hidingSource hidingTree) hidingSource hidingCall.callback).reads,
      r.path = ⟨"x.a"⟩ ∧ r.binding = 0) ∧
    (∀ r ∈ (extract (Graph.build hidingSource hidingTree) hidingSource hidingCall.callback).reads,
      r.path = ⟨"x.a"⟩ → r.binding = 0) ∧
    (∀ e ∈ hidingDeps.unwrap.namedChildren.map
      (Entry.ofSite (Graph.build hidingSource hidingTree) hidingSource),
      e.path? = some ⟨"x.b"⟩ → e.root = some 0) := by
  have hnum : hidingTree.Numbered := by decide
  have hscope : (Graph.build hidingSource hidingTree).scopeAt? hidingCall.callback = some 2 := by
    decide +kernel
  have houter : ∃ p ∈ outerReferences (Graph.build hidingSource hidingTree) 2,
      p.1.access.isRead = true ∧ (freeRead hidingSource p).path = ⟨"x.a"⟩ ∧
        (freeRead hidingSource p).binding = 0 := by decide +kernel
  obtain ⟨p, hp, hread, hpath, hbinding⟩ := houter
  have hmem : freeRead hidingSource p ∈
      (extract (Graph.build hidingSource hidingTree) hidingSource hidingCall.callback).reads :=
    freeRead_mem_reads hscope hp hread
  have hcall : hidingCall ∈ Hook.calls hidingSource .default hidingTree := Hook.firstCall_mem _
  obtain ⟨hdecide, hentries, -⟩ := path_stands_for_binding hnum hiding_plainNames hcall
  have hdecl : Declared.ofSite (Graph.build hidingSource hidingTree) hidingSource hidingDeps =
      .array hidingDeps.unwrap (hidingDeps.unwrap.namedChildren.map
        (Entry.ofSite (Graph.build hidingSource hidingTree) hidingSource)) :=
    Declared.ofSite_of_array (by decide +kernel) (by decide +kernel)
  refine ⟨hnum, hiding_plainNames, ⟨_, hmem, hpath, hbinding⟩, fun r hr hr' => ?_,
    fun e he hxb => ?_⟩
  · rw [← hbinding]
    exact (hdecide.standsFor hmem).only r hr (hr'.trans hpath.symm)
  · rw [← hbinding]
    refine hentries _ _ _ (Option.some_get _).symm hdecl e he _ hxb _ hmem ?_
    rw [hpath]
    decide

end HookLint.Dependency
