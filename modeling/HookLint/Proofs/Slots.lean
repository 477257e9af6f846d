/-
Entries that go through a ref's mutable slot.

No path that is read has the key `current`, so a declared path with that key covers
nothing that is read.  Such an entry is thrown out as a mutable slot when `current` is
its last key.  When more keys follow, one way is left for it to be kept: the callback
reads a stable value that the path starts with, such as the ref itself
(`slot_entry_kept_iff`).
-/
import HookLint.Proofs.Accounting
import HookLint.Proofs.PathMeaning
import HookLint.Proofs.Segments

namespace HookLint.Dependency

open HookLint.Syntax HookLint.Scope

namespace Path

/-! ### Segments -/

variable {name : String} {keys : List String}

theorem segments_ofKeys (hn : Plain name) (hk : ∀ k ∈ keys, Plain k) :
    (ofKeys name keys).segments = name :: keys := by
  induction keys using List.reverseRecOn with
  | nil =>
      show (Text.cutAt '.' name.toList).map String.ofList = [name]
      rw [Text.cutAt_of_notMem hn, List.map_singleton, String.ofList_toList]
  | append_singleton keys key ih =>
      have hkey : Plain key := hk key (List.mem_append_right _ (List.mem_singleton_self _))
      have hrest := ih fun k hk' => hk k (List.mem_append_left _ hk')
      rw [ofKeys_concat, segments_push _ hkey, hrest, List.cons_append]

theorem hasDot_ofKeys (h : keys ≠ []) : (ofKeys name keys).hasDot = true := by
  rw [← List.dropLast_concat_getLast h, ofKeys_concat]
  simp [hasDot, push]

/-- A path with keys is a mutable slot when the last of them says so. -/
theorem isMutableSlot_eq_false_iff (h : keys ≠ []) :
    (ofKeys name keys).isMutableSlot = false ↔ (ofKeys name keys).last ≠ "current" := by
  simp [isMutableSlot, hasDot_ofKeys h]

end Path

open HookLint.Dependency.Path

variable {root : Tree} {req : Requirements} {classify : BindingId → Stability} {es : List Entry}

/-! ### What is kept -/

/-- The first entry for a path is kept when the path is of use. -/
theorem mem_kept_iff {i : Nat} {e : Entry} {p : Path} (he : es[i]? = some e)
    (hpath : e.path? = some p) : i ∈ (compare req es classify).kept ↔
      ¬ DeclaredBefore es i p ∧ Warranted req classify e p := by
  rw [kept_eq, mem_positionsWhere, declaredBefore_iff, warranted_iff]
  constructor
  · rintro ⟨e', he', hkeep⟩
    obtain rfl : e = e' := Option.some.inj (he.symm.trans he')
    rw [verdict_of_path? hpath] at hkeep
    split at hkeep
    · contradiction
    · exact ⟨‹_›, by simpa using hkeep⟩
  · rintro ⟨hbefore, hkeep⟩
    exact ⟨e, he, by rw [verdict_of_path? hpath, if_neg hbefore, hkeep]; rfl⟩

/-- A path through a slot covers nothing that is read. -/
theorem ReadOf.not_covers {g : Graph} {beside : ScopeId} {read : Read} {name name' : String}
    {keys keys' : List String} (hread : ReadOf g beside read name' keys') (hname : Plain name)
    (hkeys : ∀ k ∈ keys, Plain k) (hslot : "current" ∈ keys) :
    (ofKeys name keys).covers read.path = false := by
  rw [Bool.eq_false_iff, hread.path]
  intro hcov
  obtain ⟨-, hsub⟩ := (covers_ofKeys hname hread.plainName hkeys hread.plainKeys).mp hcov
  exact hread.notCurrent _ (hsub.subset hslot) rfl

/-- When an entry is kept whose path goes through a ref's mutable slot: it is the first of its path,
`current` is not the last segment, and the callback reads a stable value that the path starts
with. -/
theorem slot_entry_kept_iff {s : Subject} (hnum : root.Numbered) (hg : Grammatical s.source root)
    (hgraph : s.graph = Graph.build s.source root)
    (hcall : s.call ∈ Hook.calls s.source s.options.convention root) {deps : Site}
    (hdeps : s.call.dependencies = some deps) {array : Site} {entries : List Entry}
    (hdecl : Declared.ofSite s.graph s.source deps = .array array entries) {i : Nat} {e : Entry}
    (he : entries[i]? = some e) {p : Path} (hpath : e.path? = some p)
    (hslot : "current" ∈ p.segments.tail) :
    i ∈ (s.diff entries).kept ↔ ¬ DeclaredBefore entries i p ∧ p.last ≠ "current" ∧
      ∃ read ∈ s.extraction.reads, e.root = some read.binding ∧
        (s.classifier.classify read.binding).isStable = true ∧ read.path.covers p = true := by
  obtain ⟨beside, inside, hreads⟩ := readOf_of_mem_reads hnum hg hcall
  rw [← hgraph] at hreads
  -- The entry is a name and keys, and the name means what it means beside the callback.
  have hentry : ∀ read ∈ s.extraction.reads, ∃ name keys, p = ofKeys name keys ∧ Plain name ∧
      (∀ k ∈ keys, Plain k) ∧ "current" ∈ keys ∧ e.root = s.graph.lookup? beside name := by
    intro read hread
    obtain ⟨⟨scope, hstands⟩, -⟩ := hreads read hread
    obtain ⟨name, keys, rfl, hname, hkeys, hroot⟩ := root_of_entry hnum hg hcall hstands hdeps
      (hgraph ▸ hdecl) (List.mem_of_getElem? he) hpath
    rw [segments_ofKeys hname hkeys, List.tail_cons] at hslot
    exact ⟨name, keys, rfl, hname, hkeys, hslot, hgraph ▸ hroot⟩
  have hidle : ∀ read ∈ s.extraction.reads, p.covers read.path = false := by
    intro read hread
    obtain ⟨-, name', keys', hreadOf⟩ := hreads read hread
    obtain ⟨name, keys, rfl, hname, hkeys, hcurrent, -⟩ := hentry read hread
    exact hreadOf.not_covers hname hkeys hcurrent
  have hlast : ∀ read ∈ s.extraction.reads, p.isMutableSlot = false ↔ p.last ≠ "current" := by
    intro read hread
    obtain ⟨name, keys, rfl, -, -, hcurrent, -⟩ := hentry read hread
    exact isMutableSlot_eq_false_iff (List.ne_nil_of_mem hcurrent)
  unfold Subject.diff
  rw [mem_kept_iff he hpath]
  refine and_congr_right fun _ => ?_
  constructor
  · intro hwarranted
    rcases hwarranted.used with ⟨q, hq, hcov⟩ | ⟨⟨b, hroot, hstable⟩, q, hq, hcov⟩
    · obtain ⟨read, hread, rfl, -⟩ := mem_reactive.mp hq
      exact absurd (hcov.symm.trans (hidle read hread)) (by simp)
    · obtain ⟨read, hread, rfl, hclass⟩ := mem_stable.mp hq
      have hcovered : read.path.covers p = true := by
        rcases hcov with hcov | hcov
        · exact absurd (hcov.symm.trans (hidle read hread)) (by simp)
        · exact hcov
      refine ⟨(hlast read hread).mp hwarranted.slot, read, hread, ?_, hclass, hcovered⟩
      obtain ⟨-, name', keys', hreadOf⟩ := hreads read hread
      obtain ⟨name, keys, rfl, hname, hkeys, -, hmeans⟩ := hentry read hread
      rw [hreadOf.path, covers_ofKeys hreadOf.plainName hname hreadOf.plainKeys hkeys] at hcovered
      rw [hmeans, ← hcovered.1, hreadOf.meaning]
  · rintro ⟨hcurrent, read, hread, hroot, hstable, hcov⟩
    refine ⟨(hlast read hread).mpr hcurrent, ⟨read.binding, hroot, fun hext => ?_⟩, Or.inr
      ⟨⟨read.binding, hroot, hstable⟩, read.path, mem_stable.mpr ⟨read, hread, rfl, hstable⟩,
        Or.inr hcov⟩⟩
    exact absurd hstable (by rw [hext]; nofun)

/-! ### An instance -/

def slotSource : String :=
  "() => \x7b const r = useRef(); useMemo(() => r.current.x, [r.current.x, r.current]) \x7d"

/-- The tree of `slotSource`: the callback reads the ref `r`, and both entries go through its
slot. -/
def slotTree : Tree :=
  .node ⟨0, "program", .other, true, false, [], 0, 82⟩
    [.node ⟨1, "arrow_function", .arrowFunction, true, false, [], 0, 82⟩
      [.node ⟨2, "formal_parameters", .other, true, false, [.parameters], 0, 2⟩ [],
      .node ⟨3, "statement_block", .statementBlock, true, false, [.body], 6, 82⟩
        [.node ⟨4, "lexical_declaration", .lexicalDeclaration, true, false, [], 8, 27⟩
          [.node ⟨5, "const", .other, false, false, [.kind], 8, 13⟩ [],
          .node ⟨6, "variable_declarator", .declarator, true, false, [], 14, 26⟩
            [.node ⟨7, "identifier", .identifier, true, false, [.name], 14, 15⟩ [],
            .node ⟨8, "call_expression", .call, true, false, [.value], 18, 26⟩
              [.node ⟨9, "identifier", .identifier, true, false, [.function], 18, 24⟩ [],
              .node ⟨10, "arguments", .arguments, true, false, [.arguments], 24, 26⟩ []]]],
        .node ⟨11, "expression_statement", .other, true, false, [], 28, 80⟩
          [.node ⟨12, "call_expression", .call, true, false, [], 28, 80⟩
            [.node ⟨13, "identifier", .identifier, true, false, [.function], 28, 35⟩ [],
            .node ⟨14, "arguments", .arguments, true, false, [.arguments], 35, 80⟩
              [.node ⟨15, "arrow_function", .arrowFunction, true, false, [], 36, 53⟩
                [.node ⟨16, "formal_parameters", .other, true, false, [.parameters], 36, 38⟩ [],
                .node ⟨17, "member_expression", .member, true, false, [.body], 42, 53⟩
                  [.node ⟨18, "member_expression", .member, true, false, [.object], 42, 51⟩
                    [.node ⟨19, "identifier", .identifier, true, false, [.object], 42, 43⟩ [],
                    .node ⟨20, "property_identifier", .other, true, false, [.property], 44, 51⟩ []],
                  .node ⟨21, "property_identifier", .other, true, false, [.property], 52, 53⟩ []]],
              .node ⟨22, "array", .array, true, false, [], 55, 79⟩
                [.node ⟨23, "member_expression", .member, true, false, [], 56, 67⟩
                  [.node ⟨24, "member_expression", .member, true, false, [.object], 56, 65⟩
                    [.node ⟨25, "identifier", .identifier, true, false, [.object], 56, 57⟩ [],
                    .node ⟨26, "property_identifier", .other, true, false, [.property], 58, 65⟩ []],
                  .node ⟨27, "property_identifier", .other, true, false, [.property], 66, 67⟩ []],
                .node ⟨28, "member_expression", .member, true, false, [], 69, 78⟩
                  [.node ⟨29, "identifier", .identifier, true, false, [.object], 69, 70⟩ [],
                  .node ⟨30, "property_identifier", .other, true, false, [.property], 71, 78⟩ []]]]]]]]]

def slotSubject : Subject :=
  { source := slotSource, graph := Graph.build slotSource slotTree
    options := { severity := .high, convention := .default }
    call := Hook.firstCall slotSource slotTree (by decide +kernel) }

/-- The array of `slotSource`. -/
def slotDeps : Site := slotSubject.call.dependencies.get (by decide +kernel)

def slotEntries : List Entry :=
  slotDeps.unwrap.namedChildren.map (Entry.ofSite slotSubject.graph slotSource)

/-- The two entries, `r.current.x` and `r.current`. -/
def slotEntry (i : Fin 2) : Entry := (slotEntries[i.val]?).get (by revert i; decide +kernel)

theorem slot_entries :
    (slotEntry 0).path? = some ⟨"r.current.x"⟩ ∧ (slotEntry 0).root = some 0 ∧
    (slotEntry 1).path? = some ⟨"r.current"⟩ ∧
    slotSubject.classifier.classify 0 = .stable .refContainer := by decide +kernel

theorem slot_read :
    ∃ read ∈ slotSubject.extraction.reads, read.path = ⟨"r"⟩ ∧ read.binding = 0 := by
  have hscope : slotSubject.graph.scopeAt? slotSubject.call.callback = some 2 := by decide +kernel
  have houter : ∃ p ∈ outerReferences slotSubject.graph 2, p.1.access.isRead = true ∧
      (freeRead slotSource p).path = ⟨"r"⟩ ∧ (freeRead slotSource p).binding = 0 := by
    decide +kernel
  obtain ⟨p, hp, hread, hpath, hbinding⟩ := houter
  exact ⟨_, freeRead_mem_reads hscope hp hread, hpath, hbinding⟩

theorem slot_grammatical : Grammatical slotSource slotTree := by
  have hall : ∀ s ∈ (Site.root slotTree).descendants, WellSpelled slotSource s := by decide +kernel
  exact ⟨by decide, fun s hs => hall s (Site.mem_descendants hs)⟩

theorem slot_declared : Declared.ofSite slotSubject.graph slotSource slotDeps =
    .array slotDeps.unwrap slotEntries :=
  Declared.ofSite_of_array (by decide +kernel) (by decide +kernel)

theorem slot_entry_kept_iff_ref :
    slotTree.Numbered ∧ Grammatical slotSource slotTree ∧
    (slotEntry 0).path? = some ⟨"r.current.x"⟩ ∧ 0 ∈ (slotSubject.diff slotEntries).kept ∧
    (slotEntry 1).path? = some ⟨"r.current"⟩ ∧ 1 ∉ (slotSubject.diff slotEntries).kept := by
  have hnum : slotTree.Numbered := by decide
  have hcall : slotSubject.call ∈ Hook.calls slotSource .default slotTree :=
    Hook.firstCall_mem (by decide +kernel)
  obtain ⟨hfirst, hroot, hsecond, hstable⟩ := slot_entries
  have hkept := slot_entry_kept_iff (s := slotSubject) (i := 0) (e := slotEntry 0) hnum
    slot_grammatical rfl hcall (Option.some_get _).symm slot_declared (Option.some_get _).symm
    hfirst (by decide +kernel)
  have hthrown := slot_entry_kept_iff (s := slotSubject) (i := 1) (e := slotEntry 1) hnum
    slot_grammatical rfl hcall (Option.some_get _).symm slot_declared (Option.some_get _).symm
    hsecond (by decide +kernel)
  refine ⟨hnum, slot_grammatical, hfirst, hkept.mpr ⟨nofun, by decide, ?_⟩, hsecond, fun h => ?_⟩
  · obtain ⟨read, hread, hpath, hbinding⟩ := slot_read
    exact ⟨read, hread, hbinding ▸ hroot, by rw [hbinding, hstable]; rfl, by rw [hpath]; decide⟩
  · exact (hthrown.mp h).2.1 (by decide)

/-- The entry `r.current.x` goes through the slot of `r`, and is kept. -/
theorem deep_slot_entry_kept :
    (slotEntry 0).path? = some ⟨"r.current.x"⟩ ∧
    "current" ∈ (segments ⟨"r.current.x"⟩).tail ∧ 0 ∈ (slotSubject.diff slotEntries).kept := by
  obtain ⟨hpath, hroot, -, hstable⟩ := slot_entries
  obtain ⟨read, hread, hname, hbinding⟩ := slot_read
  have hrequired : ⟨"r"⟩ ∈ slotSubject.requirements.stable :=
    mem_stable.mpr ⟨read, hread, hname, by rw [hbinding, hstable]; rfl⟩
  have hwarranted : Warranted slotSubject.requirements slotSubject.classifier.classify
      (slotEntry 0) ⟨"r.current.x"⟩ :=
    { slot := by decide
      inside := ⟨0, hroot, by rw [hstable]; nofun⟩
      used := Or.inr ⟨⟨0, hroot, by rw [hstable]; rfl⟩, _, hrequired, Or.inr (by decide)⟩ }
  exact ⟨hpath, by decide +kernel,
    (mem_kept_iff (i := 0) (Option.some_get _).symm hpath).mpr ⟨nofun, hwarranted⟩⟩

end HookLint.Dependency
