/-
Paths as lists of segments.

Any text is a path, whatever dots it holds: `a..b` has an empty segment in the middle, and
the empty text has one empty segment.  `segments` cuts a text at all its dots.  Each segment
closed by a dot, they spell the text closed by one (`closed_segments`), which is how
`covers` reads a text; so one path covers another exactly when its segments start the
other's (`covers_iff_segments`), and what holds of beginnings of lists holds of coverage.

Coverage can be told from the bytes of the texts alone (`coversBytes_eq`).  The byte of a
dot is no part of another character, and no text starts with part of a character.
-/
import HookLint.Proofs.Lines
import HookLint.Proofs.Paths

namespace HookLint.Dependency.Path

/-! ### Cutting at the dots -/

/-- What stands between the dots: the name first, then the keys. -/
def segments (p : Path) : List String := (Text.cutAt '.' p.text.toList).map String.ofList

/-- The pieces between the dots, each closed by a dot, spell the whole closed by a dot. -/
theorem flatMap_cutAt (cs : List Char) :
    (Text.cutAt '.' cs).flatMap (· ++ ['.']) = cs ++ ['.'] := by
  induction cs with
  | nil => simp
  | cons c cs ih =>
      by_cases hc : c = '.'
      · simp [hc, ih]
      · obtain ⟨piece, rest, hcut⟩ := List.exists_cons_of_ne_nil (Text.cutAt_ne_nil '.' cs)
        rw [hcut, List.flatMap_cons] at ih
        rw [Text.cutAt_cons_of_ne hc hcut, List.flatMap_cons, List.cons_append, List.cons_append,
          ih, List.cons_append]

theorem closed_segments (p : Path) : closed p.segments = p.text.toList ++ ['.'] := by
  rw [← flatMap_cutAt, closed, segments, List.flatMap_map]
  simp

theorem plain_of_mem_segments {p : Path} : ∀ s ∈ p.segments, Plain s := by
  intro s hs
  obtain ⟨piece, hpiece, rfl⟩ := List.mem_map.mp hs
  simpa [Plain] using Text.notMem_of_mem_cutAt hpiece

/-- One path covers another when its segments start the other's. -/
theorem covers_iff_segments {p q : Path} : p.covers q = true ↔ p.segments <+: q.segments := by
  rw [covers_iff, ← closed_segments, ← closed_segments,
    closed_prefix_iff plain_of_mem_segments plain_of_mem_segments]

/-- Paths that cover each other are the same. -/
theorem covers_antisymm {p q : Path} (hpq : p.covers q = true) (hqp : q.covers p = true) :
    p = q := by
  by_contra hne
  have hlt := length_lt_of_covers hpq hne
  have hgt := length_lt_of_covers hqp (Ne.symm hne)
  omega

/-! ### Going on after a path -/

/-- A key without dots is one more segment. -/
theorem segments_push (p : Path) {key : String} (hkey : Plain key) :
    (p.push key).segments = p.segments ++ [key] := by
  have htext : (p.push key).text.toList = p.text.toList ++ '.' :: key.toList := by
    rw [push, String.toList_append, String.toList_append]
    simp
  rw [segments, htext, Text.cutAt_append_cons, List.map_append, Text.cutAt_of_notMem hkey,
    List.map_singleton, String.ofList_toList, segments]

theorem segments_foldl_push {keys : List String} (hkeys : ∀ key ∈ keys, Plain key) :
    ∀ p : Path, (keys.foldl push p).segments = p.segments ++ keys := by
  induction keys with
  | nil => simp
  | cons key keys ih =>
      intro p
      have hrest := ih fun k hk => hkeys k (List.mem_cons_of_mem _ hk)
      rw [List.foldl_cons, hrest, segments_push p (hkeys key List.mem_cons_self)]
      simp

/-! ### Bytes -/

/-- Coverage told from bytes: the texts are the same, or the second starts with the bytes of
the first and the byte after these is that of a dot. -/
def coversBytes (p q : Path) : Bool :=
  q.text = p.text ||
    (p.text.toUTF8.data.toList.isPrefixOf q.text.toUTF8.data.toList &&
      q.text.toUTF8.data[p.text.utf8ByteSize]? == some '.'.toUInt8)

theorem bytes_closed (p : Path) :
    (p.text.toList ++ ['.']).utf8Encode.data.toList =
      p.text.toUTF8.data.toList ++ ['.'.toUInt8] := by
  rw [List.utf8Encode_append, ByteArray.data_append, String.utf8Encode_toList,
    Array.toList_append]
  rfl

/-- A list starts with another and has `b` after it when it starts with the two together. -/
theorem isPrefix_concat_iff {α : Type} {as bs : List α} {b : α} :
    as ++ [b] <+: bs ↔ as <+: bs ∧ bs[as.length]? = some b := by
  constructor
  · intro h
    obtain ⟨rest, rfl⟩ := h
    simp
  · intro h
    obtain ⟨⟨rest, rfl⟩, hb⟩ := h
    cases rest with
    | nil => simp at hb
    | cons c rest =>
        have hc : c = b := by simpa using hb
        simp [hc]

/-- The bytes tell what the characters tell. -/
theorem coversBytes_eq (p q : Path) : p.coversBytes q = p.covers q := by
  have hsize : p.text.utf8ByteSize = p.text.toUTF8.data.toList.length := by
    rw [Array.length_toList]
    rfl
  have hbytes : (p.text.toList ++ ['.']) <+: q.text.toList ↔
      p.text.toUTF8.data.toList ++ ['.'.toUInt8] <+: q.text.toUTF8.data.toList := by
    rw [← bytes_closed]
    constructor
    · intro h
      obtain ⟨rest, hrest⟩ := h
      refine ⟨rest.utf8Encode.data.toList, ?_⟩
      rw [← Array.toList_append, ← ByteArray.data_append, ← List.utf8Encode_append, hrest,
        String.utf8Encode_toList]
      rfl
    · intro h
      obtain ⟨rest, hrest⟩ := h
      refine List.isPrefix_of_utf8Encode_append_eq_utf8Encode ⟨⟨rest⟩⟩ ?_
      apply ByteArray.ext
      apply Array.toList_inj.mp
      rw [ByteArray.data_append, Array.toList_append, hrest, String.utf8Encode_toList]
      rfl
  have htext : q.text = p.text ↔ q = p := by
    cases p
    cases q
    simp
  rw [Bool.eq_iff_iff, coversBytes, covers]
  simp only [Bool.or_eq_true, Bool.and_eq_true, decide_eq_true_eq, List.isPrefixOf_iff_prefix,
    beq_iff_eq, htext, hbytes, isPrefix_concat_iff, hsize, Array.getElem?_toList]

/-- Coverage is the order of beginnings on lists of segments, for all texts taken as paths. -/
theorem covers_segmentwise :
    (∀ p q : Path, p.covers q = true ↔ p.segments <+: q.segments) ∧
      (∀ p q : Path, p.coversBytes q = p.covers q) ∧
      (∀ p : Path, p.covers p = true) ∧
      (∀ p q r : Path, p.covers q = true → q.covers r = true → p.covers r = true) ∧
      (∀ p q : Path, p.covers q = true → q.covers p = true → p = q) ∧
      (∀ p q r : Path, p.covers r = true → q.covers r = true →
        p.covers q = true ∨ q.covers p = true) ∧
      ∀ (p : Path) (keys : List String), (∀ key ∈ keys, Plain key) →
        (keys.foldl push p).segments = p.segments ++ keys ∧
          p.covers (keys.foldl push p) = true := by
  refine ⟨fun p q => covers_iff_segments, coversBytes_eq, covers_refl, fun p q r => covers_trans,
    fun p q => covers_antisymm, fun p q r => covers_or_covers, fun p keys hkeys => ?_⟩
  have hsegments := segments_foldl_push hkeys p
  refine ⟨hsegments, ?_⟩
  rw [covers_iff_segments, hsegments]
  exact List.prefix_append _ _

theorem covers_segmentwise_accented :
    (∀ key ∈ ["ü", ""], Plain key) ∧
      (["ü", ""].foldl push ⟨"é..b"⟩).segments = ["é", "", "b", "ü", ""] ∧
      (⟨"é..b"⟩ : Path).covers (["ü", ""].foldl push ⟨"é..b"⟩) = true := by
  have hplain : ∀ key ∈ ["ü", ""], Plain key := by decide
  obtain ⟨-, -, -, -, -, -, hpush⟩ := covers_segmentwise
  obtain ⟨hsegments, hcovers⟩ := hpush ⟨"é..b"⟩ ["ü", ""] hplain
  refine ⟨hplain, ?_, hcovers⟩
  rw [hsegments]
  decide

end HookLint.Dependency.Path
