/-
Every entry gets one verdict.

A comparison lists the positions it keeps, and the paths it finds unnecessary or duplicate.
To say that nothing is lost and nothing is counted twice, the two lists of paths are read as
lists of positions too.  `getElem?_verdictsAfter` gives the verdict at a position from the
paths that stand before it, and everything else follows from it: the four sets of positions
share out the whole array, because every verdict is of one of four sorts, and which of them
an entry with a path is in is decided by whether its path stands before it.
-/
import HookLint.Proofs.Comparison

namespace HookLint.Dependency

open HookLint.Scope

variable {req : Requirements} {classify : BindingId → Stability} {es : List Entry}

/-! ### Positions -/

/-- The path that the entry at a position declares. -/
def pathAt? (es : List Entry) (i : Nat) : Option Path := (es[i]?).bind (·.path?)

/-- An entry before a position declares the path. -/
def DeclaredBefore (es : List Entry) (i : Nat) (p : Path) : Prop :=
  ∃ j < i, pathAt? es j = some p

theorem pathAt?_eq_some {i : Nat} {p : Path} :
    pathAt? es i = some p ↔ ∃ e, es[i]? = some e ∧ e.path? = some p :=
  Option.bind_eq_some_iff

theorem declaredBefore_iff {i : Nat} {p : Path} :
    DeclaredBefore es i p ↔ p ∈ (es.take i).filterMap (·.path?) := by
  rw [List.mem_filterMap]
  constructor
  · rintro ⟨j, hj, hpath⟩
    obtain ⟨e, he, hpath⟩ := pathAt?_eq_some.mp hpath
    refine ⟨e, List.mem_of_getElem? (i := j) ?_, hpath⟩
    rw [List.getElem?_take_of_lt hj, he]
  · rintro ⟨e, he, hpath⟩
    obtain ⟨j, hj⟩ := List.getElem?_of_mem he
    rw [List.getElem?_take] at hj
    split at hj
    · rename_i hlt
      exact ⟨j, hlt, pathAt?_eq_some.mpr ⟨e, hj, hpath⟩⟩
    · contradiction

/-- The verdict at a position is given after the paths of the entries before it. -/
theorem getElem?_verdictsAfter (seen : List Path) (es : List Entry) (i : Nat) :
    (verdictsAfter req classify seen es)[i]? =
      (es[i]?).map (verdict req classify (seen ++ (es.take i).filterMap (·.path?))) := by
  induction es generalizing seen i with
  | nil => rfl
  | cons e es ih =>
      cases i with
      | zero => simp [verdictsAfter]
      | succ i =>
          rw [verdictsAfter, List.getElem?_cons_succ, ih, List.getElem?_cons_succ,
            List.take_succ_cons, append_paths_cons]

theorem getElem?_judged {i : Nat} {e : Entry} {v : Verdict} :
    (judged req classify es)[i]? = some (e, v) ↔
      es[i]? = some e ∧ verdict req classify ((es.take i).filterMap (·.path?)) e = v := by
  rw [List.getElem?_zip_eq_some, verdicts, getElem?_verdictsAfter, List.nil_append]
  constructor
  · rintro ⟨he, hv⟩
    rw [he] at hv
    exact ⟨he, Option.some.inj hv⟩
  · rintro ⟨he, hv⟩
    exact ⟨he, by rw [he, Option.map_some, hv]⟩

theorem mem_positionsWhere {test : Verdict → Bool} {i : Nat} :
    i ∈ positionsWhere test (judged req classify es) ↔
      ∃ e, es[i]? = some e ∧
        test (verdict req classify ((es.take i).filterMap (·.path?)) e) = true := by
  unfold positionsWhere
  rw [List.mem_map]
  constructor
  · rintro ⟨⟨⟨e, v⟩, j⟩, hmem, rfl⟩
    obtain ⟨hmem, htest⟩ := List.mem_filter.mp hmem
    obtain ⟨he, hv⟩ := getElem?_judged.mp (List.mem_zipIdx_iff_getElem?.mp hmem)
    exact ⟨e, he, by rw [hv]; exact htest⟩
  · rintro ⟨e, he, htest⟩
    refine ⟨((e, _), i), List.mem_filter.mpr ⟨?_, htest⟩, rfl⟩
    exact List.mem_zipIdx_iff_getElem?.mpr (getElem?_judged.mpr ⟨he, rfl⟩)

theorem increasing_positionsWhere (test : Verdict → Bool) (js : List (Entry × Verdict)) :
    (positionsWhere test js).Pairwise (· < ·) := by
  have hall : (js.zipIdx.map (·.2)).Pairwise (· < ·) := by
    rw [List.zipIdx_map_snd]
    exact List.pairwise_lt_range'
  exact hall.sublist (List.filter_sublist.map _)

/-- Every verdict keeps, finds unnecessary, finds duplicate or ignores, so the positions of
the four sorts share out the array. -/
theorem perm_positionsWhere (js : List (Entry × Verdict)) :
    (positionsWhere (· == .keep) js ++ positionsWhere Verdict.isUnnecessary js ++
      positionsWhere (· == .duplicate) js ++ positionsWhere (· == .ignore) js).Perm
        (List.range js.length) := by
  have hshare : ∀ xs : List ((Entry × Verdict) × Nat),
      ((xs.filter fun x => x.1.2 == .keep) ++ (xs.filter fun x => x.1.2.isUnnecessary) ++
        (xs.filter fun x => x.1.2 == .duplicate) ++
        xs.filter fun x => x.1.2 == .ignore).Perm xs := by
    intro xs
    induction xs with
    | nil => exact .nil
    | cons x xs ih =>
        obtain ⟨⟨e, v⟩, i⟩ := x
        have hmiddle {as bs : List ((Entry × Verdict) × Nat)} (h : (as ++ bs).Perm xs) :
            (as ++ ((e, v), i) :: bs).Perm (((e, v), i) :: xs) :=
          List.perm_middle.trans (h.cons _)
        simp only [List.append_assoc] at ih ⊢
        cases v with
        | keep => exact ih.cons _
        | ignore =>
            simp only [← List.append_assoc] at ih ⊢
            exact hmiddle ih
        | duplicate =>
            simp only [← List.append_assoc _ _ (_ ++ _)] at ih
            simpa [List.filter_cons, Verdict.isUnnecessary] using hmiddle ih
        | mutable => simpa [List.filter_cons, Verdict.isUnnecessary] using hmiddle ih
        | outer => simpa [List.filter_cons, Verdict.isUnnecessary] using hmiddle ih
        | unused => simpa [List.filter_cons, Verdict.isUnnecessary] using hmiddle ih
  have hmap := (hshare js.zipIdx).map (·.2)
  rw [List.zipIdx_map_snd, ← List.range_eq_range'] at hmap
  simpa [positionsWhere] using hmap

/-! ### Paths at the positions -/

/-- Only an entry with a path is found unnecessary or duplicate. -/
theorem exists_path_of_verdict {seen : List Path} {e : Entry}
    (hkeep : verdict req classify seen e ≠ .keep)
    (hignore : verdict req classify seen e ≠ .ignore) : ∃ p, e.path? = some p := by
  unfold verdict at hkeep hignore
  split at hkeep
  · rename_i hkind
    rw [hkind] at hignore
    exact absurd rfl hignore
  · exact absurd rfl hkeep
  · rename_i p hkind
    exact ⟨p, by rw [Entry.path?, hkind]⟩

/-- The paths a comparison lists are those at the positions. -/
theorem map_pathAt?_positionsWhere {test : Verdict → Bool} (hkeep : test .keep = false)
    (hignore : test .ignore = false) :
    (positionsWhere test (judged req classify es)).map (pathAt? es) =
      (pathsWhere test (judged req classify es)).map some := by
  have hpath : ∀ x ∈ (judged req classify es).filter fun x => test x.2,
      ∃ p, x.1.path? = some p := by
    rintro ⟨e, v⟩ hx
    obtain ⟨hmem, htest⟩ := List.mem_filter.mp hx
    obtain ⟨before, after, -, hv⟩ := mem_judged.mp hmem
    have hsome {w : Verdict} (hw : test w = false) : v ≠ w := by
      rintro rfl
      rw [hw] at htest
      contradiction
    rw [← hv] at hsome
    exact exists_path_of_verdict (hsome hkeep) (hsome hignore)
  have hlisted : (pathsWhere test (judged req classify es)).map some =
      ((judged req classify es).filter fun x => test x.2).map fun x => x.1.path? := by
    unfold pathsWhere
    rw [List.map_filterMap, ← List.filterMap_eq_map]
    refine List.filterMap_congr fun x hx => ?_
    obtain ⟨p, hp⟩ := hpath x hx
    show (x.1.path?).map some = some x.1.path?
    rw [hp]
    rfl
  have hplaced : ∀ x ∈ (judged req classify es).zipIdx.filter (fun x => test x.1.2),
      pathAt? es x.2 = x.1.1.path? := by
    rintro ⟨⟨e, v⟩, i⟩ hx
    have hget := List.mem_zipIdx_iff_getElem?.mp (List.mem_filter.mp hx).1
    rw [pathAt?, (getElem?_judged.mp hget).1]
    rfl
  rw [hlisted]
  conv_rhs => rw [← List.zipIdx_map_fst 0 (judged req classify es), List.filter_map, List.map_map]
  rw [positionsWhere, List.map_map]
  exact List.map_congr_left hplaced

/-! ### What is kept, unnecessary, duplicate and ignored -/

section

variable (req : Requirements) (classify : BindingId → Stability) (es : List Entry)

/-- The positions of the unnecessary entries. -/
def unnecessaryAt : List Nat := positionsWhere Verdict.isUnnecessary (judged req classify es)

/-- The positions of the duplicate entries. -/
def duplicateAt : List Nat := positionsWhere (· == .duplicate) (judged req classify es)

/-- The positions of the literals. -/
def literalsAt : List Nat :=
  (List.range es.length).filter fun i => (es[i]?).any (·.kind == .literal)

theorem map_unnecessaryAt : (unnecessaryAt req classify es).map (pathAt? es) =
    (compare req es classify).unnecessary.map some := by
  rw [unnecessary_eq]
  exact map_pathAt?_positionsWhere rfl rfl

theorem map_duplicateAt : (duplicateAt req classify es).map (pathAt? es) =
    (compare req es classify).duplicate.map some := by
  rw [duplicate_eq]
  exact map_pathAt?_positionsWhere rfl rfl

end

theorem verdict_eq_ignore_iff {seen : List Path} {e : Entry} :
    verdict req classify seen e = .ignore ↔ e.kind = .literal := by
  cases hkind : e.kind with
  | literal => simp [verdict, hkind]
  | complex => simp [verdict, hkind]
  | path p =>
      have hpath : e.path? = some p := by rw [Entry.path?, hkind]
      have hne : verdictOnPath req (e.stability classify) p ≠ .ignore := by
        intro hv
        rcases @verdictOnPath_keep_or_unnecessary req (e.stability classify) p with h | h
        · rw [hv] at h
          contradiction
        · rw [hv] at h
          contradiction
      rw [verdict_of_path? hpath]
      split
      · simp
      · simpa using hne

/-- The literals are what is ignored. -/
theorem perm_literalsAt :
    (positionsWhere (· == .ignore) (judged req classify es)).Perm (literalsAt es) := by
  have hnodup : (positionsWhere (· == .ignore) (judged req classify es)).Nodup :=
    (increasing_positionsWhere _ _).imp Nat.ne_of_lt
  rw [literalsAt, List.perm_ext_iff_of_nodup hnodup (List.nodup_range.filter _)]
  intro i
  rw [mem_positionsWhere, List.mem_filter, List.mem_range]
  constructor
  · rintro ⟨e, he, htest⟩
    have hkind := verdict_eq_ignore_iff.mp (beq_iff_eq.mp htest)
    obtain ⟨hi, -⟩ := List.getElem?_eq_some_iff.mp he
    exact ⟨hi, by rw [he]; simpa using hkind⟩
  · rintro ⟨hi, hany⟩
    refine ⟨es[i], List.getElem?_eq_getElem hi, beq_iff_eq.mpr (verdict_eq_ignore_iff.mpr ?_)⟩
    rw [List.getElem?_eq_getElem hi] at hany
    simpa using hany

theorem length_literalsAt (es : List Entry) :
    (literalsAt es).length = es.countP (·.kind == .literal) := by
  unfold literalsAt
  induction es using List.reverseRecOn with
  | nil => rfl
  | append_singleton es e ih =>
      rw [List.length_append, List.length_singleton, List.range_succ, List.filter_append,
        List.length_append, List.countP_append, ← ih]
      congr 1
      · congr 1
        refine List.filter_congr fun i hi => ?_
        rw [List.getElem?_append_left (List.mem_range.mp hi)]
      · by_cases hkind : e.kind = .literal <;> simp [hkind]

/-- The four sorts of positions share out the array. -/
theorem perm_sorts (req : Requirements) (classify : BindingId → Stability) (es : List Entry) :
    ((compare req es classify).kept ++ unnecessaryAt req classify es ++
      duplicateAt req classify es ++ literalsAt es).Perm (List.range es.length) := by
  have hall := perm_positionsWhere (judged req classify es)
  rw [length_judged] at hall
  rw [kept_eq]
  exact (perm_literalsAt.symm.append_left _).trans hall

theorem notMem_unnecessaryAt {i : Nat} (h : i ∈ (compare req es classify).kept) :
    i ∉ unnecessaryAt req classify es := by
  have hnodup := (perm_sorts req classify es).nodup_iff.mpr List.nodup_range
  obtain ⟨-, -, hapart⟩ :=
    List.nodup_append.mp (List.nodup_append.mp (List.nodup_append.mp hnodup).1).1
  exact fun h' => hapart i h i h' rfl

section Path

variable {i j : Nat} {p : Path}

/-- An entry is a duplicate when its path stands before it. -/
theorem mem_duplicateAt_iff (h : pathAt? es i = some p) :
    i ∈ duplicateAt req classify es ↔ DeclaredBefore es i p := by
  obtain ⟨e, he, hpath⟩ := pathAt?_eq_some.mp h
  rw [duplicateAt, mem_positionsWhere, declaredBefore_iff]
  constructor
  · rintro ⟨e', he', htest⟩
    obtain rfl : e = e' := Option.some.inj (he.symm.trans he')
    by_contra hbefore
    rw [verdict_of_path? hpath, if_neg hbefore] at htest
    rcases @verdictOnPath_keep_or_unnecessary req (e.stability classify) p with hv | hv
    · rw [hv] at htest
      contradiction
    · rw [beq_iff_eq.mp htest] at hv
      contradiction
  · intro hbefore
    exact ⟨e, he, by rw [verdict_of_path? hpath, if_pos hbefore]; rfl⟩

/-- An entry is kept or unnecessary when its path does not stand before it. -/
theorem mem_kept_or_unnecessaryAt_iff (h : pathAt? es i = some p) :
    i ∈ (compare req es classify).kept ∨ i ∈ unnecessaryAt req classify es ↔
      ¬ DeclaredBefore es i p := by
  obtain ⟨e, he, hpath⟩ := pathAt?_eq_some.mp h
  rw [kept_eq, unnecessaryAt, mem_positionsWhere, mem_positionsWhere, declaredBefore_iff]
  constructor
  · intro hmem hbefore
    have hverdict : verdict req classify ((es.take i).filterMap (·.path?)) e = .duplicate := by
      rw [verdict_of_path? hpath, if_pos hbefore]
    rcases hmem with ⟨e', he', htest⟩ | ⟨e', he', htest⟩
    · obtain rfl : e = e' := Option.some.inj (he.symm.trans he')
      rw [hverdict] at htest
      contradiction
    · obtain rfl : e = e' := Option.some.inj (he.symm.trans he')
      rw [hverdict] at htest
      contradiction
  · intro hbefore
    rcases @verdictOnPath_keep_or_unnecessary req (e.stability classify) p with hv | hv
    · exact Or.inl ⟨e, he, by rw [verdict_of_path? hpath, if_neg hbefore, hv]; rfl⟩
    · exact Or.inr ⟨e, he, by rw [verdict_of_path? hpath, if_neg hbefore, hv]⟩

/-- A path that is declared is declared somewhere for the first time. -/
theorem exists_first (h : pathAt? es j = some p) :
    ∃ i ≤ j, pathAt? es i = some p ∧ ¬ DeclaredBefore es i p := by
  induction j using Nat.strong_induction_on with
  | _ j ih =>
      by_cases hbefore : DeclaredBefore es j p
      · obtain ⟨k, hk, hpath⟩ := hbefore
        obtain ⟨i, hi, hfirst⟩ := ih k hk hpath
        exact ⟨i, by omega, hfirst⟩
      · exact ⟨j, Nat.le_refl j, h, hbefore⟩

/-- A path is declared for the first time at one position only. -/
theorem eq_of_first (hi : pathAt? es i = some p) (hj : pathAt? es j = some p)
    (hifirst : ¬ DeclaredBefore es i p) (hjfirst : ¬ DeclaredBefore es j p) : i = j := by
  rcases Nat.lt_trichotomy i j with hlt | heq | hlt
  · exact absurd ⟨i, hlt, hi⟩ hjfirst
  · exact heq
  · exact absurd ⟨j, hlt, hj⟩ hifirst

theorem exists_pathAt?_of_map {positions : List Nat} {paths : List Path}
    (hmap : positions.map (pathAt? es) = paths.map some) (hi : i ∈ positions) :
    ∃ p ∈ paths, pathAt? es i = some p := by
  have hmem : pathAt? es i ∈ paths.map some := hmap ▸ List.mem_map_of_mem hi
  obtain ⟨p, hp, heq⟩ := List.mem_map.mp hmem
  exact ⟨p, hp, heq.symm⟩

/-- A duplicate repeats an entry that is kept or unnecessary. -/
theorem exists_of_mem_duplicateAt (h : j ∈ duplicateAt req classify es) :
    ∃ i < j, pathAt? es i = pathAt? es j ∧
      (i ∈ (compare req es classify).kept ∨ i ∈ unnecessaryAt req classify es) := by
  obtain ⟨p, -, hp⟩ := exists_pathAt?_of_map (map_duplicateAt req classify es) h
  obtain ⟨k, hk, hkp⟩ := (mem_duplicateAt_iff hp).mp h
  obtain ⟨i, hi, hip, hfirst⟩ := exists_first hkp
  exact ⟨i, by omega, hip.trans hp.symm, (mem_kept_or_unnecessaryAt_iff hip).mpr hfirst⟩

/-- No unnecessary path is that of a kept entry. -/
theorem notMem_unnecessary (h : i ∈ (compare req es classify).kept) (hp : pathAt? es i = some p) :
    p ∉ (compare req es classify).unnecessary := by
  intro hmem
  have hsome : some p ∈ (unnecessaryAt req classify es).map (pathAt? es) := by
    rw [map_unnecessaryAt]
    exact List.mem_map_of_mem hmem
  obtain ⟨j, hj, hjp⟩ := List.mem_map.mp hsome
  have heq : i = j := eq_of_first hp hjp ((mem_kept_or_unnecessaryAt_iff hp).mp (Or.inl h))
    ((mem_kept_or_unnecessaryAt_iff hjp).mp (Or.inr hj))
  exact notMem_unnecessaryAt h (heq ▸ hj)

end Path

theorem nodup_unnecessary (req : Requirements) (classify : BindingId → Stability)
    (es : List Entry) : (compare req es classify).unnecessary.Nodup := by
  have hmap := map_unnecessaryAt req classify es
  have hnodup : ((unnecessaryAt req classify es).map (pathAt? es)).Nodup := by
    refine (List.nodup_map_iff_inj_on ?_).mpr ?_
    · exact (increasing_positionsWhere _ _).imp Nat.ne_of_lt
    · intro i hi j hj heq
      obtain ⟨p, -, hp⟩ := exists_pathAt?_of_map hmap hi
      have hjp : pathAt? es j = some p := heq ▸ hp
      exact eq_of_first hp hjp ((mem_kept_or_unnecessaryAt_iff hp).mp (Or.inr hi))
        ((mem_kept_or_unnecessaryAt_iff hjp).mp (Or.inr hj))
  rw [hmap] at hnodup
  exact hnodup.of_map _

/-! ### The whole account -/

/-- A difference accounts for every entry of an array once.  The lists of positions are those of
the unnecessary and the duplicate entries. -/
structure Accounts (es : List Entry) (d : Diff) (unnecessary duplicate : List Nat) : Prop where
  /-- the positions stand for the listed paths, in their order -/
  unnecessaryPaths : unnecessary.map (pathAt? es) = d.unnecessary.map some
  duplicatePaths : duplicate.map (pathAt? es) = d.duplicate.map some
  unnecessaryOrder : unnecessary.Pairwise (· < ·)
  duplicateOrder : duplicate.Pairwise (· < ·)
  keptOrder : d.kept.Pairwise (· < ·)
  /-- every position is in one of the lists, or it is that of a literal -/
  share : (d.kept ++ unnecessary ++ duplicate ++ literalsAt es).Perm (List.range es.length)
  count : d.kept.length + d.unnecessary.length + d.duplicate.length +
    es.countP (·.kind == .literal) = es.length
  complex : ∀ i e, es[i]? = some e → e.kind = .complex → i ∈ d.kept
  literal : ∀ i e, es[i]? = some e → e.kind = .literal → i ∉ d.kept
  /-- the first occurrence of a path is kept or unnecessary, and not both -/
  first : ∀ i p, pathAt? es i = some p →
    (i ∈ d.kept ∨ i ∈ unnecessary ↔ ¬ DeclaredBefore es i p) ∧ ¬ (i ∈ d.kept ∧ i ∈ unnecessary)
  /-- a later one is a duplicate -/
  later : ∀ i p, pathAt? es i = some p → (i ∈ duplicate ↔ DeclaredBefore es i p)
  unnecessaryOnce : d.unnecessary.Nodup
  keptApart : ∀ i ∈ d.kept, ∀ p, pathAt? es i = some p → p ∉ d.unnecessary
  duplicateOf : ∀ j ∈ duplicate, ∃ i < j,
    pathAt? es i = pathAt? es j ∧ (i ∈ d.kept ∨ i ∈ unnecessary)
  missingNew : ∀ p ∈ d.missing, ∀ e ∈ es, e.path? ≠ some p

/-- Every declared entry gets exactly one verdict: it is kept, or it is the first occurrence of an
unnecessary path, or a later occurrence of a path that is kept or unnecessary, or a literal.
Nothing that is declared is missing. -/
theorem entries_accounted (req : Requirements) (es : List Entry)
    (classify : BindingId → Stability) :
    ∃ unnecessary duplicate, Accounts es (compare req es classify) unnecessary duplicate := by
  refine ⟨unnecessaryAt req classify es, duplicateAt req classify es, ?_⟩
  exact
    { unnecessaryPaths := map_unnecessaryAt req classify es
      duplicatePaths := map_duplicateAt req classify es
      unnecessaryOrder := increasing_positionsWhere _ _
      duplicateOrder := increasing_positionsWhere _ _
      keptOrder := kept_eq es ▸ increasing_positionsWhere _ _
      share := perm_sorts req classify es
      count := by
        have hlength := (perm_sorts req classify es).length_eq
        have hunnecessary := congrArg List.length (map_unnecessaryAt req classify es)
        have hduplicate := congrArg List.length (map_duplicateAt req classify es)
        rw [List.length_append, List.length_append, List.length_append, length_literalsAt,
          List.length_range] at hlength
        rw [List.length_map, List.length_map] at hunnecessary hduplicate
        omega
      complex := by
        intro i e he hkind
        rw [kept_eq]
        exact mem_positionsWhere.mpr ⟨e, he, by simp [verdict, hkind]⟩
      literal := by
        intro i e he hkind hi
        rw [kept_eq] at hi
        obtain ⟨e', he', htest⟩ := mem_positionsWhere.mp hi
        obtain rfl : e = e' := Option.some.inj (he.symm.trans he')
        rw [verdict_eq_ignore_iff.mpr hkind] at htest
        contradiction
      first := fun i p hpath =>
        ⟨mem_kept_or_unnecessaryAt_iff hpath, fun h => notMem_unnecessaryAt h.1 h.2⟩
      later := fun i p hpath => mem_duplicateAt_iff hpath
      unnecessaryOnce := nodup_unnecessary req classify es
      keptApart := fun i hi p hp => notMem_unnecessary hi hp
      duplicateOf := fun j hj => exists_of_mem_duplicateAt hj
      missingNew := by
        intro p hp e he hpath
        exact not_isCovered_of_mem_missing hp ⟨e, he, p, hpath, p.covers_refl⟩ }

end HookLint.Dependency
