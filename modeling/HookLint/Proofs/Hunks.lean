/-
A patch turns the one text into the other.

A hunk is computed with indexes: how far two lists of lines agree at the front, how far the
rest agrees at the back, and three lines more on either side.  `exists_parts` says the same
without indexes.  Both lists are a common front, the lines that differ, and a common back, and
neither the first nor the last of the lines that differ are equal.  The back is looked for only
in what the front has left, so the two never overlap, also when lines are repeated.

From the parts follows that the indexes are right (`checked?_eq`): no subtraction goes below
zero and no piece is cut out of range.  What a hunk means is told by `replay?`, which reads the
marks of its lines one after another.
-/
import HookLint.Fix.Patch
import Mathlib.Data.List.Basic

namespace HookLint.Fix

/-! ### What two lists have in common -/

section Common

variable {α : Type}

/-- Two lists do not start with the same item. -/
def HeadsDiffer (as bs : List α) : Prop := ∀ a ∈ as.head?, ∀ b ∈ bs.head?, a ≠ b

/-- The lists without what they have in common at the front start differently. -/
theorem exists_common [DecidableEq α] (as bs : List α) :
    ∃ front as' bs', as = front ++ as' ∧ bs = front ++ bs' ∧
      commonLength as bs = front.length ∧ HeadsDiffer as' bs' := by
  induction as generalizing bs with
  | nil => exact ⟨[], [], bs, rfl, rfl, rfl, by simp [HeadsDiffer]⟩
  | cons a as ih =>
      cases bs with
      | nil => exact ⟨[], a :: as, [], rfl, rfl, rfl, by simp [HeadsDiffer]⟩
      | cons b bs =>
          by_cases hab : a = b
          · subst hab
            obtain ⟨front, as', bs', rfl, rfl, hlength, hdiffer⟩ := ih bs
            refine ⟨a :: front, as', bs', rfl, rfl, ?_, hdiffer⟩
            rw [commonLength, if_pos rfl, hlength, List.length_cons]
          · refine ⟨[], a :: as, b :: bs, rfl, rfl, ?_, ?_⟩
            · rw [commonLength, if_neg hab]
              rfl
            · simpa [HeadsDiffer] using hab

theorem HeadsDiffer.of_append {as bs cs ds : List α} (h : HeadsDiffer (as ++ cs) (bs ++ ds)) :
    HeadsDiffer as bs := by
  intro a ha b hb
  refine h a ?_ b ?_
  · rw [List.head?_append, Option.mem_def.mp ha]
    rfl
  · rw [List.head?_append, Option.mem_def.mp hb]
    rfl

end Common

/-- How many lines two lists have in common at the back, in what the front leaves of the
shorter one. -/
def commonBack (old new : List String) : Nat :=
  let room := min old.length new.length - commonLength old new
  commonLength (old.reverse.take room) (new.reverse.take room)

/-- The lists without what they have in common at the back, up to the length of the shorter one,
end differently. -/
theorem exists_common_back (as bs : List String) :
    ∃ as' bs' back, as = as' ++ back ∧ bs = bs' ++ back ∧
      commonLength (as.reverse.take (min as.length bs.length))
        (bs.reverse.take (min as.length bs.length)) = back.length ∧
      HeadsDiffer as'.reverse bs'.reverse := by
  let room := min as.length bs.length
  obtain ⟨back, xs, ys, hxs, hys, hback, hdiffer⟩ :=
    exists_common (as.reverse.take room) (bs.reverse.take room)
  have hlength : xs.length = ys.length := by
    have hx := congrArg List.length hxs
    have hy := congrArg List.length hys
    simp only [List.length_take, List.length_reverse, List.length_append, room] at hx hy
    omega
  have has : as = (xs ++ as.reverse.drop room).reverse ++ back.reverse := by
    rw [← List.reverse_append, ← List.append_assoc, ← hxs, List.take_append_drop,
      List.reverse_reverse]
  have hbs : bs = (ys ++ bs.reverse.drop room).reverse ++ back.reverse := by
    rw [← List.reverse_append, ← List.append_assoc, ← hys, List.take_append_drop,
      List.reverse_reverse]
  refine ⟨_, _, back.reverse, has, hbs, by rw [hback, List.length_reverse], ?_⟩
  rw [List.reverse_reverse, List.reverse_reverse]
  cases xs with
  | nil =>
      -- the common back fills the room, so one of the lists has nothing else
      obtain rfl : ys = [] := List.length_eq_zero_iff.mp hlength.symm
      intro a ha b hb
      have hroom : as.length ≤ room ∨ bs.length ≤ room := by
        simp only [room]
        omega
      rcases hroom with h | h
      · rw [List.nil_append, List.drop_of_length_le (by rw [List.length_reverse]; exact h)] at ha
        contradiction
      · rw [List.nil_append, List.drop_of_length_le (by rw [List.length_reverse]; exact h)] at hb
        contradiction
  | cons x xs =>
      obtain ⟨y, ys, rfl⟩ : ∃ y ys', ys = y :: ys' := by
        cases ys with
        | nil => simp at hlength
        | cons y ys => exact ⟨y, ys, rfl⟩
      simpa [HeadsDiffer] using hdiffer

/-- Two lists of lines are a common front, what differs, and a common back. -/
theorem exists_parts (old new : List String) :
    ∃ front removed added back,
      old = front ++ (removed ++ back) ∧ new = front ++ (added ++ back) ∧
      HeadsDiffer removed added ∧ HeadsDiffer removed.reverse added.reverse ∧
      commonLength old new = front.length ∧ commonBack old new = back.length := by
  obtain ⟨front, rest, rest', rfl, rfl, hfront, hfirst⟩ := exists_common old new
  obtain ⟨removed, added, back, rfl, rfl, hback, hlast⟩ := exists_common_back rest rest'
  refine ⟨front, removed, added, back, rfl, rfl, hfirst.of_append, hlast, hfront, ?_⟩
  -- the room is what the front leaves, so the front is not looked at again
  have hroom : min (front ++ (removed ++ back)).length (front ++ (added ++ back)).length -
      front.length = min (removed ++ back).length (added ++ back).length := by
    simp only [List.length_append]
    omega
  have htake (rest : List String) {n : Nat} (h : n ≤ rest.length) :
      (front ++ rest).reverse.take n = rest.reverse.take n := by
    rw [List.reverse_append, List.take_append_of_le_length (by rw [List.length_reverse]; exact h)]
  unfold commonBack
  dsimp only
  rw [hfront, hroom, htake _ (Nat.min_le_left ..), htake _ (Nat.min_le_right ..)]
  exact hback

/-- The hunk of two lists in parts. -/
theorem between_eq (front removed added back : List String)
    (hfront : commonLength (front ++ (removed ++ back)) (front ++ (added ++ back)) = front.length)
    (hback : commonBack (front ++ (removed ++ back)) (front ++ (added ++ back)) = back.length) :
    Hunk.between (front ++ (removed ++ back)) (front ++ (added ++ back)) =
      { skipped := front.length - contextLines
        before := front.drop (front.length - contextLines)
        removed := removed
        added := added
        after := back.take contextLines } := by
  have hcut (middle : List String) : ((front ++ (middle ++ back)).length - back.length) =
      front.length + middle.length := by
    simp only [List.length_append]
    omega
  unfold commonBack at hback
  unfold Hunk.between
  dsimp only at hback ⊢
  rw [hback, hfront, hcut, hcut]
  simp [← List.append_assoc, List.take_append]

/-! ### Indexes in range -/

/-- The difference of two numbers, if it is not below zero. -/
def sub? (m n : Nat) : Option Nat := if n ≤ m then some (m - n) else none

/-- The items of a list from one index up to another, if the indexes are in order and in
range. -/
def piece? (l : List String) (i j : Nat) : Option (List String) :=
  if i ≤ j ∧ j ≤ l.length then some ((l.take j).drop i) else none

theorem sub?_eq_some {m n k : Nat} (h : m = k + n) : sub? m n = some k := by
  rw [sub?, if_pos (by omega), h, Nat.add_sub_cancel]

theorem piece?_eq_some {l ys : List String} {i j : Nat} (xs zs : List String)
    (hl : l = xs ++ (ys ++ zs)) (hi : xs.length = i) (hj : xs.length + ys.length = j) :
    piece? l i j = some ys := by
  have hrange : i ≤ j ∧ j ≤ l.length := by
    rw [hl]
    simp only [List.length_append]
    omega
  rw [piece?, if_pos hrange, hl, ← hj, ← hi]
  simp [List.take_append]

/-- The hunk and the two counts of its header by index arithmetic, in which every difference
and every piece is checked. -/
def Hunk.checked? (old new : List String) : Option (Hunk × Nat × Nat) := do
  let same := commonLength old new
  let room ← sub? (min old.length new.length) same
  let tail := commonLength (old.reverse.take room) (new.reverse.take room)
  let skipped := same - contextLines
  let oldStop ← sub? old.length tail
  let newStop ← sub? new.length tail
  let oldEnd := min (oldStop + contextLines) old.length
  let newEnd := min (newStop + contextLines) new.length
  let oldCount ← sub? oldEnd skipped
  let newCount ← sub? newEnd skipped
  let before ← piece? old skipped same
  let removed ← piece? old same oldStop
  let added ← piece? new same newStop
  let after ← piece? old oldStop oldEnd
  return ({ skipped, before, removed, added, after }, oldCount, newCount)

/-- The checked arithmetic never fails, and gives the hunk with its counts. -/
theorem checked?_eq (old new : List String) :
    Hunk.checked? old new = some (Hunk.between old new, (Hunk.between old new).oldCount,
      (Hunk.between old new).newCount) := by
  obtain ⟨front, removed, added, back, rfl, rfl, -, -, hfront, hback⟩ := exists_parts old new
  obtain ⟨skipped, hskipped⟩ : ∃ n, front.length - contextLines = n := ⟨_, rfl⟩
  have hroom : sub? (min (front ++ (removed ++ back)).length (front ++ (added ++ back)).length)
      front.length =
        some (min (front ++ (removed ++ back)).length (front ++ (added ++ back)).length -
          front.length) := by
    refine sub?_eq_some ?_
    simp only [List.length_append]
    omega
  have hstop (middle : List String) : sub? (front ++ (middle ++ back)).length back.length =
      some (front.length + middle.length) := by
    refine sub?_eq_some ?_
    simp only [List.length_append]
    omega
  have hend (middle : List String) : min (front.length + middle.length + contextLines)
      (front ++ (middle ++ back)).length =
        front.length + middle.length + (back.take contextLines).length := by
    simp only [List.length_append, List.length_take]
    omega
  have hcount (middle : List String) :
      sub? (front.length + middle.length + (back.take contextLines).length) skipped =
        some ((front.drop skipped).length + middle.length + (back.take contextLines).length) := by
    refine sub?_eq_some ?_
    rw [List.length_drop]
    omega
  have hbefore : piece? (front ++ (removed ++ back)) skipped front.length =
      some (front.drop skipped) := by
    refine piece?_eq_some (front.take skipped) (removed ++ back) ?_ ?_ ?_
    · rw [← List.append_assoc (front.take skipped), List.take_append_drop]
    · rw [List.length_take, ← hskipped, Nat.min_eq_left (Nat.sub_le _ _)]
    · rw [← List.length_append, List.take_append_drop]
  have hmiddle (middle : List String) : piece? (front ++ (middle ++ back)) front.length
      (front.length + middle.length) = some middle :=
    piece?_eq_some front back rfl rfl rfl
  have hafter : piece? (front ++ (removed ++ back)) (front.length + removed.length)
      (front.length + removed.length + (back.take contextLines).length) =
        some (back.take contextLines) := by
    refine piece?_eq_some (front ++ removed) (back.drop contextLines) ?_ ?_ ?_
    · rw [List.take_append_drop, List.append_assoc]
    · rw [List.length_append]
    · rw [List.length_append]
  rw [between_eq front removed added back hfront hback]
  unfold commonBack at hback
  unfold Hunk.checked?
  simp only [hfront, hskipped, Option.bind_eq_bind, hroom, Option.bind_some] at hback ⊢
  simp only [hback, hstop, hend, hcount, hbefore, hmiddle, hafter, Option.bind_some]
  rfl

/-! ### Replaying -/

/-- A line of a hunk has one of these marks. -/
def marked (marks : List Char) (line : String) : Bool := line.toList.head?.any marks.contains

/-- Runs the lines of a hunk along the lines of a text: a line that is kept or removed has to be
the next line of the text, and a line that is added is put in before it. -/
def replayBody : List String → List String → Option (List String)
  | [], rest => some rest
  | line :: body, lines =>
    match line.toList, lines with
    | ' ' :: cs, l :: rest =>
      if String.ofList cs = l then (replayBody body rest).map (l :: ·) else none
    | '-' :: cs, l :: rest => if String.ofList cs = l then replayBody body rest else none
    | '+' :: cs, rest => (replayBody body rest).map (String.ofList cs :: ·)
    | _, _ => none

/-- Replays the lines of a hunk on a text after a number of its lines. -/
def replay? (skipped : Nat) (body : List String) (lines : List String) : Option (List String) :=
  if skipped ≤ lines.length then
    (replayBody body (lines.drop skipped)).map (lines.take skipped ++ ·)
  else none

theorem replayBody_context (ls body rest : List String) :
    replayBody (ls.map (" " ++ ·) ++ body) (ls ++ rest) = (replayBody body rest).map (ls ++ ·) := by
  induction ls with
  | nil => simp
  | cons l ls ih =>
      have hl : (" " ++ l).toList = ' ' :: l.toList := by simp
      simp only [List.map_cons, List.cons_append, replayBody, hl, String.ofList_toList, if_true, ih,
        Option.map_map]
      rfl

theorem replayBody_removed (ls body rest : List String) :
    replayBody (ls.map ("-" ++ ·) ++ body) (ls ++ rest) = replayBody body rest := by
  induction ls with
  | nil => rfl
  | cons l ls ih =>
      have hl : ("-" ++ l).toList = '-' :: l.toList := by simp
      simp only [List.map_cons, List.cons_append, replayBody, hl, String.ofList_toList, if_true, ih]

theorem replayBody_added (ls body rest : List String) :
    replayBody (ls.map ("+" ++ ·) ++ body) rest = (replayBody body rest).map (ls ++ ·) := by
  induction ls with
  | nil => simp
  | cons l ls ih =>
      have hl : ("+" ++ l).toList = '+' :: l.toList := by simp
      simp only [List.map_cons, List.cons_append, replayBody, hl, String.ofList_toList, ih,
        Option.map_map]
      rfl

/-- The lines of a hunk take what stands before and after the change, and change the rest. -/
theorem replay?_body (h : Hunk) (lead rest : List String) (hlead : lead.length = h.skipped) :
    replay? h.skipped h.body (lead ++ (h.before ++ (h.removed ++ (h.after ++ rest)))) =
      some (lead ++ (h.before ++ (h.added ++ (h.after ++ rest)))) := by
  have hnil : replayBody (h.after.map (" " ++ ·)) (h.after ++ rest) = some (h.after ++ rest) := by
    have := replayBody_context h.after [] rest
    rwa [List.append_nil] at this
  rw [replay?, if_pos (by rw [← hlead, List.length_append]; omega), ← hlead, List.drop_left,
    List.take_left, Hunk.body, List.append_assoc, List.append_assoc, replayBody_context,
    replayBody_removed, replayBody_added, hnil]
  rfl

/-! ### The hunk of a patch -/

theorem marked_append (marks : List Char) {mark : String} (hmark : mark.toList ≠ [])
    (line : String) : marked marks (mark ++ line) = marked marks mark := by
  obtain ⟨c, cs, hcs⟩ := List.exists_cons_of_ne_nil hmark
  simp [marked, hcs]

theorem countP_marked (marks : List Char) {mark : String} (hmark : mark.toList ≠ [])
    (ls : List String) : (ls.map (mark ++ ·)).countP (marked marks) =
      if marked marks mark then ls.length else 0 := by
  induction ls with
  | nil => simp
  | cons l ls ih =>
      rw [List.map_cons, List.countP_cons, ih, marked_append marks hmark]
      split <;> simp

/-- The counts of a header are those of the marks. -/
theorem countP_body (h : Hunk) :
    h.oldCount = h.body.countP (marked [' ', '-']) ∧
      h.newCount = h.body.countP (marked [' ', '+']) := by
  have hbody (marks : List Char) : h.body.countP (marked marks) =
      (if marked marks " " then h.before.length else 0) +
        (if marked marks "-" then h.removed.length else 0) +
        (if marked marks "+" then h.added.length else 0) +
        (if marked marks " " then h.after.length else 0) := by
    rw [Hunk.body, List.countP_append, List.countP_append, List.countP_append,
      countP_marked marks (by decide), countP_marked marks (by decide),
      countP_marked marks (by decide), countP_marked marks (by decide)]
  constructor
  · rw [hbody, if_pos (by decide), if_pos (by decide), if_neg (by decide), if_pos (by decide)]
    rfl
  · rw [hbody, if_pos (by decide), if_neg (by decide), if_pos (by decide), if_pos (by decide)]
    rfl

/-- A hunk with its two counts turns the one list of lines into the other. -/
structure Hunk.Turns (h : Hunk) (oldCount newCount : Nat) (old new : List String) : Prop where
  oldCount : oldCount = h.body.countP (marked [' ', '-'])
  newCount : newCount = h.body.countP (marked [' ', '+'])
  /-- the lines before the hunk are the same in both -/
  lead : h.skipped ≤ old.length ∧ h.skipped ≤ new.length ∧
    old.take h.skipped = new.take h.skipped
  before : h.before.length ≤ 3
  after : h.after.length ≤ 3
  replay : replay? h.skipped h.body old = some new
  firsts : ∀ a ∈ h.removed.head?, ∀ b ∈ h.added.head?, a ≠ b
  lasts : ∀ a ∈ h.removed.getLast?, ∀ b ∈ h.added.getLast?, a ≠ b

theorem turns_between (old new : List String) :
    (Hunk.between old new).Turns (Hunk.between old new).oldCount (Hunk.between old new).newCount
      old new := by
  obtain ⟨hold, hnew⟩ := countP_body (Hunk.between old new)
  obtain ⟨front, removed, added, back, rfl, rfl, hfirst, hlast, hfront, hback⟩ :=
    exists_parts old new
  rw [between_eq front removed added back hfront hback] at hold hnew ⊢
  have hskipped : front.length - contextLines ≤ front.length := Nat.sub_le _ _
  have hsplit (middle : List String) : front ++ (middle ++ back) =
      front.take (front.length - contextLines) ++ (front.drop (front.length - contextLines) ++
        (middle ++ (back.take contextLines ++ back.drop contextLines))) := by
    rw [List.take_append_drop, ← List.append_assoc (front.take _), List.take_append_drop]
  have hlength :
      (front.take (front.length - contextLines)).length = front.length - contextLines := by
    rw [List.length_take, Nat.min_eq_left hskipped]
  refine ⟨hold, hnew, ⟨?_, ?_, ?_⟩, ?_, ?_, ?_, hfirst, ?_⟩
  · simp only [List.length_append]
    omega
  · simp only [List.length_append]
    omega
  · dsimp only
    rw [List.take_append_of_le_length hskipped, List.take_append_of_le_length hskipped]
  · simp only [List.length_drop, contextLines]
    omega
  · simp only [List.length_take, contextLines]
    omega
  · dsimp only
    rw [hsplit removed, hsplit added]
    exact replay?_body ⟨front.length - contextLines, front.drop (front.length - contextLines),
      removed, added, back.take contextLines⟩ _ _ hlength
  · intro a ha b hb
    refine hlast a ?_ b ?_
    · rwa [List.head?_reverse]
    · rwa [List.head?_reverse]

/-- A patch of two different texts can be replayed.  The indexes it is computed with are in range,
its header counts the lines of its body that are in the one text and in the other and says where
they start, and its body, replayed there on the lines of the one text, gives the lines of the
other. -/
theorem patch_replays (path : String) {before fixed : String} (h : before ≠ fixed) :
    ∃ hunk oldCount newCount,
      Hunk.checked? (Text.lines before) (Text.lines fixed) = some (hunk, oldCount, newCount) ∧
      patch path before fixed = Text.join "\n" (["--- a/" ++ path, "+++ b/" ++ path,
        "@@ -" ++ toString (hunk.skipped + 1) ++ "," ++ toString oldCount ++
          " +" ++ toString (hunk.skipped + 1) ++ "," ++ toString newCount ++ " @@"] ++
        hunk.body) ++ "\n" ∧
      hunk.Turns oldCount newCount (Text.lines before) (Text.lines fixed) := by
  refine ⟨_, _, _, checked?_eq _ _, ?_, turns_between _ _⟩
  rw [patch, if_neg h]
  rfl

/-- A line that stands three times loses one of its occurrences: the common lines at the front take
the first two, and those at the back what is left. -/
theorem patch_replays_repeated :
    "k\nx\na\na\na\ny" ≠ "k\nx\na\na\ny\n" ∧
    patch "c.js" "k\nx\na\na\na\ny" "k\nx\na\na\ny\n" =
      "--- a/c.js\n+++ b/c.js\n@@ -2,5 +2,4 @@\n x\n a\n a\n-a\n y\n" ∧
    ∃ hunk oldCount newCount,
      Hunk.checked? ["k", "x", "a", "a", "a", "y"] ["k", "x", "a", "a", "y"] =
        some (hunk, oldCount, newCount) ∧
      hunk.Turns oldCount newCount ["k", "x", "a", "a", "a", "y"] ["k", "x", "a", "a", "y"] := by
  have hne : "k\nx\na\na\na\ny" ≠ "k\nx\na\na\ny\n" := by decide
  obtain ⟨hunk, oldCount, newCount, hchecked, -, hturns⟩ := patch_replays "c.js" hne
  exact ⟨hne, by decide +kernel, hunk, oldCount, newCount, hchecked, hturns⟩

end HookLint.Fix
