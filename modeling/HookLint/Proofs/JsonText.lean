/-
Reading a printed value back.

The printed form of a value is read by taking the value off the front of a text that goes on:
`value_chars` is about `chars level j ++ rest` for every `rest` that cannot lengthen a number.
Each part of the grammar has its lemma: a string (`stringRest_quote`), the digits of a number
(`numberValue_intChars`), the items of an array and the members of an object.

Every recursive call of the reader stands behind a character, so a fuel of the length of the
printed form is enough at every level.

A number that is no 64-bit integer is read as it is written, and only some texts are numbers at
all; `isPlain` keeps to values without such numbers, which are those that reports are made of.
-/
import HookLint.Format.JsonReader
import Mathlib.Data.List.Basic

namespace HookLint.Json

/-! ### Strings -/

/-- A control character is the one its four digits name. -/
theorem hex4?_hexDigit {n : Nat} (h : n < 32) :
    hex4? '0' '0' (hexDigit (n / 16)) (hexDigit (n % 16)) = some n := by
  have hall : ∀ m : Fin 32,
      hex4? '0' '0' (hexDigit (m.val / 16)) (hexDigit (m.val % 16)) = some m.val := by decide
  exact hall ⟨n, h⟩

theorem stringStep_escapeChar (c : Char) (rest : List Char) :
    stringStep (escapeChar c ++ rest) = .char c rest := by
  unfold escapeChar
  split
  next h => subst h; rfl
  split
  next h => subst h; rfl
  split
  next h => subst h; rfl
  split
  next h => subst h; rfl
  split
  next h => subst h; rfl
  split
  next h => subst h; rfl
  split
  next h => subst h; rfl
  split
  next h =>
    have hhigh : isHighSurrogate c.toNat = false := by
      simp only [isHighSurrogate, Bool.and_eq_false_iff, decide_eq_false_iff_not]
      omega
    have hlow : isLowSurrogate c.toNat = false := by
      simp only [isLowSurrogate, Bool.and_eq_false_iff, decide_eq_false_iff_not]
      omega
    simp [stringStep, hex4?_hexDigit h, hhigh, hlow]
  next hquote hslash _ _ _ _ _ hcontrol =>
    -- A character that stands for itself is neither a quote nor the start of an escape.
    simp only [List.cons_append, List.nil_append]
    rw [stringStep.eq_def]
    split <;> simp_all

theorem stringBody_escape (s rest : List Char) {fuel : Nat} (hfuel : s.length < fuel) :
    stringBody fuel (s.flatMap escapeChar ++ '"' :: rest) = some (s, rest) := by
  induction s generalizing fuel with
  | nil =>
      obtain ⟨fuel, rfl⟩ := Nat.exists_eq_add_one_of_ne_zero (Nat.ne_of_gt hfuel)
      rfl
  | cons c s ih =>
      obtain ⟨fuel, rfl⟩ := Nat.exists_eq_add_one_of_ne_zero (Nat.ne_zero_of_lt hfuel)
      have hrest : s.length < fuel := Nat.lt_of_succ_lt_succ hfuel
      rw [List.flatMap_cons, List.append_assoc, stringBody, stringStep_escapeChar]
      simp only [ih hrest, Option.map_some]

/-- Each character takes at least one place. -/
theorem length_le_escape (s : List Char) : s.length ≤ (s.flatMap escapeChar).length := by
  induction s with
  | nil => exact Nat.le_refl _
  | cons c s ih =>
      have hone : 1 ≤ (escapeChar c).length := by
        unfold escapeChar
        repeat' split
        all_goals simp
      rw [List.flatMap_cons, List.length_append, List.length_cons]
      omega

theorem stringRest_quote (s : String) (rest : List Char) :
    stringRest (s.toList.flatMap escapeChar ++ '"' :: rest) = some (s, rest) := by
  have hlength := length_le_escape s.toList
  have hbody := stringBody_escape s.toList rest
    (show s.toList.length < (s.toList.flatMap escapeChar ++ '"' :: rest).length + 1 by
      rw [List.length_append]; omega)
  simp only [stringRest, hbody, Option.map_some, String.ofList_toList]

/-! ### Numbers -/

/-- The text that follows cannot lengthen a number. -/
def Ends (rest : List Char) : Prop :=
  ∀ c ∈ rest.head?, c.isDigit = false ∧ c ≠ '.' ∧ c ≠ 'e' ∧ c ≠ 'E'

theorem ends_nil : Ends [] := by
  intro c hc
  contradiction

theorem decimal_toDigits (n : Nat) : decimal (Nat.toDigits 10 n) = n := by
  have hfold : decimal (Nat.toDigits 10 n) = Nat.ofDigitChars 10 (Nat.toDigits 10 n) 0 := by
    simp only [decimal, Nat.ofDigitChars_eq_foldl, Nat.mul_comm]
    rfl
  rw [hfold, Nat.ofDigitChars_ten_toDigits]

theorem isDigit_toDigits {n : Nat} {c : Char} (hc : c ∈ Nat.toDigits 10 n) : c.isDigit = true :=
  Nat.isDigit_of_mem_toDigits (by decide) (by decide) hc

/-- Only zero starts with a zero. -/
theorem head?_toDigits {n : Nat} (hn : n ≠ 0) : (Nat.toDigits 10 n).head? ≠ some '0' := by
  induction n using Nat.strongRecOn with
  | _ n ih =>
      by_cases hsmall : n < 10
      · have hall : ∀ m : Fin 10, m.val ≠ 0 → (Nat.toDigits 10 m.val).head? ≠ some '0' := by
          decide
        exact hall ⟨n, hsmall⟩ hn
      · have hfront : Nat.toDigits 10 (n / 10) ≠ [] := Nat.toDigits_ne_nil
        rw [Nat.toDigits_of_base_le (by decide) (by omega), List.head?_append_of_ne_nil _ hfront]
        exact ih (n / 10) (by omega) (by omega)

theorem exists_toDigits (n : Nat) :
    ∃ c cs, Nat.toDigits 10 n = c :: cs ∧ c.isDigit = true := by
  obtain ⟨c, cs, hcs⟩ := List.exists_cons_of_ne_nil (Nat.toDigits_ne_nil (n := n) (b := 10))
  exact ⟨c, cs, hcs, isDigit_toDigits (by rw [hcs]; exact List.mem_cons_self)⟩

theorem span_digits {digits rest : List Char} (hdigits : ∀ c ∈ digits, c.isDigit = true)
    (hends : Ends rest) :
    (digits ++ rest).takeWhile Char.isDigit = digits ∧
      (digits ++ rest).dropWhile Char.isDigit = rest := by
  rw [List.takeWhile_append_of_pos hdigits, List.dropWhile_append_of_pos hdigits]
  cases rest with
  | nil => simp
  | cons c rest =>
      have hc : c.isDigit = false := (hends c rfl).1
      simp [hc]

theorem integerPart_toDigits (n : Nat) {rest : List Char} (hends : Ends rest) :
    integerPart (Nat.toDigits 10 n ++ rest) = some (Nat.toDigits 10 n, rest) := by
  obtain ⟨htake, hdrop⟩ := span_digits (fun c (hc : c ∈ Nat.toDigits 10 n) => isDigit_toDigits hc)
    hends
  by_cases hn : n = 0
  · subst hn
    have hnext : rest.head?.any Char.isDigit = false := by
      cases rest with
      | nil => rfl
      | cons c rest => exact (hends c rfl).1
    simp [integerPart, hnext]
  · rw [integerPart.eq_def]
    split
    next cs hzero =>
      have hne : Nat.toDigits 10 n ≠ [] := Nat.toDigits_ne_nil
      have hhead : (Nat.toDigits 10 n ++ rest).head? = (Nat.toDigits 10 n).head? :=
        List.head?_append_of_ne_nil _ hne
      rw [hzero] at hhead
      exact absurd hhead.symm (head?_toDigits hn)
    next =>
      simp only [htake, hdrop]
      simp

theorem fractionPart_ends {rest : List Char} (hends : Ends rest) :
    fractionPart rest = some ([], rest) := by
  rw [fractionPart.eq_def]
  split
  next cs => exact absurd rfl (hends '.' rfl).2.1
  next => rfl

theorem exponentPart_ends {rest : List Char} (hends : Ends rest) :
    exponentPart rest = some ([], rest) := by
  cases rest with
  | nil => rfl
  | cons c rest =>
      obtain ⟨-, -, he, hE⟩ := hends c rfl
      simp [exponentPart, he, hE]

/-- An integer that fits in 64 bits, with a sign or without. -/
def isInt64 (n : Int) : Bool := -(signedLimit : Int) ≤ n && n < (limit64 : Int)

theorem numberValue_intChars {n : Int} (hn : isInt64 n = true) {rest : List Char}
    (hends : Ends rest) : numberValue (intChars n ++ rest) = some (.int n, rest) := by
  have hfrac := fractionPart_ends hends
  have hexp := exponentPart_ends hends
  simp only [isInt64, Bool.and_eq_true, decide_eq_true_eq] at hn
  cases n with
  | ofNat m =>
      have hwhole := integerPart_toDigits m hends
      have hsmall : m < limit64 := Int.ofNat_lt.mp hn.2
      rw [intChars, Nat.toList_repr]
      obtain ⟨c, cs, hdigits, hc⟩ := exists_toDigits m
      have hsign : c ≠ '-' := by
        intro h
        rw [h] at hc
        contradiction
      rw [hdigits, List.cons_append] at hwhole ⊢
      have hvalue : decimal (c :: cs) = m := hdigits ▸ decimal_toDigits m
      simp [numberValue, hsign, hwhole, hfrac, hexp, numberOf, hvalue, hsmall, nat]
  | negSucc m =>
      have hwhole := integerPart_toDigits (m + 1) hends
      have hsmall : ¬signedLimit < m + 1 := by omega
      rw [intChars, Nat.toList_repr]
      simp [numberValue, hwhole, hfrac, hexp, numberOf, decimal_toDigits, hsmall, Int.negSucc_eq]

/-! ### Values -/

mutual

/-- No number but 64-bit integers. -/
def isPlain : Json → Bool
  | .null | .bool _ | .string _ => true
  | .int n => isInt64 n
  | .number _ => false
  | .array items => arePlain items
  | .object members => havePlain members

def arePlain : List Json → Bool
  | [] => true
  | item :: items => isPlain item && arePlain items

def havePlain : List (String × Json) → Bool
  | [] => true
  | (_, value) :: members => isPlain value && havePlain members

end

theorem arePlain_eq_all (items : List Json) : arePlain items = items.all isPlain := by
  induction items with
  | nil => rfl
  | cons item items ih => rw [arePlain, ih, List.all_cons]

theorem havePlain_eq_all (members : List (String × Json)) :
    havePlain members = members.all fun m => isPlain m.2 := by
  induction members with
  | nil => rfl
  | cons m members ih => rw [havePlain, ih, List.all_cons]

theorem skipSpace_newline (level : Nat) (cs : List Char) :
    skipSpace (newline level ++ cs) = skipSpace cs := by
  refine List.dropWhile_append_of_pos ?_
  intro c hc
  rcases List.mem_cons.mp hc with rfl | hc
  · rfl
  · rw [List.eq_of_mem_replicate hc]
    rfl

theorem skipSpace_blank (cs : List Char) : skipSpace (' ' :: cs) = skipSpace cs := rfl

theorem skipSpace_cons {c : Char} (hc : isSpace c = false) (cs : List Char) :
    skipSpace (c :: cs) = c :: cs := by
  simp [skipSpace, hc]

/-- White space before a value is not seen. -/
theorem value_congr {cs ds : List Char} (h : skipSpace cs = skipSpace ds) (fuel : Nat) :
    value fuel cs = value fuel ds := by
  cases fuel with
  | zero => rfl
  | succ fuel => rw [value, value, h]

theorem exists_intChars (n : Int) :
    ∃ c cs, intChars n = c :: cs ∧ (c.isDigit = true ∨ c = '-') := by
  cases n with
  | ofNat m =>
      obtain ⟨c, cs, hcs, hc⟩ := exists_toDigits m
      exact ⟨c, cs, by rw [intChars, Nat.toList_repr, hcs], Or.inl hc⟩
  | negSucc m => exact ⟨_, _, rfl, Or.inr rfl⟩

theorem isSpace_of_number {c : Char} (hc : c.isDigit = true ∨ c = '-') : isSpace c = false := by
  rcases hc with hc | rfl
  · simp only [isSpace, Bool.or_eq_false_iff, decide_eq_false_iff_not]
    refine ⟨⟨⟨?_, ?_⟩, ?_⟩, ?_⟩ <;> (intro h; subst h; contradiction)
  · rfl

/-- A text that starts with none of the other marks is a number. -/
theorem value_number {c : Char} (hc : c.isDigit = true ∨ c = '-') (fuel : Nat) (cs : List Char) :
    value (fuel + 1) (c :: cs) = numberValue (c :: cs) := by
  rw [value, skipSpace_cons (isSpace_of_number hc)]
  split <;> simp_all

theorem value_array {cs : List Char} (hopen : (skipSpace cs).head? ≠ some ']') (fuel : Nat) :
    value (fuel + 1) ('[' :: cs) = (items fuel cs).map fun (xs, rest) => (.array xs, rest) := by
  rw [value, skipSpace_cons rfl]
  simp only []
  split
  next hclose => rw [hclose] at hopen; exact absurd rfl hopen
  next => rfl

theorem value_object {cs : List Char} (hopen : (skipSpace cs).head? ≠ some '\x7d') (fuel : Nat) :
    value (fuel + 1) ('\x7b' :: cs) =
      (members fuel cs).map fun (xs, rest) => (.object xs, rest) := by
  rw [value, skipSpace_cons rfl]
  simp only []
  split
  next hclose => rw [hclose] at hopen; exact absurd rfl hopen
  next => rfl

/-- A printed value starts with no white space and no closing bracket. -/
theorem exists_chars {j : Json} (hj : j.isPlain = true) (level : Nat) :
    ∃ c cs, chars level j = c :: cs ∧ isSpace c = false ∧ c ≠ ']' := by
  cases j with
  | null => exact ⟨_, _, rfl, rfl, by decide⟩
  | bool b => cases b <;> exact ⟨_, _, rfl, rfl, by decide⟩
  | int n =>
      obtain ⟨c, cs, hcs, hc⟩ := exists_intChars n
      refine ⟨c, cs, by rw [chars, hcs], isSpace_of_number hc, ?_⟩
      intro h
      subst h
      contradiction
  | number _ => contradiction
  | string s => exact ⟨_, _, rfl, rfl, by decide⟩
  | array items => cases items <;> exact ⟨_, _, rfl, rfl, by decide⟩
  | object members =>
      cases members with
      | nil => exact ⟨_, _, rfl, rfl, by decide⟩
      | cons m members => exact ⟨_, _, rfl, rfl, by decide⟩

/-- What follows an item or a member starts with a line feed or a comma. -/
theorem ends_itemChars (level : Nat) (items : List Json) (rest : List Char) :
    Ends (itemChars level items ++ rest) := by
  intro c hc
  cases items with
  | nil =>
      obtain rfl : '\n' = c := by simpa [itemChars, newline] using hc
      decide
  | cons item items =>
      obtain rfl : ',' = c := by simpa [itemChars] using hc
      decide

theorem ends_memberChars (level : Nat) (members : List (String × Json)) (rest : List Char) :
    Ends (memberChars level members ++ rest) := by
  intro c hc
  cases members with
  | nil =>
      obtain rfl : '\n' = c := by simpa [memberChars, newline] using hc
      decide
  | cons m members =>
      obtain rfl : ',' = c := by simpa [memberChars] using hc
      decide

theorem two_le_length_itemChars (level : Nat) (l : List Json) :
    2 ≤ (itemChars level l).length := by
  cases l <;> simp [itemChars, newline]

theorem two_le_length_memberChars (level : Nat) (l : List (String × Json)) :
    2 ≤ (memberChars level l).length := by
  cases l <;> simp [memberChars, newline]

theorem head?_itemChars {level : Nat} {l : List Json} {cs : List Char} (hl : arePlain l = true)
    (hcs : itemChars level l = ',' :: cs) (rest : List Char) :
    (skipSpace (cs ++ rest)).head? ≠ some ']' := by
  cases l with
  | nil => simp [itemChars, newline] at hcs
  | cons item l =>
      rw [arePlain, Bool.and_eq_true] at hl
      rw [itemChars, List.cons.injEq] at hcs
      obtain ⟨c, ds, hds, hspace, hc⟩ := exists_chars hl.1 (level + 1)
      rw [← hcs.2, List.append_assoc, List.append_assoc, skipSpace_newline, hds, List.cons_append,
        skipSpace_cons hspace]
      simpa using hc

theorem skipSpace_memberChars {level : Nat} {key : String} {val : Json} {l : List (String × Json)}
    {cs : List Char} (hcs : memberChars level ((key, val) :: l) = ',' :: cs) (rest : List Char) :
    skipSpace (cs ++ rest) = '"' :: (key.toList.flatMap escapeChar ++ '"' :: ':' :: ' ' ::
      (chars (level + 1) val ++ (memberChars level l ++ rest))) := by
  rw [memberChars, List.cons.injEq] at hcs
  rw [← hcs.2]
  simp only [List.append_assoc, skipSpace_newline, quote, List.cons_append, List.nil_append]
  rw [skipSpace_cons rfl]

/-- What a fuel is enough for.  The items of an array and the members of an object are printed
after the opening bracket as they are after a comma. -/
structure Reads (fuel : Nat) : Prop where
  value : ∀ {j : Json} {level : Nat} {rest : List Char}, j.isPlain = true →
    (chars level j).length ≤ fuel → Ends rest → value fuel (chars level j ++ rest) = some (j, rest)
  items : ∀ {l : List Json} {level : Nat} {cs rest : List Char}, arePlain l = true →
    itemChars level l = ',' :: cs → cs.length ≤ fuel → items fuel (cs ++ rest) = some (l, rest)
  members : ∀ {l : List (String × Json)} {level : Nat} {cs rest : List Char}, havePlain l = true →
    memberChars level l = ',' :: cs → cs.length ≤ fuel → members fuel (cs ++ rest) = some (l, rest)

namespace Reads

variable {fuel level : Nat} {rest : List Char}

theorem value_step (h : Reads fuel) {j : Json} (hj : j.isPlain = true)
    (hfuel : (chars level j).length ≤ fuel + 1) (hends : Ends rest) :
    Json.value (fuel + 1) (chars level j ++ rest) = some (j, rest) := by
  match j with
  | .null => rfl
  | .bool true => rfl
  | .bool false => rfl
  | .int n =>
      obtain ⟨c, cs, hcs, hc⟩ := exists_intChars n
      rw [isPlain] at hj
      have hnumber := numberValue_intChars hj hends
      rw [hcs, List.cons_append] at hnumber
      rw [chars, hcs, List.cons_append, value_number hc, hnumber]
  | .number _ => contradiction
  | .string s =>
      rw [chars, quote, List.cons_append, List.append_assoc, List.singleton_append, Json.value,
        skipSpace_cons rfl]
      simp only [stringRest_quote, Option.map_some]
  | .array [] => rfl
  | .array (item :: items) =>
      obtain ⟨cs, hcs⟩ : ∃ cs, itemChars level (item :: items) = ',' :: cs := ⟨_, by rw [itemChars]⟩
      have hchars : chars level (.array (item :: items)) = '[' :: cs := by
        rw [itemChars, List.cons.injEq] at hcs
        rw [chars, hcs.2]
      rw [isPlain] at hj
      rw [hchars, List.length_cons] at hfuel
      rw [hchars, List.cons_append, value_array (head?_itemChars hj hcs rest),
        h.items hj hcs (Nat.le_of_succ_le_succ hfuel), Option.map_some]
  | .object [] => rfl
  | .object ((key, val) :: members) =>
      obtain ⟨cs, hcs⟩ : ∃ cs, memberChars level ((key, val) :: members) = ',' :: cs :=
        ⟨_, by rw [memberChars]⟩
      have hchars : chars level (.object ((key, val) :: members)) = '\x7b' :: cs := by
        rw [memberChars, List.cons.injEq] at hcs
        rw [chars, hcs.2]
      rw [isPlain] at hj
      rw [hchars, List.length_cons] at hfuel
      rw [hchars, List.cons_append, value_object (by rw [skipSpace_memberChars hcs]; simp),
        h.members hj hcs (Nat.le_of_succ_le_succ hfuel), Option.map_some]

theorem items_step (h : Reads fuel) {l : List Json} {cs : List Char} (hl : arePlain l = true)
    (hcs : itemChars level l = ',' :: cs) (hfuel : cs.length ≤ fuel + 1) :
    Json.items (fuel + 1) (cs ++ rest) = some (l, rest) := by
  cases l with
  | nil => simp [itemChars, newline] at hcs
  | cons item l =>
      rw [arePlain, Bool.and_eq_true] at hl
      rw [itemChars, List.cons.injEq] at hcs
      obtain ⟨-, rfl⟩ := hcs
      simp only [List.length_append, newline, List.length_cons] at hfuel
      have hitem : Json.value fuel (newline (level + 1) ++ chars (level + 1) item ++
          itemChars level l ++ rest) = some (item, itemChars level l ++ rest) := by
        rw [List.append_assoc, List.append_assoc, value_congr (skipSpace_newline _ _)]
        exact h.value hl.1 (by omega) (ends_itemChars level l rest)
      rw [Json.items, hitem]
      match l with
      | [] =>
          simp only [itemChars, List.append_assoc, skipSpace_newline]
          rfl
      | next :: l =>
          obtain ⟨ds, hds⟩ : ∃ ds, itemChars level (next :: l) = ',' :: ds := ⟨_, by rw [itemChars]⟩
          rw [hds, List.length_cons] at hfuel
          have hitems : Json.items fuel (ds ++ rest) = some (next :: l, rest) :=
            h.items hl.2 hds (by omega)
          simp only [hds, List.cons_append, skipSpace_cons (show isSpace ',' = false from rfl),
            hitems, Option.map_some]

theorem members_step (h : Reads fuel) {l : List (String × Json)} {cs : List Char}
    (hl : havePlain l = true) (hcs : memberChars level l = ',' :: cs)
    (hfuel : cs.length ≤ fuel + 1) : Json.members (fuel + 1) (cs ++ rest) = some (l, rest) := by
  match l with
  | [] => simp [memberChars, newline] at hcs
  | (key, val) :: l =>
      rw [havePlain, Bool.and_eq_true] at hl
      have hlength : (chars (level + 1) val).length + (memberChars level l).length < cs.length := by
        rw [memberChars, List.cons.injEq] at hcs
        simp only [← hcs.2, List.length_append, newline, List.length_cons]
        omega
      have hvalue :
          Json.value fuel (' ' :: (chars (level + 1) val ++ (memberChars level l ++ rest))) =
            some (val, memberChars level l ++ rest) := by
        rw [value_congr (skipSpace_blank _)]
        exact h.value hl.1 (show (chars (level + 1) val).length ≤ fuel by omega)
          (ends_memberChars level l rest)
      rw [Json.members, skipSpace_memberChars hcs]
      simp only [stringRest_quote, skipSpace_cons (show isSpace ':' = false from rfl), hvalue]
      match l with
      | [] =>
          simp only [memberChars, List.append_assoc, skipSpace_newline]
          rfl
      | next :: l =>
          obtain ⟨ds, hds⟩ : ∃ ds, memberChars level (next :: l) = ',' :: ds :=
            ⟨_, by rw [memberChars]⟩
          rw [hds, List.length_cons] at hlength
          have hmembers : Json.members fuel (ds ++ rest) = some (next :: l, rest) :=
            h.members hl.2 hds (by omega)
          rw [hds, List.cons_append, skipSpace_cons rfl]
          simp only [hmembers, Option.map_some]

end Reads

theorem reads (fuel : Nat) : Reads fuel := by
  induction fuel with
  | zero =>
      refine ⟨?_, ?_, ?_⟩
      · intro j level rest hj hfuel
        obtain ⟨c, cs, hcs, -⟩ := exists_chars hj level
        rw [hcs] at hfuel
        contradiction
      · intro l level cs rest hl hcs hfuel
        have hlength := two_le_length_itemChars level l
        rw [hcs, List.length_cons] at hlength
        omega
      · intro l level cs rest hl hcs hfuel
        have hlength := two_le_length_memberChars level l
        rw [hcs, List.length_cons] at hlength
        omega
  | succ fuel ih =>
      exact ⟨ih.value_step, ih.items_step, ih.members_step⟩

/-- What is printed is read back. -/
theorem parse?_render {j : Json} (hj : j.isPlain = true) : parse? j.render = some j := by
  have hvalue := (reads (2 * (chars 0 j).length + 2)).value hj
    (show (chars 0 j).length ≤ _ by omega) ends_nil
  rw [List.append_nil] at hvalue
  simp only [parse?, render, String.toList_ofList, hvalue]
  rfl

end HookLint.Json
