/-
Paths as names and keys.

A path is a text, but every path that is read or declared is built from a name by
adding keys, none of which holds a dot: `Path.ofKeys`.  For such paths `covers` is
what it should be, the same name and a prefix of the keys (`covers_ofKeys`), and the
mutable slot of a ref is a path whose last key is `current` (`isMutableSlot_ofKeys`).

The two cases of `covers` are one when a dot is put after both texts; with that dot
every name and every key is closed by one, and texts can be read from their start.
-/
import HookLint.Dependency.Path
import Mathlib.Data.List.Infix

namespace HookLint.Dependency.Path

/-! ### Covering is an order -/

/-- `p` covers `q` when, both closed by a dot, the first starts the second. -/
theorem covers_iff {p q : Path} :
    p.covers q = true ↔ p.text.toList ++ ['.'] <+: q.text.toList ++ ['.'] := by
  simp only [covers, Bool.or_eq_true, decide_eq_true_eq, List.isPrefixOf_iff_prefix]
  constructor
  · rintro (rfl | h)
    · exact List.prefix_refl _
    · exact h.trans (List.prefix_append _ _)
  · intro h
    rcases List.prefix_concat_iff.mp h with heq | h
    · have htext : q.text = p.text := String.toList_inj.mp (List.append_cancel_right heq).symm
      cases p
      cases q
      simp_all
    · exact Or.inr h

theorem covers_refl (p : Path) : p.covers p = true := covers_iff.mpr (List.prefix_refl _)

theorem covers_trans {p q r : Path} (hpq : p.covers q = true) (hqr : q.covers r = true) :
    p.covers r = true :=
  covers_iff.mpr ((covers_iff.mp hpq).trans (covers_iff.mp hqr))

/-- A path that covers another is shorter. -/
theorem length_lt_of_covers {p q : Path} (h : p.covers q = true) (hne : p ≠ q) :
    p.text.toList.length < q.text.toList.length := by
  have hle := (covers_iff.mp h).length_le
  simp only [List.length_append, List.length_singleton] at hle
  refine Nat.lt_of_le_of_ne (by omega) fun heq => hne ?_
  have htext := (covers_iff.mp h).eq_of_length (by simp [heq])
  have : p.text = q.text := String.toList_inj.mp (List.append_cancel_right htext)
  cases p
  cases q
  simp_all

/-- The paths that cover one path are a chain. -/
theorem covers_or_covers {p q r : Path} (hp : p.covers r = true) (hq : q.covers r = true) :
    p.covers q = true ∨ q.covers p = true := by
  simp only [covers_iff] at hp hq ⊢
  exact List.prefix_or_prefix_of_prefix hp hq

/-! ### Names and keys -/

/-- A text without a dot. -/
def Plain (s : String) : Prop := '.' ∉ s.toList

instance (s : String) : Decidable (Plain s) := inferInstanceAs (Decidable ('.' ∉ s.toList))

/-- The path of a name and the keys after it. -/
def ofKeys (name : String) (keys : List String) : Path := keys.foldl push ⟨name⟩

theorem ofKeys_concat (name : String) (keys : List String) (key : String) :
    ofKeys name (keys ++ [key]) = (ofKeys name keys).push key := by
  rw [ofKeys, List.foldl_append]
  rfl

/-- Texts, each closed by a dot. -/
def closed (parts : List String) : List Char := parts.flatMap fun s => s.toList ++ ['.']

theorem closed_ofKeys (name : String) (keys : List String) :
    (ofKeys name keys).text.toList ++ ['.'] = closed (name :: keys) := by
  induction keys using List.reverseRecOn with
  | nil => simp [ofKeys, closed]
  | append_singleton keys key ih =>
      have hpush : (ofKeys name (keys ++ [key])).text.toList =
          ((ofKeys name keys).text.toList ++ ['.']) ++ key.toList := by
        rw [ofKeys_concat, push, String.toList_append, String.toList_append]
        rfl
      rw [hpush, ih]
      simp [closed]

/-- A text without dots ends where the first dot stands. -/
theorem plain_append_cons_inj {a b : List Char} (ha : '.' ∉ a) (hb : '.' ∉ b) {x y : List Char}
    (h : a ++ '.' :: x = b ++ '.' :: y) : a = b ∧ x = y := by
  induction a generalizing b with
  | nil =>
      cases b with
      | nil => exact ⟨rfl, by simpa using h⟩
      | cons c b =>
          injection h with hc
          exact absurd (hc ▸ List.mem_cons_self) hb
  | cons c a ih =>
      cases b with
      | nil =>
          injection h with hc
          exact absurd (hc ▸ List.mem_cons_self) ha
      | cons d b =>
          injection h with hcd htail
          simp only [List.mem_cons, not_or] at ha hb
          obtain ⟨hab, hxy⟩ := ih ha.2 hb.2 htail
          exact ⟨by rw [hcd, hab], hxy⟩

/-- Closed texts are read off from the start. -/
theorem closed_prefix_iff {as bs : List String} (ha : ∀ s ∈ as, Plain s) (hb : ∀ s ∈ bs, Plain s) :
    closed as <+: closed bs ↔ as <+: bs := by
  induction as generalizing bs with
  | nil => simp [closed]
  | cons a as ih =>
      cases bs with
      | nil => simp [closed]
      | cons b bs =>
          have hrec := @ih bs (fun s hs => ha s (List.mem_cons_of_mem _ hs))
            (fun s hs => hb s (List.mem_cons_of_mem _ hs))
          have hcons : ∀ c cs, closed (c :: cs) = c.toList ++ '.' :: closed cs := by
            intro c cs
            simp [closed]
          rw [List.cons_prefix_cons, ← hrec, hcons, hcons]
          constructor
          · rintro ⟨rest, hrest⟩
            rw [List.append_assoc, List.cons_append] at hrest
            obtain ⟨hab, htail⟩ := plain_append_cons_inj (ha a List.mem_cons_self)
              (hb b List.mem_cons_self) hrest
            exact ⟨String.toList_inj.mp hab, rest, htail⟩
          · rintro ⟨rfl, rest, hrest⟩
            exact ⟨rest, by rw [← hrest, List.append_assoc, List.cons_append]⟩

variable {name name' : String} {keys keys' : List String}

/-- One path covers another when it has the same name and fewer of the keys. -/
theorem covers_ofKeys (hn : Plain name) (hn' : Plain name') (hk : ∀ k ∈ keys, Plain k)
    (hk' : ∀ k ∈ keys', Plain k) :
    (ofKeys name keys).covers (ofKeys name' keys') = true ↔ name = name' ∧ keys <+: keys' := by
  rw [covers_iff, closed_ofKeys, closed_ofKeys, closed_prefix_iff, List.cons_prefix_cons]
  · exact fun s hs => (List.mem_cons.mp hs).elim (· ▸ hn) (hk s)
  · exact fun s hs => (List.mem_cons.mp hs).elim (· ▸ hn') (hk' s)

/-- A path covers those that go on after it, whatever the keys are. -/
theorem covers_ofKeys_of_isPrefix (h : keys <+: keys') :
    (ofKeys name keys).covers (ofKeys name keys') = true := by
  obtain ⟨more, rfl⟩ := h
  rw [covers_iff, closed_ofKeys, closed_ofKeys, ← List.cons_append, closed, closed, List.flatMap_append]
  exact List.prefix_append _ _

/-- What stands after the last dot is the last key. -/
theorem last_ofKeys_concat {key : String} (hkey : Plain key) :
    (ofKeys name (keys ++ [key])).last = key := by
  have htext : (ofKeys name (keys ++ [key])).text.toList.reverse =
      key.toList.reverse ++ '.' :: (ofKeys name keys).text.toList.reverse := by
    rw [ofKeys_concat, push, String.toList_append, String.toList_append]
    simp
  have hall : ∀ c ∈ key.toList.reverse, (c ≠ '.' : Bool) = true := by
    intro c hc
    simp only [ne_eq, decide_not, Bool.not_eq_eq_eq_not, Bool.not_true, decide_eq_false_iff_not]
    rintro rfl
    exact hkey (List.mem_reverse.mp hc)
  rw [last, htext, List.takeWhile_append_of_pos hall]
  simp

/-- The mutable slot of a ref is a path whose last key is `current`. -/
theorem isMutableSlot_ofKeys (hn : Plain name) (hk : ∀ k ∈ keys, Plain k)
    (h : (ofKeys name keys).isMutableSlot = true) : "current" ∈ keys := by
  simp only [isMutableSlot, Bool.and_eq_true, decide_eq_true_eq] at h
  induction keys using List.reverseRecOn with
  | nil =>
      have hdot : '.' ∈ name.toList := by simpa [hasDot, ofKeys] using h.1
      exact absurd hdot hn
  | append_singleton keys key _ =>
      have hkey : Plain key := hk key (List.mem_append_right _ (List.mem_singleton_self _))
      rw [last_ofKeys_concat hkey] at h
      rw [h.2]
      exact List.mem_append_right _ (List.mem_singleton_self _)

end HookLint.Dependency.Path
