/-
How names are declared.

A site declares names in few ways: a name of its own, the patterns of its declarators, a
loop's variable, imports (`Binds`).  Reading hands the way down to the names of a pattern
as it is, and hands down nothing else (`declares_of_mem_expand`).  So every declaration of
a unit is one that some site of the unit makes (`binds_of_mem_unitEvents`): `var` is
hoisted, whatever pattern it stands in (`Binds.hoisted`), and an initializer is that of a
declarator (`Binds.initializes`).
-/
import HookLint.Proofs.Building

namespace HookLint.Scope

open HookLint.Syntax

/-- How a step declares a name, or the names it leads to. -/
def Step.binder? : Step → Option Binder
  | .emit (.declare d) => some d.binder
  | .emit _ => none
  | .visit role _ => role.binder?

/-- The site declares variables, and one of them has this initializer. -/
structure Initializes (s init : Site) : Prop where
  kind : s.kind = .lexicalDeclaration ∨ s.kind = .variableDeclaration
  declarator : ∃ d ∈ s.namedChildren, d.kind = .declarator ∧ d.field? .value = some init

theorem Binds.initializes {s i : Site} {b : Binder} (h : Binds s b) (hi : b.init = some i) :
    Initializes s i := by
  cases h with
  | own => contradiction
  | declarator k hkind hd hkd => exact ⟨hkind, _, hd, hkd, hi⟩
  | loop => contradiction
  | imported => contradiction

/-- A variable declared by `var` is hoisted. -/
theorem Binds.hoisted {s : Site} {b : Binder} (h : Binds s b)
    (hkind : b.kind = .variable .varVar) : b.target = .hoisted := by
  cases h with
  | own kind hk => exact absurd hkind (hk _)
  | declarator k =>
      cases hkind
      rfl
  | loop k =>
      cases hkind
      rfl
  | imported => contradiction

section Declarations

variable {P : Binder → Prop} {source : String} {s : Site}

/-- A site hands on what it was handed, and the ways it declares names itself. -/
theorem declares_of_mem_expand {role : Role} {x : Step} {b : Binder}
    (hx : x ∈ expand source role s) (hb : x.binder? = some b) : Declares source role s b := by
  cases offers_of_mem_expand hx with
  | declare d hd => exact Option.some.inj hb ▸ hd
  | pattern steps hd => exact Option.some.inj hb ▸ hd
  | parameter steps hd => exact Option.some.inj hb ▸ hd
  | _ => contradiction

/-! ### Whole trees -/

theorem binder_of_mem_events {role : Role} {d : Declaration}
    (hd : .declare d ∈ events source role s) (hrole : ∀ b, role.binder? = some b → P b)
    (h : ∀ t, Site.Under s t → ∀ b, Binds t b → P b) : P d.binder := by
  induction role, s using expand_induction source with
  | step role s ih =>
      rw [events_eq] at hd
      obtain ⟨step, hstep, hd⟩ := List.mem_flatMap.mp hd
      have hhands : ∀ b, step.binder? = some b → P b := by
        intro b hb
        cases declares_of_mem_expand hstep hb with
        | handed hb => exact hrole b hb
        | own _ _ hb => exact h s (.self s) b hb
      cases step with
      | emit ev =>
          rw [Step.events, List.mem_singleton] at hd
          subst hd
          exact hhands _ rfl
      | visit r c =>
          obtain ⟨child, hchild, hc⟩ := (expand_leads hstep).under
          exact ih r c hstep hd hhands
            fun t ht => h t (((Site.Under.of_child hchild).trans hc).trans ht)

/-- Every declaration of a unit is made by one of its sites. -/
theorem binds_of_mem_unitEvents {root : Tree} {d : Declaration}
    (hd : .declare d ∈ unitEvents source root) :
    ∃ t, Site.Under (Site.root root) t ∧ Binds t d.binder := by
  rcases List.mem_cons.mp hd with hd | hd
  · contradiction
  · rcases List.mem_append.mp hd with hd | hd
    · obtain ⟨c, hc, hd⟩ := List.mem_flatMap.mp hd
      have hunder := Site.Under.of_child (Site.mem_children_of_mem_namedChildren hc)
      exact binder_of_mem_events (P := fun b => ∃ t, Site.Under (Site.root root) t ∧ Binds t b)
        hd nofun fun t ht b hb => ⟨t, hunder.trans ht, hb⟩
    · rw [List.mem_singleton] at hd
      contradiction

end Declarations

end HookLint.Scope
