import Diglot.Proofs.Conversion.Wrapper
import Diglot.Proofs.Expression.Calls

/-!
# Deferred compilation

Compilation can be put off until an expression is first used, and then the expression has a plan even
if it needs none. Neither can be seen: two expressions with the same compiled pattern whose plans
differ in nothing but this give the same answers to all calls.
-/

namespace Diglot

open Host (Regex)

namespace Emulation

variable {e e' : Emulation}

theorem find_congr (h : e.strategy = e'.strategy) : e.find = e'.find := by
  unfold find
  rw [h]

theorem report_congr (h : e.transfers = e'.transfers) : e.report = e'.report := by
  unfold report sources
  rw [h]

end Emulation

/-! ## Expressions that match alike -/

namespace Expression

variable {source flags : String} {r : Regex} {names : List (Option String)}

/-- Two expressions with the compiled pattern `r` that hide, transfer and choose alike. -/
structure MatchAlike (r : Regex) (x y : Expression) : Prop where
  first : x.prepare.2 = .ok r
  second : y.prepare.2 = .ok r
  flags : x.flags = y.flags
  visible : x.visible = y.visible
  names : x.names = y.names
  transfers : x.plan.transfers = y.plan.transfers
  strategy : x.plan.strategy = y.plan.strategy
  lastIndex : x.lastIndex = y.lastIndex

namespace MatchAlike

variable {x y : Expression}

section

variable (h : MatchAlike r x y)

include h

theorem isGlobal : x.isGlobal = y.isGlobal := by
  unfold Expression.isGlobal
  rw [h.flags]

theorem search : x.search r = y.search r := by
  unfold Expression.search
  rw [Emulation.find_congr h.strategy]

theorem captures : x.captures = y.captures := by
  unfold Expression.captures
  rw [h.visible, h.names, Emulation.report_congr h.transfers]

theorem foundAt : x.foundAt r = y.foundAt r := by
  unfold Expression.foundAt
  rw [h.search, h.captures]

theorem foundAll : x.foundAll r = y.foundAll r := by
  unfold Expression.foundAll
  rw [h.search, h.captures]

/-- Both are compiled by now, and the next global search begins at the same place. -/
theorem compiled (index : Nat) : MatchAlike r { x with regex := some r, lastIndex := index }
      { y with regex := some r, lastIndex := index } :=
  { h with first := rfl, second := rfl, lastIndex := rfl }

/-- The next global search begins at another place. -/
theorem moved (index : Nat) :
    MatchAlike r { x with lastIndex := index } { y with lastIndex := index } := by
  have hprepare : ∀ z : Expression, ({ z with lastIndex := index }.prepare).2 = z.prepare.2 := by
    intro z
    unfold prepare
    dsimp only
    split
    · rfl
    · split <;> rfl
  exact { h with
    first := (hprepare x).trans h.first
    second := (hprepare y).trans h.second
    lastIndex := rfl }

end

/-- The same result, and expressions that match alike again. -/
def Agree {α : Type} (r : Regex) (a b : Expression × α) : Prop :=
  a.2 = b.2 ∧ MatchAlike r a.1 b.1

theorem findAt (h : MatchAlike r x y) (text : String) (start : Nat) :
    Agree r (x.findAt text start) (y.findAt text start) := by
  rw [findAt_eq h.first, findAt_eq h.second, h.foundAt]
  refine ⟨rfl, ?_⟩
  have hcompiled := h.compiled x.lastIndex
  rw [h.lastIndex] at hcompiled
  exact { hcompiled with lastIndex := h.lastIndex }

theorem findAll (h : MatchAlike r x y) (text : String) :
    Agree r (x.findAll text) (y.findAll text) := by
  rw [findAll_eq h.first, findAll_eq h.second, h.foundAll]
  refine ⟨rfl, ?_⟩
  have hcompiled := h.compiled x.lastIndex
  rw [h.lastIndex] at hcompiled
  exact { hcompiled with lastIndex := h.lastIndex }

theorem exec (h : MatchAlike r x y) (text : String) : Agree r (x.exec text) (y.exec text) := by
  cases hg : y.isGlobal with
  | false =>
    rw [exec_of_not_global (h.isGlobal.trans hg), exec_of_not_global hg]
    exact h.findAt text 0
  | true =>
    rw [exec_of_global (h.isGlobal.trans hg) h.first, exec_of_global hg h.second, h.foundAt,
      h.lastIndex]
    by_cases hi : (Text.indexAt? text.toList y.lastIndex).isNone = true
    · rw [if_pos hi, if_pos hi]
      exact ⟨rfl, h.moved 0⟩
    · rw [if_neg hi, if_neg hi]
      exact ⟨rfl, h.compiled _⟩

/-- **Every call gives the same answer**, and leaves expressions that match alike. -/
theorem perform (h : MatchAlike r x y) (c : Call) : Agree r (x.perform c) (y.perform c) := by
  cases c with
  | findAt text start =>
    obtain ⟨hresult, hnext⟩ := h.findAt text start
    exact ⟨congrArg Answer.found hresult, hnext⟩
  | exec text =>
    obtain ⟨hresult, hnext⟩ := h.exec text
    exact ⟨congrArg Answer.found hresult, hnext⟩
  | test text =>
    obtain ⟨hresult, hnext⟩ := h.exec text
    refine ⟨?_, hnext⟩
    show Answer.decided ((x.exec text).2.map (·.isSome))
      = .decided ((y.exec text).2.map (·.isSome))
    rw [hresult]
  | findAll text =>
    obtain ⟨hresult, hnext⟩ := h.findAll text
    exact ⟨congrArg Answer.all hresult, hnext⟩
  | setLastIndex index => exact ⟨rfl, h.moved index⟩
  | captureNames => exact ⟨congrArg Answer.names h.names, h⟩
  | captureCount =>
    refine ⟨?_, h⟩
    show Answer.count x.visible.length = .count y.visible.length
    rw [h.visible]

/-- **All calls give the same answers.** -/
theorem answers (h : MatchAlike r x y) (cs : List Call) : x.answers cs = y.answers cs := by
  induction cs generalizing x y with
  | nil => rfl
  | cons c cs ih =>
    obtain ⟨hanswer, hnext⟩ := h.perform c
    rw [Expression.answers, Expression.answers, hanswer, hnext.lastIndex, ih hnext]

end MatchAlike

/-! ## Expressions of conversions -/

end Expression

/-! ## Lengths from which on compilation is put off -/

namespace Conversion

variable (c : Conversion) (length : Nat)

end Conversion

namespace Settings

variable (s : Settings) (length : Nat)

end Settings

end Diglot
