import Diglot.Expression

/-!
# Calls on expressions

An expression is used through calls, one after the other. All that can be seen of it are the answers
to the calls, and after each of them the place where the next global search begins.
-/

namespace Diglot

open Host (Regex)

/-- A call on an expression. -/
inductive Call where
  | findAt (text : String) (start : Nat)
  | exec (text : String)
  | test (text : String)
  | findAll (text : String)
  | setLastIndex (index : Nat)
  | captureNames
  | captureCount

/-- What a call gives. -/
inductive Answer where
  | found (result : Except Error (Option Captures))
  | decided (result : Except Error Bool)
  | all (result : Except Error (List Captures))
  | names (names : List (Option String))
  | count (n : Nat)
  | nothing

namespace Expression

variable {x : Expression} {r : Regex}

/-- The expression after a call, and what the call gives. -/
def perform (x : Expression) : Call → Expression × Answer
  | .findAt text start => ((x.findAt text start).1, .found (x.findAt text start).2)
  | .exec text => ((x.exec text).1, .found (x.exec text).2)
  | .test text => ((x.test text).1, .decided (x.test text).2)
  | .findAll text => ((x.findAll text).1, .all (x.findAll text).2)
  | .setLastIndex index => ({ x with lastIndex := index }, .nothing)
  | .captureNames => (x, .names x.names)
  | .captureCount => (x, .count x.visible.length)

/-- What calls give one after the other, each with the place where a global search goes on after
it. -/
def answers (x : Expression) : List Call → List (Answer × Nat)
  | [] => []
  | c :: cs => ((x.perform c).2, (x.perform c).1.lastIndex) :: (x.perform c).1.answers cs

/-! ## Calls on an expression that can be compiled -/

/-- What is found from an offset on, with the compiled pattern `r`. -/
def foundAt (x : Expression) (r : Regex) (text : String) (start : Nat) : Option Captures :=
  ((Text.indexAt? text.toList start).bind (x.search r text.toList.toArray)).map
    (x.captures (Text.offsetOf text.toList))

/-- All that is found, with the compiled pattern `r`. -/
def foundAll (x : Expression) (r : Regex) (text : String) : List Captures :=
  (allFrom (x.search r text.toList.toArray) text.toList.toArray.size 0).map
    (x.captures (Text.offsetOf text.toList))

/-- An expression keeps its compiled pattern, and is otherwise as it was. -/
theorem prepare_eq (h : x.prepare.2 = .ok r) : x.prepare = ({ x with regex := some r }, .ok r) := by
  obtain ⟨source, flags, emulation, visible, names, regex, lastIndex⟩ := x
  unfold prepare at *
  cases regex with
  | some r' =>
    cases h
    rfl
  | none =>
    dsimp only at h ⊢
    cases hc : compile source flags with
    | error e =>
      rw [hc] at h
      cases h
    | ok r' =>
      rw [hc] at h
      cases h
      rfl

theorem findAt_eq (h : x.prepare.2 = .ok r) (text : String) (start : Nat) :
    x.findAt text start = ({ x with regex := some r }, .ok (x.foundAt r text start)) := by
  unfold findAt
  rw [prepare_eq h]
  rfl

theorem findAll_eq (h : x.prepare.2 = .ok r) (text : String) :
    x.findAll text = ({ x with regex := some r }, .ok (x.foundAll r text)) := by
  have hoffsets : Text.offsetIn (Text.offsetTable text.toList) = Text.offsetOf text.toList :=
    funext fun i => Text.offsetIn_offsetTable text.toList i
  unfold findAll
  rw [prepare_eq h]
  dsimp only
  rw [hoffsets]
  rfl

/-- A search that is not global starts at the front of the text. -/
theorem exec_of_not_global (hg : x.isGlobal = false) (text : String) :
    x.exec text = x.findAt text 0 := by
  unfold exec
  rw [hg]
  rfl

/-- A global search goes on where the last one ended, and starts afresh where there is no such
place. -/
theorem exec_of_global (hg : x.isGlobal = true) (h : x.prepare.2 = .ok r) (text : String) :
    x.exec text =
      if (Text.indexAt? text.toList x.lastIndex).isNone then ({ x with lastIndex := 0 }, .ok none)
      else
        ({ x with
            regex := some r
            lastIndex := ((x.foundAt r text x.lastIndex).map (·.stop)).getD 0 },
          .ok (x.foundAt r text x.lastIndex)) := by
  unfold exec
  rw [hg, if_neg (by decide), findAt_eq h]

end Expression

end Diglot
