import Diglot.Text.Quoted

/-!
# Values written as terms

The notation in which reports show values: a constructor with its arguments in parentheses or with
its fields in braces, lists in brackets, and `None` or `Some` for what may be missing.
-/

namespace Diglot.Text.Term

/-- Items separated by commas. -/
def items (xs : List String) : String :=
  ", ".intercalate xs

def list (xs : List String) : String :=
  "[" ++ items xs ++ "]"

/-- A constructor with arguments. -/
def apply (name : String) (args : List String) : String :=
  name ++ "(" ++ items args ++ ")"

/-- A constructor with named fields. -/
def record (name : String) (fields : List (String × String)) : String :=
  name ++ " \x7b " ++ items (fields.map fun (field, value) => field ++ ": " ++ value) ++ " \x7d"

def bool (b : Bool) : String :=
  if b then "true" else "false"

def nat (n : Nat) : String :=
  toString n

def option {α : Type} (f : α → String) : Option α → String
  | none => "None"
  | some a => apply "Some" [f a]

end Diglot.Text.Term
