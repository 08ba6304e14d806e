/-!
# JSON in print

JSON values written over several lines, with two blanks for each level and the fields of an object
in the order in which they are given.
-/

namespace Diglot.Text

/-- A JSON value. Its numbers count things. -/
inductive Json where
  | null
  | bool (b : Bool)
  | number (n : Nat)
  | text (s : String)
  | array (items : List Json)
  | object (fields : List (String × Json))
  deriving Repr, Inhabited

namespace Json

/-- A character as it is written in a JSON text. -/
def escape (c : Char) : String :=
  match c with
  | '"' => "\\\""
  | '\\' => "\\\\"
  | '\n' => "\\n"
  | '\r' => "\\r"
  | '\t' => "\\t"
  | '\x08' => "\\b"
  | '\x0c' => "\\f"
  | c =>
    if c.toNat < 0x20 then
      let digits := Nat.toDigits 16 c.toNat
      "\\u" ++ String.ofList (List.replicate (4 - digits.length) '0' ++ digits)
    else c.toString

def quote (s : String) : String :=
  "\"" ++ String.join (s.toList.map escape) ++ "\""

def line (level : Nat) : String :=
  "\n" ++ String.ofList (List.replicate (2 * level) ' ')

/-- What stands between two brackets at a level. -/
def enclose (first last : String) (level : Nat) (items : List String) : String :=
  if items.isEmpty then first ++ last
  else first ++ ",".intercalate (items.map (line (level + 1) ++ ·)) ++ line level ++ last

mutual

/-- A value at a level. -/
def renderAt (level : Nat) : Json → String
  | null => "null"
  | bool b => if b then "true" else "false"
  | number n => toString n
  | text s => quote s
  | array items => enclose "[" "]" level (renderItems (level + 1) items)
  | object fields => enclose "\x7b" "\x7d" level (renderFields (level + 1) fields)

def renderItems (level : Nat) : List Json → List String
  | [] => []
  | v :: vs => renderAt level v :: renderItems level vs

def renderFields (level : Nat) : List (String × Json) → List String
  | [] => []
  | (name, v) :: fields => (quote name ++ ": " ++ renderAt level v) :: renderFields level fields

end

/-- A value in print. -/
def render (v : Json) : String :=
  renderAt 0 v

end Json

end Diglot.Text
