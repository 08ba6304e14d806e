import Diglot.Unicode.Case
import Diglot.Unicode.Kind

/-!
# Property names

The source dialect compares property names without regard to case, blanks, hyphens and underscores.
The host wants them spelled exactly. A name that is not in the table is taken for a script.
-/

namespace Diglot.Unicode

/-- Names of general categories and binary properties as the host spells them. -/
def propertyNames : List String := [
  "C", "Other", "Cc", "Control", "Cf", "Format", "Cn", "Unassigned", "Co",
  "Private_Use", "Cs", "Surrogate", "L", "Letter", "LC", "Cased_Letter", "Ll",
  "Lowercase_Letter", "Lm", "Modifier_Letter", "Lo", "Other_Letter", "Lt",
  "Titlecase_Letter", "Lu", "Uppercase_Letter", "M", "Mark", "Mc", "Spacing_Mark",
  "Me", "Enclosing_Mark", "Mn", "Nonspacing_Mark", "N", "Number", "Nd",
  "Decimal_Number", "Nl", "Letter_Number", "No", "Other_Number", "P", "Punctuation",
  "Pc", "Connector_Punctuation", "Pd", "Dash_Punctuation", "Pe", "Close_Punctuation",
  "Pf", "Final_Punctuation", "Pi", "Initial_Punctuation", "Po", "Other_Punctuation",
  "Ps", "Open_Punctuation", "S", "Symbol", "Sc", "Currency_Symbol", "Sk",
  "Modifier_Symbol", "Sm", "Math_Symbol", "So", "Other_Symbol", "Z", "Separator",
  "Zl", "Line_Separator", "Zp", "Paragraph_Separator", "Zs", "Space_Separator",
  "ASCII", "ASCII_Hex_Digit", "Alphabetic", "Any", "Assigned", "Bidi_Control",
  "Case_Ignorable", "Cased", "Dash", "Default_Ignorable_Code_Point", "Deprecated",
  "Diacritic", "Emoji", "Emoji_Component", "Emoji_Modifier", "Emoji_Presentation",
  "Extended_Pictographic", "Extender", "Hex_Digit", "ID_Continue", "ID_Start",
  "Ideographic", "Join_Control", "Lowercase", "Math", "Noncharacter_Code_Point",
  "Pattern_Syntax", "Pattern_White_Space", "Quotation_Mark", "Radical",
  "Regional_Indicator", "Sentence_Terminal", "Soft_Dotted", "Terminal_Punctuation",
  "Unified_Ideograph", "Uppercase", "Variation_Selector", "White_Space", "XID_Continue",
  "XID_Start"]

/-- Names of the source dialect that stand for other names of the host. They win over the names in
`propertyNames`. -/
def propertyAliases : List (String × String) := [
  ("alpha", "Alphabetic"), ("upper", "Uppercase"), ("lower", "Lowercase"),
  ("space", "White_Space"), ("xdigit", "Hex_Digit"), ("punct", "P"), ("cntrl", "Cc")]

/-- Whether a character is left out when names are compared. -/
def isSeparator (c : Char) : Bool :=
  c = ' ' || c = '-' || c = '_'

/-- The form in which names are compared: lower case, without blanks, hyphens and underscores. -/
def looseKey (name : List Char) : List Char :=
  lowerText (name.filter (!isSeparator ·))

/-- Names under their loose keys; an alias comes before a name. -/
def canonicalNames : List (List Char × String) :=
  propertyAliases.map (fun (other, name) => (looseKey other.toList, name))
    ++ propertyNames.map fun name => (looseKey name.toList, name)

/-- The host's spelling of a known property name. -/
def canonicalName? (name : List Char) : Option String :=
  canonicalNames.lookup (looseKey name)

/-- The parts of a text between the characters that satisfy `p`. -/
def splitBy (p : Char → Bool) : List Char → List (List Char)
  | [] => [[]]
  | c :: cs =>
    if p c then [] :: splitBy p cs
    else
      match splitBy p cs with
      | [] => [[c]]
      | w :: ws => (c :: w) :: ws

/-- A word with a capital at its start. -/
def capitalize : List Char → List Char
  | [] => []
  | c :: cs => upper c ++ lowerText cs

/-- The spelling of a script name: capitalized words joined by underscores. -/
def scriptName (name : List Char) : List Char :=
  ['_'].intercalate (((splitBy isSeparator name).filter (!·.isEmpty)).map capitalize)

/-- A text without the blanks around it. -/
def trim (cs : List Char) : List Char :=
  ((cs.dropWhile isWhitespace).reverse.dropWhile isWhitespace).reverse

/-- What the host writes between the braces of a property escape. -/
def propertyExpression (name : List Char) : List Char :=
  match canonicalName? name with
  | some s => s.toList
  | none =>
    match name.span (· != '=') with
    | (key, _ :: value) => trim key ++ '=' :: scriptName (trim value)
    | (_, []) => "sc=".toList ++ scriptName name

end Diglot.Unicode
