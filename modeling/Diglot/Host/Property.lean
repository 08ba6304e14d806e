import Diglot.Unicode.Case
import Diglot.Unicode.CaseChange
import Diglot.Unicode.Kind
import Diglot.Unicode.Script
import Diglot.Unicode.ScriptExtension

/-!
# Character properties of the host

A property escape names a general category, a script, a set of script extensions or a binary
property. Names are spelled exactly: there is no leeway for case, blanks or underscores.
-/

namespace Diglot.Host

open Unicode

/-- A property that a host pattern can name. -/
inductive Property where
  | any
  | ascii
  | assigned
  | unassigned
  /-- `C`: control, format, surrogate, private use and unassigned -/
  | other
  /-- One of several general categories -/
  | category (gs : List Category)
  /-- Without a script -/
  | unscripted
  /-- A script by its long name -/
  | script (name : String)
  /-- The script extensions by the long name of the script -/
  | extensions (name : String)
  /-- A binary property by its long name -/
  | binary (name : String)
  deriving DecidableEq, Repr

/-- The general categories and their unions under all their names. -/
def categoryNames : List (List String × Property) := [
  (["LC", "Cased_Letter"], .category Category.casedLetters),
  (["Pe", "Close_Punctuation"], .category [.pe]),
  (["Pc", "Connector_Punctuation"], .category [.pc]),
  (["Cc", "Control", "cntrl"], .category [.cc]),
  (["Sc", "Currency_Symbol"], .category [.sc]),
  (["Pd", "Dash_Punctuation"], .category [.pd]),
  (["Nd", "Decimal_Number", "digit"], .category [.nd]),
  (["Me", "Enclosing_Mark"], .category [.me]),
  (["Pf", "Final_Punctuation"], .category [.pf]),
  (["Cf", "Format"], .category [.cf]),
  (["Pi", "Initial_Punctuation"], .category [.pi]),
  (["L", "Letter"], .category Category.letters),
  (["Nl", "Letter_Number"], .category [.nl]),
  (["Zl", "Line_Separator"], .category [.zl]),
  (["Ll", "Lowercase_Letter"], .category [.ll]),
  (["M", "Mark", "Combining_Mark"], .category Category.marks),
  (["Sm", "Math_Symbol"], .category [.sm]),
  (["Lm", "Modifier_Letter"], .category [.lm]),
  (["Sk", "Modifier_Symbol"], .category [.sk]),
  (["Mn", "Nonspacing_Mark"], .category [.mn]),
  (["N", "Number"], .category Category.numbers),
  (["Ps", "Open_Punctuation"], .category [.ps]),
  (["C", "Other"], .other),
  (["Lo", "Other_Letter"], .category [.lo]),
  (["No", "Other_Number"], .category [.no]),
  (["Po", "Other_Punctuation"], .category [.po]),
  (["So", "Other_Symbol"], .category [.so]),
  (["Zp", "Paragraph_Separator"], .category [.zp]),
  (["Co", "Private_Use"], .category [.co]),
  (["P", "Punctuation", "punct"], .category Category.punctuation),
  (["Z", "Separator"], .category Category.separators),
  (["Zs", "Space_Separator"], .category [.zs]),
  (["Mc", "Spacing_Mark"], .category [.mc]),
  (["Cs", "Surrogate"], .category [.cs]),
  (["S", "Symbol"], .category Category.symbols),
  (["Lt", "Titlecase_Letter"], .category [.lt]),
  (["Cn", "Unassigned"], .unassigned),
  (["Lu", "Uppercase_Letter"], .category [.lu])]

/-- The property `Cased`: of upper, lower or title case. -/
def isCased (c : Char) : Bool :=
  isUppercase c || isLowercase c || Category.lt.has c

def isIdStart (c : Char) : Bool :=
  (hasCategory (.nl :: Category.letters) c && !inRuns notIdStartRuns c) || inRuns otherIdStartRuns c

def isIdContinue (c : Char) : Bool :=
  ((isIdStart c || hasCategory [.mn, .mc, .nd, .pc] c) && !inRuns notIdContinueRuns c)
    || inRuns otherIdContinueRuns c

def isCaseIgnorable (c : Char) : Bool :=
  hasCategory [.mn, .me, .cf, .lm, .sk] c || inRuns otherCaseIgnorableRuns c

/-- The ASCII characters among the hexadecimal digits. -/
def isAsciiHexDigit (c : Char) : Bool :=
  inRuns hexDigitRuns c && c.toNat < 0x80

/-- The property `Grapheme_Base`: a character that is assigned and neither a control nor an
extension. -/
def isGraphemeBase (c : Char) : Bool :=
  isAssigned c && !hasCategory ([.zl, .zp] ++ Category.others) c && !isGraphemeExtend c

/-- The property `Changes_When_Lowercased`. -/
def changesInLower (c : Char) : Bool :=
  lower c != [c]

/-- The property `Changes_When_Uppercased`. -/
def changesInUpper (c : Char) : Bool :=
  upper c != [c]

/-- The property `Changes_When_Titlecased`. -/
def changesInTitle (c : Char) : Bool :=
  changesInUpper c && !inRuns titlecaseRuns c || inRuns capitalDigraphRuns c

/-- The property `Changes_When_Casefolded`. -/
def changesInFolding (c : Char) : Bool :=
  fold c != c && !inRuns decomposedFoldRuns c || inRuns expandingFoldRuns c

/-- The binary properties: the long name, the other names, and what has the property. -/
def binaryProperties : List (String × List String × (Char → Bool)) := [
  ("ASCII_Hex_Digit", ["AHex"], isAsciiHexDigit),
  ("Alphabetic", ["Alpha"], isAlphabetic),
  ("Bidi_Control", ["Bidi_C"], inRuns bidiControlRuns),
  ("Bidi_Mirrored", ["Bidi_M"], inRuns bidiMirroredRuns),
  ("Case_Ignorable", ["CI"], isCaseIgnorable),
  ("Cased", [], isCased),
  ("Changes_When_Casefolded", ["CWCF"], changesInFolding),
  ("Changes_When_Casemapped", ["CWCM"], fun c => changesInLower c || changesInUpper c),
  ("Changes_When_Lowercased", ["CWL"], changesInLower),
  ("Changes_When_NFKC_Casefolded", ["CWKCF"],
    fun c => changesInFolding c || inRuns compatibilityRuns c),
  ("Changes_When_Titlecased", ["CWT"], changesInTitle),
  ("Changes_When_Uppercased", ["CWU"], changesInUpper),
  ("Dash", [], inRuns dashRuns),
  ("Default_Ignorable_Code_Point", ["DI"], inRuns defaultIgnorableRuns),
  ("Deprecated", ["Dep"], inRuns deprecatedRuns),
  ("Diacritic", ["Dia"], inRuns diacriticRuns),
  ("Emoji", [], inRuns emojiRuns),
  ("Emoji_Component", ["EComp"], inRuns emojiComponentRuns),
  ("Emoji_Modifier", ["EMod"], inRuns emojiModifierRuns),
  ("Emoji_Modifier_Base", ["EBase"], inRuns emojiModifierBaseRuns),
  ("Emoji_Presentation", ["EPres"], inRuns emojiPresentationRuns),
  ("Extended_Pictographic", ["ExtPict"], inRuns extendedPictographicRuns),
  ("Extender", ["Ext"], inRuns extenderRuns),
  ("Grapheme_Base", ["Gr_Base"], isGraphemeBase),
  ("Grapheme_Extend", ["Gr_Ext"], isGraphemeExtend),
  ("Hex_Digit", ["Hex"], inRuns hexDigitRuns),
  ("IDS_Binary_Operator", ["IDSB"], inRuns idsBinaryOperatorRuns),
  ("IDS_Trinary_Operator", ["IDST"], inRuns idsTrinaryOperatorRuns),
  ("ID_Continue", ["IDC"], isIdContinue),
  ("ID_Start", ["IDS"], isIdStart),
  ("Ideographic", ["Ideo"], inRuns ideographicRuns),
  ("Join_Control", ["Join_C"], inRuns joinControlRuns),
  ("Logical_Order_Exception", ["LOE"], inRuns logicalOrderExceptionRuns),
  ("Lowercase", ["Lower"], isLowercase),
  ("Math", [], fun c => Category.sm.has c || inRuns otherMathRuns c),
  ("Noncharacter_Code_Point", ["NChar"], inRuns noncharacterRuns),
  ("Pattern_Syntax", ["Pat_Syn"], inRuns patternSyntaxRuns),
  ("Pattern_White_Space", ["Pat_WS"], inRuns patternWhiteSpaceRuns),
  ("Quotation_Mark", ["QMark"], inRuns quotationMarkRuns),
  ("Radical", [], inRuns radicalRuns),
  ("Regional_Indicator", ["RI"], inRuns regionalIndicatorRuns),
  ("Sentence_Terminal", ["STerm"], inRuns sentenceTerminalRuns),
  ("Soft_Dotted", ["SD"], inRuns softDottedRuns),
  ("Terminal_Punctuation", ["Term"], inRuns terminalPunctuationRuns),
  ("Unified_Ideograph", ["UIdeo"], inRuns unifiedIdeographRuns),
  ("Uppercase", ["Upper"], isUppercase),
  ("Variation_Selector", ["VS"], inRuns variationSelectorRuns),
  ("White_Space", ["space"], isWhitespace),
  ("XID_Continue", ["XIDC"], fun c => isIdContinue c && !inRuns notXidContinueRuns c),
  ("XID_Start", ["XIDS"], fun c => isIdStart c && !inRuns notXidStartRuns c)]

namespace Property

/-- The code points of a script by its long name. -/
def scriptRuns (name : String) : List Run :=
  ((scripts.find? (·.1.head? == some name)).map (·.2)).getD []

/-- Whether a character is in use in a script, by its long name: a character that several scripts
share is in use in those that its extensions name. -/
def inUse (name : String) (c : Char) : Bool :=
  let own := inRuns (scriptRuns name) c
  match name with
  | "Common" => own && !inRuns commonSharedRuns c
  | "Inherited" => own && !inRuns inheritedSharedRuns c
  | _ => own || inRuns ((sharedByScript.lookup name).getD []) c

def has : Property → Char → Bool
  | any, _ => true
  | ascii, c => c.toNat < 0x80
  | assigned, c => isAssigned c
  | unassigned, c => !isAssigned c
  | other, c => hasCategory Category.others c || !isAssigned c
  | category gs, c => hasCategory gs c
  | unscripted, c => scripts.all fun (_, runs) => !inRuns runs c
  | script name, c => inRuns (scriptRuns name) c
  | extensions name, c => inUse name c
  | binary name, c =>
    match binaryProperties.find? (·.1 == name) with
    | some (_, _, holds) => holds c
    | none => false

def ofCategory? (name : String) : Option Property :=
  (categoryNames.find? (·.1.contains name)).map (·.2)

/-- The long name of the script with a name. -/
def scriptName? (name : String) : Option String :=
  (scripts.find? (·.1.contains name)).bind (·.1.head?)

/-- The property of a script with a name, where the name may also say that there is none. -/
def ofScript? (p : String → Property) (name : String) : Option Property :=
  if name == "Unknown" || name == "Zzzz" then some unscripted else (scriptName? name).map p

/-- The property that one name stands for: a general category or a binary property. -/
def ofName? (name : String) : Option Property :=
  match name with
  | "Any" => some any
  | "ASCII" => some ascii
  | "Assigned" => some assigned
  | _ =>
    match binaryProperties.find? fun (long, others, _) => long == name || others.contains name with
    | some (long, _, _) => some (binary long)
    | none => ofCategory? name

def ofValue? (name value : String) : Option Property :=
  match name with
  | "General_Category" | "gc" => ofCategory? value
  | "Script" | "sc" => ofScript? script value
  | "Script_Extensions" | "scx" => ofScript? extensions value
  | _ => none

/-- The property that the text between the braces of a property escape stands for. -/
def ofText? (text : List Char) : Option Property :=
  match text.span (· != '=') with
  | (name, []) => ofName? (String.ofList name)
  | (name, _ :: value) => ofValue? (String.ofList name) (String.ofList value)

end Property

end Diglot.Host
