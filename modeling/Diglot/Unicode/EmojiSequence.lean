import Diglot.Unicode.Binary

/-!
# Emoji sequences

The texts that are one emoji each. Many of them follow a rule, such as a person with a skin tone or
two regional indicators that make a flag, so the lists are put together from their parts.
-/

namespace Diglot.Unicode

/-- A text as its code points. -/
abbrev CodeText := List Nat

def Run.toList (r : Run) : List Nat :=
  List.range' r.first ((r.last - r.first) / r.step + 1) r.step

def codePoints (runs : List Run) : List Nat :=
  runs.flatMap Run.toList

namespace Emoji

/-- The variation selector that asks for the colourful form of a character. -/
def colourful : Nat := 0xFE0F

/-- The joiner between the parts of a sequence. -/
def joiner : Nat := 0x200D

/-- The modifiers for skin tones. -/
def skinTones : List Nat := codePoints emojiModifierRuns

/-- A character with each of the skin tones. -/
def inTones (n : Nat) : List CodeText :=
  skinTones.map ([n, ·])

/-- A character by itself and with each of the skin tones. -/
def inAllTones (n : Nat) : List CodeText :=
  [n] :: inTones n

/-- Each first part joined with each second part. -/
def joinEach (firsts seconds : List CodeText) : List CodeText :=
  firsts.flatMap fun a => seconds.map fun b => a ++ joiner :: b

/-- Parts joined to a sequence. -/
def joinParts (parts : List CodeText) : CodeText :=
  [joiner].intercalate parts

/-- The emoji of one character, with a variation selector if it is needed. -/
def basic : List CodeText :=
  (codePoints emojiPresentationRuns).filterMap (fun n =>
    if (regionalIndicatorRuns.any (·.contains n)) then none else some [n])
  ++ (codePoints emojiRuns).filterMap fun n =>
    if n < 0x80 || emojiPresentationRuns.any (·.contains n) then none else some [n, colourful]

/-- The keys of a telephone. -/
def keycaps : List CodeText :=
  "#*0123456789".toList.map fun c => [c.toNat, colourful, 0x20E3]

/-- The emoji with a skin tone; a family has none. -/
def modified : List CodeText :=
  ((codePoints emojiModifierBaseRuns).filter (· != 0x1F46A)).flatMap inTones

/-- The second letters of the regions whose codes begin with a letter. -/
def regions : List (Char × String) := [
  ('A', "CDEFGILMOQRSTUWXZ"), ('B', "ABDEFGHIJLMNOQRSTVWYZ"), ('C', "ACDFGHIKLMNOPQRUVWXYZ"),
  ('D', "EGJKMOZ"), ('E', "ACEGHRSTU"), ('F', "IJKMOR"), ('G', "ABDEFGHILMNPQRSTUWY"),
  ('H', "KMNRTU"), ('I', "CDELMNOQRST"), ('J', "EMOP"), ('K', "EGHIMNPRWYZ"),
  ('L', "ABCIKRSTUVY"), ('M', "ACDEFGHKLMNOPQRSTUVWXYZ"), ('N', "ACEFGILOPRUZ"), ('O', "M"),
  ('P', "AEFGHKLMNRSTWY"), ('Q', "A"), ('R', "EOSUW"), ('S', "ABCDEGHIJKLMNORSTVXYZ"),
  ('T', "ACDFGHJKLMNORTVWZ"), ('U', "AGMNSYZ"), ('V', "ACEGINU"), ('W', "FS"), ('X', "K"),
  ('Y', "ET"), ('Z', "AMW")]

/-- The regional indicator for a capital letter. -/
def indicator (c : Char) : Nat :=
  0x1F1E6 + (c.toNat - 'A'.toNat)

/-- The flags of regions. -/
def flags : List CodeText :=
  regions.flatMap fun (a, others) => others.toList.map fun b => [indicator a, indicator b]

/-- The flags of countries inside a region: a black flag with the code in tag characters. -/
def tagged : List CodeText :=
  ["gbeng", "gbsct", "gbwls"].map fun code =>
    0x1F3F4 :: code.toList.map (0xE0000 + ·.toNat) ++ [0xE007F]

/-! ## Joined sequences -/

/-- The sign for women. -/
def woman : CodeText := [0x2640, colourful]

/-- The sign for men. -/
def man : CodeText := [0x2642, colourful]

/-- The arrow of those who face right. -/
def rightwards : CodeText := [0x27A1, colourful]

/-- The heart of a couple. -/
def heart : CodeText := [0x2764, colourful]

/-- The heart and the kiss of a couple. -/
def kiss : CodeText := joinParts [heart, [0x1F48B]]

/-- Persons of either sex: they have all skin tones, or skin tones and a form of their own that
needs a variation selector, or no skin tones. -/
def gendered : List CodeText :=
  [0x1F3C3, 0x1F3C4, 0x1F3CA, 0x1F46E, 0x1F46F, 0x1F470, 0x1F471, 0x1F473, 0x1F477, 0x1F481,
    0x1F482, 0x1F486, 0x1F487, 0x1F645, 0x1F646, 0x1F647, 0x1F64B, 0x1F64D, 0x1F64E, 0x1F6A3,
    0x1F6B4, 0x1F6B5, 0x1F6B6, 0x1F926, 0x1F935, 0x1F937, 0x1F938, 0x1F939, 0x1F93C, 0x1F93D,
    0x1F93E, 0x1F9B8, 0x1F9B9, 0x1F9CD, 0x1F9CE, 0x1F9CF, 0x1F9D4, 0x1F9D6, 0x1F9D7, 0x1F9D8,
    0x1F9D9, 0x1F9DA, 0x1F9DB, 0x1F9DC, 0x1F9DD].flatMap inAllTones
  ++ [0x26F9, 0x1F3CB, 0x1F3CC, 0x1F575].flatMap (fun n => [n, colourful] :: inTones n)
  ++ [[0x1F9DE], [0x1F9DF]]

/-- What a person can be joined with: a profession, a kind of hair or an aid, which may face
right. -/
def roles : List CodeText :=
  [0x2695, 0x2696, 0x2708].map ([·, colourful])
  ++ [0x1F33E, 0x1F373, 0x1F37C, 0x1F393, 0x1F3A4, 0x1F3A8, 0x1F3EB, 0x1F3ED, 0x1F4BB, 0x1F4BC,
    0x1F527, 0x1F52C, 0x1F680, 0x1F692, 0x1F9AF, 0x1F9B0, 0x1F9B1, 0x1F9B2, 0x1F9B3, 0x1F9BC,
    0x1F9BD].map ([·])
  ++ joinEach [[0x1F9AF], [0x1F9BC], [0x1F9BD]] [rightwards]

/-- One or two children. -/
def children : List CodeText :=
  [[0x1F466], [0x1F467], joinParts [[0x1F466], [0x1F466]], joinParts [[0x1F467], [0x1F466]],
    joinParts [[0x1F467], [0x1F467]]]

/-- Families of one or two parents with their children. -/
def families : List CodeText :=
  joinEach
    ([[0x1F468], [0x1F469]] ++ [[0x1F468, 0x1F468], [0x1F468, 0x1F469], [0x1F469, 0x1F469]].map
      fun parents => joinParts (parents.map ([·])))
    children
  ++ joinEach [[0x1F9D1], joinParts [[0x1F9D1], [0x1F9D1]]]
    [[0x1F9D2], joinParts [[0x1F9D2], [0x1F9D2]]]

/-- Two persons and what joins them, with skin tones of which `p` holds. -/
def pair (p : Nat → Nat → Bool) (first : Nat) (links : List CodeText) (second : Nat) :
    List CodeText :=
  links.flatMap fun link =>
    skinTones.flatMap fun a => (skinTones.filter (p a)).map fun b =>
      joinParts ([[first, a]] ++ (if link.isEmpty then [] else [link]) ++ [[second, b]])

/-- Two persons with any skin tones. -/
def anyPair : Nat → List CodeText → Nat → List CodeText :=
  pair fun _ _ => true

/-- Two persons with different skin tones. -/
def mixedPair : Nat → List CodeText → Nat → List CodeText :=
  pair (· != ·)

/-- Couples: with a heart, a kiss, hand in hand, with bunny ears or in a fight. -/
def couples : List CodeText :=
  joinEach [[0x1F468]] (joinEach [heart, kiss] [[0x1F468]])
  ++ joinEach [[0x1F469]] (joinEach [heart, kiss] [[0x1F468], [0x1F469]])
  ++ [joinParts [[0x1F9D1], [0x1F91D], [0x1F9D1]]]
  ++ anyPair 0x1F468 [heart, kiss] 0x1F468
  ++ anyPair 0x1F469 [heart, kiss] 0x1F468
  ++ anyPair 0x1F469 [heart, kiss] 0x1F469
  ++ anyPair 0x1F9D1 [[0x1F91D]] 0x1F9D1
  ++ mixedPair 0x1F468 [[0x1F430], [0x1F91D], [0x1FAEF]] 0x1F468
  ++ mixedPair 0x1F469 [[0x1F430], [0x1F91D], [0x1FAEF]] 0x1F469
  ++ mixedPair 0x1F469 [[0x1F91D]] 0x1F468
  ++ mixedPair 0x1F9D1 [heart, kiss, [0x1F430], [0x1FAEF]] 0x1F9D1
  ++ mixedPair 0x1FAF1 [[]] 0x1FAF2

/-- Joined sequences that follow no rule. -/
def singular : List CodeText :=
  [([0x26D3, colourful], [0x1F4A5]), (heart, [0x1F525]), (heart, [0x1FA79]),
    ([0x1F344], [0x1F7EB]), ([0x1F34B], [0x1F7E9]), ([0x1F3F3, colourful], [0x26A7, colourful]),
    ([0x1F3F3, colourful], [0x1F308]), ([0x1F3F4], [0x2620, colourful]), ([0x1F408], [0x2B1B]),
    ([0x1F415], [0x1F9BA]), ([0x1F426], [0x2B1B]), ([0x1F426], [0x1F525]),
    ([0x1F43B], [0x2744, colourful]), ([0x1F441, colourful], [0x1F5E8, colourful]),
    ([0x1F62E], [0x1F4A8]), ([0x1F635], [0x1F4AB]), ([0x1F636], [0x1F32B, colourful]),
    ([0x1F642], [0x2194, colourful]), ([0x1F642], [0x2195, colourful])].map
  fun (a, b) => joinParts [a, b]

def joined : List CodeText :=
  joinEach gendered [woman, man]
  ++ joinEach ([0x1F3C3, 0x1F6B6, 0x1F9CE].flatMap inAllTones)
    (rightwards :: joinEach [woman, man] [rightwards])
  ++ joinEach ([0x1F468, 0x1F469, 0x1F9D1].flatMap inAllTones) roles
  ++ joinEach (inAllTones 0x1F9D1) [[0x1F384], [0x1FA70]]
  ++ families ++ couples ++ singular

/-- All emoji that are recommended for interchange. -/
def recommended : List CodeText :=
  basic ++ keycaps ++ modified ++ flags ++ tagged ++ joined

/-- The properties of texts by name. -/
def ofName? : String → Option (List CodeText)
  | "Basic_Emoji" => some basic
  | "Emoji_Keycap_Sequence" => some keycaps
  | "RGI_Emoji_Modifier_Sequence" => some modified
  | "RGI_Emoji_Flag_Sequence" => some flags
  | "RGI_Emoji_Tag_Sequence" => some tagged
  | "RGI_Emoji_ZWJ_Sequence" => some joined
  | "RGI_Emoji" => some recommended
  | _ => none

end Emoji

end Diglot.Unicode
