import Diglot.Unicode.Run

/-!
# Case tables

Case mappings as shifts: a run of code points, every one of which maps to the code point the same
distance away.
-/

namespace Diglot.Unicode

/-- A run of code points that all move by the same distance. -/
structure Shift where
  run : Run
  distance : Int

namespace Shift

/-- A single code point moves. -/
def one (n : Nat) (distance : Int) : Shift :=
  ⟨⟨n, n, 1⟩, distance⟩

/-- All code points from the first to the last move. -/
def all (first last : Nat) (distance : Int) : Shift :=
  ⟨⟨first, last, 1⟩, distance⟩

/-- Every other code point from the first to the last moves. -/
def alternate (first last : Nat) (distance : Int) : Shift :=
  ⟨⟨first, last, 2⟩, distance⟩

/-- The way back. -/
def inverse (s : Shift) : Shift :=
  ⟨⟨(s.run.first + s.distance).toNat, (s.run.last + s.distance).toNat, s.run.step⟩, -s.distance⟩

end Shift

/-- Capital letters and the small letters that uppercasing sends back to them. -/
def pairedShifts : List Shift := [
  .all 0x41 0x5A 32, .all 0xC0 0xD6 32, .all 0xD8 0xDE 32, .alternate 0x100 0x12E 1,
  .alternate 0x132 0x136 1, .alternate 0x139 0x147 1, .alternate 0x14A 0x176 1, .one 0x178 (-121),
  .alternate 0x179 0x17D 1, .one 0x181 210, .alternate 0x182 0x184 1, .one 0x186 206, .one 0x187 1,
  .all 0x189 0x18A 205, .one 0x18B 1, .one 0x18E 79, .one 0x18F 202, .one 0x190 203, .one 0x191 1,
  .one 0x193 205, .one 0x194 207, .one 0x196 211, .one 0x197 209, .one 0x198 1, .one 0x19C 211,
  .one 0x19D 213, .one 0x19F 214, .alternate 0x1A0 0x1A4 1, .one 0x1A6 218, .one 0x1A7 1,
  .one 0x1A9 218, .one 0x1AC 1, .one 0x1AE 218, .one 0x1AF 1, .all 0x1B1 0x1B2 217,
  .alternate 0x1B3 0x1B5 1, .one 0x1B7 219, .one 0x1B8 1, .one 0x1BC 1, .one 0x1C4 2, .one 0x1C7 2,
  .one 0x1CA 2, .alternate 0x1CD 0x1DB 1, .alternate 0x1DE 0x1EE 1, .one 0x1F1 2, .one 0x1F4 1,
  .one 0x1F6 (-97), .one 0x1F7 (-56), .alternate 0x1F8 0x21E 1, .one 0x220 (-130),
  .alternate 0x222 0x232 1, .one 0x23A 10795, .one 0x23B 1, .one 0x23D (-163), .one 0x23E 10792,
  .one 0x241 1, .one 0x243 (-195), .one 0x244 69, .one 0x245 71, .alternate 0x246 0x24E 1,
  .alternate 0x370 0x372 1, .one 0x376 1, .one 0x37F 116, .one 0x386 38, .all 0x388 0x38A 37,
  .one 0x38C 64, .all 0x38E 0x38F 63, .all 0x391 0x3A1 32, .all 0x3A3 0x3AB 32, .one 0x3CF 8,
  .alternate 0x3D8 0x3EE 1, .one 0x3F7 1, .one 0x3F9 (-7), .one 0x3FA 1, .all 0x3FD 0x3FF (-130),
  .all 0x400 0x40F 80, .all 0x410 0x42F 32, .alternate 0x460 0x480 1, .alternate 0x48A 0x4BE 1,
  .one 0x4C0 15, .alternate 0x4C1 0x4CD 1, .alternate 0x4D0 0x52E 1, .all 0x531 0x556 48,
  .all 0x10A0 0x10C5 7264, .one 0x10C7 7264, .one 0x10CD 7264, .one 0x1C89 1,
  .all 0x1C90 0x1CBA (-3008), .all 0x1CBD 0x1CBF (-3008), .alternate 0x1E00 0x1E94 1,
  .alternate 0x1EA0 0x1EFE 1, .all 0x1F08 0x1F0F (-8), .all 0x1F18 0x1F1D (-8),
  .all 0x1F28 0x1F2F (-8), .all 0x1F38 0x1F3F (-8), .all 0x1F48 0x1F4D (-8),
  .alternate 0x1F59 0x1F5F (-8), .all 0x1F68 0x1F6F (-8), .all 0x1FB8 0x1FB9 (-8),
  .all 0x1FBA 0x1FBB (-74), .all 0x1FC8 0x1FCB (-86), .all 0x1FD8 0x1FD9 (-8),
  .all 0x1FDA 0x1FDB (-100), .all 0x1FE8 0x1FE9 (-8), .all 0x1FEA 0x1FEB (-112), .one 0x1FEC (-7),
  .all 0x1FF8 0x1FF9 (-128), .all 0x1FFA 0x1FFB (-126), .one 0x2132 28, .all 0x2160 0x216F 16,
  .one 0x2183 1, .all 0x24B6 0x24CF 26, .all 0x2C00 0x2C2F 48, .one 0x2C60 1, .one 0x2C62 (-10743),
  .one 0x2C63 (-3814), .one 0x2C64 (-10727), .alternate 0x2C67 0x2C6B 1, .one 0x2C6D (-10780),
  .one 0x2C6E (-10749), .one 0x2C6F (-10783), .one 0x2C70 (-10782), .one 0x2C72 1, .one 0x2C75 1,
  .all 0x2C7E 0x2C7F (-10815), .alternate 0x2C80 0x2CE2 1, .alternate 0x2CEB 0x2CED 1,
  .one 0x2CF2 1, .alternate 0xA640 0xA66C 1, .alternate 0xA680 0xA69A 1, .alternate 0xA722 0xA72E 1,
  .alternate 0xA732 0xA76E 1, .alternate 0xA779 0xA77B 1, .one 0xA77D (-35332),
  .alternate 0xA77E 0xA786 1, .one 0xA78B 1, .one 0xA78D (-42280), .alternate 0xA790 0xA792 1,
  .alternate 0xA796 0xA7A8 1, .one 0xA7AA (-42308), .one 0xA7AB (-42319), .one 0xA7AC (-42315),
  .one 0xA7AD (-42305), .one 0xA7AE (-42308), .one 0xA7B0 (-42258), .one 0xA7B1 (-42282),
  .one 0xA7B2 (-42261), .one 0xA7B3 928, .alternate 0xA7B4 0xA7C2 1, .one 0xA7C4 (-48),
  .one 0xA7C5 (-42307), .one 0xA7C6 (-35384), .alternate 0xA7C7 0xA7C9 1, .one 0xA7CB (-42343),
  .alternate 0xA7CC 0xA7DA 1, .one 0xA7DC (-42561), .one 0xA7F5 1, .all 0xFF21 0xFF3A 32,
  .all 0x10400 0x10427 40, .all 0x104B0 0x104D3 40, .all 0x10570 0x1057A 39,
  .all 0x1057C 0x1058A 39, .all 0x1058C 0x10592 39, .all 0x10594 0x10595 39,
  .all 0x10C80 0x10CB2 64, .all 0x10D50 0x10D65 32, .all 0x118A0 0x118BF 32,
  .all 0x16E40 0x16E5F 32, .all 0x16EA0 0x16EB8 27, .all 0x1E900 0x1E921 34]

/-- Mappings of other capital letters to small ones. -/
def oneWayShifts : List Shift := [
  .one 0x1C5 1, .one 0x1C8 1, .one 0x1CB 1, .one 0x1F2 1, .one 0x3F4 (-60), .one 0x1E9E (-7615),
  .all 0x1F88 0x1F8F (-8), .all 0x1F98 0x1F9F (-8), .all 0x1FA8 0x1FAF (-8), .one 0x1FBC (-9),
  .one 0x1FCC (-9), .one 0x1FFC (-9), .one 0x2126 (-7517), .one 0x212A (-8383), .one 0x212B (-8262)]

/-- Single-character uppercase mappings. -/
def upperShifts : List Shift := [
  .one 0xB5 743, .one 0x131 (-232), .one 0x17F (-300), .one 0x1C5 (-1), .one 0x1C8 (-1),
  .one 0x1CB (-1), .one 0x1F2 (-1), .one 0x345 84, .one 0x3C2 (-31), .one 0x3D0 (-62),
  .one 0x3D1 (-57), .one 0x3D5 (-47), .one 0x3D6 (-54), .one 0x3F0 (-86), .one 0x3F1 (-80),
  .one 0x3F5 (-96), .all 0x13F8 0x13FD (-8), .one 0x1C80 (-6254), .one 0x1C81 (-6253),
  .one 0x1C82 (-6244), .all 0x1C83 0x1C84 (-6242), .one 0x1C85 (-6243), .one 0x1C86 (-6236),
  .one 0x1C87 (-6181), .one 0x1C88 35266, .one 0x1E9B (-59), .one 0x1FBE (-7205),
  .all 0xAB70 0xABBF (-38864)]
  ++ pairedShifts.map .inverse

/-- Single-character lowercase mappings. -/
def lowerShifts : List Shift :=
  pairedShifts ++ oneWayShifts ++ [.all 0x13A0 0x13EF 38864, .all 0x13F0 0x13F5 8]

/-- Simple case foldings that uppercasing does not undo. -/
def irregularShifts : List Shift := oneWayShifts ++ [
  .one 0xB5 775, .one 0x17F (-268), .one 0x345 116, .one 0x3C2 1, .one 0x3D0 (-30),
  .one 0x3D1 (-25), .one 0x3D5 (-15), .one 0x3D6 (-22), .one 0x3F0 (-54), .one 0x3F1 (-48),
  .one 0x3F5 (-64), .all 0x13F8 0x13FD (-8), .one 0x1C80 (-6222), .one 0x1C81 (-6221),
  .one 0x1C82 (-6212), .all 0x1C83 0x1C84 (-6210), .one 0x1C85 (-6211), .one 0x1C86 (-6204),
  .one 0x1C87 (-6180), .one 0x1C88 35267, .one 0x1E9B (-58), .one 0x1FBE (-7173),
  .one 0x1FD3 (-7235), .one 0x1FE3 (-7219), .all 0xAB70 0xABBF (-38864), .one 0xFB05 1]

/-- Simple case foldings. -/
def foldShifts : List Shift :=
  pairedShifts ++ irregularShifts

/-- Eight small letters with an iota below, from `n` on, and their eight capital forms. The iota
becomes a letter behind the capital letter without it; these are the ones from `capital` on. -/
def withIota (n capital : Nat) : List (Nat × List Nat) :=
  (List.range 16).map fun i => (n + i, [capital + i % 8, 0x399])

/-- Uppercase mappings to several characters. -/
def upperExpansions : List (Nat × List Nat) :=
  [(0xDF, [0x53, 0x53]), (0x149, [0x2BC, 0x4E]), (0x1F0, [0x4A, 0x30C]),
    (0x390, [0x399, 0x308, 0x301]), (0x3B0, [0x3A5, 0x308, 0x301]), (0x587, [0x535, 0x552]),
    (0x1E96, [0x48, 0x331]), (0x1E97, [0x54, 0x308]), (0x1E98, [0x57, 0x30A]),
    (0x1E99, [0x59, 0x30A]), (0x1E9A, [0x41, 0x2BE]), (0x1F50, [0x3A5, 0x313]),
    (0x1F52, [0x3A5, 0x313, 0x300]), (0x1F54, [0x3A5, 0x313, 0x301]),
    (0x1F56, [0x3A5, 0x313, 0x342])]
  ++ withIota 0x1F80 0x1F08 ++ withIota 0x1F90 0x1F28 ++ withIota 0x1FA0 0x1F68
  ++ [(0x1FB2, [0x1FBA, 0x399]), (0x1FB3, [0x391, 0x399]), (0x1FB4, [0x386, 0x399]),
    (0x1FB6, [0x391, 0x342]), (0x1FB7, [0x391, 0x342, 0x399]), (0x1FBC, [0x391, 0x399]),
    (0x1FC2, [0x1FCA, 0x399]), (0x1FC3, [0x397, 0x399]), (0x1FC4, [0x389, 0x399]),
    (0x1FC6, [0x397, 0x342]), (0x1FC7, [0x397, 0x342, 0x399]), (0x1FCC, [0x397, 0x399]),
    (0x1FD2, [0x399, 0x308, 0x300]), (0x1FD3, [0x399, 0x308, 0x301]), (0x1FD6, [0x399, 0x342]),
    (0x1FD7, [0x399, 0x308, 0x342]), (0x1FE2, [0x3A5, 0x308, 0x300]),
    (0x1FE3, [0x3A5, 0x308, 0x301]), (0x1FE4, [0x3A1, 0x313]), (0x1FE6, [0x3A5, 0x342]),
    (0x1FE7, [0x3A5, 0x308, 0x342]), (0x1FF2, [0x1FFA, 0x399]), (0x1FF3, [0x3A9, 0x399]),
    (0x1FF4, [0x38F, 0x399]), (0x1FF6, [0x3A9, 0x342]), (0x1FF7, [0x3A9, 0x342, 0x399]),
    (0x1FFC, [0x3A9, 0x399]), (0xFB00, [0x46, 0x46]), (0xFB01, [0x46, 0x49]),
    (0xFB02, [0x46, 0x4C]), (0xFB03, [0x46, 0x46, 0x49]), (0xFB04, [0x46, 0x46, 0x4C]),
    (0xFB05, [0x53, 0x54]), (0xFB06, [0x53, 0x54]), (0xFB13, [0x544, 0x546]),
    (0xFB14, [0x544, 0x535]), (0xFB15, [0x544, 0x53B]), (0xFB16, [0x54E, 0x546]),
    (0xFB17, [0x544, 0x53D])]

/-- Lowercase mappings to several characters. -/
def lowerExpansions : List (Nat × List Nat) := [
  (0x130, [0x69, 0x307])]

end Diglot.Unicode
