import Diglot.Unicode.Run

/-!
# Characters that change with case

Tables of the code points that title casing or case folding changes, as far as the single-character
mappings do not tell.
-/

namespace Diglot.Unicode

/-- Digraphs of two capital letters: title casing makes the second one small. -/
def capitalDigraphRuns : List Run := ofGaps [452,1,2,1,2,1,38,1]

/-- Code points that uppercasing changes and title casing does not. -/
def titlecaseRuns : List Run := ofGaps [
  453,1,2,1,2,1,38,1,3805,43,2,3,3720,8,8,8,8,8,12,1,15,1,47,1]

/-- Code points that change when they are case folded, but not by a simple folding. -/
def expandingFoldRuns : List Run := ofGaps [
  223,1,80,1,24,1,1085,1,6418,1,229,8,8,8,8,8,10,3,2,1,10,3,2,1,42,3,2,1,56072,5,1,1,12,5]

/-- Code points with a simple folding that is the letter they decompose into. -/
def decomposedFoldRuns : List Run := ofGaps [8126,1,20,1,15,1]

/-- Code points with the property `Changes_When_NFKC_Casefolded` that do not change when they are
case folded. -/
def compatibilityRuns : List Run := ofGaps [
  160,1,7,1,1,1,2,1,1,1,2,3,3,3,1,3,116,1,12,1,133,1,2,1,2,1,38,1,188,9,31,6,2,5,91,2,1,2,10,1,36,1,
  5,1,3,1,5,2,1,1,74,3,29,1,553,1,88,4,735,8,124,2,1,1,83,1,2,1,34,3,2,1,253,2,725,1,127,1,40,2,46,
  1,54,1,9,1,4,1,4,1,4,1,12,1,9,1,1,5,7,1,17,1,9,1,4,1,4,1,4,1,12,1,322,1,98,2,1619,2,85,5,1308,3,1,
  11,1,18,1,28,13,1,34,37,433,1,1,1,1,1,1,1,1,1,1,1,1,1,63,5,11,3,3,1,9,3,3,1,9,3,13,2,1,16,1,1,5,1,
  12,3,3,6,3,2,1,2,4,1,1,1,8,3,13,1,7,19,2,27,1,13,11,1,87,4,1,3,1,11,1,2,2,5,2,3,1,1,3,1,3,2,1,3,1,
  7,1,6,4,5,6,16,16,16,9,1,162,2,1,2,248,2,309,86,26,27,1313,1,103,3,101,1,415,2,241,1,303,1,83,1,
  12,214,42,1,53,1,1,3,96,2,2,1,95,1,49,94,3,14,96,31,1,40,8,47,1,384,29340,2,210,1,128,4,3,2,866,4,
  9,1,19862,270,2,1,1,1,2,10,1,1,1,1,2,2,3,68,2,106,67,1,1,24,1,5,1,1,1,2,1,2,1,108,33,363,18,64,2,
  54,40,13,3,26,22,21,2,12,1,19,1,4,4,3,1,1,1,135,2,1,1,32,26,132,3,6,2,6,2,6,2,3,3,7,1,7,1,9,1928,
  5,1,42,1,9,46309,4,4146,36,1124,7,14,8,64,6,575,85,1,71,1,2,2,1,2,2,2,4,1,12,1,1,1,7,1,65,1,4,2,8,
  1,7,1,28,1,4,1,5,1,1,3,7,1,340,2,292,2,50,2096,62,3474,4,1,27,1,2,1,1,2,1,1,10,1,4,1,1,1,1,6,1,4,
  1,1,1,1,1,1,3,1,2,1,1,2,1,1,1,1,1,1,1,1,1,1,2,1,1,2,4,1,7,1,4,1,4,1,1,1,10,1,17,5,3,1,5,1,17,580,
  11,5,31,1,32,26,3,35,1,111,3,13,44,4,9,7,2,2462,10,64518,542,722402,4096]

end Diglot.Unicode
