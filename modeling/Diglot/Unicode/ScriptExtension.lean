import Diglot.Unicode.Run

/-!
# Script extensions

A code point may be in use in other scripts than its own, most of all if its own is `Common` or
`Inherited`. The tables list, for each script, the code points of others that are in use in it.
-/

namespace Diglot.Unicode

/-- Code points whose script is `Common` and whose script extensions name other scripts. -/
def commonSharedRuns : List Run := ofGaps [
  183,1,516,1,10,1,1,3,1,1,9,1,1,1,154,1,663,1,14,1,3,1,32,1,803,2,1941,1,1519,3,71,2,203,2,1,1,
  1229,1,13,1,7,4,1,6,1,3,2,1,820,1,31,1,10,1,2,1,3513,1,24,2,10,1,4,1,1,1,428,16,1,3,2,1,1,10,1,13,
  16,6,1,1,4,4,91,2,3,1,90,2,147,16,32,38,9,1,48,40,56,49,15,12,51,1,88,25,10,5,96,31,29441,8,296,
  10,244,1,160,1,21358,2,261,2,282,5,10,1,45,2,352,3,4,45,3,9,417,27,47524,4,5820,18,7902,2]

/-- Code points whose script is `Inherited` and whose script extensions name other scripts. -/
def inheritedSharedRuns : List Run := ofGaps [
  768,15,1,2,1,1,15,3,7,2,1,2,16,1,2,1,18,1,5,1,4,13,277,2,452,11,26,1,736,2,4989,3,1,13,1,7,4,1,6,
  1,3,2,198,2,54,1,1,1,757,1,3897,4,107,2,53829,1,4186,1]

/-- The shared code points in use in a script, by its long name. -/
def sharedByScript : List (String × List Run) := [
  ("Adlam", ofGaps [1567,1,32,1,6670,1,3569,1]),
  ("Arabic", ofGaps [1548,1,14,1,3,1,32,1,10,11,26,1,6622,1,3569,1,52988,2,1440,28]),
  ("Armenian", ofGaps [776,1]),
  ("Avestan", ofGaps [183,1,11640,2]),
  ("Bengali", ofGaps [700,1,1684,2,17,2,4970,1,1,1,2,2,1,1,8,1,8,1,2,1,4,1,2,3,35833,1]),
  ("Bopomofo", ofGaps [711,1,1,3,13,1,11559,3,4,10,1,13,10,4,2,1,6,1,195,1,52553,2,282,5]),
  ("Buginese", ofGaps [43471,1]),
  ("Buhid", ofGaps [5941,2]),
  ("Carian", ofGaps [183,1,8098,1,2,1,3539,1]),
  ("Caucasian_Albanian", [.mk 0x304 0x35E 45]),
  ("Chakma", ofGaps [2534,10,1616,10]),
  ("Cherokee", ofGaps [768,3,1,1,6,2,22,2,11,2]),
  ("Coptic", ofGaps [183,1,584,1,3,2,1,1,108,2,10913,1,54472,28]),
  ("Cypriot", ofGaps [65792,3,4,45,3,9]),
  ("Cypro_Minoan", ofGaps [65792,2]),
  ("Cyrillic", ofGaps [700,1,67,3,1,1,1,1,1,1,2,1,5,1,371,2,6513,1,4170,1]),
  ("Devanagari", ofGaps [700,1,1684,2,17,2,4970,39,1,2,1014,1,34623,10]),
  ("Dogra", ofGaps [2404,12,40640,10]),
  ("Duployan", ofGaps [183,1,591,2,1,1,24,2,11031,1,101987,4]),
  ("Elbasan", ofGaps [183,1,589,1]),
  ("Ethiopic", ofGaps [782,1]),
  ("Garay", ofGaps [1548,1,14,1,3,1]),
  ("Georgian", ofGaps [183,1,1233,1,2929,1,3934,1,3542,1]),
  ("Glagolitic", ofGaps [183,1,587,1,1,1,382,1,2,1,257,1,2929,1,3934,1,3560,1,30763,1]),
  ("Gothic", ofGaps [183,1,588,2,2,1,40,1]),
  ("Grantha", ofGaps [2385,2,17,2,640,14,4316,1,1,2,30,3,3,2,1014,1,62026,1,3220,2,1,1]),
  ("Greek", ofGaps [183,1,584,2,2,1,1,1,1,1,10,1,46,1,2,1,46,1,6731,2,667,1]),
  ("Gujarati", ofGaps [2385,2,17,2,40650,10]),
  ("Gunjala_Gondi", ofGaps [183,1,2220,2]),
  ("Gurmukhi", ofGaps [2385,2,17,2,40650,10]),
  ("Gurung_Khema", ofGaps [2405,1]),
  ("Han", ofGaps [
    183,1,12088,16,1,3,2,1,1,10,1,13,10,4,2,1,6,1,4,4,187,1,148,16,32,38,9,1,48,40,56,49,15,12,51,1,
    88,25,10,5,96,31,29441,8,22333,2,282,5,54266,18,7902,2]),
  ("Hangul", ofGaps [12289,3,4,10,1,13,16,1,6,1,195,1,52553,2,282,5]),
  ("Hanifi_Rohingya", ofGaps [1548,1,14,1,3,1,32,1,147,1]),
  ("Hanunoo", ofGaps [5941,2]),
  ("Hebrew", ofGaps [775,2]),
  ("Hiragana", ofGaps [12289,3,4,10,1,13,16,6,1,1,4,2,91,4,3,1,90,2,52552,2,282,5,10,1,45,2]),
  ("Javanese", ofGaps [43471,1]),
  ("Kaithi", ofGaps [2406,10,9409,1,31230,10]),
  ("Kannada", ofGaps [2385,2,17,2,4970,1,1,2,6,1,23,1,1,1,35643,6]),
  ("Katakana", ofGaps [
    773,1,29,1,11485,3,4,10,1,13,16,6,1,1,4,2,91,4,3,1,90,2,52552,2,282,5,10,1,45,2]),
  ("Kayah_Li", ofGaps [43310,1]),
  ("Khojki", ofGaps [2790,10,40256,10]),
  ("Khudawadi", ofGaps [2404,2,40650,10]),
  ("Latin", ofGaps [
    183,1,516,1,10,1,1,3,1,1,9,1,1,1,38,15,1,2,1,1,15,3,7,2,1,2,38,1,5,1,4,13,277,2,1226,2,1960,1,
    3324,1,566,1,192,1,3366,1,30952,8,550,1]),
  ("Limbu", ofGaps [2405,1]),
  ("Linear_A", ofGaps [65799,45]),
  ("Linear_B", ofGaps [65792,3,4,45,3,9]),
  ("Lisu", ofGaps [700,1,16,1,11580,2]),
  ("Lycian", ofGaps [8282,1]),
  ("Lydian", ofGaps [183,1,11641,1]),
  ("Mahajani", ofGaps [183,1,2220,12,40640,10]),
  ("Malayalam", ofGaps [2385,2,17,2,4980,1,23,1,35645,3]),
  ("Mandaic", ofGaps [1600,1]),
  ("Manichaean", ofGaps [1600,1]),
  ("Masaram_Gondi", ofGaps [2404,2]),
  ("Meroitic_Hieroglyphs", ofGaps [8285,1]),
  ("Modi", ofGaps [43056,10]),
  ("Mongolian", ofGaps [6146,2,1,1,2089,1,4049,2,5,4]),
  ("Multani", ofGaps [2662,10]),
  ("Myanmar", ofGaps [43310,1]),
  ("Nandinagari", ofGaps [2385,1,18,2,896,10,4089,1,8,1,7,1,35637,6]),
  ("Newa", ofGaps [2385,2,4994,1,1,2,9,1,6,1,1,1,1,1]),
  ("Nko", ofGaps [1548,1,14,1,3,1,63262,2]),
  ("Ol_Onal", ofGaps [2404,2]),
  ("Old_Hungarian", ofGaps [8282,1,2,1,3539,1,15,1]),
  ("Old_Permic", ofGaps [183,1,584,1,5,3,10,1,367,1]),
  ("Old_Turkic", ofGaps [8282,1,3541,1]),
  ("Old_Uyghur", ofGaps [1600,1,66737,1]),
  ("Oriya", ofGaps [2385,2,17,2,4980,1,23,1]),
  ("Osage", ofGaps [769,1,2,1,6,1,76,1]),
  ("Phags_Pa", ofGaps [6146,2,1,1,2089,1,4050,1]),
  ("Psalter_Pahlavi", ofGaps [1600,1]),
  ("Runic", ofGaps [5867,3]),
  ("Samaritan", ofGaps [11825,1]),
  ("Sharada", ofGaps [2385,1,4997,1,1,1,2,2,2,1,9,1,2,1,35650,6,2,1]),
  ("Shavian", ofGaps [183,1]),
  ("Sinhala", ofGaps [2404,2,5004,1]),
  ("Sogdian", ofGaps [1600,1]),
  ("Sunuwar", ofGaps [768,2,1,1,9,1,2,1,28,1,3,1]),
  ("Syloti_Nagri", ofGaps [2404,2,128,10]),
  ("Syriac", ofGaps [771,2,2,2,1,1,24,3,7,2,1,2,730,1,14,2,2,1,32,1,10,11,26,1,6023,1,1,1]),
  ("Tagalog", ofGaps [5941,2]),
  ("Tagbanwa", ofGaps [5941,2]),
  ("Tai_Le", ofGaps [768,2,5,2,3,1,3379,10]),
  ("Takri", ofGaps [2404,2,40650,10]),
  ("Tamil", ofGaps [2385,2,17,2,4980,1,35864,1,27149,1,1,1,55,2]),
  ("Tangut", ofGaps [12272,16,495,1]),
  ("Telugu", ofGaps [2385,2,17,2,4975,2,1,1,1,1,23,1]),
  ("Thaana", ofGaps [1548,1,14,2,2,1,64,10,63368,1,10,1]),
  ("Thai", ofGaps [700,1,26,1,43,1,45,1]),
  ("Tibetan", ofGaps [12296,4]),
  ("Tifinagh", ofGaps [770,1,1,1,1,4,25,1]),
  ("Tirhuta", ofGaps [2385,2,17,2,4975,1,12,1,15,1,35645,10]),
  ("Todhri", ofGaps [769,1,2,1,2,1,9,1,1,1,74,1]),
  ("Toto", ofGaps [700,1]),
  ("Tulu_Tigalari", ofGaps [3302,10,4098,1,1,1,35643,6,187,1]),
  ("Yezidi", ofGaps [1548,1,14,1,3,1,64,10]),
  ("Yi", ofGaps [12289,2,5,10,2,8,223,1,52837,5])]

end Diglot.Unicode
