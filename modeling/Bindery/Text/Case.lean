import Bindery.Text.Identifier

/-!
# Letter case

`upperChar` and `lowerChar` map one character to one character. `toUpper` and `toLower` apply them
to a text. `toUpperFull` and `toLowerFull` follow the longer rules, in which one letter may become
several and a sigma at the end of a word has a form of its own.
-/

namespace Bindery.Text

/-- Characters of the spans map to the character so many places on. -/
abbrev CaseRuns := Int × List Nat

def mapCase? (runs : List CaseRuns) (n : Nat) : Option Nat :=
  (runs.find? fun r => inSpans r.2 n).map fun r => (Int.ofNat n + r.1).toNat

def CaseRuns.reversed : CaseRuns → CaseRuns
  | (shift, gap :: rest) => (-shift, (Int.ofNat gap + shift).toNat :: rest)
  | (shift, []) => (-shift, [])

/-- The first, third, fifth, … number of each span. -/
def everyOther : List Nat → List Nat
  | gap :: size :: rest =>
    gap :: 1 :: (List.replicate (size / 2) [1, 1]).flatten ++ everyOther rest
  | _ => []

/-- Characters that are the lower-case form of their upper-case form. -/
def pairedRuns : List CaseRuns := (-1, everyOther [
  257,47,3,5,2,15,2,45,2,5,4,3,2,1,3,1,5,1,6,1,7,5,2,1,4,1,2,1,3,3,2,1,3,1,16,15,2,17,5,1,3,39,3,
  17,8,1,5,1,4,9,289,3,3,1,97,23,8,1,2,1,101,33,9,53,2,13,2,95,6353,149,11,95,644,1,2780,1,6,5,6,1,
  2,1,10,99,8,3,4,1,31053,45,19,27,135,13,3,61,10,3,2,9,4,1,4,3,3,19,11,15,4,3,6,1,5,3,28,1]) :: [
  (-32,[97,26,101,23,1,7,690,17,1,9,100,32,64241,26,6501,32,21888,32]), (121,[255,1]),
  (195,[384,1]), (97,[405,1]), (163,[410,1]), (130,[414,1,476,3]), (56,[447,1]), (-2,[454,1,2,1,2,
  1,38,1]), (-79,[477,1]), (10815,[575,2]), (10783,[592,1]), (10780,[593,1]), (10782,[594,1]),
  (-210,[595,1]), (-206,[596,1]), (-205,[598,2,8,1]), (-202,[601,1]), (-203,[603,1]),
  (42319,[604,1]), (42315,[609,1]), (-207,[611,1]), (42280,[613,1]), (42308,[614,1,3,1]),
  (-209,[616,1]), (-211,[617,1,5,1]), (10743,[619,1]), (42305,[620,1]), (10749,[625,1]),
  (-213,[626,1]), (-214,[629,1]), (10727,[637,1]), (-218,[640,1,2,1,4,1]), (42307,[642,1]),
  (42282,[647,1]), (-69,[649,1]), (-217,[650,2]), (-71,[652,1]), (-219,[658,1]), (42261,[669,1]),
  (42258,[670,1]), (-38,[940,1]), (-37,[941,3]), (-64,[972,1,67827,51]), (-63,[973,2]), (-8,[983,1,
  4128,6]), (7,[1010,1,7154,1]), (-116,[1011,1]), (-80,[1104,16]), (-15,[1231,1]), (-48,[1377,38,
  9897,48]), (3008,[4304,43,2,3]), (35332,[7545,1]), (3814,[7549,1]), (35384,[7566,1]), (8,[7936,8,
  8,6,10,8,8,8,8,6,11,1,1,1,1,1,1,1,8,8,24,8,8,8,8,8,8,2,30,2,14,2]), (74,[8048,2]), (86,[8050,4]),
  (100,[8054,2]), (128,[8056,2]), (112,[8058,2]), (126,[8060,2]), (9,[8115,1,15,1,47,1]),
  (-28,[8526,1]), (-16,[8560,16]), (-26,[9424,26]), (-10795,[11365,1]), (-10792,[11366,1]),
  (-7264,[11520,38,1,1,5,1]), (48,[42900,1]), (-928,[43859,1]), (-38864,[43888,80]), (-40,[66600,40,
  136,36]), (-39,[66967,11,1,15,1,7,1,2]), (-34,[125218,34])]

def upperRuns : List CaseRuns := pairedRuns ++ [
  (743,[181,1]), (-232,[305,1]), (-300,[383,1]), (-1,[453,1,2,1,2,1,38,1]), (84,[837,1]),
  (-31,[962,1]), (-62,[976,1]), (-57,[977,1]), (-47,[981,1]), (-54,[982,1]), (-86,[1008,1]),
  (-80,[1009,1]), (-96,[1013,1]), (-6254,[7296,1]), (-6253,[7297,1]), (-6244,[7298,1]),
  (-6242,[7299,2]), (-6243,[7301,1]), (-6236,[7302,1]), (-6181,[7303,1]), (35266,[7304,1]),
  (-59,[7835,1]), (-7205,[8126,1])]

def lowerRuns : List CaseRuns := pairedRuns.map CaseRuns.reversed ++ [
  (-199,[304,1]), (1,[453,1,2,1,2,1,38,1]), (-60,[1012,1]), (-7615,[7838,1]), (-7517,[8486,1]),
  (-8383,[8490,1]), (-8262,[8491,1])]

/-- Characters whose upper-case form is a letter followed by an iota. -/
def iotaRuns : List CaseRuns := [
  (-120,[8064,8]), (-128,[8072,8]), (-104,[8080,8]), (-112,[8088,8]), (-56,[8096,8]),
  (-64,[8104,8]), (8,[8114,1,15,1,47,1]), (-7202,[8115,1]), (-7214,[8116,1]), (-7211,[8124,1]),
  (-7212,[8131,1]), (-7227,[8132,1]), (-7221,[8140,1]), (-7242,[8179,1]), (-7269,[8180,1]),
  (-7251,[8188,1])]

def upperExpansions : List (Char × String) := [
  ('ß', "SS"), ('ŉ', "ʼN"), ('ǰ', "J̌"), ('ΐ', "Ϊ́"), ('ΰ', "Ϋ́"), ('և', "ԵՒ"), ('ẖ', "H̱"),
  ('ẗ', "T̈"), ('ẘ', "W̊"), ('ẙ', "Y̊"), ('ẚ', "Aʾ"), ('ὐ', "Υ̓"), ('ὒ', "Υ̓̀"), ('ὔ', "Υ̓́"),
  ('ὖ', "Υ̓͂"), ('ᾶ', "Α͂"), ('ᾷ', "Α͂Ι"), ('ῆ', "Η͂"), ('ῇ', "Η͂Ι"), ('ῒ', "Ϊ̀"), ('ΐ', "Ϊ́"),
  ('ῖ', "Ι͂"), ('ῗ', "Ϊ͂"), ('ῢ', "Ϋ̀"), ('ΰ', "Ϋ́"), ('ῤ', "Ρ̓"), ('ῦ', "Υ͂"), ('ῧ', "Ϋ͂"),
  ('ῶ', "Ω͂"), ('ῷ', "Ω͂Ι"), ('ﬀ', "FF"), ('ﬁ', "FI"), ('ﬂ', "FL"), ('ﬃ', "FFI"), ('ﬄ', "FFL"),
  ('ﬅ', "ST"), ('ﬆ', "ST"), ('ﬓ', "ՄՆ"), ('ﬔ', "ՄԵ"), ('ﬕ', "ՄԻ"), ('ﬖ', "ՎՆ"), ('ﬗ', "ՄԽ")]

/-- Cased characters that have no other case. -/
def casedSpans : List Nat := [
  170,1,15,1,125,131,3,1,98,115,1,36,7,2,30,5,149,1,87,3,39,1,355,41,6007,192,220,4,610,1,4,1,2,10,
  1,1,3,5,6,1,3,1,3,2,1,6,4,1,2,4,5,5,2855,11,104,1,31307,2,63,8,21,1,6,27,35,1,1,1,36,1,821,43,5,
  9,75927,85,1,71,1,2,2,1,2,2,2,4,1,12,1,1,1,7,1,65,1,4,2,8,1,7,1,28,1,4,1,5,1,1,3,7,1,340,2,25,1,
  25,1,31,1,25,1,31,1,25,1,31,1,25,1,31,1,25,1,8,1844,10,1,20,6,6]

/-- Characters other than marks that are passed over when the letters around a sigma are sought. -/
def caseIgnorableSpans : List Nat := [
  39,1,6,1,11,1,35,1,1,1,71,1,4,1,1,1,4,1,3,1,503,80,116,2,4,1,9,2,258,2,207,1,5,1,148,1,11,6,22,1,
  35,1,156,1,7,2,40,1,228,2,4,1,31,15,95,1,7,2,55,26,142,1,1236,1,127,1,565,1,1754,1,54,1,52,1,65,
  2,544,1,22,1,441,6,174,63,13,1,34,37,509,1,1,3,11,3,13,3,13,3,13,2,12,5,8,2,10,1,2,1,2,5,49,5,1,
  10,1,1,13,1,16,13,64,8,2967,2,241,1,191,1,469,1,43,5,5,1,95,4,93,3,28438,1,1250,6,270,1,99,3,12,
  1,28,2,98,34,78,1,23,3,103,3,3,2,469,1,22,1,137,1,108,1,21,2,102,5,9,3,20550,17,592,1,62,1,2,1,
  169,1,7,1,6,1,11,1,35,1,1,1,47,1,45,2,67,1,21,3,1924,6,1,42,1,9,2306,1,15,1,9058,16,14080,4,1103,
  13,64,2,1,1,16396,4,1,7,1,2,3233,4,5327,8,3765,62,201,7,941,1,1119,1,2735,5,789505,1,30,96]

variable (c : Char)

def upperChar : Char :=
  if c.toNat < 0x80 then c.toUpper else Char.ofNat ((mapCase? upperRuns c.toNat).getD c.toNat)

def lowerChar : Char :=
  if c.toNat < 0x80 then c.toLower else Char.ofNat ((mapCase? lowerRuns c.toNat).getD c.toNat)

def toUpper (t : Text) : Text := ofChars (t.chars.map upperChar)

def toLower (t : Text) : Text := ofChars (t.chars.map lowerChar)

def upperFull : Chars :=
  match upperExpansions.lookup c with
  | some image => image.toList
  | none => match mapCase? iotaRuns c.toNat with
    | some n => [Char.ofNat n, Char.ofNat 0x399]
    | none => [upperChar c]

def toUpperFull (t : Text) : Text := ofChars (t.chars.flatMap upperFull)

def isCased : Bool :=
  upperFull c != [c] || lowerChar c != c || inSpans casedSpans c.toNat

def isCaseIgnorable : Bool :=
  [markSpans, caseIgnorableSpans].any (inSpans · c.toNat)

def nextIsCased (cs : Chars) : Bool :=
  match cs.dropWhile isCaseIgnorable with
  | c :: _ => isCased c
  | [] => false

/-- Lower case of the characters that follow those in `before`, the nearest of which is first. -/
def lowerFullFrom (before : Chars) : Chars → Chars
  | [] => []
  | c :: rest =>
    let image :=
      if c.toNat == 0x3A3 then
        if nextIsCased before && !nextIsCased rest then [Char.ofNat 0x3C2] else [Char.ofNat 0x3C3]
      else if c.toNat == 0x130 then [Char.ofNat 0x69, Char.ofNat 0x307]
      else [lowerChar c]
    image ++ lowerFullFrom (c :: before) rest

def toLowerFull (t : Text) : Text := ofChars (lowerFullFrom [] t.chars)

end Bindery.Text
