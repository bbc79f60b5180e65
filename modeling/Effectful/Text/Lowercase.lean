import Effectful.Text.CaseIgnorable
import Effectful.Text.Cased
/-!
# Lower case

The lower-case form of a text over all of Unicode.  Letters with a lower-case partner come in runs: a
stretch of code points, every one or every second of which moves by the same distance.  Two letters
need more than the table: the dotted capital I becomes two characters, and a sigma at the end of a
word has a form of its own.
-/

namespace Effectful.Text

/-- Capital letters from `first` to `last`, `step` apart, whose partners lie `shift` further on. -/
structure CaseRun where
  first : Nat
  last : Nat
  step : Nat
  shift : Int

/-- A capital letter on its own. -/
def CaseRun.one (letter : Nat) (shift : Int) : CaseRun := ⟨letter, letter, 1, shift⟩

/-- The runs of capital letters, in ascending order. -/
def caseRuns : List CaseRun :=
  [⟨0x41, 0x5A, 1, 32⟩, ⟨0xC0, 0xD6, 1, 32⟩, ⟨0xD8, 0xDE, 1, 32⟩, ⟨0x100, 0x12E, 2, 1⟩,
   ⟨0x132, 0x136, 2, 1⟩, ⟨0x139, 0x147, 2, 1⟩, ⟨0x14A, 0x176, 2, 1⟩, .one 0x178 (-121),
   ⟨0x179, 0x17D, 2, 1⟩, .one 0x181 210, ⟨0x182, 0x184, 2, 1⟩, .one 0x186 206, .one 0x187 1,
   ⟨0x189, 0x18A, 1, 205⟩, .one 0x18B 1, .one 0x18E 79, .one 0x18F 202, .one 0x190 203,
   .one 0x191 1, .one 0x193 205, .one 0x194 207, .one 0x196 211, .one 0x197 209, .one 0x198 1,
   .one 0x19C 211, .one 0x19D 213, .one 0x19F 214, ⟨0x1A0, 0x1A4, 2, 1⟩, .one 0x1A6 218,
   .one 0x1A7 1, .one 0x1A9 218, .one 0x1AC 1, .one 0x1AE 218, .one 0x1AF 1, ⟨0x1B1, 0x1B2, 1, 217⟩,
   ⟨0x1B3, 0x1B5, 2, 1⟩, .one 0x1B7 219, .one 0x1B8 1, .one 0x1BC 1, .one 0x1C4 2, .one 0x1C5 1,
   .one 0x1C7 2, .one 0x1C8 1, .one 0x1CA 2, ⟨0x1CB, 0x1DB, 2, 1⟩, ⟨0x1DE, 0x1EE, 2, 1⟩,
   .one 0x1F1 2, ⟨0x1F2, 0x1F4, 2, 1⟩, .one 0x1F6 (-97), .one 0x1F7 (-56), ⟨0x1F8, 0x21E, 2, 1⟩,
   .one 0x220 (-130), ⟨0x222, 0x232, 2, 1⟩, .one 0x23A 10795, .one 0x23B 1, .one 0x23D (-163),
   .one 0x23E 10792, .one 0x241 1, .one 0x243 (-195), .one 0x244 69, .one 0x245 71,
   ⟨0x246, 0x24E, 2, 1⟩, ⟨0x370, 0x372, 2, 1⟩, .one 0x376 1, .one 0x37F 116, .one 0x386 38,
   ⟨0x388, 0x38A, 1, 37⟩, .one 0x38C 64, ⟨0x38E, 0x38F, 1, 63⟩, ⟨0x391, 0x3A1, 1, 32⟩,
   ⟨0x3A3, 0x3AB, 1, 32⟩, .one 0x3CF 8, ⟨0x3D8, 0x3EE, 2, 1⟩, .one 0x3F4 (-60), .one 0x3F7 1,
   .one 0x3F9 (-7), .one 0x3FA 1, ⟨0x3FD, 0x3FF, 1, -130⟩, ⟨0x400, 0x40F, 1, 80⟩,
   ⟨0x410, 0x42F, 1, 32⟩, ⟨0x460, 0x480, 2, 1⟩, ⟨0x48A, 0x4BE, 2, 1⟩, .one 0x4C0 15,
   ⟨0x4C1, 0x4CD, 2, 1⟩, ⟨0x4D0, 0x52E, 2, 1⟩, ⟨0x531, 0x556, 1, 48⟩, ⟨0x10A0, 0x10C5, 1, 7264⟩,
   .one 0x10C7 7264, .one 0x10CD 7264, ⟨0x13A0, 0x13EF, 1, 38864⟩, ⟨0x13F0, 0x13F5, 1, 8⟩,
   .one 0x1C89 1, ⟨0x1C90, 0x1CBA, 1, -3008⟩, ⟨0x1CBD, 0x1CBF, 1, -3008⟩, ⟨0x1E00, 0x1E94, 2, 1⟩,
   .one 0x1E9E (-7615), ⟨0x1EA0, 0x1EFE, 2, 1⟩, ⟨0x1F08, 0x1F0F, 1, -8⟩, ⟨0x1F18, 0x1F1D, 1, -8⟩,
   ⟨0x1F28, 0x1F2F, 1, -8⟩, ⟨0x1F38, 0x1F3F, 1, -8⟩, ⟨0x1F48, 0x1F4D, 1, -8⟩,
   ⟨0x1F59, 0x1F5F, 2, -8⟩, ⟨0x1F68, 0x1F6F, 1, -8⟩, ⟨0x1F88, 0x1F8F, 1, -8⟩,
   ⟨0x1F98, 0x1F9F, 1, -8⟩, ⟨0x1FA8, 0x1FAF, 1, -8⟩, ⟨0x1FB8, 0x1FB9, 1, -8⟩,
   ⟨0x1FBA, 0x1FBB, 1, -74⟩, .one 0x1FBC (-9), ⟨0x1FC8, 0x1FCB, 1, -86⟩, .one 0x1FCC (-9),
   ⟨0x1FD8, 0x1FD9, 1, -8⟩, ⟨0x1FDA, 0x1FDB, 1, -100⟩, ⟨0x1FE8, 0x1FE9, 1, -8⟩,
   ⟨0x1FEA, 0x1FEB, 1, -112⟩, .one 0x1FEC (-7), ⟨0x1FF8, 0x1FF9, 1, -128⟩,
   ⟨0x1FFA, 0x1FFB, 1, -126⟩, .one 0x1FFC (-9), .one 0x2126 (-7517), .one 0x212A (-8383),
   .one 0x212B (-8262), .one 0x2132 28, ⟨0x2160, 0x216F, 1, 16⟩, .one 0x2183 1,
   ⟨0x24B6, 0x24CF, 1, 26⟩, ⟨0x2C00, 0x2C2F, 1, 48⟩, .one 0x2C60 1, .one 0x2C62 (-10743),
   .one 0x2C63 (-3814), .one 0x2C64 (-10727), ⟨0x2C67, 0x2C6B, 2, 1⟩, .one 0x2C6D (-10780),
   .one 0x2C6E (-10749), .one 0x2C6F (-10783), .one 0x2C70 (-10782), .one 0x2C72 1, .one 0x2C75 1,
   ⟨0x2C7E, 0x2C7F, 1, -10815⟩, ⟨0x2C80, 0x2CE2, 2, 1⟩, ⟨0x2CEB, 0x2CED, 2, 1⟩, .one 0x2CF2 1,
   ⟨0xA640, 0xA66C, 2, 1⟩, ⟨0xA680, 0xA69A, 2, 1⟩, ⟨0xA722, 0xA72E, 2, 1⟩, ⟨0xA732, 0xA76E, 2, 1⟩,
   ⟨0xA779, 0xA77B, 2, 1⟩, .one 0xA77D (-35332), ⟨0xA77E, 0xA786, 2, 1⟩, .one 0xA78B 1,
   .one 0xA78D (-42280), ⟨0xA790, 0xA792, 2, 1⟩, ⟨0xA796, 0xA7A8, 2, 1⟩, .one 0xA7AA (-42308),
   .one 0xA7AB (-42319), .one 0xA7AC (-42315), .one 0xA7AD (-42305), .one 0xA7AE (-42308),
   .one 0xA7B0 (-42258), .one 0xA7B1 (-42282), .one 0xA7B2 (-42261), .one 0xA7B3 928,
   ⟨0xA7B4, 0xA7C2, 2, 1⟩, .one 0xA7C4 (-48), .one 0xA7C5 (-42307), .one 0xA7C6 (-35384),
   ⟨0xA7C7, 0xA7C9, 2, 1⟩, .one 0xA7CB (-42343), ⟨0xA7CC, 0xA7DA, 2, 1⟩, .one 0xA7DC (-42561),
   .one 0xA7F5 1, ⟨0xFF21, 0xFF3A, 1, 32⟩, ⟨0x10400, 0x10427, 1, 40⟩, ⟨0x104B0, 0x104D3, 1, 40⟩,
   ⟨0x10570, 0x1057A, 1, 39⟩, ⟨0x1057C, 0x1058A, 1, 39⟩, ⟨0x1058C, 0x10592, 1, 39⟩,
   ⟨0x10594, 0x10595, 1, 39⟩, ⟨0x10C80, 0x10CB2, 1, 64⟩, ⟨0x10D50, 0x10D65, 1, 32⟩,
   ⟨0x118A0, 0x118BF, 1, 32⟩, ⟨0x16E40, 0x16E5F, 1, 32⟩, ⟨0x16EA0, 0x16EB8, 1, 27⟩,
   ⟨0x1E900, 0x1E921, 1, 34⟩]

/-- Whether a code point is one of the capitals of a run. -/
def CaseRun.holds (r : CaseRun) (n : Nat) : Bool :=
  r.first ≤ n && n ≤ r.last && (n - r.first) % r.step == 0

/-- The lower-case partner of a letter, or the character itself. -/
def lowerChar (c : Char) : Char :=
  match caseRuns.find? (·.holds c.toNat) with
  | some r => Char.ofNat (c.toNat + r.shift).toNat
  | none => c

/-- Whether a word ends or starts here: no letter follows once ignorable marks are passed. -/
def wordStops (cs : List Char) : Bool :=
  match cs.dropWhile isCaseIgnorable with
  | c :: _ => !isCased c
  | [] => true

/-- Lower case of the characters after `before`, which holds the earlier ones in reverse. -/
def lowerChars (before : List Char) : List Char → List Char
  | [] => []
  | c :: rest =>
    let lowered :=
      if c == '\u0130' then ['i', '\u0307']
      else if c == '\u03A3' then
        [if !wordStops before && wordStops rest then '\u03C2' else '\u03C3']
      else [lowerChar c]
    lowered ++ lowerChars (c :: before) rest

def lowercase (s : String) : String := String.ofList (lowerChars [] s.toList)

end Effectful.Text
