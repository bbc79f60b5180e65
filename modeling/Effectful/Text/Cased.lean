import Effectful.Text.CharRange
/-!
# Cased characters

Letters that are upper case, lower case or title case, and the symbols made from such letters.
-/

namespace Effectful.Text

/-- The cased characters, in ascending order. -/
def casedRanges : List CharRange :=
  [⟨0x41, 26⟩, ⟨0x61, 26⟩, 0xAA, 0xB5, 0xBA, ⟨0xC0, 23⟩, ⟨0xD8, 31⟩, ⟨0xF8, 195⟩, ⟨0x1BC, 4⟩,
   ⟨0x1C4, 208⟩, ⟨0x296, 35⟩, ⟨0x2C0, 2⟩, ⟨0x2E0, 5⟩, 0x345, ⟨0x370, 4⟩, ⟨0x376, 2⟩, ⟨0x37A, 4⟩,
   0x37F, 0x386, ⟨0x388, 3⟩, 0x38C, ⟨0x38E, 20⟩, ⟨0x3A3, 83⟩, ⟨0x3F7, 139⟩, ⟨0x48A, 166⟩,
   ⟨0x531, 38⟩, ⟨0x560, 41⟩, ⟨0x10A0, 38⟩, 0x10C7, 0x10CD, ⟨0x10D0, 43⟩, ⟨0x10FC, 4⟩, ⟨0x13A0, 86⟩,
   ⟨0x13F8, 6⟩, ⟨0x1C80, 11⟩, ⟨0x1C90, 43⟩, ⟨0x1CBD, 3⟩, ⟨0x1D00, 192⟩, ⟨0x1E00, 278⟩, ⟨0x1F18, 6⟩,
   ⟨0x1F20, 38⟩, ⟨0x1F48, 6⟩, ⟨0x1F50, 8⟩, 0x1F59, 0x1F5B, 0x1F5D, ⟨0x1F5F, 31⟩, ⟨0x1F80, 53⟩,
   ⟨0x1FB6, 7⟩, 0x1FBE, ⟨0x1FC2, 3⟩, ⟨0x1FC6, 7⟩, ⟨0x1FD0, 4⟩, ⟨0x1FD6, 6⟩, ⟨0x1FE0, 13⟩,
   ⟨0x1FF2, 3⟩, ⟨0x1FF6, 7⟩, 0x2071, 0x207F, ⟨0x2090, 13⟩, 0x2102, 0x2107, ⟨0x210A, 10⟩, 0x2115,
   ⟨0x2119, 5⟩, 0x2124, 0x2126, 0x2128, ⟨0x212A, 4⟩, ⟨0x212F, 6⟩, 0x2139, ⟨0x213C, 4⟩, ⟨0x2145, 5⟩,
   0x214E, ⟨0x2160, 32⟩, ⟨0x2183, 2⟩, ⟨0x24B6, 52⟩, ⟨0x2C00, 229⟩, ⟨0x2CEB, 4⟩, ⟨0x2CF2, 2⟩,
   ⟨0x2D00, 38⟩, 0x2D27, 0x2D2D, ⟨0xA640, 46⟩, ⟨0xA680, 30⟩, ⟨0xA722, 102⟩, ⟨0xA78B, 4⟩,
   ⟨0xA790, 77⟩, ⟨0xA7F1, 6⟩, ⟨0xA7F8, 3⟩, ⟨0xAB30, 43⟩, ⟨0xAB5C, 14⟩, ⟨0xAB70, 80⟩, ⟨0xFB00, 7⟩,
   ⟨0xFB13, 5⟩, ⟨0xFF21, 26⟩, ⟨0xFF41, 26⟩, ⟨0x10400, 80⟩, ⟨0x104B0, 36⟩, ⟨0x104D8, 36⟩,
   ⟨0x10570, 11⟩, ⟨0x1057C, 15⟩, ⟨0x1058C, 7⟩, ⟨0x10594, 2⟩, ⟨0x10597, 11⟩, ⟨0x105A3, 15⟩,
   ⟨0x105B3, 7⟩, ⟨0x105BB, 2⟩, 0x10780, ⟨0x10783, 3⟩, ⟨0x10787, 42⟩, ⟨0x107B2, 9⟩, ⟨0x10C80, 51⟩,
   ⟨0x10CC0, 51⟩, ⟨0x10D50, 22⟩, ⟨0x10D70, 22⟩, ⟨0x118A0, 64⟩, ⟨0x16E40, 64⟩, ⟨0x16EA0, 25⟩,
   ⟨0x16EBB, 25⟩, ⟨0x1D400, 85⟩, ⟨0x1D456, 71⟩, ⟨0x1D49E, 2⟩, 0x1D4A2, ⟨0x1D4A5, 2⟩, ⟨0x1D4A9, 4⟩,
   ⟨0x1D4AE, 12⟩, 0x1D4BB, ⟨0x1D4BD, 7⟩, ⟨0x1D4C5, 65⟩, ⟨0x1D507, 4⟩, ⟨0x1D50D, 8⟩, ⟨0x1D516, 7⟩,
   ⟨0x1D51E, 28⟩, ⟨0x1D53B, 4⟩, ⟨0x1D540, 5⟩, 0x1D546, ⟨0x1D54A, 7⟩, ⟨0x1D552, 340⟩, ⟨0x1D6A8, 25⟩,
   ⟨0x1D6C2, 25⟩, ⟨0x1D6DC, 31⟩, ⟨0x1D6FC, 25⟩, ⟨0x1D716, 31⟩, ⟨0x1D736, 25⟩, ⟨0x1D750, 31⟩,
   ⟨0x1D770, 25⟩, ⟨0x1D78A, 31⟩, ⟨0x1D7AA, 25⟩, ⟨0x1D7C4, 8⟩, ⟨0x1DF00, 10⟩, ⟨0x1DF0B, 20⟩,
   ⟨0x1DF25, 6⟩, ⟨0x1E030, 62⟩, ⟨0x1E900, 68⟩, ⟨0x1F130, 26⟩, ⟨0x1F150, 26⟩, ⟨0x1F170, 26⟩]

def isCased (c : Char) : Bool := CharRange.anyHolds casedRanges c

end Effectful.Text
