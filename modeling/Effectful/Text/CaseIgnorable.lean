import Effectful.Text.CharRange
/-!
# Characters inside words

Marks, modifier letters, format characters and punctuation such as the apostrophe.  They stand inside
words, so case rules that look at the neighbours of a letter pass over them.
-/

namespace Effectful.Text

/-- The characters that case rules pass over, in ascending order. -/
def caseIgnorableRanges : List CharRange :=
  [0x27, 0x2E, 0x3A, 0x5E, 0x60, 0xA8, 0xAD, 0xAF, 0xB4, ⟨0xB7, 2⟩, ⟨0x2B0, 192⟩, ⟨0x374, 2⟩, 0x37A,
   ⟨0x384, 2⟩, 0x387, ⟨0x483, 7⟩, 0x559, 0x55F, ⟨0x591, 45⟩, 0x5BF, ⟨0x5C1, 2⟩, ⟨0x5C4, 2⟩, 0x5C7,
   0x5F4, ⟨0x600, 6⟩, ⟨0x610, 11⟩, 0x61C, 0x640, ⟨0x64B, 21⟩, 0x670, ⟨0x6D6, 8⟩, ⟨0x6DF, 10⟩,
   ⟨0x6EA, 4⟩, 0x70F, 0x711, ⟨0x730, 27⟩, ⟨0x7A6, 11⟩, ⟨0x7EB, 11⟩, 0x7FA, 0x7FD, ⟨0x816, 24⟩,
   ⟨0x859, 3⟩, 0x888, ⟨0x890, 2⟩, ⟨0x897, 9⟩, ⟨0x8C9, 58⟩, 0x93A, 0x93C, ⟨0x941, 8⟩, 0x94D,
   ⟨0x951, 7⟩, ⟨0x962, 2⟩, 0x971, 0x981, 0x9BC, ⟨0x9C1, 4⟩, 0x9CD, ⟨0x9E2, 2⟩, 0x9FE, ⟨0xA01, 2⟩,
   0xA3C, ⟨0xA41, 2⟩, ⟨0xA47, 2⟩, ⟨0xA4B, 3⟩, 0xA51, ⟨0xA70, 2⟩, 0xA75, ⟨0xA81, 2⟩, 0xABC,
   ⟨0xAC1, 5⟩, ⟨0xAC7, 2⟩, 0xACD, ⟨0xAE2, 2⟩, ⟨0xAFA, 6⟩, 0xB01, 0xB3C, 0xB3F, ⟨0xB41, 4⟩, 0xB4D,
   ⟨0xB55, 2⟩, ⟨0xB62, 2⟩, 0xB82, 0xBC0, 0xBCD, 0xC00, 0xC04, 0xC3C, ⟨0xC3E, 3⟩, ⟨0xC46, 3⟩,
   ⟨0xC4A, 4⟩, ⟨0xC55, 2⟩, ⟨0xC62, 2⟩, 0xC81, 0xCBC, 0xCBF, 0xCC6, ⟨0xCCC, 2⟩, ⟨0xCE2, 2⟩,
   ⟨0xD00, 2⟩, ⟨0xD3B, 2⟩, ⟨0xD41, 4⟩, 0xD4D, ⟨0xD62, 2⟩, 0xD81, 0xDCA, ⟨0xDD2, 3⟩, 0xDD6, 0xE31,
   ⟨0xE34, 7⟩, ⟨0xE46, 9⟩, 0xEB1, ⟨0xEB4, 9⟩, 0xEC6, ⟨0xEC8, 7⟩, ⟨0xF18, 2⟩, 0xF35, 0xF37, 0xF39,
   ⟨0xF71, 14⟩, ⟨0xF80, 5⟩, ⟨0xF86, 2⟩, ⟨0xF8D, 11⟩, ⟨0xF99, 36⟩, 0xFC6, ⟨0x102D, 4⟩, ⟨0x1032, 6⟩,
   ⟨0x1039, 2⟩, ⟨0x103D, 2⟩, ⟨0x1058, 2⟩, ⟨0x105E, 3⟩, ⟨0x1071, 4⟩, 0x1082, ⟨0x1085, 2⟩, 0x108D,
   0x109D, 0x10FC, ⟨0x135D, 3⟩, ⟨0x1712, 3⟩, ⟨0x1732, 2⟩, ⟨0x1752, 2⟩, ⟨0x1772, 2⟩, ⟨0x17B4, 2⟩,
   ⟨0x17B7, 7⟩, 0x17C6, ⟨0x17C9, 11⟩, 0x17D7, 0x17DD, ⟨0x180B, 5⟩, 0x1843, ⟨0x1885, 2⟩, 0x18A9,
   ⟨0x1920, 3⟩, ⟨0x1927, 2⟩, 0x1932, ⟨0x1939, 3⟩, ⟨0x1A17, 2⟩, 0x1A1B, 0x1A56, ⟨0x1A58, 7⟩, 0x1A60,
   0x1A62, ⟨0x1A65, 8⟩, ⟨0x1A73, 10⟩, 0x1A7F, 0x1AA7, ⟨0x1AB0, 46⟩, ⟨0x1AE0, 12⟩, ⟨0x1B00, 4⟩,
   0x1B34, ⟨0x1B36, 5⟩, 0x1B3C, 0x1B42, ⟨0x1B6B, 9⟩, ⟨0x1B80, 2⟩, ⟨0x1BA2, 4⟩, ⟨0x1BA8, 2⟩,
   ⟨0x1BAB, 3⟩, 0x1BE6, ⟨0x1BE8, 2⟩, 0x1BED, ⟨0x1BEF, 3⟩, ⟨0x1C2C, 8⟩, ⟨0x1C36, 2⟩, ⟨0x1C78, 6⟩,
   ⟨0x1CD0, 3⟩, ⟨0x1CD4, 13⟩, ⟨0x1CE2, 7⟩, 0x1CED, 0x1CF4, ⟨0x1CF8, 2⟩, ⟨0x1D2C, 63⟩, 0x1D78,
   ⟨0x1D9B, 101⟩, 0x1FBD, ⟨0x1FBF, 3⟩, ⟨0x1FCD, 3⟩, ⟨0x1FDD, 3⟩, ⟨0x1FED, 3⟩, ⟨0x1FFD, 2⟩,
   ⟨0x200B, 5⟩, ⟨0x2018, 2⟩, 0x2024, 0x2027, ⟨0x202A, 5⟩, ⟨0x2060, 5⟩, ⟨0x2066, 10⟩, 0x2071, 0x207F,
   ⟨0x2090, 13⟩, ⟨0x20D0, 33⟩, ⟨0x2C7C, 2⟩, ⟨0x2CEF, 3⟩, 0x2D6F, 0x2D7F, ⟨0x2DE0, 32⟩, 0x2E2F,
   0x3005, ⟨0x302A, 4⟩, ⟨0x3031, 5⟩, 0x303B, ⟨0x3099, 6⟩, ⟨0x30FC, 3⟩, 0xA015, ⟨0xA4F8, 6⟩, 0xA60C,
   ⟨0xA66F, 4⟩, ⟨0xA674, 10⟩, 0xA67F, ⟨0xA69C, 4⟩, ⟨0xA6F0, 2⟩, ⟨0xA700, 34⟩, 0xA770, ⟨0xA788, 3⟩,
   ⟨0xA7F1, 4⟩, ⟨0xA7F8, 2⟩, 0xA802, 0xA806, 0xA80B, ⟨0xA825, 2⟩, 0xA82C, ⟨0xA8C4, 2⟩, ⟨0xA8E0, 18⟩,
   0xA8FF, ⟨0xA926, 8⟩, ⟨0xA947, 11⟩, ⟨0xA980, 3⟩, 0xA9B3, ⟨0xA9B6, 4⟩, ⟨0xA9BC, 2⟩, 0xA9CF,
   ⟨0xA9E5, 2⟩, ⟨0xAA29, 6⟩, ⟨0xAA31, 2⟩, ⟨0xAA35, 2⟩, 0xAA43, 0xAA4C, 0xAA70, 0xAA7C, 0xAAB0,
   ⟨0xAAB2, 3⟩, ⟨0xAAB7, 2⟩, ⟨0xAABE, 2⟩, 0xAAC1, 0xAADD, ⟨0xAAEC, 2⟩, ⟨0xAAF3, 2⟩, 0xAAF6,
   ⟨0xAB5B, 5⟩, ⟨0xAB69, 3⟩, 0xABE5, 0xABE8, 0xABED, 0xFB1E, ⟨0xFBB2, 17⟩, ⟨0xFE00, 16⟩, 0xFE13,
   ⟨0xFE20, 16⟩, 0xFE52, 0xFE55, 0xFEFF, 0xFF07, 0xFF0E, 0xFF1A, 0xFF3E, 0xFF40, 0xFF70,
   ⟨0xFF9E, 2⟩, 0xFFE3, ⟨0xFFF9, 3⟩, 0x101FD, 0x102E0, ⟨0x10376, 5⟩, ⟨0x10780, 6⟩, ⟨0x10787, 42⟩,
   ⟨0x107B2, 9⟩, ⟨0x10A01, 3⟩, ⟨0x10A05, 2⟩, ⟨0x10A0C, 4⟩, ⟨0x10A38, 3⟩, 0x10A3F, ⟨0x10AE5, 2⟩,
   ⟨0x10D24, 4⟩, 0x10D4E, ⟨0x10D69, 5⟩, 0x10D6F, ⟨0x10EAB, 2⟩, 0x10EC5, ⟨0x10EFA, 6⟩, ⟨0x10F46, 11⟩,
   ⟨0x10F82, 4⟩, 0x11001, ⟨0x11038, 15⟩, 0x11070, ⟨0x11073, 2⟩, ⟨0x1107F, 3⟩, ⟨0x110B3, 4⟩,
   ⟨0x110B9, 2⟩, 0x110BD, 0x110C2, 0x110CD, ⟨0x11100, 3⟩, ⟨0x11127, 5⟩, ⟨0x1112D, 8⟩, 0x11173,
   ⟨0x11180, 2⟩, ⟨0x111B6, 9⟩, ⟨0x111C9, 4⟩, 0x111CF, ⟨0x1122F, 3⟩, 0x11234, ⟨0x11236, 2⟩, 0x1123E,
   0x11241, 0x112DF, ⟨0x112E3, 8⟩, ⟨0x11300, 2⟩, ⟨0x1133B, 2⟩, 0x11340, ⟨0x11366, 7⟩, ⟨0x11370, 5⟩,
   ⟨0x113BB, 6⟩, 0x113CE, 0x113D0, 0x113D2, ⟨0x113E1, 2⟩, ⟨0x11438, 8⟩, ⟨0x11442, 3⟩, 0x11446,
   0x1145E, ⟨0x114B3, 6⟩, 0x114BA, ⟨0x114BF, 2⟩, ⟨0x114C2, 2⟩, ⟨0x115B2, 4⟩, ⟨0x115BC, 2⟩,
   ⟨0x115BF, 2⟩, ⟨0x115DC, 2⟩, ⟨0x11633, 8⟩, 0x1163D, ⟨0x1163F, 2⟩, 0x116AB, 0x116AD, ⟨0x116B0, 6⟩,
   0x116B7, 0x1171D, 0x1171F, ⟨0x11722, 4⟩, ⟨0x11727, 5⟩, ⟨0x1182F, 9⟩, ⟨0x11839, 2⟩, ⟨0x1193B, 2⟩,
   0x1193E, 0x11943, ⟨0x119D4, 4⟩, ⟨0x119DA, 2⟩, 0x119E0, ⟨0x11A01, 10⟩, ⟨0x11A33, 6⟩, ⟨0x11A3B, 4⟩,
   0x11A47, ⟨0x11A51, 6⟩, ⟨0x11A59, 3⟩, ⟨0x11A8A, 13⟩, ⟨0x11A98, 2⟩, 0x11B60, ⟨0x11B62, 3⟩, 0x11B66,
   ⟨0x11C30, 7⟩, ⟨0x11C38, 6⟩, 0x11C3F, ⟨0x11C92, 22⟩, ⟨0x11CAA, 7⟩, ⟨0x11CB2, 2⟩, ⟨0x11CB5, 2⟩,
   ⟨0x11D31, 6⟩, 0x11D3A, ⟨0x11D3C, 2⟩, ⟨0x11D3F, 7⟩, 0x11D47, ⟨0x11D90, 2⟩, 0x11D95, 0x11D97,
   0x11DD9, ⟨0x11EF3, 2⟩, ⟨0x11F00, 2⟩, ⟨0x11F36, 5⟩, 0x11F40, 0x11F42, 0x11F5A, ⟨0x13430, 17⟩,
   ⟨0x13447, 15⟩, ⟨0x1611E, 12⟩, ⟨0x1612D, 3⟩, ⟨0x16AF0, 5⟩, ⟨0x16B30, 7⟩, ⟨0x16B40, 4⟩,
   ⟨0x16D40, 3⟩, ⟨0x16D6B, 2⟩, 0x16F4F, ⟨0x16F8F, 17⟩, ⟨0x16FE0, 2⟩, ⟨0x16FE3, 2⟩, ⟨0x16FF2, 2⟩,
   ⟨0x1AFF0, 4⟩, ⟨0x1AFF5, 7⟩, ⟨0x1AFFD, 2⟩, ⟨0x1BC9D, 2⟩, ⟨0x1BCA0, 4⟩, ⟨0x1CF00, 46⟩,
   ⟨0x1CF30, 23⟩, ⟨0x1D167, 3⟩, ⟨0x1D173, 16⟩, ⟨0x1D185, 7⟩, ⟨0x1D1AA, 4⟩, ⟨0x1D242, 3⟩,
   ⟨0x1DA00, 55⟩, ⟨0x1DA3B, 50⟩, 0x1DA75, 0x1DA84, ⟨0x1DA9B, 5⟩, ⟨0x1DAA1, 15⟩, ⟨0x1E000, 7⟩,
   ⟨0x1E008, 17⟩, ⟨0x1E01B, 7⟩, ⟨0x1E023, 2⟩, ⟨0x1E026, 5⟩, ⟨0x1E030, 62⟩, 0x1E08F, ⟨0x1E130, 14⟩,
   0x1E2AE, ⟨0x1E2EC, 4⟩, ⟨0x1E4EB, 5⟩, ⟨0x1E5EE, 2⟩, 0x1E6E3, 0x1E6E6, ⟨0x1E6EE, 2⟩, 0x1E6F5,
   0x1E6FF, ⟨0x1E8D0, 7⟩, ⟨0x1E944, 8⟩, ⟨0x1F3FB, 5⟩, 0xE0001, ⟨0xE0020, 96⟩, ⟨0xE0100, 240⟩]

/-- Whether case rules pass over a character. -/
def isCaseIgnorable (c : Char) : Bool := CharRange.anyHolds caseIgnorableRanges c

end Effectful.Text
