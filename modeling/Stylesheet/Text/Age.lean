import Stylesheet.Text.Ranges

set_option autoImplicit false

/-! # Characters of the newest age

The property `Age` of a character is the version of the Unicode Standard that first assigned it.
The property tables of this library are those of version 17; the table here tells the version's
own additions apart, so that a class fixed at version 16 can be cut out of them. Version 17 gave
no character of version 16 a property that would move it into or out of such a class, so taking
the additions away is enough. -/

namespace Stylesheet.Text

/-- The alphabetic characters, marks, connectors and numerals with `Age` 17. -/
def newestAge : Ranges :=
  [(0x88F, 0x88F), (0xC5C, 0xC5C), (0xCDC, 0xCDC), (0x1ACF, 0x1ADD), (0x1AE0, 0x1AEB),
   (0xA7CE, 0xA7CF), (0xA7D2, 0xA7D2), (0xA7D4, 0xA7D4), (0xA7F1, 0xA7F1), (0x10940, 0x10959),
   (0x10EC5, 0x10EC7), (0x10EFA, 0x10EFB), (0x11B60, 0x11B67), (0x11DB0, 0x11DDB),
   (0x11DE0, 0x11DE9), (0x16EA0, 0x16EB8), (0x16EBB, 0x16ED3), (0x16FF2, 0x16FF6),
   (0x187F8, 0x187FF), (0x18D09, 0x18D1E), (0x18D80, 0x18DF2), (0x1E6C0, 0x1E6DE),
   (0x1E6E0, 0x1E6F5), (0x1E6FE, 0x1E6FF), (0x2B73A, 0x2B73F), (0x2CEA2, 0x2CEAD),
   (0x323B0, 0x33479)]

end Stylesheet.Text
