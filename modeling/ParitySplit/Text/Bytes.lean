/-!
Byte strings and the bytes that have a meaning of their own in tables and paths.
-/

namespace ParitySplit

abbrev Bytes := List UInt8

namespace Bytes

abbrev comma : UInt8 := 0x2c
abbrev quote : UInt8 := 0x22
abbrev lineFeed : UInt8 := 0x0a
abbrev carriageReturn : UInt8 := 0x0d
abbrev slash : UInt8 := 0x2f
abbrev dot : UInt8 := 0x2e
abbrev hyphen : UInt8 := 0x2d
abbrev nul : UInt8 := 0x00

abbrev isBreak (b : UInt8) : Bool := b == lineFeed || b == carriageReturn

def ofText (text : String) : Bytes := text.toList.flatMap String.utf8EncodeChar

/-- Order by bytes, a proper beginning before the longer string. -/
def le (a b : Bytes) : Bool := decide (a ≤ b)

def endsWith (s ending : Bytes) : Bool := ending.isSuffixOf s

end Bytes

end ParitySplit
