import Stylesheet.Utf8

set_option autoImplicit false

/-! # Sources

A source is what a reader delivers, one read after the other: bytes, an interruption after which
the read is simply made again, or a failure. Reading nothing means the end of the source, and so
does running out of reads. `Source.characters` decodes a source: bytes that are not UTF-8 become
replacement characters, a character may be cut by the end of a read, and one byte-order mark at
the very beginning is dropped. -/

namespace Stylesheet

/-- The outcome of one read. -/
inductive Read where
  | bytes (chunk : List UInt8)
  | interrupted
  | failed (message : String)
deriving DecidableEq, Repr

abbrev Source := List Read

/-- Why reading stopped before the end of the source. -/
structure ReadError where
  message : String
deriving DecidableEq, Repr

/-- What was produced one after the other, and the failure that cut it short, if one did. -/
structure Stream (ε α : Type) where
  items : List α := []
  failure : Option ε := none
deriving DecidableEq, Repr

/-- All that was produced, or the failure. -/
def Stream.toExcept {ε α : Type} (stream : Stream ε α) : Except ε (List α) :=
  match stream.failure with
  | some failure => .error failure
  | none => .ok stream.items

namespace Source

def ofBytes (bytes : List UInt8) : Source := [.bytes bytes]

def ofString (text : String) : Source := ofBytes text.toUTF8.toList

/-- The character a symbol stands for. -/
def charOfSymbol (symbol : Utf8.Symbol) : Char := symbol.getD Utf8.replacement

/-- Decodes the remaining reads, given the characters so far and the bytes of an unfinished
character that the reads so far ended in. -/
def decodeOnto (chars : Array Char) (carry : List UInt8) : Source → Array Char × Option ReadError
  | [] => (if carry.isEmpty then chars else chars.push Utf8.replacement, none)
  | .interrupted :: reads => decodeOnto chars carry reads
  | .failed message :: _ => (chars, some ⟨message⟩)
  | .bytes [] :: _ => (if carry.isEmpty then chars else chars.push Utf8.replacement, none)
  | .bytes (b :: chunk) :: reads =>
    let (symbols, rest) := Utf8.decode (carry ++ b :: chunk)
    decodeOnto (chars ++ symbols.map charOfSymbol) rest reads

def byteOrderMark : Char := '\uFEFF'

/-- The text without a byte-order mark at its beginning. -/
def dropMark : List Char → List Char
  | [] => []
  | c :: cs => if c = byteOrderMark then cs else c :: cs

/-- The characters of a source. -/
def characters (source : Source) : Stream ReadError Char :=
  let (chars, failure) := decodeOnto #[] [] source
  { items := dropMark chars.toList, failure }

end Source

end Stylesheet
