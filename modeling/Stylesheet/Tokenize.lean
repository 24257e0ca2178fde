import Stylesheet.Scan.Run
import Stylesheet.Source

set_option autoImplicit false

/-! # The token stream of a source

A source is scanned as far as it can be read. When its end is reached, everything still open is
closed; when reading fails, nothing is, and the stream ends in the failure. -/

namespace Stylesheet.Source

/-- What scanning each character of the source, and then its end, brought about. -/
def outputs (source : Source) : Stream ReadError Scan.Output :=
  let chars := source.characters
  let (outputs, s) := Scan.State.feed {} chars.items
  match chars.failure with
  | none => { items := outputs.toList ++ [s.finish] }
  | some failure => { items := outputs.toList, failure := some failure }

/-- The tokens and structural findings of a source, in source order. -/
def tokenize (source : Source) : Stream ReadError Item :=
  let outputs := source.outputs
  { items := outputs.items.flatMap Scan.Output.items, failure := outputs.failure }

/-- A source that can be read to its end gives the items of its text. -/
theorem items_tokenize {source : Source} (h : source.characters.failure = none) :
    source.tokenize.items = Scan.scanText source.characters.items := by
  simp [tokenize, outputs, h, Scan.scanText, Scan.State.itemsOf, Scan.State.after]

end Stylesheet.Source
