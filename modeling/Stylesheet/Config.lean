import Std.Data.TreeMap

set_option autoImplicit false

/-! # Configurations

A configuration changes what is known. It can replace the characters allowed for indentation, and
it switches names on or off: properties, at-rules and the descriptors of single at-rules. The
switches are kept in the order of their names, which is the order in which they take effect; names
that differ only in letter case are different switches for the same name, and the last one
decides. -/

namespace Stylesheet

/-- Names to be made known (`true`) or unknown (`false`), in the order of the names. -/
abbrev Switches := Std.TreeMap String Bool

structure Config where
  /-- The characters allowed for indentation; `none` leaves them as they are. -/
  indentation : Option (List Char) := none
  properties : Switches := {}
  atRules : Switches := {}
  /-- The switches for the descriptors of each at-rule named. -/
  descriptors : Std.TreeMap String Switches := {}

/-- The configuration that changes nothing because it says nothing. -/
def Config.isDefault (c : Config) : Bool :=
  c.indentation.isNone && c.properties.isEmpty && c.atRules.isEmpty && c.descriptors.isEmpty

end Stylesheet
