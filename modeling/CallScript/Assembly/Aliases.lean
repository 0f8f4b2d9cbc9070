import CallScript.SortedMap
import CallScript.Word.Basic

/-!
# Aliases

Names that a script can use in place of addresses, in the order of their names.
-/

namespace CallScript.Assembly

/-- Names are ordered by their UTF-8 form. -/
instance : KeyOrder String where
  Before a b := Bytes.ofText a < Bytes.ofText b
  decidable _ _ := inferInstance
  irrefl a := List.lt_irrefl (Bytes.ofText a)
  trans h h' := List.lt_trans (α := UInt8) h h'
  trichotomous h h' := Bytes.ofText_injective
    ((inferInstance : Std.Trichotomous (α := Bytes) (· < ·)).trichotomous _ _ h h')

/-- Addresses by name. -/
abbrev Aliases := SortedMap String Address

namespace Aliases

/-- Adds a name; none if it is taken. -/
def define? (aliases : Aliases) (name : String) (address : Address) : Option Aliases :=
  match aliases.get? name with
  | some _ => none
  | none => some (aliases.insert name address)

/-- The address of a name. -/
def resolve? (aliases : Aliases) (name : String) : Option Address :=
  aliases.get? name

/-- The first name of an address. -/
def nameOf? (aliases : Aliases) (address : Address) : Option String :=
  (aliases.entries.find? (·.2 = address)).map (·.1)

end Aliases

end CallScript.Assembly
