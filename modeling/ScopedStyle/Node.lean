import ScopedStyle.Entries

/-!
# Nodes

An element has a tag and attributes in the order they were first set; a text
node has text and an empty tag. Identifiers are never used twice.
-/

namespace ScopedStyle
open Text

structure NodeId where
  index : Nat
  deriving DecidableEq

structure SheetId where
  index : Nat
  deriving DecidableEq

structure Node where
  tag : Text
  attributes : Entries Text
  text : Option Text
  /-- The rule list that the node carries into its document. -/
  sheet : Option SheetId
  deriving DecidableEq

namespace Node

def element (tag : Text) : Node := ⟨lower tag, [], none, none⟩

def ofText (t : Text) : Node := ⟨[], [], some t, none⟩

def isText (n : Node) : Bool := n.text.isSome

def attribute? (n : Node) (name : Text) : Option Text := n.attributes.find? name

def setAttribute (n : Node) (name value : Text) : Node :=
  { n with attributes := n.attributes.put name value }

def idKey : Text := ['i', 'd']

def classKey : Text := ['c', 'l', 'a', 's', 's']

def id? (n : Node) : Option Text := n.attribute? idKey

def classes (n : Node) : List Text := words ((n.attribute? classKey).getD [])

def hasClass (n : Node) (name : Text) : Bool := n.classes.contains name

def addClass (n : Node) (name : Text) : Node :=
  if n.hasClass name then n
  else
    match n.attribute? classKey with
    | none => n.setAttribute classKey name
    | some names =>
        if (trim names).isEmpty then n.setAttribute classKey name
        else n.setAttribute classKey (names ++ ' ' :: name)

end Node
end ScopedStyle
