import ScopedStyle.Text.Basic

/-!
# Lines of nested style text

What a single line is taken for, and how the selector of a nested block joins
the selector around it. Lines are judged by their characters alone.
-/

namespace ScopedStyle
open Text

inductive LineKind
  | declaration
  | selector
  | other
  deriving DecidableEq

def isDeclaration (line : Text) : Bool :=
  line.contains ':' && line.head? != some '.' && line.head? != some '&' &&
    !line.contains '{' && !line.contains '}'

def isSelectorMark (c : Char) : Bool := c == '.' || c == '#' || c == ':' || c == '['

def isSelector (line : Text) : Bool :=
  line.head? == some '.' || line.head? == some '&' || line.head?.any Char.isAlpha ||
    line.any isSelectorMark || line.any isBlank

def classify (line : Text) : LineKind :=
  if isDeclaration line then .declaration
  else if isSelector line then .selector
  else .other

/-- The selector of a block inside a block: what follows `&` and what begins with a colon attach to
the parent, anything else is a descendant. -/
def compose (parent child : Text) : Text :=
  match trim child with
  | '&' :: rest => parent ++ rest
  | ':' :: rest => parent ++ ':' :: rest
  | inner => parent ++ ' ' :: inner

end ScopedStyle
