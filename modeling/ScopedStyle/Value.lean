import ScopedStyle.Decimal.Binary64

/-!
# Values

What properties carry and template slots produce, and how it is written into
style text.
-/

namespace ScopedStyle
open Text

inductive Value
  | null
  | bool (b : Bool)
  | int (n : Int)
  | float (x : Decimal.Binary64)
  | text (t : Text)
  deriving DecidableEq

namespace Value

def render : Value → Text
  | null => []
  | bool true => ['t', 'r', 'u', 'e']
  | bool false => ['f', 'a', 'l', 's', 'e']
  | int n => ofInt n
  | float x => x.text
  | text t => t

/-- Null, false, zero, NaN and the empty text are false, all else is true. -/
def isTruthy : Value → Bool
  | null => false
  | bool b => b
  | int n => n != 0
  | float x => !x.isZero && !x.isNaN
  | text t => !t.isEmpty

def isNull : Value → Bool
  | null => true
  | _ => false

def text? : Value → Option Text
  | text t => some t
  | _ => none

end Value
end ScopedStyle
