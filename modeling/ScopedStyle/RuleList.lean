import ScopedStyle.Rule.Parser

/-!
# Rule lists

The rules of a sheet, each with the text that it came from. A text that is no
rule, and an index past the end, are refused.
-/

namespace ScopedStyle

inductive InsertError
  | noRule (error : ParseError)
  | outOfRange (index size : Nat)
  deriving DecidableEq

def InsertError.message : InsertError → String
  | noRule error => "invalid rule: " ++ error.message
  | outOfRange index size =>
      "index " ++ toString index ++ " is out of range for a list of " ++ toString size ++ " rules"

structure SheetRule where
  text : Text
  rule : Rule
  deriving DecidableEq

structure RuleList where
  rules : List SheetRule
  deriving DecidableEq

namespace RuleList

def empty : RuleList := ⟨[]⟩

def size (l : RuleList) : Nat := l.rules.length

def texts (l : RuleList) : List Text := l.rules.map SheetRule.text

/-- Offer the rule that `text` spells for `index`, in front of the rules from there on. The answer
is the place of the rule, or why it was refused; the index is checked before the text. -/
def offer (l : RuleList) (text : Text) (index : Nat) : RuleList × Except InsertError Nat :=
  if l.size < index then (l, .error (.outOfRange index l.size))
  else
    match Rule.parse text with
    | .error e => (l, .error (.noRule e))
    | .ok rule => (⟨l.rules.take index ++ ⟨text, rule⟩ :: l.rules.drop index⟩, .ok index)

end RuleList
end ScopedStyle
