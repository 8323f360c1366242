import ScopedStyle.Text.Basic

/-!
# Style rules

A rule is a list of selectors and a list of declarations. A selector is a row
of compounds with a combinator between neighbours; a compound is never empty
and names a tag only at its front. The values of declarations stay source text.
-/

namespace ScopedStyle

inductive TagTest
  | named (name : Text)
  | any
  deriving DecidableEq

/-- What a compound asks beside the tag. Attribute tests are kept without their brackets, and
pseudo-classes and pseudo-elements without their colons. -/
inductive Test
  | hasClass (name : Text)
  | hasId (name : Text)
  | hasAttr (raw : Text)
  | pseudoClass (name : Text)
  | pseudoElement (name : Text)
  deriving DecidableEq

inductive Compound
  | tagged (tag : TagTest) (tests : List Test)
  | untagged (first : Test) (others : List Test)
  deriving DecidableEq

namespace Compound

def tag? : Compound → Option TagTest
  | tagged tag _ => some tag
  | untagged _ _ => none

def tests : Compound → List Test
  | tagged _ tests => tests
  | untagged first others => first :: others

end Compound

inductive Combinator
  | descendant
  | child
  | nextSibling
  | subsequentSibling
  deriving DecidableEq

structure Selector where
  head : Compound
  links : List (Combinator × Compound)
  deriving DecidableEq

namespace Selector

def compounds (s : Selector) : List Compound := s.head :: s.links.map Prod.snd

/-- The compound that the selected node itself has to satisfy, and the way from it to the left: each
combinator with the compound in front of it. -/
def leftward (s : Selector) : Compound × List (Combinator × Compound) :=
  s.links.foldl (fun walk link => (link.2, (link.1, walk.1) :: walk.2)) (s.head, [])

end Selector

structure Declaration where
  property : Text
  value : Text
  important : Bool
  deriving DecidableEq

structure Rule where
  selectors : List Selector
  declarations : List Declaration
  deriving DecidableEq

end ScopedStyle
