import ScopedStyle.Rule

/-!
# The canonical text of a rule

One blank around combinators, after commas, and between declarations.
-/

namespace ScopedStyle

def TagTest.render : TagTest → Text
  | .named name => name
  | .any => ['*']

def Test.render : Test → Text
  | .hasClass name => '.' :: name
  | .hasId name => '#' :: name
  | .hasAttr raw => '[' :: raw ++ [']']
  | .pseudoClass name => ':' :: name
  | .pseudoElement name => ':' :: ':' :: name

def Compound.render : Compound → Text
  | .tagged tag tests => tag.render ++ tests.flatMap Test.render
  | .untagged first others => first.render ++ others.flatMap Test.render

def Combinator.render : Combinator → Text
  | .descendant => [' ']
  | .child => [' ', '>', ' ']
  | .nextSibling => [' ', '+', ' ']
  | .subsequentSibling => [' ', '~', ' ']

def Selector.render (s : Selector) : Text :=
  s.head.render ++ s.links.flatMap fun link => link.1.render ++ link.2.render

def importantSuffix : Text := [' ', '!', 'i', 'm', 'p', 'o', 'r', 't', 'a', 'n', 't']

def Declaration.render (d : Declaration) : Text :=
  d.property ++ [':', ' '] ++ d.value ++ (if d.important then importantSuffix else []) ++ [';']

def Rule.render (r : Rule) : Text :=
  List.intercalate [',', ' '] (r.selectors.map Selector.render) ++ [' ', '{'] ++
    r.declarations.flatMap (' ' :: Declaration.render ·) ++ [' ', '}']

end ScopedStyle
