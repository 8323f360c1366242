import ScopedStyle.Text.Basic

/-!
# Tokens of style rules

A token is a piece of text of a certain kind, with the gap in front of it. The
kinds come in an order, which settles ties between patterns.
-/

namespace ScopedStyle

inductive TokenKind
  | important
  | atKeyword
  | hash
  | dimension
  | pseudoElement
  | pseudoClass
  | bracketed
  | stringLiteral
  | stringLiteralSingle
  | number
  | ident
  | braceOpen
  | braceClose
  | parenOpen
  | parenClose
  | colon
  | semicolon
  | comma
  | dot
  | star
  | greaterThan
  | plus
  | tilde
  | slash
  | equals
  | delim
  deriving DecidableEq

namespace TokenKind

def name : TokenKind → String
  | important => "Important"
  | atKeyword => "AtKeyword"
  | hash => "Hash"
  | dimension => "Dimension"
  | pseudoElement => "PseudoElement"
  | pseudoClass => "PseudoClass"
  | bracketed => "Attribute"
  | stringLiteral => "StringLiteral"
  | stringLiteralSingle => "StringLiteralSingle"
  | number => "Number"
  | ident => "Ident"
  | braceOpen => "BraceOpen"
  | braceClose => "BraceClose"
  | parenOpen => "ParenOpen"
  | parenClose => "ParenClose"
  | colon => "Colon"
  | semicolon => "Semicolon"
  | comma => "Comma"
  | dot => "Dot"
  | star => "Star"
  | greaterThan => "GreaterThan"
  | plus => "Plus"
  | tilde => "Tilde"
  | slash => "Slash"
  | equals => "Equals"
  | delim => "Delim"

/-- All kinds, in the order that settles ties. -/
def table : List TokenKind :=
  [important, atKeyword, hash, dimension, pseudoElement, pseudoClass, bracketed, stringLiteral,
    stringLiteralSingle, number, ident, braceOpen, braceClose, parenOpen, parenClose, colon,
    semicolon, comma, dot, star, greaterThan, plus, tilde, slash, equals, delim]

theorem mem_table (k : TokenKind) : k ∈ table := by cases k <;> decide

end TokenKind

structure Token where
  kind : TokenKind
  text : Text
  gap : Text
  deriving DecidableEq

def Token.touches (t : Token) : Bool := t.gap.isEmpty

end ScopedStyle
