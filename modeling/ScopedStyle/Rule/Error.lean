import ScopedStyle.Token
import ScopedStyle.Text.Quoted

/-!
# Why a text is no rule

Each refusal is a cause with what it happened to; the wording is in `message`.
-/

namespace ScopedStyle
open Text

inductive Unexpected
  | afterRule (text : Text)
  | insteadOf (wanted got : TokenKind) (text : Text)
  | selectorPart
  | className (got : TokenKind) (text : Text)
  | emptyAttr
  | propertyName (got : TokenKind) (text : Text)
  | colon (property text : Text)
  | braceInValue (property : Text)
  | strayParen
  | noValue (property : Text)
  | afterImportant (text : Text)
  deriving DecidableEq

inductive Missing
  | rule
  | token (wanted : TokenKind)
  | selectorPart
  | className
  | colon (property : Text)
  | closingParen (property : Text)
  deriving DecidableEq

inductive ParseError
  | unexpectedToken (position : Nat) (cause : Unexpected)
  | unexpectedEnd (cause : Missing)
  | invalidCharacter (offset : Nat) (text : Text)
  | unsupportedAtRule (keyword : Text)
  deriving DecidableEq

def str (t : Text) : String := String.ofList t

def Unexpected.message : Unexpected → String
  | afterRule text => "unexpected '" ++ str text ++ "' after end of rule"
  | insteadOf wanted got text =>
      "expected " ++ wanted.name ++ ", got " ++ got.name ++ " '" ++ str text ++ "'"
  | selectorPart => "expected selector part"
  | className got text => "expected class name, got " ++ got.name ++ " '" ++ str text ++ "'"
  | emptyAttr => "empty attribute selector"
  | propertyName got text =>
      "expected property name, got " ++ got.name ++ " '" ++ str text ++ "'"
  | colon property text =>
      "expected ':' after `" ++ str property ++ "`, got '" ++ str text ++ "'"
  | braceInValue property => "unexpected '\x7b' in value of `" ++ str property ++ "`"
  | strayParen => "unbalanced ')'"
  | noValue property => "property `" ++ str property ++ "` has no value"
  | afterImportant text => "unexpected '" ++ str text ++ "' after !important"

def Missing.message : Missing → String
  | rule => "expected a rule"
  | token wanted => "expected " ++ wanted.name
  | selectorPart => "expected selector part"
  | className => "expected class name after '.'"
  | colon property => "expected ':' after `" ++ str property ++ "`"
  | closingParen property => "unclosed '(' in value of `" ++ str property ++ "`"

def ParseError.message : ParseError → String
  | unexpectedToken position cause =>
      "unexpected token at position " ++ toString position ++ ": " ++ cause.message
  | unexpectedEnd cause => "unexpected end of input: " ++ cause.message
  | invalidCharacter offset text =>
      "invalid character " ++ str (quote text) ++ " at byte " ++ toString offset
  | unsupportedAtRule keyword => "at-rule `" ++ str keyword ++ "` is not supported"

end ScopedStyle
