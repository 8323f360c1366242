import ScopedStyle.Text.Basic
import ScopedStyle.Text.Unprintable
import ScopedStyle.Text.GraphemeExtend

/-!
# Quoted text

A text in double quotes, fit for a message: quotes and backslashes behind a
backslash, and what a reader could not see written by its code point.
-/

namespace ScopedStyle.Text

/-- The Hangul fillers. They are letters, but have the property `Default_Ignorable_Code_Point`; no
other characters of that property have a picture either. -/
def isFiller (c : Char) : Bool :=
  c == '\u115f' || c == '\u1160' || c == '\u3164' || c == '\uffa0'

/-- The sound marks of halfwidth katakana. They are the only letters that extend a grapheme, and
have a width of their own. -/
def isSoundMark (c : Char) : Bool := c == '\uff9e' || c == '\uff9f'

def isPlain (c : Char) : Bool :=
  (0x20 ≤ c.toNat && c.toNat ≤ 0x7e) || isSoundMark c ||
    !(isUnprintable c || isFiller c || extendsGrapheme c)

def quoteChar (c : Char) : Text :=
  if c = '"' then ['\\', '"']
  else if c = '\\' then ['\\', '\\']
  else if c = '\t' then ['\\', 't']
  else if c = '\n' then ['\\', 'n']
  else if c = '\r' then ['\\', 'r']
  else if c = '\x00' then ['\\', '0']
  else if isPlain c then [c]
  else ['\\', 'u', '{'] ++ Nat.toDigits 16 c.toNat ++ ['}']

def quote (t : Text) : Text := '"' :: t.flatMap quoteChar ++ ['"']

end ScopedStyle.Text
