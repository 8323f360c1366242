import ScopedStyle.Nested.Line
import ScopedStyle.Token.Lexer

/-!
# Lint for nested style text

Flattening never fails, so unbalanced braces and missing semicolons only show in
odd rules. The lint scans the same lines and says where they are.
-/

namespace ScopedStyle
open Text

inductive FindingKind
  | unbalancedClose
  | unclosedBlock
  | missingSemicolon
  deriving DecidableEq

def FindingKind.message : FindingKind → String
  | unbalancedClose => "`\x7d` without a matching `\x7b`"
  | unclosedBlock => "`\x7b` is never closed"
  | missingSemicolon => "declaration is missing its `;`"

structure Finding where
  line : Nat
  kind : FindingKind
  deriving DecidableEq

def Finding.message (f : Finding) : String :=
  "line " ++ toString f.line ++ ": " ++ f.kind.message

structure Lint where
  findings : List Finding
  /-- The lines of the open braces, the innermost first. -/
  opened : List Nat
  waiting : Option Nat
  deriving DecidableEq

namespace Lint

def start : Lint := ⟨[], [], none⟩

def report (s : Lint) (line : Nat) (kind : FindingKind) : Lint :=
  { s with findings := s.findings ++ [⟨line, kind⟩] }

def isBrace (k : TokenKind) : Bool := k == .braceOpen || k == .braceClose

def brace (line : Nat) (s : Lint) (k : TokenKind) : Lint :=
  match k, s.opened with
  | .braceOpen, opened => { s with opened := line :: opened }
  | .braceClose, _ :: outer => { s with opened := outer }
  | .braceClose, [] => s.report line .unbalancedClose
  | _, _ => s

def scanFresh (s : Lint) (line : Nat) (text : Text) (kinds : List TokenKind) : Lint :=
  if isDeclaration text && !endsWith ';' text then { s with waiting := some line }
  else kinds.foldl (brace line) s

def beginsDeclaration : List TokenKind → Bool
  | .ident :: .colon :: _ => true
  | .ident :: .pseudoClass :: _ => true
  | _ => false

def scanKinds (s : Lint) (line : Nat) (text : Text) (kinds : List TokenKind) : Lint :=
  match s.waiting with
  | none => s.scanFresh line text kinds
  | some since =>
      if kinds.any isBrace || beginsDeclaration kinds then
        ({ s with waiting := none }.report since .missingSemicolon).scanFresh line text kinds
      else if endsWith ';' text then { s with waiting := none }
      else s

def scan (s : Lint) (line : Nat) (raw : Text) : Lint :=
  let text := trim raw
  if text.isEmpty then s else s.scanKinds line text ((tokens text).map Token.kind)

def scanAll (s : Lint) (line : Nat) : List Text → Lint
  | [] => s
  | raw :: rest => (s.scan line raw).scanAll (line + 1) rest

def finish (s : Lint) : List Finding :=
  s.findings ++ (s.waiting.toList.map (⟨·, .missingSemicolon⟩)) ++
    (s.opened.reverse.map (⟨·, .unclosedBlock⟩))

end Lint

/-- The findings of a style text, ordered by line and then by discovery. -/
def lint (style : Text) : List Finding :=
  ((Lint.start.scanAll 1 (lines style)).finish).mergeSort fun a b => a.line ≤ b.line

end ScopedStyle
