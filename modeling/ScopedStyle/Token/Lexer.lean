import ScopedStyle.Token.Pattern

/-!
# The tokens of a text

A text is a row of lexemes, each with the gap in front of it, so that gaps and
lexemes together give the text back. A lexeme is a token or a stray: text that
belongs to no token.
-/

namespace ScopedStyle
open Text

inductive Lexeme
  | token (t : Token)
  | stray (gap text : Text)
  deriving DecidableEq

namespace Lexeme

def gap : Lexeme → Text
  | token t => t.gap
  | stray gap _ => gap

def text : Lexeme → Text
  | token t => t.text
  | stray _ text => text

def source (l : Lexeme) : Text := l.gap ++ l.text

def token? : Lexeme → Option Token
  | token t => some t
  | stray _ _ => none

end Lexeme

/-- Whether an opener at the front has no closer in the rest. Such an opener takes everything up to
the end of the text; an opening quote or bracket that is the last character is no opener. -/
def runsAway : Text → Bool
  | '"' :: rest => !rest.isEmpty && !rest.contains '"'
  | '\'' :: rest => !rest.isEmpty && !rest.contains '\''
  | '[' :: rest => !rest.isEmpty && !rest.contains ']'
  | ':' :: rest =>
      match nameReach Char.isAlpha rest with
      | none => false
      | some n =>
          match rest.drop n with
          | '(' :: argument => !argument.contains ')'
          | _ => false
  | _ => false

def lexemeAt (gap : Text) (c : Char) (rest : Text) : Lexeme × Text :=
  if runsAway (c :: rest) then (.stray gap (c :: rest), [])
  else
    match longest (c :: rest) with
    | some (kind, n) => (.token ⟨kind, (c :: rest).take n, gap⟩, (c :: rest).drop n)
    | none => (.stray gap [c], rest)

def nextLexeme? (t : Text) : Option (Lexeme × Text) :=
  match t.dropWhile isGap with
  | [] => none
  | c :: rest => some (lexemeAt (t.takeWhile isGap) c rest)

theorem lexemeAt_source (gap : Text) (c : Char) (rest : Text) :
    (lexemeAt gap c rest).1.source ++ (lexemeAt gap c rest).2 = gap ++ c :: rest := by
  unfold lexemeAt
  split
  · simp [Lexeme.source, Lexeme.gap, Lexeme.text]
  · split
    · simp [Lexeme.source, Lexeme.gap, Lexeme.text]
    · simp [Lexeme.source, Lexeme.gap, Lexeme.text]

theorem nextLexeme?_source {t rest : Text} {l : Lexeme} (h : nextLexeme? t = some (l, rest)) :
    l.source ++ rest = t := by
  unfold nextLexeme? at h
  split at h
  · cases h
  · rename_i c r he
    have hs := lexemeAt_source (t.takeWhile isGap) c r
    simp only [Option.some.injEq] at h
    rw [h, ← he] at hs
    rw [hs, List.takeWhile_append_dropWhile]

theorem lexemeAt_text_ne_nil (gap : Text) (c : Char) (rest : Text) :
    (lexemeAt gap c rest).1.text ≠ [] := by
  unfold lexemeAt
  split
  · simp [Lexeme.text]
  · split
    · rename_i kind n hl
      have := TokenKind.reach_pos (reach_of_longest hl)
      cases n with
      | zero => omega
      | succ n => simp [Lexeme.text]
    · simp [Lexeme.text]

theorem nextLexeme?_shorter {t rest : Text} {l : Lexeme} (h : nextLexeme? t = some (l, rest)) :
    rest.length < t.length := by
  have hs := congrArg List.length (nextLexeme?_source h)
  have hne : l.text ≠ [] := by
    unfold nextLexeme? at h
    split at h
    · cases h
    · rename_i c r he
      have := lexemeAt_text_ne_nil (t.takeWhile isGap) c r
      simp only [Option.some.injEq] at h
      rwa [h] at this
  have := List.length_pos_iff.2 hne
  simp only [Lexeme.source, List.length_append] at hs
  omega

def lexemesAfter (read : List Lexeme) (t : Text) : List Lexeme :=
  match _h : nextLexeme? t with
  | none => read.reverse
  | some (l, rest) => lexemesAfter (l :: read) rest
termination_by t.length
decreasing_by exact nextLexeme?_shorter _h

def lexemes (t : Text) : List Lexeme := lexemesAfter [] t

theorem lexemesAfter_of_none {read : List Lexeme} {t : Text} (h : nextLexeme? t = none) :
    lexemesAfter read t = read.reverse := by
  rw [lexemesAfter]
  split
  · rfl
  · simp_all

theorem lexemesAfter_of_some {read : List Lexeme} {t rest : Text} {l : Lexeme}
    (h : nextLexeme? t = some (l, rest)) :
    lexemesAfter read t = lexemesAfter (l :: read) rest := by
  rw [lexemesAfter]
  split
  · simp_all
  · simp_all

theorem lexemesAfter_eq (read : List Lexeme) (t : Text) :
    lexemesAfter read t = read.reverse ++ lexemes t := by
  induction hn : t.length using Nat.strongRecOn generalizing read t with
  | ind n ih =>
    cases h : nextLexeme? t with
    | none => simp [lexemes, lexemesAfter_of_none h]
    | some p =>
      obtain ⟨l, rest⟩ := p
      have hlt := nextLexeme?_shorter h
      rw [lexemes, lexemesAfter_of_some h, lexemesAfter_of_some h,
        ih _ (by omega) (l :: read) rest rfl, ih _ (by omega) [l] rest rfl]
      simp

theorem lexemes_of_none {t : Text} (h : nextLexeme? t = none) : lexemes t = [] := by
  simp [lexemes, lexemesAfter_of_none h]

theorem lexemes_of_some {t rest : Text} {l : Lexeme} (h : nextLexeme? t = some (l, rest)) :
    lexemes t = l :: lexemes rest := by
  rw [lexemes, lexemesAfter_of_some h, lexemesAfter_eq]
  rfl

def tokens (t : Text) : List Token := (lexemes t).filterMap Lexeme.token?

def firstStray? (offset : Nat) : List Lexeme → Option (Nat × Text)
  | [] => none
  | .stray gap text :: _ => some (offset + byteSize gap, text)
  | .token t :: rest => firstStray? (offset + byteSize t.gap + byteSize t.text) rest

end ScopedStyle
