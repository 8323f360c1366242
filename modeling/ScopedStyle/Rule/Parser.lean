import ScopedStyle.Rule
import ScopedStyle.Rule.Comment
import ScopedStyle.Rule.Error
import ScopedStyle.Token.Lexer

/-!
# Reading a rule

Each reader takes the tokens that are left and gives a part of the rule with the
tokens behind it. A part that succeeds leaves fewer tokens, which is why the
loops end.
-/

namespace ScopedStyle
open Text

/-- A refusal in the middle of the tokens. Where a token is wrong, `left` counts the tokens from it
to the end. -/
inductive Refusal
  | unexpected (left : Nat) (cause : Unexpected)
  | ended (cause : Missing)
  deriving DecidableEq

def Refusal.within (total : Nat) : Refusal → ParseError
  | unexpected left cause => .unexpectedToken (total - left) cause
  | ended cause => .unexpectedEnd cause

abbrev Reading (α : Type) := Except Refusal (α × List Token)

def bracketInside (t : Text) : Text := trim (t.drop 1).dropLast

def readTest : List Token → Except Refusal (Option (Test × List Token))
  | [] => .ok none
  | tok :: rest =>
      match tok.kind with
      | .dot =>
          match rest with
          | [] => .error (.ended .className)
          | name :: after =>
              if name.kind = .ident ∧ name.touches then .ok (some (.hasClass name.text, after))
              else .error (.unexpected rest.length (.className name.kind name.text))
      | .hash => .ok (some (.hasId (tok.text.drop 1), rest))
      | .bracketed =>
          if (bracketInside tok.text).isEmpty then
            .error (.unexpected (tok :: rest).length .emptyAttr)
          else .ok (some (.hasAttr (bracketInside tok.text), rest))
      | .pseudoClass => .ok (some (.pseudoClass (tok.text.drop 1), rest))
      | .pseudoElement => .ok (some (.pseudoElement (tok.text.drop 2), rest))
      | _ => .ok none

theorem readTest_shorter {ts rest : List Token} {t : Test}
    (h : readTest ts = .ok (some (t, rest))) : rest.length < ts.length := by
  cases ts with
  | nil => simp [readTest] at h
  | cons tok ts =>
    simp only [readTest] at h
    split at h
    · split at h
      · cases h
      · split at h
        · cases h; simp only [List.length_cons]; omega
        · cases h
    · cases h; simp
    · split at h
      · cases h
      · cases h; simp
    · cases h; simp
    · cases h; simp
    · cases h

def readTests (done : List Test) (ts : List Token) : Reading (List Test) :=
  match ts with
  | [] => .ok (done.reverse, [])
  | tok :: rest =>
      if tok.touches then
        match _h : readTest (tok :: rest) with
        | .error e => .error e
        | .ok none => .ok (done.reverse, tok :: rest)
        | .ok (some (t, after)) => readTests (t :: done) after
      else .ok (done.reverse, tok :: rest)
termination_by ts.length
decreasing_by exact readTest_shorter _h

theorem readTests_le {done tests : List Test} {ts rest : List Token}
    (h : readTests done ts = .ok (tests, rest)) : rest.length ≤ ts.length := by
  fun_induction readTests done ts with
  | case1 => cases h; simp
  | case2 => cases h
  | case3 => cases h; simp
  | case4 done tok ts' _ t after h' ih =>
    have := readTest_shorter h'
    have := ih h
    omega
  | case5 => cases h; simp

def readCompound : List Token → Reading Compound
  | [] => .error (.ended .selectorPart)
  | tok :: rest =>
      match tok.kind with
      | .ident =>
          match readTests [] rest with
          | .error e => .error e
          | .ok (tests, after) => .ok (.tagged (.named tok.text) tests, after)
      | .star =>
          match readTests [] rest with
          | .error e => .error e
          | .ok (tests, after) => .ok (.tagged .any tests, after)
      | _ =>
          match readTest (tok :: rest) with
          | .error e => .error e
          | .ok none => .error (.unexpected (tok :: rest).length .selectorPart)
          | .ok (some (first, more)) =>
              match readTests [] more with
              | .error e => .error e
              | .ok (tests, after) => .ok (.untagged first tests, after)

theorem readCompound_shorter {ts rest : List Token} {c : Compound}
    (h : readCompound ts = .ok (c, rest)) : rest.length < ts.length := by
  cases ts with
  | nil => simp [readCompound] at h
  | cons tok ts =>
    simp only [readCompound] at h
    split at h
    · split at h
      · cases h
      · rename_i h'
        cases h
        have := readTests_le h'
        simp only [List.length_cons]
        omega
    · split at h
      · cases h
      · rename_i h'
        cases h
        have := readTests_le h'
        simp only [List.length_cons]
        omega
    · split at h
      · cases h
      · cases h
      · rename_i h₁
        split at h
        · cases h
        · rename_i h₂
          cases h
          have := readTest_shorter h₁
          have := readTests_le h₂
          omega

def TokenKind.beginsCompound : TokenKind → Bool
  | .ident | .hash | .dot | .star | .bracketed | .pseudoClass | .pseudoElement => true
  | _ => false

/-- The combinator in front of another compound, if there is one. Where a compound begins without a
sign in front of it, the blank before it is the combinator. -/
def readCombinator? : List Token → Option (Combinator × List Token)
  | [] => none
  | tok :: rest =>
      match tok.kind with
      | .greaterThan => some (.child, rest)
      | .plus => some (.nextSibling, rest)
      | .tilde => some (.subsequentSibling, rest)
      | kind => if kind.beginsCompound then some (.descendant, tok :: rest) else none

theorem readCombinator?_le {ts rest : List Token} {k : Combinator}
    (h : readCombinator? ts = some (k, rest)) : rest.length ≤ ts.length := by
  cases ts with
  | nil => simp [readCombinator?] at h
  | cons tok ts =>
    simp only [readCombinator?] at h
    split at h
    · cases h; simp
    · cases h; simp
    · cases h; simp
    · split at h
      · cases h; simp
      · cases h

def readLinks (done : List (Combinator × Compound)) (ts : List Token) :
    Reading (List (Combinator × Compound)) :=
  match _h : readCombinator? ts with
  | none => .ok (done.reverse, ts)
  | some (k, more) =>
      match _h' : readCompound more with
      | .error e => .error e
      | .ok (c, rest) => readLinks ((k, c) :: done) rest
termination_by ts.length
decreasing_by
  have := readCombinator?_le _h
  have := readCompound_shorter _h'
  omega

theorem readLinks_le {done links : List (Combinator × Compound)} {ts rest : List Token}
    (h : readLinks done ts = .ok (links, rest)) : rest.length ≤ ts.length := by
  fun_induction readLinks done ts with
  | case1 => cases h; simp
  | case2 => cases h
  | case3 done ts k more h₁ c after h₂ ih =>
    have := readCombinator?_le h₁
    have := readCompound_shorter h₂
    have := ih h
    omega

def readSelector (ts : List Token) : Reading Selector :=
  match readCompound ts with
  | .error e => .error e
  | .ok (head, more) =>
      match readLinks [] more with
      | .error e => .error e
      | .ok (links, rest) => .ok (⟨head, links⟩, rest)

theorem readSelector_shorter {ts rest : List Token} {s : Selector}
    (h : readSelector ts = .ok (s, rest)) : rest.length < ts.length := by
  unfold readSelector at h
  split at h
  · cases h
  · rename_i h₁
    split at h
    · cases h
    · rename_i h₂
      cases h
      have := readCompound_shorter h₁
      have := readLinks_le h₂
      omega

def readMoreSelectors (done : List Selector) (ts : List Token) : Reading (List Selector) :=
  match ts with
  | [] => .ok (done.reverse, [])
  | tok :: rest =>
      if tok.kind = .comma then
        match _h : readSelector rest with
        | .error e => .error e
        | .ok (s, after) => readMoreSelectors (s :: done) after
      else .ok (done.reverse, tok :: rest)
termination_by ts.length
decreasing_by
  have := readSelector_shorter _h
  simp only [List.length_cons]
  omega

def readSelectors (ts : List Token) : Reading (List Selector) :=
  match readSelector ts with
  | .error e => .error e
  | .ok (s, rest) => readMoreSelectors [s] rest

structure RawValue where
  pieces : List Text
  important : Bool

/-- The source text of a value, in pieces: each token with the gap in front of it, up to a semicolon
or closing brace outside parentheses, or an important mark there. -/
def readRawValue (property : Text) (depth : Nat) (done : List Text) :
    List Token → Reading RawValue
  | [] =>
      if depth = 0 then .ok (⟨done.reverse, false⟩, [])
      else .error (.ended (.closingParen property))
  | tok :: rest =>
      let done' := (tok.gap ++ tok.text) :: done
      match tok.kind, depth with
      | .semicolon, 0 => .ok (⟨done.reverse, false⟩, tok :: rest)
      | .braceClose, 0 => .ok (⟨done.reverse, false⟩, tok :: rest)
      | .important, 0 => .ok (⟨done.reverse, true⟩, rest)
      | .braceOpen, _ => .error (.unexpected (tok :: rest).length (.braceInValue property))
      | .parenOpen, depth => readRawValue property (depth + 1) done' rest
      | .parenClose, 0 => .error (.unexpected (tok :: rest).length .strayParen)
      | .parenClose, depth + 1 => readRawValue property depth done' rest
      | _, depth => readRawValue property depth done' rest

theorem readRawValue_le {property : Text} {depth : Nat} {done : List Text} {v : RawValue}
    {ts rest : List Token} (h : readRawValue property depth done ts = .ok (v, rest)) :
    rest.length ≤ ts.length := by
  fun_induction readRawValue property depth done ts with
  | case1 => cases h; simp
  | case2 => cases h
  | case3 => cases h; simp
  | case4 => cases h; simp
  | case5 => cases h; simp
  | case6 => cases h
  | case7 depth done tok rest' done' hk ih =>
    have := ih h
    simp only [List.length_cons]
    omega
  | case8 => cases h
  | case9 done tok rest' done' hk depth ih =>
    have := ih h
    simp only [List.length_cons]
    omega
  | case10 =>
    rename_i ih
    have := ih h
    simp only [List.length_cons]
    omega

/-- The end of a declaration: nothing, a closing brace that stays, or a semicolon that goes. Behind
an important mark nothing else may follow. -/
def readEnd (important : Bool) : List Token → Except Refusal (List Token)
  | [] => .ok []
  | tok :: rest =>
      match tok.kind with
      | .semicolon => .ok rest
      | .braceClose => .ok (tok :: rest)
      | _ =>
          if important then .error (.unexpected (tok :: rest).length (.afterImportant tok.text))
          else .ok (tok :: rest)

theorem readEnd_le {important : Bool} {ts rest : List Token}
    (h : readEnd important ts = .ok rest) : rest.length ≤ ts.length := by
  cases ts with
  | nil => cases h; simp
  | cons tok ts =>
    simp only [readEnd] at h
    split at h
    · cases h; simp
    · cases h; simp
    · split at h
      · cases h
      · cases h; simp

def readValue (property : Text) (start : List Text) (ts : List Token) : Reading Declaration :=
  match readRawValue property 0 start ts with
  | .error e => .error e
  | .ok (raw, more) =>
      let value := trim raw.pieces.flatten
      if value.isEmpty then .error (.unexpected more.length (.noValue property))
      else
        match readEnd raw.important more with
        | .error e => .error e
        | .ok rest => .ok (⟨property, value, raw.important⟩, rest)

theorem readValue_le {property : Text} {start : List Text} {d : Declaration}
    {ts rest : List Token} (h : readValue property start ts = .ok (d, rest)) :
    rest.length ≤ ts.length := by
  unfold readValue at h
  split at h
  · cases h
  · rename_i h₁
    simp only at h
    split at h
    · cases h
    · split at h
      · cases h
      · rename_i h₂
        cases h
        have := readRawValue_le h₁
        have := readEnd_le h₂
        omega

/-- A declaration that begins with the token `name`. A colon that touches the property may be part
of a pseudo-class token, the rest of which then begins the value. -/
def readDeclaration (name : Token) (ts : List Token) : Reading Declaration :=
  if name.kind = .ident then
    match ts with
    | [] => .error (.ended (.colon name.text))
    | tok :: rest =>
        if tok.kind = .colon then readValue name.text [] rest
        else if tok.kind = .pseudoClass ∧ tok.touches then
          readValue name.text [tok.text.drop 1] rest
        else .error (.unexpected (tok :: rest).length (.colon name.text tok.text))
  else .error (.unexpected (name :: ts).length (.propertyName name.kind name.text))

theorem readDeclaration_le {name : Token} {d : Declaration} {ts rest : List Token}
    (h : readDeclaration name ts = .ok (d, rest)) : rest.length ≤ ts.length := by
  unfold readDeclaration at h
  split at h
  · split at h
    · cases h
    · split at h
      · have := readValue_le h
        simp only [List.length_cons]
        omega
      · split at h
        · have := readValue_le h
          simp only [List.length_cons]
          omega
        · cases h
  · cases h

def readDeclarations (done : List Declaration) (ts : List Token) : Reading (List Declaration) :=
  match ts with
  | [] => .ok (done.reverse, [])
  | tok :: rest =>
      if tok.kind = .braceClose then .ok (done.reverse, tok :: rest)
      else if tok.kind = .semicolon then readDeclarations done rest
      else
        match _h : readDeclaration tok rest with
        | .error e => .error e
        | .ok (d, after) => readDeclarations (d :: done) after
termination_by ts.length
decreasing_by
  · simp
  · have := readDeclaration_le _h
    simp only [List.length_cons]
    omega

def readKind (wanted : TokenKind) : List Token → Except Refusal (List Token)
  | [] => .error (.ended (.token wanted))
  | tok :: rest =>
      if tok.kind = wanted then .ok rest
      else .error (.unexpected (tok :: rest).length (.insteadOf wanted tok.kind tok.text))

def readBlock (ts : List Token) : Reading (List Declaration) :=
  match readKind .braceOpen ts with
  | .error e => .error e
  | .ok inside =>
      match readDeclarations [] inside with
      | .error e => .error e
      | .ok (declarations, more) =>
          match readKind .braceClose more with
          | .error e => .error e
          | .ok rest => .ok (declarations, rest)

def readRule (ts : List Token) : Reading Rule :=
  match readSelectors ts with
  | .error e => .error e
  | .ok (selectors, more) =>
      match readBlock more with
      | .error e => .error e
      | .ok (declarations, rest) => .ok (⟨selectors, declarations⟩, rest)

def readWholeRule (ts : List Token) : Except Refusal Rule :=
  match readRule ts with
  | .error e => .error e
  | .ok (rule, []) => .ok rule
  | .ok (_, extra :: rest) =>
      .error (.unexpected (extra :: rest).length (.afterRule extra.text))

def Rule.ofTokens (ts : List Token) : Except ParseError Rule :=
  match ts with
  | [] => .error (.unexpectedEnd .rule)
  | tok :: rest =>
      if tok.kind = .atKeyword then .error (.unsupportedAtRule tok.text)
      else (readWholeRule (tok :: rest)).mapError (Refusal.within (tok :: rest).length)

def Rule.parse (t : Text) : Except ParseError Rule :=
  let source := stripComments t
  match firstStray? 0 (lexemes source) with
  | some (offset, text) => .error (.invalidCharacter offset text)
  | none => Rule.ofTokens (tokens source)

end ScopedStyle
