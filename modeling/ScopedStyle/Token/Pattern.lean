import ScopedStyle.Token

/-!
# Token patterns

A table of patterns. Each kind of token says how far it reaches into a text;
`longest` takes the kind that reaches furthest, the earlier one where two reach
equally far.
-/

namespace ScopedStyle
open Text

def isNameStart (c : Char) : Bool := c.isAlpha || c == '_'

def isNameChar (c : Char) : Bool := c.isAlphanum || c == '_' || c == '-'

/-- The blanks between tokens. Any other Unicode blank belongs to no token and no gap. -/
def isGap (c : Char) : Bool :=
  c == ' ' || c == '\t' || c == '\n' || c == '\r' || c == '\x0c'

theorem isGap_iff {c : Char} :
    isGap c ↔ c = ' ' ∨ c = '\t' ∨ c = '\n' ∨ c = '\r' ∨ c = '\x0c' := by
  simp [isGap, or_assoc]

def isDelim (c : Char) : Bool := !(isBlank c || c == '{' || c == '}' || c == ';')

def nameReach (start : Char → Bool) : Text → Option Nat
  | c :: rest => if start c then some (run isNameChar rest + 1) else none
  | [] => none

def identReach : Text → Option Nat
  | '-' :: '-' :: rest => (nameReach isNameStart rest).map (· + 2)
  | '-' :: rest => (nameReach isNameStart rest).map (· + 1)
  | rest => nameReach isNameStart rest

def atKeywordReach : Text → Option Nat
  | '@' :: '-' :: rest => (nameReach isNameStart rest).map (· + 2)
  | '@' :: rest => (nameReach isNameStart rest).map (· + 1)
  | _ => none

def hashReach : Text → Option Nat
  | '#' :: rest => if run isNameChar rest = 0 then none else some (run isNameChar rest + 1)
  | _ => none

def fractionReach : Text → Nat
  | '.' :: rest => if run Char.isDigit rest = 0 then 0 else run Char.isDigit rest + 1
  | _ => 0

def unsignedReach (t : Text) : Option Nat :=
  let whole := run Char.isDigit t
  let reach := whole + fractionReach (t.drop whole)
  if reach = 0 then none else some reach

def numberReach : Text → Option Nat
  | '-' :: rest => (unsignedReach rest).map (· + 1)
  | t => unsignedReach t

def dimensionReach (t : Text) : Option Nat :=
  match numberReach t with
  | none => none
  | some n =>
      match t.drop n with
      | '%' :: _ => some (n + 1)
      | rest => if run Char.isAlpha rest = 0 then none else some (n + run Char.isAlpha rest)

def pseudoElementReach : Text → Option Nat
  | ':' :: ':' :: rest => (nameReach Char.isAlpha rest).map (· + 2)
  | _ => none

def argumentReach : Text → Nat
  | '(' :: rest =>
      match distance? ')' rest with
      | some n => n + 2
      | none => 0
  | _ => 0

def pseudoClassReach : Text → Option Nat
  | ':' :: rest => (nameReach Char.isAlpha rest).map fun n => n + argumentReach (rest.drop n) + 1
  | _ => none

def enclosedReach (opener closer : Char) : Text → Option Nat
  | c :: rest => if c = opener then (distance? closer rest).map (· + 2) else none
  | [] => none

def charReach (p : Char → Bool) : Text → Option Nat
  | c :: _ => if p c then some 1 else none
  | [] => none

def importantMark : Text := ['!', 'i', 'm', 'p', 'o', 'r', 't', 'a', 'n', 't']

def TokenKind.reach : TokenKind → Text → Option Nat
  | .important, t => if importantMark.isPrefixOf t then some importantMark.length else none
  | .atKeyword, t => atKeywordReach t
  | .hash, t => hashReach t
  | .dimension, t => dimensionReach t
  | .pseudoElement, t => pseudoElementReach t
  | .pseudoClass, t => pseudoClassReach t
  | .bracketed, t => enclosedReach '[' ']' t
  | .stringLiteral, t => enclosedReach '"' '"' t
  | .stringLiteralSingle, t => enclosedReach '\'' '\'' t
  | .number, t => numberReach t
  | .ident, t => identReach t
  | .braceOpen, t => charReach (· == '{') t
  | .braceClose, t => charReach (· == '}') t
  | .parenOpen, t => charReach (· == '(') t
  | .parenClose, t => charReach (· == ')') t
  | .colon, t => charReach (· == ':') t
  | .semicolon, t => charReach (· == ';') t
  | .comma, t => charReach (· == ',') t
  | .dot, t => charReach (· == '.') t
  | .star, t => charReach (· == '*') t
  | .greaterThan, t => charReach (· == '>') t
  | .plus, t => charReach (· == '+') t
  | .tilde, t => charReach (· == '~') t
  | .slash, t => charReach (· == '/') t
  | .equals, t => charReach (· == '=') t
  | .delim, t => charReach isDelim t

/-- The earlier reach, unless the later one goes further. -/
def further (best next : Option (TokenKind × Nat)) : Option (TokenKind × Nat) :=
  match best, next with
  | some (k, n), some (k', n') => if n < n' then some (k', n') else some (k, n)
  | none, next => next
  | best, none => best

def TokenKind.attempt (k : TokenKind) (t : Text) : Option (TokenKind × Nat) :=
  (k.reach t).map (k, ·)

def longest (t : Text) : Option (TokenKind × Nat) :=
  TokenKind.table.foldl (fun best k => further best (k.attempt t)) none

theorem nameReach_pos {start : Char → Bool} {t : Text} {n : Nat}
    (h : nameReach start t = some n) : 0 < n := by
  cases t with
  | nil => simp [nameReach] at h
  | cons c rest =>
    simp only [nameReach] at h
    split at h
    · cases h; omega
    · cases h

theorem unsignedReach_pos {t : Text} {n : Nat} (h : unsignedReach t = some n) : 0 < n := by
  simp only [unsignedReach] at h
  split at h
  · cases h
  · cases h; omega

theorem numberReach_pos {t : Text} {n : Nat} (h : numberReach t = some n) : 0 < n := by
  unfold numberReach at h
  split at h
  · obtain ⟨m, _, rfl⟩ := Option.map_eq_some_iff.1 h
    omega
  · exact unsignedReach_pos h

theorem charReach_pos {p : Char → Bool} {t : Text} {n : Nat}
    (h : charReach p t = some n) : 0 < n := by
  cases t with
  | nil => simp [charReach] at h
  | cons c rest =>
    simp only [charReach] at h
    split at h
    · cases h; omega
    · cases h

theorem enclosedReach_pos {opener closer : Char} {t : Text} {n : Nat}
    (h : enclosedReach opener closer t = some n) : 0 < n := by
  cases t with
  | nil => simp [enclosedReach] at h
  | cons c rest =>
    simp only [enclosedReach] at h
    split at h
    · obtain ⟨m, _, rfl⟩ := Option.map_eq_some_iff.1 h
      omega
    · cases h

theorem identReach_pos {t : Text} {n : Nat} (h : identReach t = some n) : 0 < n := by
  unfold identReach at h
  split at h
  · obtain ⟨m, _, rfl⟩ := Option.map_eq_some_iff.1 h
    omega
  · obtain ⟨m, _, rfl⟩ := Option.map_eq_some_iff.1 h
    omega
  · exact nameReach_pos h

theorem atKeywordReach_pos {t : Text} {n : Nat} (h : atKeywordReach t = some n) : 0 < n := by
  unfold atKeywordReach at h
  split at h
  · obtain ⟨m, _, rfl⟩ := Option.map_eq_some_iff.1 h
    omega
  · obtain ⟨m, _, rfl⟩ := Option.map_eq_some_iff.1 h
    omega
  · cases h

theorem hashReach_pos {t : Text} {n : Nat} (h : hashReach t = some n) : 0 < n := by
  unfold hashReach at h
  split at h
  · split at h
    · cases h
    · cases h; omega
  · cases h

theorem dimensionReach_pos {t : Text} {n : Nat} (h : dimensionReach t = some n) : 0 < n := by
  unfold dimensionReach at h
  split at h
  · cases h
  · rename_i m hm
    have := numberReach_pos hm
    split at h
    · cases h; omega
    · split at h
      · cases h
      · cases h; omega

theorem pseudoElementReach_pos {t : Text} {n : Nat}
    (h : pseudoElementReach t = some n) : 0 < n := by
  unfold pseudoElementReach at h
  split at h
  · obtain ⟨m, _, rfl⟩ := Option.map_eq_some_iff.1 h
    omega
  · cases h

theorem pseudoClassReach_pos {t : Text} {n : Nat} (h : pseudoClassReach t = some n) : 0 < n := by
  unfold pseudoClassReach at h
  split at h
  · obtain ⟨m, _, rfl⟩ := Option.map_eq_some_iff.1 h
    omega
  · cases h

theorem TokenKind.reach_pos {k : TokenKind} {t : Text} {n : Nat}
    (h : k.reach t = some n) : 0 < n := by
  cases k
  case important =>
    simp only [TokenKind.reach] at h
    split at h
    · cases h; decide
    · cases h
  case atKeyword => exact atKeywordReach_pos h
  case hash => exact hashReach_pos h
  case dimension => exact dimensionReach_pos h
  case pseudoElement => exact pseudoElementReach_pos h
  case pseudoClass => exact pseudoClassReach_pos h
  case number => exact numberReach_pos h
  case ident => exact identReach_pos h
  case bracketed => exact enclosedReach_pos h
  case stringLiteral => exact enclosedReach_pos h
  case stringLiteralSingle => exact enclosedReach_pos h
  all_goals exact charReach_pos h

theorem further_eq {best next : Option (TokenKind × Nat)} {r : TokenKind × Nat}
    (h : further best next = some r) : best = some r ∨ next = some r := by
  unfold further at h
  split at h
  · split at h
    · exact .inr h
    · exact .inl h
  · exact .inr h
  · exact .inl h

theorem reach_of_longest {t : Text} {k : TokenKind} {n : Nat} (h : longest t = some (k, n)) :
    k.reach t = some n := by
  have key : ∀ (ks : List TokenKind) (best : Option (TokenKind × Nat)),
      ks.foldl (fun best k => further best (k.attempt t)) best = some (k, n) →
        best = some (k, n) ∨ k.reach t = some n := by
    intro ks
    induction ks with
    | nil => exact fun best h => .inl h
    | cons j js ih =>
      intro best h
      rcases ih _ h with h | h
      · rcases further_eq h with h | h
        · exact .inl h
        · simp only [TokenKind.attempt, Option.map_eq_some_iff, Prod.mk.injEq] at h
          obtain ⟨m, hm, rfl, rfl⟩ := h
          exact .inr hm
      · exact .inr h
  rcases key _ _ h with h | h
  · cases h
  · exact h

end ScopedStyle
