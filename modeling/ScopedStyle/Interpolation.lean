import ScopedStyle.Text.Basic

/-!
# Interpolated source text

A source text is split at its interpolations, which begin with a dollar sign and
an opening brace and end with the brace that balances it. Braces in string and
character literals do not count.
-/

namespace ScopedStyle
open Text

inductive Piece
  | text (t : Text)
  | slot (body : Text)
  deriving DecidableEq

inductive SplitError
  | unterminated (offset : Nat)
  | empty
  deriving DecidableEq

def SplitError.message : SplitError → String
  | unterminated offset => "unterminated `$\x7b` at byte " ++ toString offset
  | empty => "empty `$\x7b\x7d` interpolation"

inductive SlotMode
  | code (depth : Nat)
  | literal (depth : Nat) (quote : Char)
  | escape (depth : Nat) (quote : Char)

/-- Whether what follows an apostrophe makes it the start of a character literal. -/
def beginsCharLiteral : Text → Bool
  | '\\' :: _ => true
  | _ :: '\'' :: _ => true
  | _ => false

def SlotMode.next (mode : SlotMode) (c : Char) (rest : Text) : Option SlotMode :=
  match mode with
  | escape depth quote => some (literal depth quote)
  | literal depth quote =>
      if c = '\\' then some (escape depth quote)
      else if c = quote then some (code depth)
      else some (literal depth quote)
  | code depth =>
      if c = '"' then some (literal depth '"')
      else if c = '\'' ∧ beginsCharLiteral rest then some (literal depth '\'')
      else if c = '{' then some (code (depth + 1))
      else if c = '}' then
        match depth with
        | 0 => none
        | d + 1 => some (code d)
      else some (code depth)

def slotBody? (mode : SlotMode) (read : Text) : Text → Option (Text × Text)
  | [] => none
  | c :: rest =>
      match mode.next c rest with
      | none => some (read.reverse, rest)
      | some mode' => slotBody? mode' (c :: read) rest

theorem slotBody?_shorter {mode : SlotMode} {read t body rest : Text}
    (h : slotBody? mode read t = some (body, rest)) : rest.length < t.length := by
  induction t generalizing mode read with
  | nil => simp [slotBody?] at h
  | cons c t ih =>
    simp only [slotBody?] at h
    split at h
    · cases h; simp
    · have := ih h
      simp only [List.length_cons]
      omega

def textPiece (reversed : Text) : List Piece :=
  if reversed.isEmpty then [] else [.text reversed.reverse]

/-- The pieces of a source text that begins at `offset`, with the text since the last slot, which
comes reversed. -/
def splitFrom (offset : Nat) (pending : Text) (t : Text) : Except SplitError (List Piece) :=
  match t with
  | [] => .ok (textPiece pending)
  | '$' :: '{' :: rest =>
      match _h : slotBody? (.code 0) [] rest with
      | none => .error (.unterminated offset)
      | some (body, after) =>
          if (trim body).isEmpty then .error .empty
          else
            match splitFrom (offset + 3 + byteSize body) [] after with
            | .error e => .error e
            | .ok pieces => .ok (textPiece pending ++ .slot (trim body) :: pieces)
  | c :: rest => splitFrom (offset + c.utf8Size) (c :: pending) rest
termination_by t.length
decreasing_by
  · have := slotBody?_shorter _h
    simp only [List.length_cons]
    omega
  · simp

def splitPieces (source : Text) : Except SplitError (List Piece) := splitFrom 0 [] source

end ScopedStyle
