import ScopedStyle.Nested.Line

/-!
# Flattening nested style text

A flattener reads style text line by line and emits flat rules. `step` handles a
line up to the first brace that ends a block and hands back the rest, which is
then read as a line of its own; `feed` steps until nothing is left.

Declarations are held back until their block is left or another one begins, so
that they stay with the selector they were written under.
-/

namespace ScopedStyle
open Text

structure Flattener where
  root : Text
  /-- The selectors of the open blocks, the innermost first. -/
  blocks : List Text
  /-- The declarations of the current selector that no rule holds yet. -/
  pending : List Text
  rules : List Text
  depth : Int
  waiting : Option Text
  deriving DecidableEq

namespace Flattener

def start (root : Text) : Flattener := ⟨root, [], [], [], 0, none⟩

def current (s : Flattener) : Text := s.blocks.headD s.root

def height (s : Flattener) : Nat := s.blocks.length + 1

def ruleText (selector : Text) (declarations : List Text) : Text :=
  selector ++ [' ', '{', ' '] ++ List.intercalate [' '] declarations ++ [' ', '}']

theorem ruleText_cons (selector first : Text) (others : List Text) :
    ruleText selector (first :: others) =
      selector ++ " \x7b ".toList ++ first ++ others.flatMap (' ' :: ·) ++ " \x7d".toList := by
  have hjoin : List.intercalate [' '] (first :: others) = first ++ others.flatMap (' ' :: ·) := by
    induction others generalizing first with
    | nil => rw [List.intercalate_singleton, List.flatMap_nil, List.append_nil]
    | cons next others ih =>
      rw [List.intercalate_cons_cons, ih, List.flatMap_cons, List.append_assoc]
      rfl
  rw [ruleText, hjoin, ← List.append_assoc]
  rfl

def flush (s : Flattener) : Flattener :=
  if s.pending.isEmpty then s
  else { s with pending := [], rules := s.rules ++ [ruleText s.current s.pending] }

def declare (s : Flattener) (declaration : Text) : Flattener :=
  { s with pending := s.pending ++ [declaration] }

def push (s : Flattener) (selector : Text) : Flattener :=
  { s with blocks := compose s.current selector :: s.blocks }

def select (s : Flattener) (selector : Text) : Flattener := s.flush.push selector

/-- An opening brace behind `before`, which opens a block only if it is a selector. -/
def enter (s : Flattener) (before : Text) : Flattener :=
  let s := { s with depth := s.depth + 1 }
  if !before.isEmpty && classify before = .selector then s.select before else s

def leave (s : Flattener) (before : Text) : Flattener :=
  let s := if isDeclaration (trim before) then s.declare (trim before) else s
  let s := { s with depth := s.depth - 1 }.flush
  { s with blocks := s.blocks.tail }

def resume (s : Flattener) (started line : Text) : Flattener :=
  let joined := started ++ ' ' :: line
  if endsWith ';' joined then { s with waiting := none }.declare joined
  else { s with waiting := some joined }

def plain (s : Flattener) (line : Text) : Flattener :=
  match classify line with
  | .declaration => s.declare line
  | .selector => s.select line
  | .other => s

def afterBrace (s : Flattener) (tail : Text) : Flattener × Option Text :=
  match cut? '{' tail, cut? '}' tail with
  | none, none => (if isDeclaration tail then s.declare tail else s, none)
  | none, some (before, rest) => (s.leave before, some rest)
  | some _, none => (s, some tail)
  | some (outer, _), some (before, rest) =>
      if before.length < outer.length then (s.leave before, some rest) else (s, some tail)

/-- One line up to the end of the first block that ends on it, and the rest of it if there is
one. -/
def step (s : Flattener) (raw : Text) : Flattener × Option Text :=
  let line := trim raw
  if line.isEmpty then (s, none)
  else
    match s.waiting with
    | some started => (s.resume started line, none)
    | none =>
        if isDeclaration line && !endsWith ';' line then ({ s with waiting := some line }, none)
        else
          match cut? '{' line with
          | some (before, after) => (s.enter (trim before)).afterBrace (trim after)
          | none =>
              match cut? '}' line with
              | some (before, rest) => (s.leave before, some rest)
              | none => (s.plain line, none)

theorem afterBrace_le {s s' : Flattener} {tail rest : Text}
    (h : s.afterBrace tail = (s', some rest)) : rest.length ≤ tail.length := by
  unfold afterBrace at h
  split at h
  · simp at h
  · rename_i hc
    cases h
    exact Nat.le_of_lt (cut?_shorter hc)
  · cases h; simp
  · rename_i hc
    split at h
    · cases h
      exact Nat.le_of_lt (cut?_shorter hc)
    · cases h; simp

theorem step_shorter {s s' : Flattener} {raw rest : Text}
    (h : s.step raw = (s', some rest)) : rest.length < raw.length := by
  have ht := length_trim_le raw
  simp only [step] at h
  split at h
  · simp at h
  · split at h
    · simp at h
    · split at h
      · simp at h
      · split at h
        · rename_i before after hc
          have h₁ := cut?_shorter hc
          have h₂ := afterBrace_le h
          have h₃ := length_trim_le after
          omega
        · split at h
          · rename_i hc
            cases h
            have h₁ := cut?_shorter hc
            omega
          · simp at h

def feed (s : Flattener) (raw : Text) : Flattener :=
  match _h : s.step raw with
  | (s', none) => s'
  | (s', some rest) => s'.feed rest
termination_by raw.length
decreasing_by exact step_shorter _h

theorem feed_of_none {s s' : Flattener} {raw : Text} (h : s.step raw = (s', none)) :
    s.feed raw = s' := by
  rw [feed]
  split
  · simp_all
  · simp_all

theorem feed_of_some {s s' : Flattener} {raw rest : Text} (h : s.step raw = (s', some rest)) :
    s.feed raw = s'.feed rest := by
  rw [feed]
  split
  · simp_all
  · simp_all

def finish (s : Flattener) : List Text := s.flush.rules

def feedAll (s : Flattener) (lines : List Text) : Flattener := lines.foldl feed s

end Flattener

def Flattener.ofStyle (style root : Text) : Flattener :=
  (Flattener.start root).feedAll (lines style)

def flatten (style root : Text) : List Text := (Flattener.ofStyle style root).finish

/-- The declaration at the end of a style text whose semicolon never comes. It is in no rule. -/
def droppedDeclaration (style root : Text) : Option Text := (Flattener.ofStyle style root).waiting

end ScopedStyle
