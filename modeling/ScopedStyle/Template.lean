import ScopedStyle.Props

/-!
# Style templates

Text with slots in it. A slot holds a value or computes one from properties; the
style text is what stands around the slots joined with the texts of their values.
-/

namespace ScopedStyle
open Text

inductive Slot (π : Type)
  | literal (value : Value)
  | computed (compute : π → Except Text Value)

namespace Slot

def evaluate {π : Type} (props : π) : Slot π → Except Text Value
  | literal value => .ok value
  | computed compute => compute props

def isLiteral {π : Type} : Slot π → Bool
  | literal _ => true
  | computed _ => false

def get {ν : Type} (key : Text) : Slot (Props ν) := computed fun p => .ok ((p.get? key).getD .null)

end Slot

structure SlotError where
  slot : Nat
  source : Text
  deriving DecidableEq

def SlotError.message (e : SlotError) : String :=
  "style slot " ++ toString e.slot ++ " failed to evaluate"

/-- The text up to the first slot, and each slot with the text behind it. -/
structure Template (π : Type) where
  lead : Text
  parts : List (Slot π × Text)

namespace Template

def empty {π : Type} : Template π := ⟨[], []⟩

def extend {π : Type} (t : Text) : List (Slot π × Text) → List (Slot π × Text)
  | [] => []
  | [(slot, last)] => [(slot, last ++ t)]
  | part :: rest => part :: extend t rest

def addText {π : Type} (m : Template π) (t : Text) : Template π :=
  if m.parts.isEmpty then { m with lead := m.lead ++ t }
  else { m with parts := extend t m.parts }

def addSlot {π : Type} (m : Template π) (slot : Slot π) : Template π :=
  { m with parts := m.parts ++ [(slot, [])] }

/-- Texts and slots in turn. Where one of them runs out the rest of the other follows. -/
def interleave {π : Type} (m : Template π) : List Text → List (Slot π) → Template π
  | [], slots => slots.foldl addSlot m
  | t :: ts, [] => (m.addText t).interleave ts []
  | t :: ts, slot :: slots => ((m.addText t).addSlot slot).interleave ts slots

def ofParts {π : Type} (segments : List Text) (slots : List (Slot π)) : Template π :=
  empty.interleave segments slots

def ofText {π : Type} (t : Text) : Template π := empty.addText t

def segments {π : Type} (m : Template π) : List Text := m.lead :: m.parts.map Prod.snd

def slots {π : Type} (m : Template π) : List (Slot π) := m.parts.map Prod.fst

def isStatic {π : Type} (m : Template π) : Bool := m.slots.all Slot.isLiteral

def evaluateFrom {π : Type} (props : π) (index : Nat) :
    List (Slot π × Text) → Except SlotError Text
  | [] => .ok []
  | (slot, t) :: rest =>
      match slot.evaluate props with
      | .error source => .error ⟨index, source⟩
      | .ok value =>
          match evaluateFrom props (index + 1) rest with
          | .error e => .error e
          | .ok tail => .ok (value.render ++ t ++ tail)

def evaluate {π : Type} (m : Template π) (props : π) : Except SlotError Text :=
  match evaluateFrom props 0 m.parts with
  | .error e => .error e
  | .ok tail => .ok (m.lead ++ tail)

end Template
end ScopedStyle
