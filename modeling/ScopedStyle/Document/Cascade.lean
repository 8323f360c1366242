import ScopedStyle.Document.Matching
import ScopedStyle.Specificity

/-!
# The cascade

The declarations that apply to a node: those of every attached rule that selects
it, in the order of their weight, so that the weightiest of each property comes
last and stays. Rules are numbered across all attached sheets.
-/

namespace ScopedStyle

structure Candidate where
  specificity : Specificity
  index : Nat
  declaration : Declaration

namespace Candidate

def weight (c : Candidate) : List Nat := c.specificity.key ++ [c.index]

theorem weight_lt_weight_iff {a b : Candidate} :
    a.weight < b.weight ↔ a.specificity.key < b.specificity.key ∨
      a.specificity = b.specificity ∧ a.index < b.index := by
  obtain ⟨⟨i, ids, classes, types, order⟩, index, decl⟩ := a
  obtain ⟨⟨i', ids', classes', types', order'⟩, index', decl'⟩ := b
  simp [weight, Specificity.key, List.cons_lt_cons_iff]
  cases i <;> cases i' <;> simp <;> omega

def le (a b : Candidate) : Bool := !decide (b.weight < a.weight)

end Candidate

def Specificity.highest? : List Specificity → Option Specificity
  | [] => none
  | s :: rest =>
      match highest? rest with
      | none => some s
      | some t => if s ≤ t then some t else some s

abbrev Properties := List (Text × Text)

namespace Properties

def set (property value : Text) : Properties → Properties
  | [] => [(property, value)]
  | (p, v) :: rest =>
      if property = p then (property, value) :: rest
      else if property < p then (property, value) :: (p, v) :: rest
      else (p, v) :: set property value rest

def get? (property : Text) (ps : Properties) : Option Text :=
  (ps.find? (·.1 = property)).map Prod.snd

end Properties

namespace Document

def specificities (d : Document) (id : NodeId) (order : Nat) (r : Rule) :
    Except Fault (List Specificity) :=
  (r.selectors.filter (d.selects · id)).mapM fun s => Specificity.ofSelector s order false

def ruleCandidates (d : Document) (id : NodeId) (order : Nat) (r : Rule) :
    Except Fault (List Candidate) :=
  match d.specificities id order r with
  | .error e => .error e
  | .ok found =>
      match Specificity.highest? found with
      | none => .ok []
      | some s =>
          .ok (r.declarations.mapIdx fun i decl => ⟨s.withImportant decl.important, i, decl⟩)

/-- All rules of attached sheets, in the order that they are numbered in. -/
def attachedRules (d : Document) : List Rule :=
  d.attachedSheets.flatMap fun l => l.rules.map SheetRule.rule

/-- The candidates of some rules, the first of which has the position `order`. Every rule uses up
its position, so the last one leaves room for another. -/
def candidatesFrom (d : Document) (id : NodeId) (order : Nat) :
    List Rule → Except Fault (List Candidate)
  | [] => .ok []
  | r :: rest =>
      match d.ruleCandidates id order r with
      | .error e => .error e
      | .ok here =>
          match successor Specificity.orderLimit order with
          | .error e => .error e
          | .ok next =>
              match d.candidatesFrom id next rest with
              | .error e => .error e
              | .ok more => .ok (here ++ more)

def resolve (cs : List Candidate) : Properties :=
  (cs.mergeSort Candidate.le).foldl
    (fun ps c => ps.set c.declaration.property c.declaration.value) []

def declared (d : Document) (id : NodeId) : Except Fault Properties :=
  match d.candidatesFrom id 0 d.attachedRules with
  | .error e => .error e
  | .ok cs => .ok (resolve cs)

def computed? (d : Document) (id : NodeId) (property : Text) : Except Fault (Option Text) :=
  match d.declared id with
  | .error e => .error e
  | .ok ps => .ok (ps.get? property)

end Document
end ScopedStyle
