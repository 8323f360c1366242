import ScopedStyle.Fault
import ScopedStyle.NodeMap
import ScopedStyle.RuleList

/-!
# Documents

A document is a forest of nodes with a root, a head and a body, and a list of
attached sheets. Nodes are numbered in the order of their creation; a removed
node leaves its number empty. Two maps link them: one to the children of each
node, one to the parent of each node that has one.

An operation that may fault gives the document that it leaves beside its answer.
Those built from several steps leave the document after the steps that went well.
-/

namespace ScopedStyle

structure Document where
  nodes : List (Option Node)
  childLists : NodeMap (List NodeId)
  parents : NodeMap NodeId
  sheets : List RuleList
  /-- The sheets that the cascade reads, in the order of their attachment. -/
  attached : List SheetId
  deriving DecidableEq

namespace Document

def root : NodeId := ⟨0⟩

def head : NodeId := ⟨1⟩

def body : NodeId := ⟨2⟩

def isStructural (id : NodeId) : Bool := id == root || id == head || id == body

def start : Document :=
  { nodes :=
      [some (Node.element ['h', 't', 'm', 'l']), some (Node.element ['h', 'e', 'a', 'd']),
        some (Node.element ['b', 'o', 'd', 'y'])]
    childLists := [(root, [head, body]), (head, []), (body, [])]
    parents := [(head, root), (body, root)]
    sheets := []
    attached := [] }

def node? (d : Document) (id : NodeId) : Option Node := (d.nodes[id.index]?).join

def contains (d : Document) (id : NodeId) : Bool := (d.node? id).isSome

def parent? (d : Document) (id : NodeId) : Option NodeId := d.parents.find? id

def childList? (d : Document) (id : NodeId) : Option (List NodeId) := d.childLists.find? id

def children (d : Document) (id : NodeId) : List NodeId := (d.childList? id).getD []

def ancestorsWithin (d : Document) : (fuel : Nat) → NodeId → List NodeId
  | 0, _ => []
  | fuel + 1, id =>
      match d.parent? id with
      | none => []
      | some p => p :: d.ancestorsWithin fuel p

/-- The nodes on the way up from `id`, the nearest first. No way is longer than the number of nodes
that there ever were. -/
def ancestors (d : Document) (id : NodeId) : List NodeId := d.ancestorsWithin d.nodes.length id

def isElement (d : Document) (id : NodeId) : Bool := (d.node? id).any (!·.isText)

def previousSiblings (d : Document) (id : NodeId) : List NodeId :=
  match d.parent? id with
  | none => []
  | some p => ((d.children p).takeWhile (· != id)).reverse.filter d.isElement

def size (d : Document) : Nat := d.nodes.countP Option.isSome

def isEmpty (d : Document) : Bool := d.size == 0

def sheet (d : Document) (id : SheetId) : RuleList := d.sheets[id.index]?.getD RuleList.empty

def insert (d : Document) (node : Node) : Document × NodeId :=
  ({ d with
      nodes := d.nodes ++ [some node]
      childLists := d.childLists.set ⟨d.nodes.length⟩ [] },
    ⟨d.nodes.length⟩)

def detach (d : Document) (id : NodeId) : Document :=
  match d.parent? id with
  | none => d
  | some p =>
      { d with
        parents := d.parents.erase id
        childLists := d.childLists.modify p (·.filter (· ≠ id)) }

def link (d : Document) (parent id : NodeId) : Document :=
  { d with
    parents := d.parents.set id parent
    childLists := d.childLists.modify parent (· ++ [id]) }

def append (d : Document) (parent id : NodeId) : Document × Except Fault Unit :=
  if !d.contains id then (d, .error .missingNode)
  else if !d.contains parent then (d, .error .missingParent)
  else if parent = id ∨ id ∈ d.ancestors parent then (d, .error .underOwnSubtree)
  else ((d.detach id).link parent id, .ok ())

def mount (d : Document) (id : NodeId) : Document × Except Fault Unit := d.append body id

def appendAll (d : Document) (parent : NodeId) : List NodeId → Document × Except Fault Unit
  | [] => (d, .ok ())
  | id :: rest =>
      match d.append parent id with
      | (d', .error e) => (d', .error e)
      | (d', .ok ()) => d'.appendAll parent rest

/-- Add a node under `parent`. A fault leaves it there without a parent. -/
def insertChild (d : Document) (parent : NodeId) (node : Node) : Document × Except Fault NodeId :=
  let (d', id) := d.insert node
  match d'.append parent id with
  | (d'', .error e) => (d'', .error e)
  | (d'', .ok ()) => (d'', .ok id)

/-- Add an element without a parent and move the children under it. A fault leaves the element with
the children in front of the one that faults. -/
def createElement (d : Document) (tag : Text) (attributes : Entries Text)
    (children : List NodeId) : Document × Except Fault NodeId :=
  let node := attributes.foldl (fun n entry => n.setAttribute entry.1 entry.2) (Node.element tag)
  let (d', id) := d.insert node
  match d'.appendAll id children with
  | (d'', .error e) => (d'', .error e)
  | (d'', .ok ()) => (d'', .ok id)

def carried? (d : Document) (id : NodeId) : Option SheetId := (d.node? id).bind Node.sheet

/-- Take out one node with its links and the sheet that it carries. Its children still have it as
their parent. -/
def discard (d : Document) (id : NodeId) : Document :=
  { d with
    nodes := d.nodes.set id.index none
    childLists := d.childLists.erase id
    parents := d.parents.erase id
    attached :=
      match d.carried? id with
      | none => d.attached
      | some sheet => d.attached.filter (· ≠ sheet) }

/-- Take out the nodes of a queue and all under them. Beside the document stands what `top` was when
it was last taken out, or else `found`. -/
def clear (top : NodeId) (d : Document) (queue : List NodeId) (found : Option Node) :
    Document × Option Node :=
  match queue with
  | [] => (d, found)
  | id :: queue =>
      clear top (d.discard id) (queue ++ d.children id) (if id = top then d.node? id else found)
termination_by d.childLists.links + queue.length
decreasing_by
  -- children that join the queue leave the map with the entry of their parent
  rw [List.length_append, List.length_cons, children]
  cases h : d.childList? id with
  | none =>
    have hle : (d.discard id).childLists.links ≤ d.childLists.links :=
      NodeMap.links_erase_le id d.childLists
    simp only [Option.getD_none, List.length_nil]
    omega
  | some kids =>
    have hlt : (d.discard id).childLists.links + kids.length < d.childLists.links :=
      NodeMap.links_erase_lt h
    simp only [Option.getD_some]
    omega

/-- Remove a node and all under it, and give its data. Structural nodes stay when they are asked
for by name. -/
def remove (d : Document) (id : NodeId) : Document × Option Node :=
  if !d.contains id || isStructural id then (d, none)
  else clear id (d.detach id) [id] none

/-- Attach an empty sheet, carried by a new element under the head. A fault leaves the element
without a parent and the sheet unattached. -/
def attachSheet (d : Document) : Document × Except Fault SheetId :=
  let id : SheetId := ⟨d.sheets.length⟩
  let node := { Node.element ['s', 't', 'y', 'l', 'e'] with sheet := some id }
  match ({ d with sheets := d.sheets ++ [RuleList.empty] }).insertChild head node with
  | (d', .error e) => (d', .error e)
  | (d', .ok _) => ({ d' with attached := d'.attached ++ [id] }, .ok id)

def insertRule (d : Document) (id : SheetId) (text : Text) (index : Nat) :
    Document × Except InsertError Nat :=
  let offered := (d.sheet id).offer text index
  ({ d with sheets := d.sheets.set id.index offered.1 }, offered.2)

def attachedSheets (d : Document) : List RuleList := d.attached.map d.sheet

end Document
end ScopedStyle
