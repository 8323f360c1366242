import ScopedStyle.Proofs.Document.Removal

/-!
# Reachable documents

An edit is one operation on a document with its arguments. A document is
reachable if edits lead to it from the start, whether or not they fault on the way.
-/

namespace ScopedStyle
namespace Document
variable {d : Document} {n p id : NodeId}

theorem Forest.appendAll (h : Forest d) (p : NodeId) (ns : List NodeId) :
    Forest (d.appendAll p ns).1 := by
  induction ns generalizing d with
  | nil => exact h
  | cons id ns ih =>
    have hnext := h.append p id
    rw [Document.appendAll]
    split
    · rename_i e fault he
      rwa [he] at hnext
    · rename_i e he
      rw [he] at hnext
      exact ih hnext

theorem insertChild_fst (d : Document) (p : NodeId) (node : Node) :
    (d.insertChild p node).1 = ((d.insert node).1.append p ⟨d.nodes.length⟩).1 := by
  unfold insertChild
  split
  rename_i d' id hd
  obtain ⟨rfl, rfl⟩ := Prod.mk.inj hd
  split
  · rename_i e fault he
    exact (congrArg Prod.fst he).symm
  · rename_i e he
    exact (congrArg Prod.fst he).symm

theorem Forest.insertChild (h : Forest d) (p : NodeId) (node : Node) :
    Forest (d.insertChild p node).1 := by
  rw [insertChild_fst]
  exact (h.insert node).append p _

theorem Forest.createElement (h : Forest d) (tag : Text) (attributes : Entries Text)
    (ns : List NodeId) : Forest (d.createElement tag attributes ns).1 := by
  rw [Document.createElement]
  split
  rename_i d' id hd
  have hi := h.insert (attributes.foldl (fun n entry => n.setAttribute entry.1 entry.2)
    (Node.element tag))
  rw [hd] at hi
  have hall := hi.appendAll id ns
  split
  · rename_i e he
    rwa [he] at hall
  · rename_i e he
    rwa [he] at hall

def withCarrier (d : Document) : Document :=
  (({ d with sheets := d.sheets ++ [RuleList.empty] }).insertChild head
    { Node.element ['s', 't', 'y', 'l', 'e'] with sheet := some ⟨d.sheets.length⟩ }).1

theorem attachSheet_eq : d.attachSheet.1 = d.withCarrier ∨
    d.attachSheet.1 =
      { d.withCarrier with attached := d.withCarrier.attached ++ [⟨d.sheets.length⟩] } := by
  unfold attachSheet withCarrier
  dsimp only
  split
  · rename_i e he
    rw [he]
    exact .inl rfl
  · rename_i e he
    rw [he]
    exact .inr rfl

theorem Forest.attachSheet (h : Forest d) : Forest d.attachSheet.1 := by
  have hsheet : Forest { d with sheets := d.sheets ++ [RuleList.empty] } := h.congr rfl rfl rfl
  have hcarrier : Forest d.withCarrier := hsheet.insertChild head _
  rcases attachSheet_eq (d := d) with he | he
  · rwa [he]
  · rw [he]
    exact hcarrier.congr rfl rfl rfl

inductive Edit
  | insert (node : Node)
  | createText (text : Text)
  | insertChild (parent : NodeId) (node : Node)
  | append (parent id : NodeId)
  | mount (id : NodeId)
  | createElement (tag : Text) (attributes : Entries Text) (children : List NodeId)
  | attachSheet
  | insertRule (sheet : SheetId) (text : Text) (index : Nat)
  | remove (id : NodeId)

def edit (d : Document) : Edit → Document
  | .insert node => (d.insert node).1
  | .createText text => (d.insert (Node.ofText text)).1
  | .insertChild parent node => (d.insertChild parent node).1
  | .append parent id => (d.append parent id).1
  | .mount id => (d.mount id).1
  | .createElement tag attributes children => (d.createElement tag attributes children).1
  | .attachSheet => d.attachSheet.1
  | .insertRule sheet text index => (d.insertRule sheet text index).1
  | .remove id => (d.remove id).1

def editAll (d : Document) (es : List Edit) : Document := es.foldl edit d

inductive Reachable : Document → Prop
  | start : Reachable start
  | edit {d : Document} (h : Reachable d) (e : Edit) : Reachable (d.edit e)

theorem Forest.edit (h : Forest d) (e : Edit) : Forest (d.edit e) := by
  cases e with
  | insert node => exact h.insert node
  | createText text => exact h.insert (Node.ofText text)
  | insertChild parent node => exact h.insertChild parent node
  | append parent id => exact h.append parent id
  | mount id => exact h.append body id
  | createElement tag attributes children => exact h.createElement tag attributes children
  | attachSheet => exact h.attachSheet
  | insertRule sheet text index => exact h.congr rfl rfl rfl
  | remove id => exact h.remove id

theorem Reachable.forest (h : Reachable d) : Forest d := by
  induction h with
  | start => exact forest_start
  | edit _ e ih => exact ih.edit e

theorem Reachable.editAll (h : Reachable d) (es : List Edit) : Reachable (d.editAll es) := by
  induction es generalizing d with
  | nil => exact h
  | cons e es ih => exact ih (h.edit e)

end Document
end ScopedStyle
