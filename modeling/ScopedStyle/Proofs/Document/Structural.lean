import ScopedStyle.Proofs.Document.Sheets

/-!
# Structural nodes

A structural node cannot be removed by name, but it goes with an ordinary node
that it was moved under. It stays in a document exactly as long as no such node
above it is removed.
-/

namespace ScopedStyle
namespace Document
variable {d : Document} {n s x : NodeId}

theorem nodes_attachSheet : ∃ node, d.attachSheet.1.nodes = d.nodes ++ [some node] := by
  have hsame : d.withCarrier.SameNodes _ := sameNodes_insertChild head _
  rcases attachSheet_eq (d := d) with he | he
  · rw [he]
    exact ⟨_, hsame.nodes⟩
  · rw [he]
    exact ⟨_, hsame.nodes⟩

theorem nodes_edit {e : Edit} (he : ∀ x, e ≠ .remove x) :
    ∃ new, (d.edit e).nodes = d.nodes ++ new := by
  have hsame : ∀ {f : Document}, f.SameNodes d → ∃ new, f.nodes = d.nodes ++ new :=
    fun hf => ⟨[], by rw [hf.nodes, List.append_nil]⟩
  cases e with
  | insert node => exact ⟨[some node], rfl⟩
  | createText text => exact ⟨[some (Node.ofText text)], rfl⟩
  | insertChild parent node => exact ⟨[some node], (sameNodes_insertChild parent node).nodes⟩
  | append parent id =>
    exact hsame (sameNodes_append d parent id)
  | mount id =>
    exact hsame (sameNodes_append d body id)
  | createElement tag attributes children =>
    exact ⟨[some _], (sameNodes_createElement tag attributes children).nodes⟩
  | attachSheet =>
    obtain ⟨node, hnode⟩ := nodes_attachSheet (d := d)
    exact ⟨[some node], hnode⟩
  | insertRule sheet text index => exact ⟨[], (List.append_nil _).symm⟩
  | remove x => exact absurd rfl (he x)

theorem nodes_remove (x : NodeId) : (d.remove x).1.nodes.length = d.nodes.length := by
  unfold remove
  split
  · rfl
  · rw [length_clear, (sameNodes_detach x).nodes]

theorem length_nodes_edit (e : Edit) : d.nodes.length ≤ (d.edit e).nodes.length := by
  by_cases he : ∃ x, e = .remove x
  · obtain ⟨x, rfl⟩ := he
    exact Nat.le_of_eq (nodes_remove x).symm
  · obtain ⟨new, hnew⟩ := nodes_edit (d := d) fun x h => he ⟨x, h⟩
    rw [hnew, List.length_append]
    exact Nat.le_add_right _ _

theorem contains_edit {e : Edit} (hn : n.index < d.nodes.length) (he : ∀ x, e ≠ .remove x) :
    (d.edit e).contains n = d.contains n := by
  obtain ⟨new, hnew⟩ := nodes_edit (d := d) he
  rw [contains, node?, hnew, List.getElem?_append_left hn, contains, node?]

theorem remove_eq_self (h : ¬(d.contains x ∧ isStructural x = false)) : (d.remove x).1 = d := by
  rw [remove, if_pos]
  rw [not_and_or, Bool.not_eq_true, Bool.not_eq_false] at h
  rcases h with h | h
  · rw [h]
    rfl
  · rw [h, Bool.or_true]

/-- The removal of an ordinary node above `s`. -/
def Edit.TakesAway (d : Document) (s : NodeId) : Edit → Prop
  | .remove x => isStructural x = false ∧ x ∈ d.ancestors s
  | _ => False

def Spares (s : NodeId) : Document → List Edit → Prop
  | _, [] => True
  | d, e :: es => ¬e.TakesAway d s ∧ Spares s (d.edit e) es

theorem Forest.contains_edit_iff (h : Forest d) (hs : isStructural s)
    (hn : s.index < d.nodes.length) (e : Edit) :
    (d.edit e).contains s ↔ d.contains s ∧ ¬e.TakesAway d s := by
  by_cases he : ∃ x, e = .remove x
  · obtain ⟨x, rfl⟩ := he
    change (d.remove x).1.contains s ↔ d.contains s ∧ ¬(isStructural x = false ∧ x ∈ d.ancestors s)
    by_cases hx : d.contains x ∧ isStructural x = false
    · have hne : s ≠ x := by
        rintro rfl
        rw [hs] at hx
        cases hx.2
      rw [h.contains_remove hx.1 hx.2]
      simp [hne, hx.2]
    · have hfar : ¬(isStructural x = false ∧ x ∈ d.ancestors s) :=
        fun ht => hx ⟨h.contains_of_mem ht.2, ht.1⟩
      rw [remove_eq_self hx]
      exact ⟨fun hc => ⟨hc, hfar⟩, And.left⟩
  · have hstay : ¬e.TakesAway d s := by
      cases e with
      | remove x => exact absurd ⟨x, rfl⟩ he
      | _ => exact not_false
    rw [contains_edit hn fun x hx => he ⟨x, hx⟩]
    exact ⟨fun hc => ⟨hc, hstay⟩, And.left⟩

theorem Reachable.contains_editAll_iff (h : Reachable d) (hs : isStructural s)
    (hn : s.index < d.nodes.length) (es : List Edit) :
    (d.editAll es).contains s ↔ d.contains s ∧ Spares s d es := by
  induction es generalizing d with
  | nil => exact ⟨fun hc => ⟨hc, trivial⟩, And.left⟩
  | cons e es ih =>
    change ((d.edit e).editAll es).contains s ↔ d.contains s ∧ ¬e.TakesAway d s ∧ _
    rw [ih (h.edit e) (Nat.lt_of_lt_of_le hn (length_nodes_edit e)),
      h.forest.contains_edit_iff hs hn, and_assoc]

theorem isStructural_iff : isStructural s ↔ s = root ∨ s = head ∨ s = body := by
  simp [isStructural, or_assoc]

theorem isEmpty_eq_false (h : d.contains n) : d.isEmpty = false := by
  obtain ⟨node, hnode⟩ := contains_iff.1 h
  have hmem : some node ∈ d.nodes := List.mem_of_getElem? (Option.join_eq_some_iff.1 hnode)
  have hsize : 0 < d.size := List.countP_pos_iff.2 ⟨some node, hmem, rfl⟩
  exact beq_eq_false_iff_ne.2 (Nat.ne_of_gt hsize)

/-- A run keeps a structural node exactly if it never removes an ordinary node above it. While all
three are kept the document is not empty, and every other live node that is not above the body can
be mounted. -/
theorem structural_kept_iff (es : List Edit) :
    (∀ s, isStructural s → ((start.editAll es).contains s ↔ Spares s start es)) ∧
      ((∀ s, isStructural s → Spares s start es) →
        (start.editAll es).isEmpty = false ∧
          ∀ n, (start.editAll es).contains n → n ≠ body → n ∉ (start.editAll es).ancestors body →
            ((start.editAll es).mount n).2 = .ok ()) := by
  have hiff : ∀ s, isStructural s → ((start.editAll es).contains s ↔ Spares s start es) := by
    intro s hs
    have hstart : s.index < start.nodes.length ∧ start.contains s := by
      rcases isStructural_iff.1 hs with rfl | rfl | rfl
      · decide
      · decide
      · decide
    rw [Reachable.start.contains_editAll_iff hs hstart.1]
    simp [hstart.2]
  refine ⟨hiff, fun hall => ?_⟩
  have hbody : (start.editAll es).contains body := (hiff body rfl).2 (hall body rfl)
  refine ⟨isEmpty_eq_false hbody, fun n hn hne ha => ?_⟩
  exact congrArg Prod.snd (append_eq_ok_iff.2 ⟨hn, hbody, hne.symm, ha, rfl⟩)

def borrowedHead : List Edit :=
  [.insert (Node.element "div".toList), .append ⟨3⟩ head, .append root head, .remove ⟨3⟩]

theorem structural_kept_borrowed :
    (∀ s, isStructural s → Spares s start borrowedHead) ∧
      (start.editAll borrowedHead).contains head ∧
      (start.editAll borrowedHead).isEmpty = false := by
  have hspares : ∀ s, isStructural s → Spares s start borrowedHead := by
    intro s hs
    refine ⟨not_false, not_false, not_false, fun h => ?_, trivial⟩
    rcases isStructural_iff.1 hs with rfl | rfl | rfl
    · exact absurd h.2 (by decide)
    · exact absurd h.2 (by decide)
    · exact absurd h.2 (by decide)
  have h := structural_kept_iff borrowedHead
  exact ⟨hspares, (h.1 head rfl).2 (hspares head rfl), (h.2 hspares).1⟩

/-- The root goes under an element that is then removed, and with it everything else. -/
theorem structural_removed :
    (start.editAll [.insert (Node.element "div".toList), .append ⟨3⟩ root, .remove ⟨3⟩]).contains
        root = false ∧
      (start.editAll [.insert (Node.element "div".toList), .append ⟨3⟩ root,
        .remove ⟨3⟩]).isEmpty = true := by
  constructor
  · decide +kernel
  · decide +kernel

end Document
end ScopedStyle
