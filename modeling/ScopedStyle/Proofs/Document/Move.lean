import ScopedStyle.Proofs.Document.Subtree

/-!
# Moving a subtree

A move makes all its checks before it changes anything, so it is refused as a whole or
done as a whole. It changes one parent and at most two lists of children, and all that
lies under the node goes along.
-/

namespace ScopedStyle
namespace Document

variable {d e : Document} {n p id : NodeId}

theorem append_eq_error_iff {fault : Fault} :
    (d.append p id).2 = .error fault ↔
      fault = .missingNode ∧ ¬d.contains id ∨
        fault = .missingParent ∧ d.contains id ∧ ¬d.contains p ∨
        fault = .underOwnSubtree ∧ d.contains id ∧ d.contains p ∧
          (p = id ∨ id ∈ d.ancestors p) := by
  unfold append
  split
  · rename_i hid
    simp only [Bool.not_eq_true'] at hid
    rw [Except.error.injEq, eq_comm]
    simp [hid]
  · rename_i hid
    simp only [Bool.not_eq_true', Bool.not_eq_false] at hid
    split
    · rename_i hp
      simp only [Bool.not_eq_true'] at hp
      rw [Except.error.injEq, eq_comm]
      simp [hid, hp]
    · rename_i hp
      simp only [Bool.not_eq_true', Bool.not_eq_false] at hp
      split
      · rename_i hunder
        rw [Except.error.injEq, eq_comm]
        simp [hid, hp, hunder]
      · rename_i hunder
        simp [hid, hp, hunder]

theorem append_of_error {fault : Fault} (h : (d.append p id).2 = .error fault) :
    (d.append p id).1 = d := by
  rcases append_cases d p id with ⟨_, he⟩ | ⟨e, he⟩
  · rw [he]
  · rw [he] at h
    cases h

theorem Forest.append_fails_iff (h : Forest d) :
    (∃ fault, (d.append p id).2 = .error fault) ↔
      ¬d.contains id ∨ ¬d.contains p ∨ d.InSubtree id p := by
  simp only [append_eq_error_iff, h.inSubtree_iff]
  constructor
  · rintro ⟨fault, ⟨-, hid⟩ | ⟨-, -, hp⟩ | ⟨-, -, -, hunder⟩⟩
    · exact .inl hid
    · exact .inr (.inl hp)
    · exact .inr (.inr hunder)
  · intro hrefused
    by_cases hid : d.contains id
    · by_cases hp : d.contains p
      · have hunder := (hrefused.resolve_left (not_not.2 hid)).resolve_left (not_not.2 hp)
        exact ⟨.underOwnSubtree, .inr (.inr ⟨rfl, hid, hp, hunder⟩)⟩
      · exact ⟨.missingParent, .inr (.inl ⟨rfl, hid, hp⟩)⟩
    · exact ⟨.missingNode, .inl ⟨rfl, hid⟩⟩

theorem Forest.parent?_ne_of_inSubtree (h : Forest d) (hn : d.InSubtree id n) :
    d.parent? id ≠ some n := by
  intro hup
  rcases h.inSubtree_iff.1 hn with rfl | hm
  · exact h.acyclic n (.single hup)
  · exact h.acyclic id (.head hup (h.mem_ancestors_iff.1 hm))

theorem Forest.inSubtree_of_parents (he : Forest e) (hd : Forest d)
    (hparent : ∀ n, n ≠ id → e.parent? n = d.parent? n) (hn : e.InSubtree id n) :
    d.InSubtree id n := by
  induction hn with
  | refl => exact .refl
  | @tail m c hpath hc ih =>
    have hup : e.parent? c = some m := (he.linked c m).2 hc
    have hne : c ≠ id := by
      rintro rfl
      exact he.parent?_ne_of_inSubtree hpath hup
    exact ih.tail ((hd.linked c m).1 ((hparent c hne).symm.trans hup))

/-- `e` is `d` with a node moved to the end of the children of `p`. -/
structure Moved (e d : Document) (p id : NodeId) : Prop where
  parent : ∀ n, e.parent? n = if n = id then some p else d.parent? n
  children : ∀ q, e.children q =
    if q = p then (d.children q).filter (· ≠ id) ++ [id]
    else if d.parent? id = some q then (d.children q).filter (· ≠ id)
    else d.children q
  listed : ∀ n, (e.childList? n).isSome = (d.childList? n).isSome
  nodes : e.nodes = d.nodes
  sheets : e.sheets = d.sheets
  attached : e.attached = d.attached
  subtree : ∀ n, e.InSubtree id n ↔ d.InSubtree id n
  under : ∀ n, d.InSubtree id n → e.InSubtree p n ∧ e.children n = d.children n

theorem Forest.append_moved (h : Forest d) (ha : d.append p id = (e, .ok ())) :
    e.Moved d p id := by
  have he : Forest e := h.append_ok ha
  have hsame := sameNodes_append d p id
  rw [ha] at hsame
  have hp : ¬d.InSubtree id p := fun hp => by
    obtain ⟨fault, hfault⟩ := h.append_fails_iff.2 (.inr (.inr hp))
    cases (congrArg Prod.snd ha).symm.trans hfault
  have hparent : ∀ n, n ≠ id → e.parent? n = d.parent? n := fun n hn => by
    rw [parent?_append ha, if_neg hn]
  have hchildren : ∀ q, e.children q =
      if q = p then (d.children q).filter (· ≠ id) ++ [id]
      else if d.parent? id = some q then (d.children q).filter (· ≠ id)
      else d.children q := by
    intro q
    rw [h.children_append ha]
    split
    · rfl
    · rw [List.append_nil]
      split
      · rfl
      · rename_i hq
        -- a list in which the node does not stand has none to lose
        refine List.filter_eq_self.2 fun c hc => decide_eq_true ?_
        rintro rfl
        exact hq ((h.linked c q).2 hc)
  have hsubtree : ∀ n, e.InSubtree id n ↔ d.InSubtree id n := fun n =>
    ⟨he.inSubtree_of_parents h hparent, h.inSubtree_of_parents he fun n hn => (hparent n hn).symm⟩
  refine ⟨fun n => parent?_append ha, hchildren, fun n => ?_, hsame.nodes, hsame.sheets,
    hsame.attached, hsubtree, fun n hn => ⟨?_, ?_⟩⟩
  · rw [he.listed, h.listed, hsame.contains]
  · have hlink : e.Down p id := (he.linked id p).1 (by rw [parent?_append ha, if_pos rfl])
    exact .head hlink ((hsubtree n).2 hn)
  · have hnp : n ≠ p := by
      rintro rfl
      exact hp hn
    rw [hchildren, if_neg hnp, if_neg (h.parent?_ne_of_inSubtree hn)]

/-- A move is refused exactly if one of its nodes is dead or the new parent lies in the subtree of
the node, and then changes nothing. Any other move takes the subtree along to the end of the
children of its new parent. -/
theorem Reachable.append_atomic (h : Reachable d) (p id : NodeId) :
    ((∃ fault, (d.append p id).2 = .error fault) ↔
        ¬d.contains id ∨ ¬d.contains p ∨ d.InSubtree id p) ∧
      (∀ fault, (d.append p id).2 = .error fault → (d.append p id).1 = d) ∧
      ∀ e, d.append p id = (e, .ok ()) → e.Moved d p id :=
  ⟨h.forest.append_fails_iff, fun _ hfault => append_of_error hfault,
    fun _ ha => h.forest.append_moved ha⟩

def paragraphAndSpan : Document :=
  start.editAll [.insertChild body (Node.element "div".toList),
    .insertChild ⟨3⟩ (Node.element "p".toList), .insertChild ⟨4⟩ (Node.ofText "a".toList),
    .insertChild ⟨3⟩ (Node.element "span".toList)]

theorem append_atomic_paragraph :
    Reachable paragraphAndSpan ∧
      (∃ fault, (paragraphAndSpan.append ⟨5⟩ ⟨3⟩).2 = .error fault) ∧
      (paragraphAndSpan.append ⟨5⟩ ⟨3⟩).1 = paragraphAndSpan ∧
      ∃ e, paragraphAndSpan.append body ⟨4⟩ = (e, .ok ()) ∧ e.children body = [⟨3⟩, ⟨4⟩] ∧
        e.children ⟨3⟩ = [⟨6⟩] ∧ e.InSubtree body ⟨5⟩ := by
  have h : Reachable paragraphAndSpan := Reachable.start.editAll _
  have hkids : paragraphAndSpan.children ⟨3⟩ = [⟨4⟩, ⟨6⟩] ∧
      paragraphAndSpan.children ⟨4⟩ = [⟨5⟩] ∧ paragraphAndSpan.children body = [⟨3⟩] := by
    decide +kernel
  have hparent : paragraphAndSpan.parent? ⟨4⟩ = some ⟨3⟩ := by decide +kernel
  have htext : paragraphAndSpan.InSubtree ⟨4⟩ ⟨5⟩ :=
    .single (by rw [Down, hkids.2.1]; exact List.mem_singleton_self _)
  have hunder : paragraphAndSpan.InSubtree ⟨3⟩ ⟨5⟩ :=
    .head (by rw [Down, hkids.1]; exact List.mem_cons_self) htext
  obtain ⟨hrefused, hstays, -⟩ := h.append_atomic ⟨5⟩ ⟨3⟩
  obtain ⟨fault, hfault⟩ := hrefused.2 (.inr (.inr hunder))
  obtain ⟨e, he⟩ : ∃ e, paragraphAndSpan.append body ⟨4⟩ = (e, .ok ()) :=
    ⟨_, append_eq_ok_iff.2
      ⟨by decide +kernel, by decide +kernel, by decide, by decide +kernel, rfl⟩⟩
  have hmoved := (h.append_atomic body ⟨4⟩).2.2 e he
  refine ⟨h, ⟨fault, hfault⟩, hstays fault hfault, e, he, ?_, ?_, (hmoved.under _ htext).1⟩
  · rw [hmoved.children, if_pos rfl, hkids.2.2]
    rfl
  · rw [hmoved.children, if_neg (by decide), if_pos hparent, hkids.1]
    rfl

end Document
end ScopedStyle
