import Mathlib.Tactic.ByContra
import ScopedStyle.Document

/-!
# Links

What each step of an operation does to the nodes of a document, to their parents
and to the lists of their children.
-/

namespace ScopedStyle

theorem NodeId.index_injective {m n : NodeId} (h : m.index = n.index) : m = n := by
  cases m
  cases n
  cases h
  rfl

namespace Document
variable {d : Document} {n p id : NodeId}

theorem contains_iff : d.contains n ↔ ∃ node, d.node? n = some node := Option.isSome_iff_exists

theorem index_lt_of_contains (h : d.contains n) : n.index < d.nodes.length := by
  by_contra hn
  rw [contains, node?, List.getElem?_eq_none (by omega)] at h
  cases h

theorem node?_insert (node : Node) :
    (d.insert node).1.node? n = if n = ⟨d.nodes.length⟩ then some node else d.node? n := by
  rw [node?, insert, List.getElem?_append]
  by_cases h : n = ⟨d.nodes.length⟩
  · subst h
    simp
  · have hi : n.index ≠ d.nodes.length := fun he => h (NodeId.index_injective he)
    rw [if_neg h, node?]
    split
    · rfl
    · rw [List.getElem?_eq_none (by simp; omega), List.getElem?_eq_none (by omega)]

theorem parent?_insert (node : Node) : (d.insert node).1.parent? n = d.parent? n := rfl

theorem childList?_insert (node : Node) :
    (d.insert node).1.childList? n = if n = ⟨d.nodes.length⟩ then some [] else d.childList? n :=
  NodeMap.find?_set _ _ _ _

theorem contains_insert (node : Node) :
    (d.insert node).1.contains n ↔ n = ⟨d.nodes.length⟩ ∨ d.contains n := by
  rw [contains, node?_insert, contains]
  split
  · rename_i h
    simp [h]
  · rename_i h
    simp [h]

theorem not_contains_next : ¬d.contains ⟨d.nodes.length⟩ := fun h =>
  absurd (index_lt_of_contains h) (Nat.lt_irrefl _)

theorem node?_detach : (d.detach id).node? n = d.node? n := by
  unfold detach
  split
  · rfl
  · rfl

theorem contains_detach : (d.detach id).contains n = d.contains n := by
  rw [contains, contains, node?_detach]

theorem parent?_detach : (d.detach id).parent? n = if n = id then none else d.parent? n := by
  unfold detach
  split
  · rename_i h
    split
    · rename_i he
      rw [he, h]
    · rfl
  · exact NodeMap.find?_erase _ _ _

theorem childList?_detach :
    (d.detach id).childList? n =
      if d.parent? id = some n then (d.childList? n).map (·.filter (· ≠ id))
      else d.childList? n := by
  unfold detach
  split
  · rename_i h
    rw [h, if_neg (Option.some_ne_none n).symm]
  · rename_i p h
    rw [h]
    refine (NodeMap.find?_modify _ _ _ _).trans ?_
    by_cases hn : n = p
    · rw [if_pos hn, if_pos (congrArg some hn.symm)]
      rfl
    · rw [if_neg hn, if_neg fun he => hn (Option.some.inj he).symm]
      rfl

theorem children_detach (h : ∀ p, id ∈ d.children p → d.parent? id = some p) :
    (d.detach id).children n = (d.children n).filter (· ≠ id) := by
  rw [children, childList?_detach, children]
  split
  · cases d.childList? n <;> rfl
  · rename_i hn
    -- a list that is left alone has no `id` to lose
    refine (List.filter_eq_self.2 fun c hc => decide_eq_true ?_).symm
    rintro rfl
    exact hn (h n hc)

theorem contains_link : (d.link p id).contains n = d.contains n := rfl

theorem parent?_link : (d.link p id).parent? n = if n = id then some p else d.parent? n :=
  NodeMap.find?_set _ _ _ _

theorem childList?_link :
    (d.link p id).childList? n =
      if n = p then (d.childList? n).map (· ++ [id]) else d.childList? n :=
  NodeMap.find?_modify p n (· ++ [id]) d.childLists

theorem children_link (hp : (d.childList? p).isSome) :
    (d.link p id).children n = if n = p then d.children n ++ [id] else d.children n := by
  rw [children, childList?_link, children]
  split
  · rename_i hn
    obtain ⟨kids, hk⟩ := Option.isSome_iff_exists.1 hp
    rw [hn, hk]
    rfl
  · rfl

theorem node?_discard : (d.discard id).node? n = if n = id then none else d.node? n := by
  rw [node?, discard, List.getElem?_set]
  by_cases h : n = id
  · subst h
    rw [if_pos rfl, if_pos rfl]
    split <;> rfl
  · have hi : id.index ≠ n.index := fun he => h (NodeId.index_injective he.symm)
    rw [if_neg hi, if_neg h, node?]

theorem parent?_discard : (d.discard id).parent? n = if n = id then none else d.parent? n :=
  NodeMap.find?_erase _ _ _

theorem childList?_discard :
    (d.discard id).childList? n = if n = id then none else d.childList? n :=
  NodeMap.find?_erase _ _ _

theorem children_discard : (d.discard id).children n = if n = id then [] else d.children n := by
  rw [children, childList?_discard, children]
  split
  · rfl
  · rfl

end Document
end ScopedStyle
