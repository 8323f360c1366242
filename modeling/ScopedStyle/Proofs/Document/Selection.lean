import Mathlib.Data.List.Induction
import ScopedStyle.Document.Matching
import ScopedStyle.Proofs.Document.Reachable
import ScopedStyle.Proofs.Text.Trim

/-!
# What a selector selects

A selector selects a node if one node can be assigned to each of its compounds,
the selected one to the last, so that every node meets its compound and
neighbours stand as the combinator between them says. The search from the right
finds such an assignment whenever there is one.
-/

namespace ScopedStyle
open Text

/-- A node has what a test asks for. Nothing has a pseudo-class or a pseudo-element. -/
def Node.Meets (n : Node) : Test → Prop
  | .hasClass name => name ∈ n.classes
  | .hasId name => n.attribute? Node.idKey = some name
  | .hasAttr raw =>
      ('=' ∉ raw ∧ ∃ value, n.attribute? (trim raw) = some value) ∨
        ∃ name value, raw = name ++ '=' :: value ∧ '=' ∉ name ∧
          n.attribute? (trim name) = some (stripQuotes (trim value))
  | .pseudoClass _ => False
  | .pseudoElement _ => False

structure Node.Fits (n : Node) (c : Compound) : Prop where
  element : n.text = none
  tag : ∀ name, c.tag? = some (.named name) → lower n.tag = lower name
  tests : ∀ t ∈ c.tests, n.Meets t

theorem Node.hasAttr_iff {n : Node} {raw : Text} : n.hasAttr raw ↔ n.Meets (.hasAttr raw) := by
  by_cases h : '=' ∈ raw
  · obtain ⟨name, value, rfl, hn⟩ := List.eq_append_cons_of_mem h
    rw [Node.hasAttr, cut?_append hn]
    simp only [beq_iff_eq]
    constructor
    · intro hv
      exact .inr ⟨name, value, rfl, hn, hv⟩
    · rintro (⟨he, -⟩ | ⟨name', value', he, hn', hv⟩)
      · exact absurd h he
      · have hcut := cut?_append hn' value'
        rw [← he, cut?_append hn value] at hcut
        cases hcut
        exact hv
  · rw [Node.hasAttr, cut?_eq_none h]
    simp only [Option.isSome_iff_exists]
    constructor
    · intro hv
      exact .inl ⟨h, hv⟩
    · rintro (⟨-, hv⟩ | ⟨name, value, rfl, -⟩)
      · exact hv
      · exact absurd (by simp) h

theorem Test.holds_iff {n : Node} {t : Test} : t.holds n ↔ n.Meets t := by
  cases t with
  | hasClass name => exact List.contains_iff_mem
  | hasId name => exact beq_iff_eq
  | hasAttr raw => exact Node.hasAttr_iff
  | pseudoClass name => exact ⟨fun h => absurd h Bool.false_ne_true, False.elim⟩
  | pseudoElement name => exact ⟨fun h => absurd h Bool.false_ne_true, False.elim⟩

theorem Node.isText_eq_false {n : Node} : n.isText = false ↔ n.text = none := by
  rw [Node.isText, Option.isSome_eq_false_iff, Option.isNone_iff_eq_none]

theorem Compound.holds_iff {n : Node} {c : Compound} : c.holds n ↔ n.Fits c := by
  cases c with
  | tagged tag tests =>
    simp only [Compound.holds, Bool.and_eq_true, Bool.not_eq_true', Node.isText_eq_false,
      List.all_eq_true, Test.holds_iff]
    constructor
    · rintro ⟨⟨he, ht⟩, hs⟩
      refine ⟨he, fun name hn => ?_, hs⟩
      cases hn
      exact beq_iff_eq.1 ht
    · intro h
      refine ⟨⟨h.element, ?_⟩, h.tests⟩
      cases tag with
      | named name => exact beq_iff_eq.2 (h.tag name rfl)
      | any => rfl
  | untagged first others =>
    simp only [Compound.holds, Bool.and_eq_true, Bool.not_eq_true', Node.isText_eq_false,
      List.all_eq_true, Test.holds_iff]
    constructor
    · rintro ⟨⟨he, hf⟩, hs⟩
      refine ⟨he, by simp [Compound.tag?], fun t ht => ?_⟩
      rcases List.mem_cons.1 ht with rfl | ht
      · exact hf
      · exact hs t ht
    · intro h
      exact ⟨⟨h.element, h.tests first List.mem_cons_self⟩,
        fun t ht => h.tests t (List.mem_cons_of_mem first ht)⟩

inductive SelectorPart
  | compound (c : Compound)
  | combinator (k : Combinator)

def linkParts (links : List (Combinator × Compound)) : List SelectorPart :=
  links.flatMap fun link => [.combinator link.1, .compound link.2]

def Selector.parts (s : Selector) : List SelectorPart := .compound s.head :: linkParts s.links

namespace Document
variable {d : Document} {n m p : NodeId}

theorem satisfies_iff {c : Compound} :
    d.satisfies c n ↔ ∃ node, d.node? n = some node ∧ node.Fits c := by
  rw [satisfies, Option.any_eq_true]
  simp only [Compound.holds_iff]

def Precedes (d : Document) (m n : NodeId) (between : List NodeId) : Prop :=
  ∃ p before after, d.parent? n = some p ∧ d.children p = before ++ m :: (between ++ n :: after)

def Related (d : Document) : Combinator → NodeId → NodeId → Prop
  | .child, m, n => d.parent? n = some m
  | .descendant, m, n => Relation.TransGen d.Up n m
  | .nextSibling, m, n =>
      d.isElement m ∧ ∃ between, d.Precedes m n between ∧ ∀ x ∈ between, d.isElement x = false
  | .subsequentSibling, m, n => d.isElement m ∧ ∃ between, d.Precedes m n between

theorem takeWhile_front {front : List NodeId} (h : n ∉ front) (after : List NodeId) :
    (front ++ n :: after).takeWhile (· != n) = front := by
  have hp : ∀ m ∈ front, (m != n) = true := fun m hm => bne_iff_ne.2 fun he => h (he ▸ hm)
  rw [List.takeWhile_append_of_pos hp]
  simp

theorem Forest.previousSiblings_front (h : Forest d) (hp : d.parent? n = some p) :
    ∃ front after, d.children p = front ++ n :: after ∧
      d.previousSiblings n = front.reverse.filter d.isElement := by
  obtain ⟨front, after, hc, hn⟩ := List.eq_append_cons_of_mem ((h.linked n p).1 hp)
  refine ⟨front, after, hc, ?_⟩
  rw [previousSiblings, hp]
  simp only
  rw [hc, takeWhile_front hn]

theorem Forest.previousSiblings_precedes (h : Forest d) {between : List NodeId}
    (hp : d.Precedes m n between) :
    ∃ before, d.previousSiblings n = (before ++ m :: between).reverse.filter d.isElement := by
  obtain ⟨p, before, after, hp, hc⟩ := hp
  have hsplit : d.children p = (before ++ m :: between) ++ n :: after := by
    rw [hc, List.append_assoc]
    rfl
  have hn : n ∉ before ++ m :: between := (h.listed_once hsplit).1
  refine ⟨before, ?_⟩
  rw [previousSiblings, hp]
  simp only
  rw [hsplit, takeWhile_front hn]

theorem parent?_of_mem_previousSiblings (h : m ∈ d.previousSiblings n) :
    ∃ p, d.parent? n = some p := by
  rw [previousSiblings] at h
  split at h
  · cases h
  · rename_i p hp
    exact ⟨p, hp⟩

theorem Forest.mem_previousSiblings (h : Forest d) :
    m ∈ d.previousSiblings n ↔ d.Related .subsequentSibling m n := by
  constructor
  · intro hm
    obtain ⟨p, hp⟩ := parent?_of_mem_previousSiblings hm
    obtain ⟨front, after, hc, hs⟩ := h.previousSiblings_front hp
    rw [hs, List.mem_filter, List.mem_reverse] at hm
    obtain ⟨before, between, rfl⟩ := List.append_of_mem hm.1
    refine ⟨hm.2, between, p, before, after, hp, ?_⟩
    rw [hc, List.append_assoc]
    rfl
  · rintro ⟨he, between, hp⟩
    obtain ⟨before, hs⟩ := h.previousSiblings_precedes hp
    rw [hs, List.mem_filter]
    exact ⟨by simp, he⟩

theorem Forest.mem_nearest (h : Forest d) :
    m ∈ (d.previousSiblings n).take 1 ↔ d.Related .nextSibling m n := by
  rw [List.take_one, Option.mem_toList]
  constructor
  · intro hm
    obtain ⟨p, hp⟩ := parent?_of_mem_previousSiblings (List.mem_of_mem_head? hm)
    obtain ⟨front, after, hc, hs⟩ := h.previousSiblings_front hp
    rw [hs, List.head?_filter, List.find?_eq_some_iff_append] at hm
    obtain ⟨he, behind, rest, hf, hb⟩ := hm
    have hfront : front = rest.reverse ++ m :: behind.reverse := by
      rw [← List.reverse_reverse front, hf]
      simp
    refine ⟨he, behind.reverse, ⟨p, rest.reverse, after, hp, ?_⟩, fun x hx => ?_⟩
    · rw [hc, hfront, List.append_assoc]
      rfl
    · simpa using hb x (List.mem_reverse.1 hx)
  · rintro ⟨he, between, hp, hb⟩
    obtain ⟨before, hs⟩ := h.previousSiblings_precedes hp
    rw [hs, List.head?_filter, List.find?_eq_some_iff_append]
    refine ⟨he, between.reverse, before.reverse, by simp, fun x hx => ?_⟩
    simpa using hb x (List.mem_reverse.1 hx)

theorem Forest.mem_candidates (h : Forest d) {k : Combinator} :
    m ∈ d.candidates n k ↔ d.Related k m n := by
  cases k with
  | child => exact Option.mem_toList
  | descendant => exact h.mem_ancestors_iff
  | nextSibling => exact h.mem_nearest
  | subsequentSibling => exact h.mem_previousSiblings

/-- One node for each compound of a selector, the last of them `n`. -/
structure Assigns (d : Document) (s : Selector) (n : NodeId) (node : Nat → NodeId) : Prop where
  last : node s.links.length = n
  fits : ∀ i c, s.compounds[i]? = some c → ∃ data, d.node? (node i) = some data ∧ data.Fits c
  related : ∀ i k c, s.links[i]? = some (k, c) → d.Related k (node i) (node (i + 1))

theorem leftward_snoc (first : Compound) (links : List (Combinator × Compound)) (k : Combinator)
    (c : Compound) :
    Selector.leftward ⟨first, links ++ [(k, c)]⟩ =
      (c, (k, (Selector.leftward ⟨first, links⟩).1) :: (Selector.leftward ⟨first, links⟩).2) := by
  simp [Selector.leftward, List.foldl_append]

theorem selects_snoc (first : Compound) (links : List (Combinator × Compound)) (k : Combinator)
    (c : Compound) (n : NodeId) :
    d.selects ⟨first, links ++ [(k, c)]⟩ n ↔
      d.satisfies c n ∧ ∃ m ∈ d.candidates n k, d.selects ⟨first, links⟩ m := by
  rw [selects, leftward_snoc, matchesLeft, Bool.and_eq_true, List.any_eq_true]
  rfl

theorem assigns_nil {first : Compound} :
    (∃ node, d.Assigns ⟨first, []⟩ n node) ↔ d.satisfies first n := by
  rw [satisfies_iff]
  constructor
  · rintro ⟨node, h⟩
    obtain rfl := h.last
    exact h.fits 0 first rfl
  · intro h
    refine ⟨fun _ => n, rfl, fun i c hc => ?_, fun i k c hl => ?_⟩
    · cases i with
      | zero =>
        cases hc
        exact h
      | succ i => simp [Selector.compounds] at hc
    · simp at hl

theorem getElem?_concat_iff {α : Type} {l : List α} {a b : α} {i : Nat} :
    (l ++ [a])[i]? = some b ↔ l[i]? = some b ∨ i = l.length ∧ a = b := by
  rw [List.getElem?_append]
  split
  · rename_i hi
    simp [Nat.ne_of_lt hi]
  · rename_i hi
    rw [List.getElem?_eq_none (Nat.le_of_not_lt hi), List.getElem?_singleton]
    by_cases he : i = l.length
    · simp [he]
    · have hne : i - l.length ≠ 0 := by omega
      simp [he, hne]

section Snoc
variable {first c : Compound} {links : List (Combinator × Compound)} {k : Combinator}
  {node : Nat → NodeId}

theorem compounds_snoc :
    Selector.compounds ⟨first, links ++ [(k, c)]⟩ = Selector.compounds ⟨first, links⟩ ++ [c] := by
  simp [Selector.compounds]

theorem length_compounds : (Selector.compounds ⟨first, links⟩).length = links.length + 1 := by
  simp [Selector.compounds]

theorem Assigns.at_end (h : d.Assigns ⟨first, links ++ [(k, c)]⟩ n node) :
    node (links.length + 1) = n := by
  have hlast := h.last
  rwa [List.length_append, List.length_singleton] at hlast

theorem Assigns.init (h : d.Assigns ⟨first, links ++ [(k, c)]⟩ n node) :
    d.Assigns ⟨first, links⟩ (node links.length) node := by
  refine ⟨rfl, fun i e he => h.fits i e ?_, fun i j e hl => h.related i j e ?_⟩
  · rw [compounds_snoc, getElem?_concat_iff]
    exact .inl he
  · rw [getElem?_concat_iff]
    exact .inl hl

theorem Assigns.satisfies_last (h : d.Assigns ⟨first, links ++ [(k, c)]⟩ n node) :
    d.satisfies c n := by
  have hc := h.fits (links.length + 1) c (by
    rw [compounds_snoc, getElem?_concat_iff]
    exact .inr ⟨length_compounds.symm, rfl⟩)
  rw [h.at_end] at hc
  exact satisfies_iff.2 hc

theorem Assigns.related_last (h : d.Assigns ⟨first, links ++ [(k, c)]⟩ n node) :
    d.Related k (node links.length) n := by
  have hr := h.related links.length k c (by
    rw [getElem?_concat_iff]
    exact .inr ⟨rfl, rfl⟩)
  rwa [h.at_end] at hr

theorem Assigns.snoc (h : d.Assigns ⟨first, links⟩ m node) (hc : d.satisfies c n)
    (hr : d.Related k m n) :
    d.Assigns ⟨first, links ++ [(k, c)]⟩ n (Function.update node (links.length + 1) n) := by
  have hold : ∀ i, i ≤ links.length → Function.update node (links.length + 1) n i = node i :=
    fun i hi => Function.update_of_ne (by omega) n node
  have hnew : Function.update node (links.length + 1) n (links.length + 1) = n :=
    Function.update_self _ n node
  refine ⟨?_, fun i e he => ?_, fun i j e hl => ?_⟩
  · rw [List.length_append, List.length_singleton, hnew]
  · rw [compounds_snoc, getElem?_concat_iff, length_compounds] at he
    rcases he with he | ⟨rfl, rfl⟩
    · have hi := (List.getElem?_eq_some_iff.1 he).1
      rw [length_compounds] at hi
      rw [hold i (by omega)]
      exact h.fits i e he
    · rw [hnew]
      exact satisfies_iff.1 hc
  · rw [getElem?_concat_iff] at hl
    rcases hl with hl | ⟨rfl, he⟩
    · have hi := (List.getElem?_eq_some_iff.1 hl).1
      rw [hold i (by omega), hold (i + 1) (by omega)]
      exact h.related i j e hl
    · cases he
      rw [hold _ (Nat.le_refl _), hnew, h.last]
      exact hr

theorem assigns_snoc :
    (∃ node, d.Assigns ⟨first, links ++ [(k, c)]⟩ n node) ↔
      d.satisfies c n ∧ ∃ m, d.Related k m n ∧ ∃ node, d.Assigns ⟨first, links⟩ m node := by
  constructor
  · rintro ⟨node, h⟩
    exact ⟨h.satisfies_last, node links.length, h.related_last, node, h.init⟩
  · rintro ⟨hc, m, hr, node, h⟩
    exact ⟨_, h.snoc hc hr⟩

end Snoc

theorem Forest.selects_iff_assigns (h : Forest d) (s : Selector) (n : NodeId) :
    d.selects s n ↔ ∃ node, d.Assigns s n node := by
  obtain ⟨first, links⟩ := s
  -- the search goes from the right, so the rest of the row is a shorter selector for a candidate
  induction links using List.reverseRecOn generalizing n with
  | nil => rw [assigns_nil, selects, Selector.leftward, List.foldl_nil, matchesLeft, Bool.and_true]
  | append_singleton links link ih =>
    obtain ⟨k, c⟩ := link
    rw [selects_snoc, assigns_snoc]
    refine and_congr_right fun _ => exists_congr fun m => ?_
    rw [h.mem_candidates, ih m]

/-- The search over a row of parts, the rightmost first, behind the one that `id` satisfies. It
has no result if it meets a place where compounds and combinators do not alternate. -/
def matchesParts (d : Document) : List SelectorPart → NodeId → Option Bool
  | [], _ => some true
  | .combinator k :: .compound c :: rest, id =>
      (d.candidates id k).anyM fun m =>
        if d.satisfies c m then d.matchesParts rest m else some false
  | _, _ => none

def selectsParts (d : Document) (parts : List SelectorPart) (id : NodeId) : Option Bool :=
  match parts.reverse with
  | .compound c :: rest => if d.satisfies c id then d.matchesParts rest id else some false
  | _ => none

theorem matchesParts_linkParts (walk : List (Combinator × Compound)) (n : NodeId) :
    d.matchesParts (linkParts walk) n = some (d.matchesLeft walk n) := by
  induction walk generalizing n with
  | nil => rfl
  | cons link walk ih =>
    obtain ⟨k, c⟩ := link
    have hstep : (fun m =>
          if d.satisfies c m then d.matchesParts (linkParts walk) m else some false) =
        fun m => pure (d.satisfies c m && d.matchesLeft walk m) := by
      funext m
      rw [ih m]
      cases d.satisfies c m with
      | true => rfl
      | false => rfl
    change d.matchesParts (.combinator k :: .compound c :: linkParts walk) n = _
    rw [matchesParts, hstep, List.anyM_pure, matchesLeft]
    rfl

theorem reverse_parts (s : Selector) :
    s.parts.reverse = .compound s.leftward.1 :: linkParts s.leftward.2 := by
  obtain ⟨first, links⟩ := s
  induction links using List.reverseRecOn with
  | nil => rfl
  | append_singleton links link ih =>
    obtain ⟨k, c⟩ := link
    rw [leftward_snoc]
    have hparts : Selector.parts ⟨first, links ++ [(k, c)]⟩ =
        Selector.parts ⟨first, links⟩ ++ [.combinator k, .compound c] := by
      simp [Selector.parts, linkParts]
    rw [hparts, List.reverse_append, ih]
    rfl

theorem selectsParts_parts (s : Selector) (n : NodeId) :
    d.selectsParts s.parts n = some (d.selects s n) := by
  rw [selectsParts, reverse_parts, selects]
  simp only
  rw [matchesParts_linkParts]
  cases d.satisfies s.leftward.1 n with
  | true => rfl
  | false => rfl

/-- Matching follows the meaning of a selector. The search over the written row has a result too, so
it never meets a row that does not alternate. -/
theorem Reachable.selects_iff (h : Reachable d) (s : Selector) (n : NodeId) :
    d.selectsParts s.parts n = some (d.selects s n) ∧
      (d.selects s n ↔ ∃ node, d.Assigns s n node) :=
  ⟨selectsParts_parts s n, h.forest.selects_iff_assigns s n⟩

def twoParagraphs : Document :=
  ((((start.edit (.insertChild body ((Node.element "div".toList).addClass "shell".toList))).edit
    (.insertChild ⟨3⟩ (Node.element "p".toList))).edit
    (.insertChild ⟨4⟩ (Node.element "section".toList))).edit
    (.insertChild ⟨5⟩ (Node.element "p".toList))).edit
    (.insertChild ⟨6⟩ (Node.element "span".toList))

theorem selects_outer_paragraph :
    Reachable twoParagraphs ∧
      (∃ node, twoParagraphs.Assigns
        ⟨.untagged (.hasClass "shell".toList) [],
          [(.child, .tagged (.named "p".toList) []),
            (.descendant, .tagged (.named "span".toList) [])]⟩
        ⟨7⟩ node) ∧
      ¬∃ node, twoParagraphs.Assigns
        ⟨.untagged (.hasClass "shell".toList) [], [(.child, .tagged (.named "span".toList) [])]⟩
        ⟨7⟩ node := by
  have h : Reachable twoParagraphs := .edit (.edit (.edit (.edit (.edit .start _) _) _) _) _
  refine ⟨h, (h.selects_iff _ _).2.1 (by decide +kernel), fun hnode => ?_⟩
  exact absurd ((h.selects_iff _ _).2.2 hnode) (by decide +kernel)

end Document
end ScopedStyle
