import ScopedStyle.Document.Cascade
import ScopedStyle.Proofs.Document.Selection
import ScopedStyle.Proofs.Document.SheetStore

/-!
# What an edit leaves as it is styled

What applies to a node depends on the attached rules and on the nodes that
combinators lead to from it. Those who can be led to are closed in themselves: where
two documents agree on such a set of nodes, every selector selects the same of them.
New nodes are never in the set of an old one, and a moved node is not in the set of
any node that lies neither within it nor within a sibling behind it.
-/

namespace ScopedStyle
namespace Document

variable {d e : Document} {m n p x y : NodeId} {seen : NodeId → Prop}

/-- Nodes that are the same in two documents and from which no combinator leads to others. -/
structure Agrees (e d : Document) (seen : NodeId → Prop) : Prop where
  node : ∀ n, seen n → e.node? n = d.node? n
  candidates : ∀ n k, seen n → e.candidates n k = d.candidates n k
  closed : ∀ n k, seen n → ∀ m ∈ d.candidates n k, seen m

theorem Agrees.satisfies (h : e.Agrees d seen) (hn : seen n) (c : Compound) :
    e.satisfies c n = d.satisfies c n := by
  rw [Document.satisfies, h.node n hn, Document.satisfies]

theorem Agrees.matchesLeft (h : e.Agrees d seen) (hn : seen n)
    (walk : List (Combinator × Compound)) : e.matchesLeft walk n = d.matchesLeft walk n := by
  induction walk generalizing n with
  | nil => rfl
  | cons link walk ih =>
    obtain ⟨k, c⟩ := link
    rw [Document.matchesLeft, Document.matchesLeft, h.candidates n k hn, Bool.eq_iff_iff,
      List.any_eq_true, List.any_eq_true]
    refine exists_congr fun m => and_congr_right fun hm => ?_
    have hseen := h.closed n k hn m hm
    rw [h.satisfies hseen, ih hseen]

theorem Agrees.selects (h : e.Agrees d seen) (hn : seen n) (s : Selector) :
    e.selects s n = d.selects s n := by
  rw [Document.selects, h.satisfies hn, h.matchesLeft hn, Document.selects]

theorem Forest.agrees (he : Forest e) (hd : Forest d)
    (hnode : ∀ n, seen n → e.node? n = d.node? n)
    (hparent : ∀ n, seen n → e.parent? n = d.parent? n)
    (hsiblings : ∀ n, seen n → e.previousSiblings n = d.previousSiblings n)
    (hup : ∀ n p, seen n → d.parent? n = some p → seen p)
    (hleft : ∀ n m, seen n → m ∈ d.previousSiblings n → seen m) : e.Agrees d seen := by
  obtain ⟨rank, hr⟩ := hd.ranked
  have hancestors : ∀ n, seen n → e.ancestors n = d.ancestors n ∧ ∀ m ∈ d.ancestors n, seen m := by
    intro n hn
    -- parents have smaller ranks, and `seen` is closed under parents
    induction hk : rank n using Nat.strongRecOn generalizing n with
    | ind k ih =>
      cases hp : d.parent? n with
      | none =>
        rw [ancestors_none hp, ancestors_none ((hparent n hn).trans hp)]
        exact ⟨rfl, fun m hm => by cases hm⟩
      | some p =>
        have hseen := hup n p hn hp
        obtain ⟨hway, hall⟩ := ih (rank p) (hk ▸ hr n p hp) p hseen rfl
        rw [hd.ancestors_some hp, he.ancestors_some ((hparent n hn).trans hp), hway]
        exact ⟨rfl, List.forall_mem_cons.2 ⟨hseen, hall⟩⟩
  refine ⟨hnode, fun n k hn => ?_, fun n k hn m hm => ?_⟩
  · cases k with
    | child => exact congrArg Option.toList (hparent n hn)
    | descendant => exact (hancestors n hn).1
    | nextSibling => exact congrArg (List.take 1) (hsiblings n hn)
    | subsequentSibling => exact hsiblings n hn
  · cases k with
    | child => exact hup n m hn (Option.mem_toList.1 hm)
    | descendant => exact (hancestors n hn).2 m hm
    | nextSibling => exact hleft n m hn (List.mem_of_mem_take hm)
    | subsequentSibling => exact hleft n m hn hm

theorem node?_insert_of_contains (hn : d.contains n) (node : Node) :
    (d.insert node).1.node? n = d.node? n := by
  rw [node?_insert, if_neg]
  rintro rfl
  exact not_contains_next hn

theorem Forest.mem_previousSiblings_contains (h : Forest d) (hm : m ∈ d.previousSiblings n) :
    d.contains m := by
  obtain ⟨-, between, p, before, after, -, hc⟩ := h.mem_previousSiblings.1 hm
  exact (h.live m p ((h.linked m p).2 (hc ▸ by simp))).1

theorem Forest.previousSiblings_insert (h : Forest d) (node : Node) :
    (d.insert node).1.previousSiblings n = d.previousSiblings n := by
  rw [previousSiblings, parent?_insert, previousSiblings]
  split
  · rfl
  · rename_i p hp
    rw [h.children_insert]
    refine List.filter_congr fun m hm => ?_
    have hmem : m ∈ d.children p := (List.takeWhile_prefix _).subset (List.mem_reverse.1 hm)
    have hlive : d.contains m := (h.live m p ((h.linked m p).2 hmem)).1
    rw [isElement, node?_insert_of_contains hlive, isElement]

theorem Forest.agrees_insert (h : Forest d) (node : Node) :
    (d.insert node).1.Agrees d fun n => d.contains n :=
  (h.insert node).agrees h (fun _ hn => node?_insert_of_contains hn node) (fun _ _ => rfl)
    (fun _ _ => h.previousSiblings_insert node) (fun n p _ hp => (h.live n p hp).2)
    (fun _ _ _ hm => h.mem_previousSiblings_contains hm)

/-- `m` lies neither within `x` nor within a sibling behind `x`. -/
def Apart (d : Document) (x m : NodeId) : Prop :=
  ¬d.isWithin x m ∧ ∀ y between, d.Precedes x y between → ¬d.isWithin y m

theorem isWithin_self : d.isWithin x x := isWithin_iff.2 (.inl rfl)

theorem Forest.isWithin_of_parent (h : Forest d) (hp : d.parent? n = some p)
    (hx : d.isWithin x p) : d.isWithin x n := by
  by_cases hn : n = x
  · exact hn ▸ isWithin_self
  · exact (h.isWithin_parent hp hn).2 hx

theorem Forest.apart_parent (h : Forest d) (hn : d.Apart x n) (hp : d.parent? n = some p) :
    d.Apart x p :=
  ⟨fun hw => hn.1 (h.isWithin_of_parent hp hw),
    fun y between hy hw => hn.2 y between hy (h.isWithin_of_parent hp hw)⟩

theorem Apart.ne (hn : d.Apart x n) : n ≠ x := by
  rintro rfl
  exact hn.1 isWithin_self

theorem Apart.not_precedes (hn : d.Apart x n) {between : List NodeId} :
    ¬d.Precedes x n between :=
  fun hp => hn.2 n between hp isWithin_self

theorem Forest.precedes_trans (h : Forest d) {between more : List NodeId}
    (hxm : d.Precedes x m between) (hmn : d.Precedes m n more) :
    d.Precedes x n (between ++ m :: more) := by
  obtain ⟨p, before, after, hp, hc⟩ := hxm
  obtain ⟨q, front, behind, hq, hc'⟩ := hmn
  have hm : d.parent? m = some q := (h.linked m q).2 (hc' ▸ by simp)
  obtain rfl : p = q := Option.some.inj (hp.symm.trans hm)
  have hfront : d.children p = (before ++ x :: between) ++ m :: after := by
    rw [hc]
    simp
  obtain ⟨hleft, hright⟩ := h.listed_once hfront
  obtain ⟨rfl, -⟩ := (List.append_cons_inj_of_notMem hleft hright).1 (hfront.symm.trans hc')
  refine ⟨p, before, behind, hq, ?_⟩
  rw [hc']
  simp

theorem Forest.apart_previous (h : Forest d) (hn : d.Apart x n) (hm : m ∈ d.previousSiblings n) :
    d.Apart x m := by
  obtain ⟨-, between, hmn⟩ := h.mem_previousSiblings.1 hm
  obtain ⟨p, before, after, hp, hc⟩ := id hmn
  have hpm : d.parent? m = some p := (h.linked m p).2 (hc ▸ by simp)
  -- a node that `m` lies within is `m` itself or lies above `n` as well
  have hwithin : ∀ y, d.isWithin y m → y = m ∨ d.isWithin y n := by
    intro y hy
    by_cases hym : m = y
    · exact .inl hym.symm
    · exact .inr (h.isWithin_of_parent hp ((h.isWithin_parent hpm hym).1 hy))
  refine ⟨fun hw => ?_, fun y gap hy hw => ?_⟩
  · rcases hwithin x hw with rfl | hw
    · exact hn.not_precedes hmn
    · exact hn.1 hw
  · rcases hwithin y hw with rfl | hw
    · exact hn.not_precedes (h.precedes_trans hy hmn)
    · exact hn.2 y gap hy hw

theorem Forest.previousSiblings_append (h : Forest d) (ha : d.append p x = (e, .ok ()))
    (hn : d.Apart x n) : e.previousSiblings n = d.previousSiblings n := by
  have hne : n ≠ x := hn.ne
  have hparent : e.parent? n = d.parent? n := (parent?_append ha).trans (if_neg hne)
  cases hq : d.parent? n with
  | none => rw [previousSiblings, hparent, previousSiblings, hq]
  | some q =>
    obtain ⟨front, after, hc, hs⟩ := h.previousSiblings_front hq
    -- the moved node is not to the left of `n`, or it would precede it
    have hx : x ∉ front := by
      intro hx
      obtain ⟨before, between, rfl⟩ := List.append_of_mem hx
      have hprecedes : d.Precedes x n between := by
        refine ⟨q, before, after, hq, ?_⟩
        rw [hc, List.append_assoc]
        rfl
      exact hn.not_precedes hprecedes
    have hnfront : n ∉ front := (h.listed_once hc).1
    have hkids : ∃ rest, e.children q = front ++ n :: rest := by
      have hkept : front.filter (· ≠ x) = front :=
        List.filter_eq_self.2 fun c hcf => decide_eq_true fun hcx => hx (hcx ▸ hcf)
      rw [h.children_append ha, hc, List.filter_append, hkept, List.filter_cons,
        if_pos (decide_eq_true hne), List.append_assoc]
      exact ⟨_, rfl⟩
    obtain ⟨rest, hrest⟩ := hkids
    have hsame := sameNodes_append d p x
    rw [ha] at hsame
    have helement : e.isElement = d.isElement := by
      funext m
      rw [isElement, hsame.node?, isElement]
    rw [hs, previousSiblings, hparent, hq]
    dsimp only
    rw [hrest, takeWhile_front hnfront, helement]

theorem Forest.agrees_append (h : Forest d) (ha : d.append p x = (e, .ok ())) :
    e.Agrees d (d.Apart x) := by
  have hsame := sameNodes_append d p x
  rw [ha] at hsame
  exact (h.append_ok ha).agrees h (fun _ _ => hsame.node?)
    (fun _ hn => (parent?_append ha).trans (if_neg hn.ne))
    (fun _ hn => h.previousSiblings_append ha hn) (fun _ _ hn hp => h.apart_parent hn hp)
    (fun _ _ hn hm => h.apart_previous hn hm)

section
variable (h : Forest d) (s : Selector)
include h

theorem Forest.selects_insert (hm : d.contains m) (node : Node) :
    (d.insert node).1.selects s m = d.selects s m :=
  (h.agrees_insert node).selects hm s

theorem Forest.selects_append (hm : d.Apart x m) (p : NodeId) :
    (d.append p x).1.selects s m = d.selects s m := by
  rcases append_cases d p x with ⟨fault, ha⟩ | ⟨e, ha⟩
  · rw [ha]
  · rw [ha]
    exact (h.agrees_append ha).selects hm s

theorem Forest.apart_inserted (hm : d.contains m) (node : Node) :
    (d.insert node).1.Apart ⟨d.nodes.length⟩ m := by
  have hf := h.insert node
  have hfresh : ∀ n, (d.insert node).1.parent? n ≠ some ⟨d.nodes.length⟩ :=
    fun n hn => not_contains_next (h.live n _ hn).2
  refine ⟨fun hw => ?_, fun y between hy => ?_⟩
  · rcases isWithin_iff.1 hw with rfl | ha
    · exact not_contains_next hm
    · obtain ⟨n, -, hup⟩ := Relation.TransGen.tail'_iff.1 (hf.mem_ancestors_iff.1 ha)
      exact hfresh n hup
  · obtain ⟨q, before, after, -, hc⟩ := hy
    have hq := (hf.linked ⟨d.nodes.length⟩ q).2 (hc ▸ by simp)
    exact absurd (h.live _ q hq).1 not_contains_next

theorem Forest.selects_insertChild (hm : d.contains m) (p : NodeId) (node : Node) :
    (d.insertChild p node).1.selects s m = d.selects s m := by
  rw [insertChild_fst, (h.insert node).selects_append s (h.apart_inserted hm node) p,
    h.selects_insert s hm node]

theorem Forest.selects_congr (hn : e.nodes = d.nodes) (hl : e.childLists = d.childLists)
    (hp : e.parents = d.parents) : e.selects s m = d.selects s m := by
  have he := h.congr hn hl hp
  obtain ⟨nodes, lists, parents, sheets, attached⟩ := e
  subst hn hl hp
  have hagrees : Agrees _ d fun _ => True :=
    he.agrees h (fun _ _ => rfl) (fun _ _ => rfl) (fun _ _ => rfl) (fun _ _ _ _ => trivial)
      (fun _ _ _ _ => trivial)
  exact hagrees.selects trivial s

theorem Forest.selects_attachSheet (hm : d.contains m) :
    d.attachSheet.1.selects s m = d.selects s m := by
  have hsheet : Forest { d with sheets := d.sheets ++ [RuleList.empty] } := h.congr rfl rfl rfl
  have hcarrier : d.withCarrier.selects s m = d.selects s m :=
    (hsheet.selects_insertChild s hm _ _).trans (h.selects_congr s rfl rfl rfl)
  rcases attachSheet_eq (d := d) with he | he
  · rw [he, hcarrier]
  · have hforest : Forest d.withCarrier := hsheet.insertChild head _
    rw [he, ← hcarrier]
    exact hforest.selects_congr s rfl rfl rfl

end

theorem attachedRules_congr (ha : e.attached = d.attached) (hs : e.sheets = d.sheets) :
    e.attachedRules = d.attachedRules := by
  have hsheet : e.sheet = d.sheet := by
    funext id
    rw [sheet, hs, sheet]
  rw [attachedRules, attachedSheets, ha, hsheet, attachedRules, attachedSheets]

theorem attached_withCarrier (d : Document) : d.withCarrier.attached = d.attached :=
  (sameNodes_insertChild head _).attached

theorem attachedRules_attachSheet (d : Document) :
    d.attachSheet.1.attachedRules = d.attachedRules := by
  have hsheet : d.attachSheet.1.sheet = d.sheet := by
    funext id
    exact sheet_edit (e := .attachSheet) fun _ _ he => by cases he
  have hempty : d.sheet ⟨d.sheets.length⟩ = RuleList.empty := by
    rw [sheet, List.getElem?_eq_none (Nat.le_refl _)]
    rfl
  rw [attachedRules, attachedSheets, hsheet, attachedRules, attachedSheets]
  rcases attachSheet_eq (d := d) with he | he
  · rw [he, attached_withCarrier]
  · rw [he, attached_withCarrier, List.map_append, List.flatMap_append, List.map_singleton, hempty]
    exact List.append_nil _

theorem candidatesFrom_congr (hs : ∀ s, e.selects s m = d.selects s m) (order : Nat)
    (rules : List Rule) : e.candidatesFrom m order rules = d.candidatesFrom m order rules := by
  have hrule : ∀ order r, e.ruleCandidates m order r = d.ruleCandidates m order r := by
    intro order r
    have hselected : (e.selects · m) = (d.selects · m) := funext hs
    rw [ruleCandidates, specificities, hselected, ruleCandidates, specificities]
  induction rules generalizing order with
  | nil => rfl
  | cons r rules ih => simp only [candidatesFrom, hrule, ih]

theorem declared_congr (hrules : e.attachedRules = d.attachedRules)
    (hs : ∀ s, e.selects s m = d.selects s m) : e.declared m = d.declared m := by
  rw [declared, candidatesFrom_congr hs, hrules, declared]

/-- No new node and no new sheet changes what applies to a node that is there, and neither does a
move from which the node lies apart. -/
theorem Reachable.declared_frame (h : Reachable d) (hm : d.contains m) :
    (∀ node, (d.insert node).1.declared m = d.declared m) ∧
      (∀ text, (d.edit (.createText text)).declared m = d.declared m) ∧
      (∀ p node, (d.insertChild p node).1.declared m = d.declared m) ∧
      d.attachSheet.1.declared m = d.declared m ∧
      ∀ p x, d.Apart x m → (d.append p x).1.declared m = d.declared m := by
  have hf := h.forest
  have hinsert : ∀ node, (d.insert node).1.declared m = d.declared m := fun node =>
    declared_congr (attachedRules_congr rfl rfl) fun s => hf.selects_insert s hm node
  refine ⟨hinsert, fun text => hinsert (Node.ofText text), fun p node => ?_, ?_, fun p x hx => ?_⟩
  · have hsame := sameNodes_insertChild (d := d) p node
    exact declared_congr (attachedRules_congr hsame.attached hsame.sheets) fun s =>
      hf.selects_insertChild s hm p node
  · exact declared_congr (attachedRules_attachSheet d) fun s => hf.selects_attachSheet s hm
  · have hsame := sameNodes_append d p x
    exact declared_congr (attachedRules_congr hsame.attached hsame.sheets) fun s =>
      hf.selects_append s hx p

def threeSiblings : Document :=
  start.editAll [.insertChild body ((Node.element "div".toList).addClass "a".toList),
    .insertChild body (Node.element "p".toList), .insertChild body (Node.element "span".toList),
    .attachSheet, .insertRule ⟨0⟩ ".a + p \x7b color: red \x7d".toList 0]

theorem declared_frame_siblings :
    Reachable threeSiblings ∧ threeSiblings.contains ⟨4⟩ ∧ threeSiblings.Apart ⟨5⟩ ⟨4⟩ ∧
      ∃ e, threeSiblings.append ⟨3⟩ ⟨5⟩ = (e, .ok ()) ∧
        e.declared ⟨4⟩ = .ok [("color".toList, "red".toList)] := by
  have h : Reachable threeSiblings := Reachable.start.editAll _
  have hlive : threeSiblings.contains ⟨4⟩ := by decide +kernel
  have hvalue : threeSiblings.declared ⟨4⟩ = .ok [("color".toList, "red".toList)] := by
    decide +kernel
  have hapart : threeSiblings.Apart ⟨5⟩ ⟨4⟩ := by
    refine ⟨by decide +kernel, fun y between hy _ => ?_⟩
    obtain ⟨p, before, after, -, hc⟩ := hy
    have hp : threeSiblings.parent? ⟨5⟩ = some p := (h.forest.linked _ _).2 (hc ▸ by simp)
    have hbody : threeSiblings.parent? ⟨5⟩ = some body := by decide +kernel
    obtain rfl : body = p := Option.some.inj (hbody.symm.trans hp)
    have hkids : threeSiblings.children body = [⟨3⟩, ⟨4⟩] ++ ⟨5⟩ :: [] := by decide +kernel
    have hend := (List.append_cons_inj_of_notMem (by decide) (by decide)).1 (hkids.symm.trans hc)
    exact List.append_ne_nil_of_right_ne_nil between (List.cons_ne_nil y after) hend.2.2.symm
  obtain ⟨e, he⟩ : ∃ e, threeSiblings.append ⟨3⟩ ⟨5⟩ = (e, .ok ()) :=
    ⟨_, append_eq_ok_iff.2
      ⟨by decide +kernel, by decide +kernel, by decide, by decide +kernel, rfl⟩⟩
  have hframe := (h.declared_frame hlive).2.2.2.2 ⟨3⟩ ⟨5⟩ hapart
  rw [he] at hframe
  exact ⟨h, hlive, hapart, e, he, hframe.trans hvalue⟩

end Document
end ScopedStyle
