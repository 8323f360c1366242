import ScopedStyle.Proofs.Document.Frame

/-!
# The order of attachment

A live head takes every new sheet. Sheets are numbered as they are made and attached
as soon as they are made, so those that are attached stand in the order of their
numbers, and edits in between can only take some of them away.
-/

namespace ScopedStyle
namespace Document

variable {d : Document} {p : NodeId}

theorem Forest.insertChild_ok (h : Forest d) (hp : d.contains p) (node : Node) :
    (d.insertChild p node).2 = .ok ⟨d.nodes.length⟩ := by
  have hway : (d.insert node).1.ancestors p = d.ancestors p :=
    (h.agrees_insert node).candidates p .descendant hp
  have happend : (d.insert node).1.append p ⟨d.nodes.length⟩ =
      (((d.insert node).1.detach ⟨d.nodes.length⟩).link p ⟨d.nodes.length⟩, .ok ()) := by
    refine append_eq_ok_iff.2
      ⟨(contains_insert node).2 (.inl rfl), (contains_insert node).2 (.inr hp), ?_, ?_, rfl⟩
    · rintro rfl
      exact not_contains_next hp
    · rw [hway]
      exact fun hm => not_contains_next (h.contains_of_mem hm)
  unfold Document.insertChild
  split
  rename_i d' id hd
  obtain rfl : (d.insert node).1 = d' := congrArg Prod.fst hd
  obtain rfl : ⟨d.nodes.length⟩ = id := congrArg Prod.snd hd
  rw [happend]

theorem Forest.attachSheet_ok (h : Forest d) (hhead : d.contains head) :
    d.attachSheet.2 = .ok ⟨d.sheets.length⟩ ∧
      d.attachSheet.1.attached = d.attached ++ [⟨d.sheets.length⟩] := by
  have hsheet : Forest { d with sheets := d.sheets ++ [RuleList.empty] } := h.congr rfl rfl rfl
  have hcarrier := attached_withCarrier d
  unfold withCarrier at hcarrier
  unfold Document.attachSheet
  dsimp only
  split
  · rename_i d' fault he
    have hfault := (hsheet.insertChild_ok hhead _).symm.trans (congrArg Prod.snd he)
    cases hfault
  · rename_i d' id he
    rw [he] at hcarrier
    exact ⟨rfl, congrArg (· ++ [_]) hcarrier⟩

inductive Attaches (d : Document) : Edit → List SheetId → Prop
  | same {e : Edit} : Attaches d e d.attached
  | fresh : Attaches d .attachSheet (d.attached ++ [⟨d.sheets.length⟩])
  | fewer (n : NodeId) {attached : List SheetId} (h : attached.Sublist d.attached) :
      Attaches d (.remove n) attached

theorem attached_remove (d : Document) (n : NodeId) :
    (d.remove n).1.attached.Sublist d.attached := by
  unfold remove
  split
  · exact .refl _
  · obtain ⟨keep, ha, -⟩ := (clear_without n (d.detach n) [n] none).attached
    rw [ha, (sameNodes_detach n).attached]
    exact List.filter_sublist

theorem edit_attaches (d : Document) (e : Edit) : d.Attaches e (d.edit e).attached := by
  have same {f : Document} (h : f.attached = d.attached) : d.Attaches e f.attached := h ▸ .same
  cases e with
  | insert node => exact .same
  | createText text => exact .same
  | insertChild parent node => exact same (sameNodes_insertChild parent node).attached
  | append parent n => exact same (sameNodes_append d parent n).attached
  | mount n => exact same (sameNodes_append d body n).attached
  | createElement tag attributes children =>
    exact same (sameNodes_createElement tag attributes children).attached
  | attachSheet =>
    show d.Attaches _ d.attachSheet.1.attached
    rcases attachSheet_eq (d := d) with hd | hd
    · rw [hd, attached_withCarrier]
      exact .same
    · rw [hd, attached_withCarrier]
      exact .fresh
  | insertRule id text index => exact .same
  | remove n => exact .fewer n (attached_remove d n)

theorem mem_attached_edit {e : Edit} {id : SheetId} (he : ∀ n, e ≠ .remove n)
    (h : id ∈ d.attached) : id ∈ (d.edit e).attached := by
  have ha := d.edit_attaches e
  generalize (d.edit e).attached = attached at ha ⊢
  cases ha with
  | same => exact h
  | fresh => exact List.mem_append_left _ h
  | fewer n _ => exact absurd rfl (he n)

structure InOrder (d : Document) : Prop where
  increasing : d.attached.Pairwise (·.index < ·.index)
  made : ∀ id ∈ d.attached, id.index < d.sheets.length

theorem InOrder.edit (h : d.InOrder) (e : Edit) : (d.edit e).InOrder := by
  have ha := d.edit_attaches e
  have hlength := d.length_sheets_edit e
  refine ⟨?_, fun id hid => ?_⟩
  · generalize (d.edit e).attached = attached at ha ⊢
    cases ha with
    | same => exact h.increasing
    | fresh =>
      refine List.pairwise_append.2 ⟨h.increasing, List.pairwise_singleton _ _, fun a hm b hb => ?_⟩
      rw [List.mem_singleton.1 hb]
      exact h.made a hm
    | fewer n hsub => exact h.increasing.sublist hsub
  · generalize hattached : (d.edit e).attached = attached at ha hid
    cases ha with
    | same => exact Nat.lt_of_lt_of_le (h.made id hid) hlength
    | fresh =>
      have hsheets := sheets_attachSheet d
      show id.index < d.attachSheet.1.sheets.length
      rw [hsheets, List.length_append, List.length_singleton]
      rcases List.mem_append.1 hid with hm | hm
      · exact Nat.lt_succ_of_lt (h.made id hm)
      · rw [List.mem_singleton.1 hm]
        exact Nat.lt_succ_self _
    | fewer n hsub => exact Nat.lt_of_lt_of_le (h.made id (hsub.subset hid)) hlength

theorem Reachable.inOrder (h : Reachable d) : d.InOrder := by
  induction h with
  | start => exact ⟨.nil, fun id hid => by cases hid⟩
  | edit _ e ih => exact ih.edit e

end Document

theorem idxOf_lt_idxOf_iff {α : Type} [BEq α] [LawfulBEq α] {l : List α} {rank : α → Nat}
    (h : l.Pairwise (rank · < rank ·)) {a b : α} (ha : a ∈ l) (hb : b ∈ l) :
    l.idxOf a < l.idxOf b ↔ rank a < rank b := by
  have hbefore : ∀ {x y}, x ∈ l → y ∈ l → l.idxOf x < l.idxOf y → rank x < rank y := by
    intro x y hx hy hlt
    have hpair := List.pairwise_iff_getElem.1 h _ _ (List.idxOf_lt_length_of_mem hx)
      (List.idxOf_lt_length_of_mem hy) hlt
    rwa [List.getElem_idxOf, List.getElem_idxOf] at hpair
  refine ⟨hbefore ha hb, fun hlt => ?_⟩
  by_contra hle
  rcases Nat.lt_or_eq_of_le (Nat.not_lt.1 hle) with hgt | heq
  · exact absurd (hbefore hb ha hgt) (Nat.lt_asymm hlt)
  · rw [(List.idxOf_inj hb).1 heq] at hlt
    exact Nat.lt_irrefl _ hlt

end ScopedStyle
