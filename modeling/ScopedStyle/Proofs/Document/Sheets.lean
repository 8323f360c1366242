import ScopedStyle.Proofs.Document.Reachable
import ScopedStyle.Proofs.Node

/-!
# Attached sheets

A sheet comes into a document with the node that carries it, and leaves it with
that node. As long as no node is inserted that brings a sheet of its own, no two
nodes carry the same one.
-/

namespace ScopedStyle

namespace Document
variable {d e f : Document} {n p id : NodeId} {s : SheetId} {node : Node}

/-- Two documents that differ in no more than their links. -/
structure SameNodes (e d : Document) : Prop where
  nodes : e.nodes = d.nodes
  sheets : e.sheets = d.sheets
  attached : e.attached = d.attached

theorem SameNodes.refl (d : Document) : d.SameNodes d := ⟨rfl, rfl, rfl⟩

theorem SameNodes.trans (hf : f.SameNodes e) (he : e.SameNodes d) : f.SameNodes d :=
  ⟨hf.nodes.trans he.nodes, hf.sheets.trans he.sheets, hf.attached.trans he.attached⟩

theorem SameNodes.node? (h : e.SameNodes d) : e.node? n = d.node? n := by
  rw [Document.node?, h.nodes, Document.node?]

theorem SameNodes.contains (h : e.SameNodes d) : e.contains n = d.contains n := by
  rw [Document.contains, h.node?, Document.contains]

theorem SameNodes.carried? (h : e.SameNodes d) : e.carried? n = d.carried? n := by
  rw [Document.carried?, h.node?, Document.carried?]

theorem sameNodes_detach (id : NodeId) : (d.detach id).SameNodes d := by
  unfold detach
  split
  · exact .refl d
  · exact ⟨rfl, rfl, rfl⟩

theorem sameNodes_append (d : Document) (p id : NodeId) : (d.append p id).1.SameNodes d := by
  rcases append_cases d p id with ⟨fault, h⟩ | ⟨e, h⟩
  · rw [h]
    exact .refl d
  · rw [h]
    obtain ⟨-, -, -, -, rfl⟩ := append_eq_ok_iff.1 h
    have hd := sameNodes_detach (d := d) id
    exact ⟨hd.nodes, hd.sheets, hd.attached⟩

theorem sameNodes_appendAll (p : NodeId) (ns : List NodeId) : (d.appendAll p ns).1.SameNodes d := by
  induction ns generalizing d with
  | nil => exact .refl d
  | cons id ns ih =>
    have hnext := sameNodes_append d p id
    rw [appendAll]
    split
    · rename_i e fault he
      rwa [he] at hnext
    · rename_i e he
      rw [he] at hnext
      exact ih.trans hnext

theorem sameNodes_insertChild (p : NodeId) (node : Node) :
    (d.insertChild p node).1.SameNodes (d.insert node).1 := by
  rw [insertChild_fst]
  exact sameNodes_append _ p _

theorem sameNodes_createElement (tag : Text) (attributes : Entries Text) (ns : List NodeId) :
    (d.createElement tag attributes ns).1.SameNodes
      (d.insert (attributes.foldl (fun n entry => n.setAttribute entry.1 entry.2)
        (Node.element tag))).1 := by
  rw [createElement]
  split
  rename_i d' id hd
  rw [hd]
  have hall := sameNodes_appendAll (d := d') id ns
  split
  · rename_i e he
    rwa [he] at hall
  · rename_i e he
    rwa [he] at hall

structure Carriage (d : Document) : Prop where
  nodup : d.attached.Nodup
  carried : ∀ s ∈ d.attached, ∃ n, d.carried? n = some s
  once : ∀ m n s, d.carried? m = some s → d.carried? n = some s → m = n
  known : ∀ n s, d.carried? n = some s → s.index < d.sheets.length

theorem Carriage.of_carried (h : Carriage d) (hc : ∀ n, e.carried? n = d.carried? n)
    (ha : e.attached = d.attached) (hs : d.sheets.length ≤ e.sheets.length) : Carriage e := by
  refine ⟨?_, fun s hm => ?_, fun m n s hm hn => ?_, fun n s hn => ?_⟩
  · rw [ha]
    exact h.nodup
  · rw [ha] at hm
    obtain ⟨n, hn⟩ := h.carried s hm
    exact ⟨n, (hc n).trans hn⟩
  · rw [hc] at hm hn
    exact h.once m n s hm hn
  · rw [hc] at hn
    exact Nat.lt_of_lt_of_le (h.known n s hn) hs

theorem Carriage.moved (h : Carriage d) (he : e.SameNodes d) : Carriage e :=
  h.of_carried (fun _ => he.carried?) he.attached (he.sheets ▸ Nat.le_refl _)

theorem carriage_start : Carriage start := by
  have hnone : ∀ n, start.carried? n = none := by
    intro n
    rcases node_of_start n with rfl | rfl | rfl | ⟨hn, -, -⟩
    · rfl
    · rfl
    · rfl
    · rw [carried?, hn]
      rfl
  refine ⟨List.nodup_nil, fun s hs => ?_, fun m n s hm => ?_, fun n s hn => ?_⟩
  · cases hs
  · rw [hnone] at hm
    cases hm
  · rw [hnone] at hn
    cases hn

theorem carried?_next : d.carried? ⟨d.nodes.length⟩ = none := by
  have hn : d.node? ⟨d.nodes.length⟩ = none := Option.not_isSome_iff_eq_none.1 not_contains_next
  rw [carried?, hn]
  rfl

theorem carried?_insert (node : Node) :
    (d.insert node).1.carried? n = if n = ⟨d.nodes.length⟩ then node.sheet else d.carried? n := by
  rw [carried?, node?_insert]
  split
  · rfl
  · rfl

theorem Carriage.insert (h : Carriage d) (hnode : node.sheet = none) :
    Carriage (d.insert node).1 := by
  refine h.of_carried (fun n => ?_) rfl (Nat.le_refl _)
  rw [carried?_insert, hnode]
  split
  · rename_i hn
    rw [hn, carried?_next]
  · rfl

theorem Carriage.fresh (h : Carriage d) : d.carried? n ≠ some ⟨d.sheets.length⟩ :=
  fun hn => Nat.lt_irrefl _ (h.known n _ hn)

theorem Carriage.insert_fresh (h : Carriage d) (hnode : node.sheet = some ⟨d.sheets.length⟩) :
    Carriage (({ d with sheets := d.sheets ++ [RuleList.empty] }).insert node).1 := by
  have hcarried : ∀ n,
      (({ d with sheets := d.sheets ++ [RuleList.empty] }).insert node).1.carried? n =
      if n = ⟨d.nodes.length⟩ then some ⟨d.sheets.length⟩ else d.carried? n := by
    intro n
    rw [carried?_insert, hnode]
    rfl
  refine ⟨h.nodup, fun s hs => ?_, fun m n s hm hn => ?_, fun n s hn => ?_⟩
  · obtain ⟨n, hn⟩ := h.carried s hs
    refine ⟨n, ?_⟩
    rw [hcarried, if_neg, hn]
    rintro rfl
    rw [carried?_next] at hn
    cases hn
  · rw [hcarried] at hm hn
    split at hm
    · rename_i hm'
      cases hm
      split at hn
      · rename_i hn'
        rw [hm', hn']
      · exact absurd hn h.fresh
    · split at hn
      · cases hn
        exact absurd hm h.fresh
      · exact h.once m n s hm hn
  · have hlength :
        (({ d with sheets := d.sheets ++ [RuleList.empty] }).insert node).1.sheets.length =
        d.sheets.length + 1 := List.length_append
    rw [hlength]
    rw [hcarried] at hn
    split at hn
    · cases hn
      exact Nat.lt_succ_self _
    · exact Nat.lt_succ_of_lt (h.known n s hn)

theorem Carriage.attach (h : Carriage d) (hn : d.carried? n = some s) (hs : s ∉ d.attached) :
    Carriage { d with attached := d.attached ++ [s] } := by
  refine ⟨?_, fun t ht => ?_, h.once, h.known⟩
  · refine List.Nodup.append h.nodup (List.nodup_singleton s) fun t ht ht' => ?_
    exact hs (List.mem_singleton.1 ht' ▸ ht)
  · rcases List.mem_append.1 ht with ht | ht
    · exact h.carried t ht
    · exact ⟨n, List.mem_singleton.1 ht ▸ hn⟩

theorem Carriage.attachSheet (h : Carriage d) : Carriage d.attachSheet.1 := by
  have hsame : d.withCarrier.SameNodes _ := sameNodes_insertChild head _
  have hfresh : Carriage d.withCarrier := (h.insert_fresh rfl).moved hsame
  rcases attachSheet_eq (d := d) with he | he
  · rwa [he]
  · rw [he]
    refine hfresh.attach (n := ⟨d.nodes.length⟩) ?_ ?_
    · rw [hsame.carried?, carried?_insert]
      exact if_pos rfl
    · rw [hsame.attached]
      intro hs
      obtain ⟨n, hn⟩ := h.carried _ hs
      exact h.fresh hn

theorem Carriage.without {gone : NodeId → Prop} (h : Carriage d) (hw : e.Without d gone) :
    Carriage e := by
  obtain ⟨keep, ha, hkeep⟩ := hw.attached
  have hback : ∀ n s, e.carried? n = some s → d.carried? n = some s := by
    intro n s hn
    by_cases hg : gone n
    · rw [hw.carried?_none hg] at hn
      cases hn
    · rwa [hw.carried? hg] at hn
  refine ⟨?_, fun s hs => ?_, fun m n s hm hn => h.once m n s (hback m s hm) (hback n s hn),
    fun n s hn => ?_⟩
  · rw [ha]
    exact h.nodup.filter _
  · rw [ha, List.mem_filter] at hs
    obtain ⟨n, hn⟩ := h.carried s hs.1
    refine ⟨n, ?_⟩
    rwa [hw.carried? fun hg => (hkeep s).1 hs.2 n hg hn]
  · rw [hw.sheets]
    exact h.known n s (hback n s hn)

theorem Carriage.remove (h : Carriage d) (id : NodeId) : Carriage (d.remove id).1 := by
  unfold Document.remove
  split
  · exact h
  · exact (h.moved (sameNodes_detach id)).without (clear_without id (d.detach id) [id] none)

/-- No node comes in that brings a sheet of its own. -/
def Edit.Plain : Edit → Prop
  | .insert node => node.sheet = none
  | .insertChild _ node => node.sheet = none
  | _ => True

theorem Carriage.edit {e : Edit} (h : Carriage d) (he : e.Plain) : Carriage (d.edit e) := by
  cases e with
  | insert node => exact h.insert he
  | createText text => exact h.insert rfl
  | insertChild parent node => exact (h.insert he).moved (sameNodes_insertChild parent node)
  | append parent id => exact h.moved (sameNodes_append d parent id)
  | mount id => exact h.moved (sameNodes_append d body id)
  | createElement tag attributes children =>
    refine (h.insert ?_).moved (sameNodes_createElement tag attributes children)
    exact congrArg Node.sheet (Node.setAttributes_eq attributes (Node.element tag))
  | attachSheet => exact h.attachSheet
  | insertRule sheet text index =>
    exact h.of_carried (fun _ => rfl) rfl (List.length_set ▸ Nat.le_refl _)
  | remove id => exact h.remove id

end Document
end ScopedStyle
