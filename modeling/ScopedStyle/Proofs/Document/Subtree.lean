import ScopedStyle.Proofs.Document.Sheets

/-!
# Removing a subtree

A removal takes the node that it is asked for and all under it, each of them once, and
with them the sheets that they carry. The rest of the document stays as it is, but for
the list that the node stood in.
-/

namespace ScopedStyle
namespace Document

variable {d e : Document} {n id top : NodeId} {queue : List NodeId} {found : Option Node}

def InSubtree (d : Document) (top n : NodeId) : Prop := Relation.ReflTransGen d.Down top n

theorem Forest.inSubtree_iff (h : Forest d) :
    d.InSubtree top n ↔ n = top ∨ top ∈ d.ancestors n := by
  have hswap : Function.swap d.Down = d.Up := by
    funext m q
    exact propext (h.linked m q).symm
  rw [InSubtree, Relation.reflTransGen_iff_eq_or_transGen, h.mem_ancestors_iff, ← hswap,
    Relation.transGen_swap]

theorem found_clear (h : ¬d.Below queue top) : (clear top d queue found).2 = found := by
  fun_induction clear top d queue found with
  | case1 d found => rfl
  | case2 d found id queue ih =>
    rw [below_cons, not_or] at h
    obtain ⟨hne, hbelow⟩ := h
    exact (ih hbelow).trans (if_neg fun he => hne he.symm)

theorem Forest.found_clear_top (h : Forest d) (hp : d.parent? top = none) :
    (clear top d [top] found).2 = d.node? top := by
  have hunlisted : ∀ q, top ∉ d.children q := by
    intro q hq
    have hup := (h.linked top q).2 hq
    rw [hp] at hup
    cases hup
  have hbelow : ¬(d.discard top).Below (d.children top) top := by
    rintro ⟨q, hq, hpath⟩
    rcases hpath.cases_tail with he | ⟨b, -, hb⟩
    · exact hunlisted top (he ▸ hq)
    · exact hunlisted b (Down.of_discard hb)
  rw [clear, List.nil_append, if_pos rfl]
  exact found_clear hbelow

structure Pruned (e d : Document) (top : NodeId) : Prop where
  live : ∀ n, e.contains n ↔ d.contains n ∧ ¬d.InSubtree top n
  data : ∀ n, e.contains n → e.node? n = d.node? n
  parent : ∀ n, e.contains n → e.parent? n = d.parent? n
  children : ∀ n, e.contains n →
    e.children n = if d.parent? top = some n then (d.children n).filter (· ≠ top) else d.children n
  attached : ∃ keep : SheetId → Bool, e.attached = d.attached.filter keep ∧
    ∀ s, keep s ↔ ¬∃ n, d.InSubtree top n ∧ d.carried? n = some s
  sheets : e.sheets = d.sheets

theorem Forest.pruned_clear (h : Forest d) :
    (clear top (d.detach top) [top] found).1.Pruned d top := by
  have hsame := sameNodes_detach (d := d) top
  -- without its link to the parent, what is below the node is its subtree
  have hbelow : ∀ n, (d.detach top).Below [top] n ↔ d.InSubtree top n := by
    intro n
    rw [h.below_detach, h.inSubtree_iff]
  have hw := (clear_without top (d.detach top) [top] found).congr hbelow
  have hlive : ∀ n, (clear top (d.detach top) [top] found).1.contains n ↔
      d.contains n ∧ ¬d.InSubtree top n := by
    intro n
    rw [hw.contains_iff, contains_detach, and_comm]
  refine ⟨hlive, fun n hn => ?_, fun n hn => ?_, fun n hn => ?_, ?_, hw.sheets.trans hsame.sheets⟩
  · rw [hw.node? ((hlive n).1 hn).2, node?_detach]
  · rw [hw.parent? ((hlive n).1 hn).2, parent?_detach, if_neg]
    rintro rfl
    exact ((hlive n).1 hn).2 .refl
  · rw [hw.children ((hlive n).1 hn).2, h.children_detach]
    split
    · rfl
    · rename_i hp
      refine List.filter_eq_self.2 fun c hc => decide_eq_true ?_
      rintro rfl
      exact hp ((h.linked c n).2 hc)
  · obtain ⟨keep, hattached, hkeep⟩ := hw.attached
    refine ⟨keep, hattached.trans (congrArg _ hsame.attached), fun s => (hkeep s).trans ?_⟩
    rw [not_exists]
    refine forall_congr' fun n => ?_
    rw [hsame.carried?, not_and]

/-- A removal of a dead or structural node changes nothing and gives nothing. Any other one gives
the data of the node and leaves the document without its subtree. -/
theorem Reachable.remove_prunes (h : Reachable d) (id : NodeId) :
    (¬d.contains id ∨ isStructural id → d.remove id = (d, none)) ∧
      (d.contains id → isStructural id = false →
        ∃ node, d.node? id = some node ∧ (d.remove id).2 = some node ∧
          (d.remove id).1.Pruned d id) := by
  refine ⟨fun hstay => ?_, fun hlive hs => ?_⟩
  · rw [remove, if_pos]
    simpa using hstay
  · have hgo : ¬((!d.contains id || isStructural id) = true) := by simp [hlive, hs]
    have hdetached : (d.detach id).parent? id = none := by rw [parent?_detach, if_pos rfl]
    obtain ⟨node, hnode⟩ := contains_iff.1 hlive
    rw [remove, if_neg hgo]
    refine ⟨node, hnode, ?_, h.forest.pruned_clear⟩
    rw [(h.forest.detach id).found_clear_top hdetached, node?_detach, hnode]

def borrowedSheet : Document :=
  start.editAll [.attachSheet, .insertChild body (Node.element "div".toList),
    .insertChild ⟨4⟩ (Node.element "p".toList), .append ⟨5⟩ ⟨3⟩, .attachSheet,
    .insertChild body (Node.ofText "end".toList)]

theorem remove_prunes_borrowedSheet :
    Reachable borrowedSheet ∧ borrowedSheet.contains ⟨4⟩ ∧ isStructural ⟨4⟩ = false ∧
      borrowedSheet.attached = [⟨0⟩, ⟨1⟩] ∧
      (borrowedSheet.remove ⟨4⟩).2 = some (Node.element "div".toList) ∧
      ¬(borrowedSheet.remove ⟨4⟩).1.contains ⟨3⟩ ∧
      (borrowedSheet.remove ⟨4⟩).1.children body = [⟨7⟩] ∧
      (borrowedSheet.remove ⟨4⟩).1.attached = [⟨1⟩] := by
  have hreach : Reachable borrowedSheet := Reachable.start.editAll _
  have hlive : borrowedSheet.contains ⟨4⟩ := by decide +kernel
  have hdiv : borrowedSheet.node? ⟨4⟩ = some (Node.element "div".toList) := by decide +kernel
  have hpath : borrowedSheet.children ⟨4⟩ = [⟨5⟩] ∧ borrowedSheet.children ⟨5⟩ = [⟨3⟩] := by
    decide +kernel
  have hbody : (borrowedSheet.remove ⟨4⟩).1.contains body := by decide +kernel
  obtain ⟨node, hnode, hgiven, hpruned⟩ := (hreach.remove_prunes ⟨4⟩).2 hlive rfl
  have hunder : borrowedSheet.InSubtree ⟨4⟩ ⟨3⟩ := by
    have hp : borrowedSheet.Down ⟨4⟩ ⟨5⟩ := by rw [Down, hpath.1]; exact List.mem_singleton_self _
    have hcarrier : borrowedSheet.Down ⟨5⟩ ⟨3⟩ := by
      rw [Down, hpath.2]
      exact List.mem_singleton_self _
    exact .head hp (.single hcarrier)
  have hsheets : borrowedSheet.attached = [⟨0⟩, ⟨1⟩] ∧
      (borrowedSheet.remove ⟨4⟩).1.attached = [⟨1⟩] := by decide +kernel
  refine ⟨hreach, hlive, rfl, hsheets.1, ?_, fun hc => ((hpruned.live ⟨3⟩).1 hc).2 hunder, ?_,
    hsheets.2⟩
  · rw [hgiven, ← hnode, hdiv]
  · rw [hpruned.children body hbody]
    decide +kernel

end Document
end ScopedStyle
