import Mathlib.Data.List.Nodup
import Mathlib.Logic.ExistsUnique
import ScopedStyle.Proofs.Document.Sheets

/-!
# Documents stay consistent

What holds of a document behind any run of edits, faults included: its maps agree
on which nodes there are and on how they are linked, every way up ends, and every
attached sheet has one carrier.
-/

namespace ScopedStyle
namespace Document
variable {d : Document} {n m p : NodeId}

inductive WayUp (d : Document) : NodeId → List NodeId → Prop
  | top {n : NodeId} (h : d.parent? n = none) : WayUp d n []
  | step {n p : NodeId} {rest : List NodeId} (h : d.parent? n = some p) (hrest : WayUp d p rest) :
      WayUp d n (p :: rest)

structure Consistent (d : Document) : Prop where
  listed : ∀ n, (d.childList? n).isSome ↔ d.contains n
  parent_live : ∀ n p, d.parent? n = some p → d.contains n ∧ d.contains p
  child_live : ∀ n p, n ∈ d.children p → d.contains n ∧ d.contains p
  linked : ∀ n p, d.parent? n = some p ↔ n ∈ d.children p
  child_once : ∀ n p, n ∈ d.children p → (d.children p).count n = 1
  acyclic : ∀ n, ¬Relation.TransGen d.Up n n
  way_up : ∀ n, d.WayUp n (d.ancestors n)
  way_nodup : ∀ n, (n :: d.ancestors n).Nodup

/-- Every attached sheet stands once and has one live node that carries it. -/
structure SheetsCarried (d : Document) : Prop where
  nodup : d.attached.Nodup
  carrier : ∀ s ∈ d.attached, ∃! n, d.contains n ∧ d.carried? n = some s

theorem Forest.wayUp (h : Forest d) (n : NodeId) : d.WayUp n (d.ancestors n) := by
  obtain ⟨rank, hr⟩ := h.ranked
  induction hk : rank n using Nat.strongRecOn generalizing n with
  | ind k ih =>
    cases hp : d.parent? n with
    | none =>
      rw [ancestors_none hp]
      exact .top hp
    | some p =>
      rw [h.ancestors_some hp]
      exact .step hp (ih (rank p) (hk ▸ hr n p hp) p rfl)

theorem Forest.consistent (h : Forest d) : Consistent d := by
  obtain ⟨rank, hr⟩ := h.ranked
  refine ⟨fun n => ?_, h.live, fun n p hn => h.live n p ((h.linked n p).2 hn), h.linked,
    fun n p hn => List.count_eq_one_of_mem (h.nodup p) hn, h.acyclic, h.wayUp,
    fun n => nodup_ancestorsWithin hr _ n⟩
  rw [h.listed]

theorem Carriage.sheetsCarried (h : Carriage d) : SheetsCarried d := by
  refine ⟨h.nodup, fun s hs => ?_⟩
  obtain ⟨n, hn⟩ := h.carried s hs
  have hlive : d.contains n := by
    rw [carried?, Option.bind_eq_some_iff] at hn
    obtain ⟨node, hnode, -⟩ := hn
    exact contains_iff.2 ⟨node, hnode⟩
  exact ⟨n, ⟨hlive, hn⟩, fun m hm => h.once m n s hm.2 hn⟩

theorem Carriage.editAll (h : Carriage d) {es : List Edit} (hes : ∀ e ∈ es, e.Plain) :
    Carriage (d.editAll es) := by
  induction es generalizing d with
  | nil => exact h
  | cons e es ih =>
    exact ih (h.edit (hes e List.mem_cons_self)) fun e' he => hes e' (List.mem_cons_of_mem e he)

/-- A run of edits with any arguments leaves a consistent document, and if the nodes that it inserts
bring no sheets, every attached sheet has its one carrier. -/
theorem editAll_consistent (es : List Edit) :
    Consistent (start.editAll es) ∧
      ((∀ e ∈ es, e.Plain) → SheetsCarried (start.editAll es)) :=
  ⟨((Reachable.start).editAll es).forest.consistent,
    fun hes => (carriage_start.editAll hes).sheetsCarried⟩

def sheetMoves : List Edit :=
  [.attachSheet, .attachSheet, .insert (Node.element "div".toList), .append ⟨5⟩ ⟨3⟩,
    .append ⟨3⟩ ⟨5⟩, .remove ⟨5⟩, .append ⟨5⟩ ⟨4⟩]

theorem editAll_consistent_sheetMoves :
    (∀ e ∈ sheetMoves, e.Plain) ∧ (start.editAll sheetMoves).attached = [⟨1⟩] ∧
      Consistent (start.editAll sheetMoves) ∧ SheetsCarried (start.editAll sheetMoves) := by
  have hplain : ∀ e ∈ sheetMoves, e.Plain := by
    intro e he
    simp only [sheetMoves, List.mem_cons, List.not_mem_nil, or_false] at he
    rcases he with rfl | rfl | rfl | rfl | rfl | rfl | rfl
    all_goals trivial
  have h := editAll_consistent sheetMoves
  exact ⟨hplain, by decide +kernel, h.1, h.2 hplain⟩

end Document
end ScopedStyle
