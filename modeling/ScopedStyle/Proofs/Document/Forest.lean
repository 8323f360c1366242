import Mathlib.Data.List.Nodup
import Mathlib.Data.List.Perm.Subperm
import Mathlib.Logic.Relation
import ScopedStyle.Proofs.Document.Links

/-!
# Documents are forests

The two maps that link nodes keep in step with the nodes and with each other, no
child is listed twice, and ranks fall on the way up, so that no way up comes back
to where it began. Every operation keeps this, also one that faults.
-/

namespace ScopedStyle
namespace Document

structure Forest (d : Document) : Prop where
  listed : ∀ n, (d.childList? n).isSome = d.contains n
  live : ∀ n p, d.parent? n = some p → d.contains n ∧ d.contains p
  linked : ∀ n p, d.parent? n = some p ↔ n ∈ d.children p
  nodup : ∀ p, (d.children p).Nodup
  ranked : ∃ rank : NodeId → Nat, ∀ n p, d.parent? n = some p → rank p < rank n

variable {d : Document} {n m p id top : NodeId}

def Up (d : Document) (n p : NodeId) : Prop := d.parent? n = some p

theorem rank_lt_of_mem {rank : NodeId → Nat} (hr : ∀ n p, d.parent? n = some p → rank p < rank n)
    {fuel : Nat} (h : m ∈ d.ancestorsWithin fuel n) : rank m < rank n := by
  induction fuel generalizing n with
  | zero => cases h
  | succ fuel ih =>
    rw [ancestorsWithin] at h
    split at h
    · cases h
    · rename_i p hp
      have hlt := hr n p hp
      rcases List.mem_cons.1 h with rfl | h
      · exact hlt
      · exact Nat.lt_trans (ih h) hlt

theorem nodup_ancestorsWithin {rank : NodeId → Nat}
    (hr : ∀ n p, d.parent? n = some p → rank p < rank n) (fuel : Nat) (n : NodeId) :
    (n :: d.ancestorsWithin fuel n).Nodup := by
  induction fuel generalizing n with
  | zero => exact List.nodup_singleton n
  | succ fuel ih =>
    refine List.nodup_cons.2 ⟨fun h => Nat.lt_irrefl _ (rank_lt_of_mem hr h), ?_⟩
    rw [ancestorsWithin]
    split
    · exact List.nodup_nil
    · exact ih _

theorem Forest.contains_of_mem (h : Forest d) {fuel : Nat} (hm : m ∈ d.ancestorsWithin fuel n) :
    d.contains m := by
  induction fuel generalizing n with
  | zero => cases hm
  | succ fuel ih =>
    rw [ancestorsWithin] at hm
    split at hm
    · cases hm
    · rename_i p hp
      rcases List.mem_cons.1 hm with rfl | hm
      · exact (h.live _ _ hp).2
      · exact ih hm

theorem length_le_nodes {ns : List NodeId} (hn : ns.Nodup) (hc : ∀ n ∈ ns, d.contains n) :
    ns.length ≤ d.nodes.length := by
  have hmap : (ns.map NodeId.index).Nodup :=
    List.Nodup.map (fun _ _ h => NodeId.index_injective h) hn
  have hsub : ns.map NodeId.index ⊆ List.range d.nodes.length := by
    intro i hi
    obtain ⟨n, hm, rfl⟩ := List.mem_map.1 hi
    exact List.mem_range.2 (index_lt_of_contains (hc n hm))
  have hle := (List.subperm_of_subset hmap hsub).length_le
  rwa [List.length_map, List.length_range] at hle

theorem Forest.length_ancestorsWithin (h : Forest d) (hp : d.parent? n = some p) (fuel : Nat) :
    (d.ancestorsWithin fuel n).length < d.nodes.length := by
  obtain ⟨rank, hr⟩ := h.ranked
  -- the way and its start together are live nodes without repetition
  refine length_le_nodes (nodup_ancestorsWithin hr fuel n) fun m hm => ?_
  rcases List.mem_cons.1 hm with rfl | hm
  · exact (h.live _ p hp).1
  · exact h.contains_of_mem hm

theorem ancestorsWithin_succ {fuel : Nat} (h : (d.ancestorsWithin fuel n).length < fuel) :
    d.ancestorsWithin (fuel + 1) n = d.ancestorsWithin fuel n := by
  induction fuel generalizing n with
  | zero => exact absurd h (Nat.not_lt_zero _)
  | succ fuel ih =>
    rw [ancestorsWithin] at h
    rw [ancestorsWithin, ancestorsWithin]
    split
    · rfl
    · rename_i p hp
      rw [hp] at h
      rw [ih (Nat.lt_of_succ_lt_succ h)]

theorem ancestors_none (hp : d.parent? n = none) : d.ancestors n = [] := by
  rw [ancestors]
  cases d.nodes.length with
  | zero => rfl
  | succ fuel => rw [ancestorsWithin, hp]

theorem Forest.ancestors_some (h : Forest d) (hp : d.parent? n = some p) :
    d.ancestors n = p :: d.ancestors p := by
  have hlen := h.length_ancestorsWithin hp d.nodes.length
  rw [ancestors, ancestors]
  cases hf : d.nodes.length with
  | zero =>
    rw [hf] at hlen
    exact absurd hlen (Nat.not_lt_zero _)
  | succ fuel =>
    have hstep : d.ancestorsWithin (fuel + 1) n = p :: d.ancestorsWithin fuel p := by
      rw [ancestorsWithin, hp]
    rw [hf, hstep] at hlen
    rw [hstep, ancestorsWithin_succ (Nat.lt_of_succ_lt_succ hlen)]

theorem Forest.mem_ancestors_iff (h : Forest d) :
    m ∈ d.ancestors n ↔ Relation.TransGen d.Up n m := by
  constructor
  · obtain ⟨rank, hr⟩ := h.ranked
    intro hm
    -- ranks fall on the way up, so the walk is an induction on them
    induction hk : rank n using Nat.strongRecOn generalizing n with
    | ind k ih =>
      cases hp : d.parent? n with
      | none =>
        rw [ancestors_none hp] at hm
        cases hm
      | some p =>
        rw [h.ancestors_some hp] at hm
        rcases List.mem_cons.1 hm with rfl | hm
        · exact .single hp
        · exact .head hp (ih (rank p) (hk ▸ hr n p hp) hm rfl)
  · intro hup
    induction hup using Relation.TransGen.head_induction_on with
    | single hp =>
      rw [h.ancestors_some hp]
      exact List.mem_cons_self
    | head hp _ ih =>
      rw [h.ancestors_some hp]
      exact List.mem_cons_of_mem _ ih

theorem Forest.acyclic (h : Forest d) (n : NodeId) : ¬Relation.TransGen d.Up n n := by
  obtain ⟨rank, hr⟩ := h.ranked
  have hlt : ∀ m p, Relation.TransGen d.Up m p → rank p < rank m := by
    intro m p hup
    induction hup with
    | single hp => exact hr m _ hp
    | tail _ hp ih => exact Nat.lt_trans (hr _ _ hp) ih
  exact fun hup => Nat.lt_irrefl _ (hlt n n hup)

theorem Forest.listed_once (h : Forest d) {front after : List NodeId}
    (hc : d.children p = front ++ n :: after) : n ∉ front ∧ n ∉ after := by
  have hnodup := h.nodup p
  rw [hc, List.nodup_middle, List.nodup_cons, List.mem_append, not_or] at hnodup
  exact hnodup.1

def isWithin (d : Document) (top id : NodeId) : Bool := id == top || (d.ancestors id).contains top

theorem isWithin_iff : d.isWithin top n ↔ n = top ∨ top ∈ d.ancestors n := by
  rw [isWithin, Bool.or_eq_true, beq_iff_eq, List.contains_iff_mem]

theorem Forest.isWithin_parent (h : Forest d) (hp : d.parent? n = some p) (hn : n ≠ top) :
    d.isWithin top n ↔ d.isWithin top p := by
  rw [isWithin_iff, isWithin_iff, h.ancestors_some hp, List.mem_cons]
  constructor
  · rintro (hn' | rfl | hm)
    · exact absurd hn' hn
    · exact .inl rfl
    · exact .inr hm
  · rintro (rfl | hm)
    · exact .inr (.inl rfl)
    · exact .inr (.inr hm)

theorem Forest.children_eq_nil (h : Forest d) (hn : ¬d.contains n) : d.children n = [] := by
  have hl := h.listed n
  rw [eq_false_of_ne_true hn, Option.isSome_eq_false_iff, Option.isNone_iff_eq_none] at hl
  rw [children, hl]
  rfl

theorem Forest.congr {e : Document} (h : Forest d) (hn : e.nodes = d.nodes)
    (hl : e.childLists = d.childLists) (hp : e.parents = d.parents) : Forest e := by
  obtain ⟨nodes, lists, parents, sheets, attached⟩ := e
  subst hn hl hp
  exact ⟨h.listed, h.live, h.linked, h.nodup, h.ranked⟩

theorem node_of_start (n : NodeId) :
    n = root ∨ n = head ∨ n = body ∨ start.node? n = none ∧ start.parent? n = none ∧
      start.childList? n = none := by
  obtain ⟨i⟩ := n
  match i with
  | 0 => exact .inl rfl
  | 1 => exact .inr (.inl rfl)
  | 2 => exact .inr (.inr (.inl rfl))
  | _ + 3 => exact .inr (.inr (.inr ⟨rfl, rfl, rfl⟩))

theorem parent?_start : start.parent? n = if n = head ∨ n = body then some root else none := by
  rcases node_of_start n with rfl | rfl | rfl | ⟨hn, hp, -⟩
  · rfl
  · rfl
  · rfl
  · rw [hp, if_neg]
    rintro (rfl | rfl)
    · cases hn
    · cases hn

theorem children_start : start.children n = if n = root then [head, body] else [] := by
  rcases node_of_start n with rfl | rfl | rfl | ⟨hn, -, hl⟩
  · rfl
  · rfl
  · rfl
  · rw [children, hl, if_neg]
    · rfl
    · rintro rfl
      cases hn

theorem forest_start : Forest start := by
  refine ⟨fun n => ?_, fun n p hp => ?_, fun n p => ?_, fun p => ?_,
    fun n => if n = root then 0 else 1, fun n p hp => ?_⟩
  · rcases node_of_start n with rfl | rfl | rfl | ⟨hn, -, hl⟩
    · rfl
    · rfl
    · rfl
    · rw [hl, contains, hn]
      rfl
  · rw [parent?_start] at hp
    split at hp
    · rename_i hn
      cases hp
      rcases hn with rfl | rfl
      · decide
      · decide
    · cases hp
  · rw [parent?_start, children_start]
    by_cases hp : p = root
    · rw [if_pos hp, hp]
      simp [or_iff_not_imp_left]
    · rw [if_neg hp]
      simp [Ne.symm hp]
  · rw [children_start]
    split
    · decide
    · exact List.nodup_nil
  · rw [parent?_start] at hp
    split at hp
    · rename_i hn
      cases hp
      rcases hn with rfl | rfl
      · decide
      · decide
    · cases hp

theorem Forest.children_insert (h : Forest d) (node : Node) :
    (d.insert node).1.children n = d.children n := by
  rw [children, childList?_insert]
  split
  · rename_i hn
    rw [hn, h.children_eq_nil not_contains_next]
    rfl
  · rfl

theorem Forest.insert (h : Forest d) (node : Node) : Forest (d.insert node).1 := by
  refine ⟨fun n => ?_, fun n p hp => ?_, fun n p => ?_, fun p => ?_, h.ranked⟩
  · rw [childList?_insert, contains, node?_insert]
    split
    · rfl
    · exact h.listed n
  · have hl := h.live n p hp
    exact ⟨(contains_insert node).2 (.inr hl.1), (contains_insert node).2 (.inr hl.2)⟩
  · rw [parent?_insert, h.children_insert, h.linked]
  · rw [h.children_insert]
    exact h.nodup p

theorem append_eq_ok_iff {e : Document} :
    d.append p id = (e, .ok ()) ↔
      d.contains id ∧ d.contains p ∧ p ≠ id ∧ id ∉ d.ancestors p ∧
        e = (d.detach id).link p id := by
  unfold append
  split
  · rename_i hid
    simp at hid
    simp [hid]
  · rename_i hid
    split
    · rename_i hp
      simp at hp
      simp [hp]
    · rename_i hp
      split
      · rename_i ho
        constructor
        · intro h
          cases h
        · rintro ⟨-, -, hne, hna, -⟩
          exact absurd ho (by simp [hne, hna])
      · rename_i ho
        push Not at ho
        simp only [Bool.not_eq_true', Bool.not_eq_false] at hid hp
        simp [hid, hp, ho.1, ho.2, eq_comm]

theorem append_cases (d : Document) (p id : NodeId) :
    (∃ fault, d.append p id = (d, .error fault)) ∨ ∃ e, d.append p id = (e, .ok ()) := by
  unfold append
  split
  · exact .inl ⟨_, rfl⟩
  · split
    · exact .inl ⟨_, rfl⟩
    · split
      · exact .inl ⟨_, rfl⟩
      · exact .inr ⟨_, rfl⟩

theorem contains_append {e : Document} (h : d.append p id = (e, .ok ())) :
    e.contains n = d.contains n := by
  obtain ⟨-, -, -, -, rfl⟩ := append_eq_ok_iff.1 h
  rw [contains_link, contains_detach]

theorem parent?_append {e : Document} (h : d.append p id = (e, .ok ())) :
    e.parent? n = if n = id then some p else d.parent? n := by
  obtain ⟨-, -, -, -, rfl⟩ := append_eq_ok_iff.1 h
  rw [parent?_link, parent?_detach]
  split
  · rfl
  · rfl

theorem Forest.listed_detach (h : Forest d) (id n : NodeId) :
    ((d.detach id).childList? n).isSome = (d.detach id).contains n := by
  rw [childList?_detach, contains_detach, ← h.listed]
  split
  · exact Option.isSome_map
  · rfl

theorem Forest.children_detach (h : Forest d) (id n : NodeId) :
    (d.detach id).children n = (d.children n).filter (· ≠ id) :=
  Document.children_detach fun _ hq => (h.linked _ _).2 hq

theorem Forest.children_append {e : Document} (hf : Forest d) (h : d.append p id = (e, .ok ())) :
    e.children n = (d.children n).filter (· ≠ id) ++ if n = p then [id] else [] := by
  obtain ⟨-, hp, -, -, rfl⟩ := append_eq_ok_iff.1 h
  have hlist : ((d.detach id).childList? p).isSome := by
    rwa [hf.listed_detach, contains_detach]
  rw [children_link hlist, hf.children_detach]
  split
  · rfl
  · rw [List.append_nil]

/-- Everything within the moved node ranks above its new parent. -/
theorem Forest.ranked_append {e : Document} (hf : Forest d) (h : d.append p id = (e, .ok ())) :
    ∃ rank : NodeId → Nat, ∀ n q, e.parent? n = some q → rank q < rank n := by
  obtain ⟨-, -, hne, hna, -⟩ := append_eq_ok_iff.1 h
  obtain ⟨rank, hr⟩ := hf.ranked
  have hp : ¬d.isWithin id p := by
    rw [isWithin_iff]
    exact not_or.2 ⟨hne, hna⟩
  refine ⟨fun n => if d.isWithin id n then rank n + rank p + 1 else rank n, fun n q hq => ?_⟩
  rw [parent?_append h] at hq
  beta_reduce
  split at hq
  · rename_i hn
    cases hq
    rw [if_neg hp, if_pos (isWithin_iff.2 (.inl hn))]
    omega
  · rename_i hn
    have hlt := hr n q hq
    have hw := hf.isWithin_parent hq hn
    by_cases hq' : d.isWithin id q
    · rw [if_pos hq', if_pos (hw.2 hq')]
      omega
    · rw [if_neg hq', if_neg fun hn' => hq' (hw.1 hn')]
      exact hlt

theorem Forest.append_ok {e : Document} (hf : Forest d) (h : d.append p id = (e, .ok ())) :
    Forest e := by
  obtain ⟨hid, hp, -, -, he⟩ := append_eq_ok_iff.1 h
  refine ⟨fun n => ?_, fun n q hq => ?_, fun n q => ?_, fun q => ?_, hf.ranked_append h⟩
  · rw [he, childList?_link, contains_link, ← hf.listed_detach]
    split
    · exact Option.isSome_map
    · rfl
  · rw [contains_append h, contains_append h]
    rw [parent?_append h] at hq
    split at hq
    · rename_i hn
      cases hq
      exact ⟨hn ▸ hid, hp⟩
    · exact hf.live n q hq
  · rw [parent?_append h, hf.children_append h]
    split
    · rename_i hn
      subst hn
      simp [eq_comm]
    · rename_i hn
      rw [hf.linked]
      simp [hn]
  · rw [hf.children_append h]
    refine List.Nodup.append ((hf.nodup q).filter _) ?_ ?_
    · split
      · exact List.nodup_singleton id
      · exact List.nodup_nil
    · intro n hn hn'
      split at hn'
      · rw [List.mem_singleton.1 hn'] at hn
        simp at hn
      · cases hn'

theorem Forest.append (hf : Forest d) (p id : NodeId) : Forest (d.append p id).1 := by
  rcases append_cases d p id with ⟨fault, h⟩ | ⟨e, h⟩
  · rwa [h]
  · rw [h]
    exact hf.append_ok h

end Document
end ScopedStyle
