import Mathlib.Data.List.Basic
import ScopedStyle.Proofs.Document.Sheets

/-!
# Adopting children

A node without a parent is above no node but those under it, so it takes any other
live nodes as its children. They come behind those that it has, in the order in
which they are given, and leave the lists that they stood in.
-/

namespace ScopedStyle
namespace Document
variable {d e f : Document} {p : NodeId} {ns : List NodeId}

structure Adopts (e d : Document) (p : NodeId) (ns : List NodeId) : Prop where
  parent : ∀ n, e.parent? n = if n ∈ ns then some p else d.parent? n
  children : ∀ q, e.children q = (d.children q).filter (· ∉ ns) ++ if q = p then ns else []

theorem Adopts.nil (d : Document) (p : NodeId) : d.Adopts d p [] := by
  refine ⟨fun n => rfl, fun q => ?_⟩
  simp

theorem Adopts.cons {id : NodeId} (hf : Forest d) (happend : d.append p id = (e, .ok ()))
    (hrest : f.Adopts e p ns) (hid : id ∉ ns) : f.Adopts d p (id :: ns) := by
  refine ⟨fun n => ?_, fun q => ?_⟩
  · rw [hrest.parent, parent?_append happend]
    by_cases hn : n ∈ ns
    · simp [hn]
    · simp [hn, List.mem_cons]
  · rw [hrest.children, hf.children_append happend, List.filter_append, List.filter_filter]
    have hkept : (d.children q).filter (fun n => decide (n ∉ ns) && decide (n ≠ id)) =
        (d.children q).filter (· ∉ id :: ns) := by
      refine List.filter_congr fun n _ => ?_
      rw [Bool.and_comm]
      simp
    rw [hkept]
    split
    · simp [hid]
    · simp

theorem Forest.appendAll_ok (h : Forest d) (hp : d.contains p) (htop : d.parent? p = none)
    (hlive : ∀ n ∈ ns, d.contains n) (hself : p ∉ ns) (hnodup : ns.Nodup) :
    (d.appendAll p ns).2 = .ok () ∧ (d.appendAll p ns).1.Adopts d p ns := by
  induction ns generalizing d with
  | nil => exact ⟨rfl, .nil d p⟩
  | cons id ns ih =>
    obtain ⟨hid, hnodup⟩ := List.nodup_cons.1 hnodup
    obtain ⟨hne, hself⟩ := not_or.1 (mt List.mem_cons.2 hself)
    obtain ⟨hlid, hlive⟩ := List.forall_mem_cons.1 hlive
    have happend : d.append p id = ((d.detach id).link p id, .ok ()) := by
      refine append_eq_ok_iff.2 ⟨hlid, hp, hne, ?_, rfl⟩
      rw [ancestors_none htop]
      exact List.not_mem_nil
    generalize (d.detach id).link p id = e at happend
    have htop' : e.parent? p = none := by rw [parent?_append happend, if_neg hne, htop]
    have hlive' : ∀ n ∈ ns, e.contains n := fun n hn => by
      rw [contains_append happend]
      exact hlive n hn
    have hrest := ih (h.append_ok happend) (by rwa [contains_append happend])
      htop' hlive' hself hnodup
    rw [Document.appendAll, happend]
    exact ⟨hrest.1, .cons h happend hrest.2 hid⟩

theorem Forest.createElement_ok (h : Forest d) (tag : Text) (attributes : Entries Text)
    (hlive : ∀ n ∈ ns, d.contains n) (hnodup : ns.Nodup) :
    (d.createElement tag attributes ns).2 = .ok ⟨d.nodes.length⟩ ∧
      (d.createElement tag attributes ns).1.Adopts d ⟨d.nodes.length⟩ ns := by
  have hself : ⟨d.nodes.length⟩ ∉ ns := fun hm => not_contains_next (hlive _ hm)
  have htop : d.parent? ⟨d.nodes.length⟩ = none :=
    Option.eq_none_iff_forall_ne_some.2 fun p hp => not_contains_next (h.live _ p hp).1
  unfold Document.createElement
  dsimp only
  generalize attributes.foldl _ (Node.element tag) = node
  obtain ⟨hok, hadopts⟩ := (h.insert node).appendAll_ok
    ((contains_insert node).2 (.inl rfl)) htop
    (fun n hn => (contains_insert node).2 (.inr (hlive n hn))) hself hnodup
  have hadopts : ((d.insert node).1.appendAll ⟨d.nodes.length⟩ ns).1.Adopts d
      ⟨d.nodes.length⟩ ns :=
    ⟨hadopts.parent, fun q => by rw [hadopts.children, h.children_insert]⟩
  split
  · rename_i e fault he
    have hfault := hok.symm.trans (congrArg Prod.snd he)
    cases hfault
  · rename_i e he
    exact ⟨rfl, congrArg Prod.fst he ▸ hadopts⟩

end Document
end ScopedStyle
