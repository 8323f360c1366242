import ScopedStyle.Proofs.Document.Forest

/-!
# Removal

Removing a node works through a queue. Whatever the links are, it takes out
exactly what lies below the queue; in a forest that is the removed node with its
descendants, so that a forest stays behind.
-/

namespace ScopedStyle
namespace Document

def record (d : Document) (n : NodeId) : Option Node × Option NodeId × Option (List NodeId) :=
  (d.node? n, d.parent? n, d.childList? n)

/-- `e` is `d` without some nodes, their links and the sheets that they carry. -/
structure Without (e d : Document) (gone : NodeId → Prop) : Prop where
  lost : ∀ n, gone n → e.record n = (none, none, none)
  kept : ∀ n, ¬gone n → e.record n = d.record n
  attached : ∃ keep : SheetId → Bool, e.attached = d.attached.filter keep ∧
    ∀ s, keep s ↔ ∀ n, gone n → d.carried? n ≠ some s
  sheets : e.sheets = d.sheets

variable {d e f : Document} {gone gone' : NodeId → Prop} {n p id top : NodeId}
  {queue : List NodeId}

section Without
variable (he : e.Without d gone)
include he

theorem Without.node? (hn : ¬gone n) : e.node? n = d.node? n :=
  congrArg Prod.fst (he.kept n hn)

theorem Without.parent? (hn : ¬gone n) : e.parent? n = d.parent? n :=
  congrArg (·.2.1) (he.kept n hn)

theorem Without.childList? (hn : ¬gone n) : e.childList? n = d.childList? n :=
  congrArg (·.2.2) (he.kept n hn)

theorem Without.node?_none (hn : gone n) : e.node? n = none :=
  congrArg Prod.fst (he.lost n hn)

theorem Without.parent?_none (hn : gone n) : e.parent? n = none :=
  congrArg (·.2.1) (he.lost n hn)

theorem Without.childList?_none (hn : gone n) : e.childList? n = none :=
  congrArg (·.2.2) (he.lost n hn)

theorem Without.carried? (hn : ¬gone n) : e.carried? n = d.carried? n := by
  rw [Document.carried?, he.node? hn, Document.carried?]

theorem Without.carried?_none (hn : gone n) : e.carried? n = none := by
  rw [Document.carried?, he.node?_none hn]
  rfl

theorem Without.contains_iff : e.contains n ↔ ¬gone n ∧ d.contains n := by
  by_cases hn : gone n
  · simp [contains, he.node?_none hn, hn]
  · simp [contains, he.node? hn, hn]

theorem Without.children (hn : ¬gone n) : e.children n = d.children n := by
  rw [Document.children, he.childList? hn, Document.children]

theorem Without.children_nil (hn : gone n) : e.children n = [] := by
  rw [Document.children, he.childList?_none hn]
  rfl

theorem Without.trans (hf : f.Without e gone') : f.Without d fun n => gone n ∨ gone' n := by
  obtain ⟨keep, hk, hkeep⟩ := he.attached
  obtain ⟨keep', hk', hkeep'⟩ := hf.attached
  refine ⟨fun n hn => ?_, fun n hn => ?_, ⟨fun s => keep' s && keep s, ?_, fun s => ?_⟩,
    hf.sheets.trans he.sheets⟩
  · by_cases h' : gone' n
    · exact hf.lost n h'
    · exact (hf.kept n h').trans (he.lost n (hn.resolve_right h'))
  · rw [not_or] at hn
    exact (hf.kept n hn.2).trans (he.kept n hn.1)
  · rw [hk', hk, List.filter_filter]
  · rw [Bool.and_eq_true, hkeep, hkeep']
    constructor
    · rintro ⟨h', h⟩ n hn
      by_cases hg : gone n
      · exact h n hg
      · rw [← he.carried? hg]
        exact h' n (hn.resolve_left hg)
    · intro h
      refine ⟨fun n hn => ?_, fun n hn => h n (.inl hn)⟩
      by_cases hg : gone n
      · rw [he.carried?_none hg]
        exact (Option.some_ne_none s).symm
      · rw [he.carried? hg]
        exact h n (.inr hn)

theorem Without.congr (h : ∀ n, gone n ↔ gone' n) : e.Without d gone' := by
  have : gone = gone' := funext fun n => propext (h n)
  exact this ▸ he

end Without

theorem Without.refl (d : Document) : d.Without d fun _ => False := by
  refine ⟨fun _ => False.elim, fun _ _ => rfl, ⟨fun _ => true, ?_, fun s => ?_⟩, rfl⟩
  · rw [List.filter_true]
  · exact ⟨fun _ _ => False.elim, fun _ => rfl⟩

theorem discard_without : (d.discard id).Without d (· = id) := by
  refine ⟨fun n hn => ?_, fun n hn => ?_,
    ⟨fun s => d.carried? id != some s, ?_, fun s => ?_⟩, rfl⟩
  · rw [record, node?_discard, parent?_discard, childList?_discard, if_pos hn, if_pos hn, if_pos hn]
  · rw [record, node?_discard, parent?_discard, childList?_discard, if_neg hn, if_neg hn, if_neg hn,
      record]
  · unfold discard
    dsimp only
    cases d.carried? id with
    | none => exact (List.filter_true _).symm
    | some sheet =>
      refine List.filter_congr fun s _ => ?_
      rw [Bool.eq_iff_iff, decide_eq_true_iff, bne_iff_ne, Ne, Ne, Option.some_inj, eq_comm]
  · simp

def Down (d : Document) (p n : NodeId) : Prop := n ∈ d.children p

/-- Whether `n` is one of a queue or under one. -/
def Below (d : Document) (queue : List NodeId) (n : NodeId) : Prop :=
  ∃ q ∈ queue, Relation.ReflTransGen d.Down q n

theorem Down.of_discard (h : (d.discard id).Down p n) : d.Down p n := by
  rw [Down, children_discard] at h
  split at h
  · cases h
  · exact h

theorem below_cons :
    d.Below (id :: queue) n ↔ n = id ∨ (d.discard id).Below (queue ++ d.children id) n := by
  constructor
  · rintro ⟨q, hq, hpath⟩
    induction hpath with
    | refl =>
      rcases List.mem_cons.1 hq with rfl | hq
      · exact .inl rfl
      · exact .inr ⟨q, List.mem_append_left _ hq, .refl⟩
    | @tail b c _ hc ih =>
      -- the last time that the path leaves `id` it enters a child of `id`
      by_cases hb : b = id
      · exact .inr ⟨c, List.mem_append_right _ (hb ▸ hc), .refl⟩
      · obtain ⟨q', hq', hpath'⟩ := ih.resolve_left hb
        refine .inr ⟨q', hq', hpath'.tail ?_⟩
        rw [Down, children_discard, if_neg hb]
        exact hc
  · rintro (rfl | ⟨q, hq, hpath⟩)
    · exact ⟨n, List.mem_cons_self, .refl⟩
    · have hpath' := Relation.ReflTransGen.mono (fun _ _ => Down.of_discard) q n hpath
      rcases List.mem_append.1 hq with hq | hq
      · exact ⟨q, List.mem_cons_of_mem _ hq, hpath'⟩
      · exact ⟨id, List.mem_cons_self, .head hq hpath'⟩

theorem length_clear (top : NodeId) (d : Document) (queue : List NodeId) (found : Option Node) :
    (clear top d queue found).1.nodes.length = d.nodes.length := by
  fun_induction clear top d queue found with
  | case1 d found => rfl
  | case2 d found id queue ih => exact ih.trans List.length_set

theorem clear_without (top : NodeId) (d : Document) (queue : List NodeId) (found : Option Node) :
    (clear top d queue found).1.Without d (d.Below queue) := by
  fun_induction clear top d queue found with
  | case1 d found =>
    refine (Without.refl d).congr fun n => ⟨False.elim, ?_⟩
    rintro ⟨q, hq, -⟩
    cases hq
  | case2 d found id queue ih =>
    exact (discard_without.trans ih).congr fun n => below_cons.symm

theorem Forest.without (h : Forest d) (hw : e.Without d gone)
    (hg : ∀ n p, d.parent? n = some p → (gone n ↔ gone p)) : Forest e := by
  obtain ⟨rank, hr⟩ := h.ranked
  -- `gone` is closed along the links, so a node that stays keeps its parent
  have hparent : ∀ n p, e.parent? n = some p → ¬gone n ∧ d.parent? n = some p := by
    intro n p hn
    by_cases hgn : gone n
    · rw [hw.parent?_none hgn] at hn
      cases hn
    · exact ⟨hgn, (hw.parent? hgn).symm.trans hn⟩
  refine ⟨fun n => ?_, fun n p hn => ?_, fun n p => ⟨fun hn => ?_, fun hn => ?_⟩, fun p => ?_,
    rank, fun n p hn => hr n p (hparent n p hn).2⟩
  · by_cases hn : gone n
    · rw [contains, hw.node?_none hn, hw.childList?_none hn]
      rfl
    · rw [contains, hw.node? hn, hw.childList? hn]
      exact h.listed n
  · obtain ⟨hgn, hd⟩ := hparent n p hn
    have hl := h.live n p hd
    exact ⟨hw.contains_iff.2 ⟨hgn, hl.1⟩,
      hw.contains_iff.2 ⟨fun hp => hgn ((hg n p hd).2 hp), hl.2⟩⟩
  · obtain ⟨hgn, hd⟩ := hparent n p hn
    rw [hw.children fun hp => hgn ((hg n p hd).2 hp)]
    exact (h.linked n p).1 hd
  · by_cases hp : gone p
    · rw [hw.children_nil hp] at hn
      cases hn
    · rw [hw.children hp] at hn
      have hd := (h.linked n p).2 hn
      rw [hw.parent? fun hn' => hp ((hg n p hd).1 hn'), hd]
  · by_cases hp : gone p
    · rw [hw.children_nil hp]
      exact List.nodup_nil
    · rw [hw.children hp]
      exact h.nodup p

theorem Forest.detach (h : Forest d) (id : NodeId) : Forest (d.detach id) := by
  obtain ⟨rank, hr⟩ := h.ranked
  refine ⟨h.listed_detach id, fun n p hn => ?_, fun n p => ?_, fun p => ?_, rank, fun n p hn => ?_⟩
  · rw [parent?_detach] at hn
    rw [contains_detach, contains_detach]
    split at hn
    · cases hn
    · exact h.live n p hn
  · rw [parent?_detach, h.children_detach]
    split
    · rename_i hn
      simp [hn]
    · rename_i hn
      rw [h.linked]
      simp [hn]
  · rw [h.children_detach]
    exact (h.nodup p).filter _
  · rw [parent?_detach] at hn
    split at hn
    · cases hn
    · exact hr n p hn

theorem Forest.below_parent (h : Forest d) (ht : d.parent? top = none) (hp : d.parent? n = some p) :
    d.Below [top] n ↔ d.Below [top] p := by
  constructor
  · rintro ⟨q, hq, hpath⟩
    rw [List.mem_singleton] at hq
    subst hq
    cases hpath with
    | refl =>
      rw [ht] at hp
      cases hp
    | @tail b _ hpath hb =>
      have hb' := (h.linked n b).2 hb
      rw [hp] at hb'
      cases hb'
      exact ⟨q, List.mem_singleton_self q, hpath⟩
  · rintro ⟨q, hq, hpath⟩
    exact ⟨q, hq, hpath.tail ((h.linked n p).1 hp)⟩

theorem Forest.below_detach (h : Forest d) :
    (d.detach id).Below [id] n ↔ n = id ∨ id ∈ d.ancestors n := by
  have hdown : ∀ {p n}, (d.detach id).Down p n ↔ d.parent? n = some p ∧ n ≠ id := by
    intro p n
    rw [Down, h.children_detach, List.mem_filter, decide_eq_true_iff, h.linked]
  rw [h.mem_ancestors_iff]
  constructor
  · rintro ⟨q, hq, hpath⟩
    rw [List.mem_singleton] at hq
    subst hq
    induction hpath with
    | refl => exact .inl rfl
    | tail _ hb ih =>
      have hup := (hdown.1 hb).1
      rcases ih with rfl | ih
      · exact .inr (.single hup)
      · exact .inr (.head hup ih)
  · rintro (rfl | hup)
    · exact ⟨n, List.mem_singleton_self n, .refl⟩
    · induction hup using Relation.TransGen.head_induction_on with
      | @single n hp =>
        refine ⟨id, List.mem_singleton_self id, .single (hdown.2 ⟨hp, ?_⟩)⟩
        rintro rfl
        exact h.acyclic n (.single hp)
      | @head n p hp hup ih =>
        obtain ⟨q, hq, hpath⟩ := ih
        refine ⟨q, hq, hpath.tail (hdown.2 ⟨hp, ?_⟩)⟩
        rintro rfl
        exact h.acyclic n (.head hp hup)

theorem Forest.contains_remove (h : Forest d) (hid : d.contains id) (hs : isStructural id = false) :
    (d.remove id).1.contains n ↔ d.contains n ∧ n ≠ id ∧ id ∉ d.ancestors n := by
  have hgo : ¬((!d.contains id || isStructural id) = true) := by simp [hid, hs]
  rw [Document.remove, if_neg hgo, (clear_without id (d.detach id) [id] none).contains_iff,
    contains_detach, h.below_detach, not_or, and_comm]

theorem Forest.remove (h : Forest d) (id : NodeId) : Forest (d.remove id).1 := by
  unfold Document.remove
  split
  · exact h
  · refine (h.detach id).without (clear_without id (d.detach id) [id] none) fun n p hp => ?_
    refine (h.detach id).below_parent ?_ hp
    rw [parent?_detach, if_pos rfl]

end Document
end ScopedStyle
