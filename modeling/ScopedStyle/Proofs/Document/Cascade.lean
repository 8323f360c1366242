import Mathlib.Data.Char
import Mathlib.Data.List.Find
import Mathlib.Data.List.Lex
import Mathlib.Data.List.Sort
import ScopedStyle.Document.Cascade
import ScopedStyle.Proofs.Document.Reachable
import ScopedStyle.Proofs.Specificity

/-!
# The winner of a cascade

A declaration contends for a node when its rule is attached and a selector of
the rule selects the node. Weights tell contenders apart, so of those for one
property exactly one is the heaviest. The sort brings it behind the others,
and what is set last stays.
-/

namespace ScopedStyle

namespace Specificity

variable {s t : Specificity} {l : List Specificity}

theorem le_iff : s ≤ t ↔ s.key ≤ t.key := not_lt

theorem highest?_eq_none_iff : highest? l = none ↔ l = [] := by
  cases l with
  | nil => simp [highest?]
  | cons s rest =>
    simp only [highest?, reduceCtorEq, iff_false]
    cases highest? rest with
    | none => simp
    | some t => by_cases h : s ≤ t <;> simp [h]

theorem highest?_mem (h : highest? l = some t) : t ∈ l := by
  induction l with
  | nil => cases h
  | cons s rest ih =>
    rw [highest?] at h
    split at h
    · exact Option.some.inj h ▸ List.mem_cons_self
    · rename_i u hu
      split at h
      · exact List.mem_cons_of_mem s (ih (hu.trans h))
      · exact Option.some.inj h ▸ List.mem_cons_self

theorem key_le_highest? (h : highest? l = some t) (hs : s ∈ l) : s.key ≤ t.key := by
  induction l generalizing t with
  | nil => cases hs
  | cons u rest ih =>
    rw [highest?] at h
    rcases List.mem_cons.1 hs with rfl | hs
    · split at h
      · exact Option.some.inj h ▸ le_refl s.key
      · split at h
        · rename_i hle
          exact Option.some.inj h ▸ le_iff.1 hle
        · exact Option.some.inj h ▸ le_refl s.key
    · split at h
      · rename_i hnone
        rw [highest?_eq_none_iff.1 hnone] at hs
        cases hs
      · rename_i v hv
        split at h
        · exact Option.some.inj h ▸ ih hv hs
        · rename_i hnot
          have hlt : v.key < u.key := not_le.1 fun hle => hnot (le_iff.2 hle)
          exact Option.some.inj h ▸ (ih hv hs).trans hlt.le

end Specificity

namespace Properties

variable {ps : Properties} {p q v : Text}

theorem get?_set : (ps.set q v).get? p = if q = p then some v else ps.get? p := by
  induction ps with
  | nil => by_cases h : q = p <;> simp [set, get?, h]
  | cons entry rest ih =>
    obtain ⟨p', v'⟩ := entry
    rw [set]
    split
    · rename_i heq
      subst heq
      by_cases h : q = p <;> simp [get?, h]
    · split
      · by_cases h : q = p <;> simp [get?, h]
      · rename_i hne _
        by_cases hp : p' = p
        · subst hp
          rw [if_neg hne]
          simp [get?]
        · simpa [get?, hp] using ih

def Sorted (ps : Properties) : Prop := ps.Pairwise (·.1 < ·.1)

theorem mem_set {entry : Text × Text} (h : entry ∈ ps.set q v) : entry = (q, v) ∨ entry ∈ ps := by
  induction ps with
  | nil => exact .inl (List.mem_singleton.1 h)
  | cons e rest ih =>
    rw [set] at h
    split at h
    · exact (List.mem_cons.1 h).imp_right (List.mem_cons_of_mem e)
    · split at h
      · exact List.mem_cons.1 h
      · rcases List.mem_cons.1 h with rfl | h
        · exact .inr List.mem_cons_self
        · exact (ih h).imp_right (List.mem_cons_of_mem e)

theorem Sorted.set (h : ps.Sorted) : (ps.set q v).Sorted := by
  induction ps with
  | nil => exact List.pairwise_singleton _ _
  | cons e rest ih =>
    obtain ⟨hfirst, hrest⟩ := List.pairwise_cons.1 h
    rw [Properties.set]
    split
    · rename_i heq
      exact List.pairwise_cons.2 ⟨heq ▸ hfirst, hrest⟩
    · split
      · rename_i hlt
        refine List.pairwise_cons.2 ⟨fun entry hmem => ?_, h⟩
        rcases List.mem_cons.1 hmem with rfl | hmem
        · exact hlt
        · exact hlt.trans (hfirst entry hmem)
      · rename_i hne hnlt
        have hgt : e.1 < q := lt_of_le_of_ne (not_lt.1 hnlt) (Ne.symm hne)
        refine List.pairwise_cons.2 ⟨fun entry hmem => ?_, ih hrest⟩
        rcases mem_set hmem with rfl | hmem
        · exact hgt
        · exact hfirst entry hmem

theorem Sorted.mem_iff (h : ps.Sorted) : (p, v) ∈ ps ↔ ps.get? p = some v := by
  induction ps with
  | nil => simp [get?]
  | cons e rest ih =>
    obtain ⟨hfirst, hrest⟩ := List.pairwise_cons.1 h
    obtain ⟨p', v'⟩ := e
    by_cases hp : p' = p
    · subst hp
      have hnot : (p', v) ∉ rest := fun hmem => lt_irrefl p' (hfirst _ hmem)
      simp [get?, hnot, eq_comm]
    · have hne : ¬((p, v) = (p', v')) := fun heq => hp (congrArg Prod.fst heq).symm
      rw [List.mem_cons, or_iff_right hne, ih hrest]
      simp [get?, hp]

end Properties

namespace Candidate

theorem le_iff {a b : Candidate} : Candidate.le a b ↔ a.weight ≤ b.weight := by
  simp [Candidate.le]

theorem pairwise_mergeSort (cs : List Candidate) :
    (cs.mergeSort Candidate.le).Pairwise fun a b => a.weight ≤ b.weight := by
  have hsorted := @List.pairwise_mergeSort _ Candidate.le
    (fun a b c hab hbc => le_iff.2 ((le_iff.1 hab).trans (le_iff.1 hbc)))
    (fun a b => by simpa [le_iff] using le_total a.weight b.weight) cs
  exact hsorted.imp le_iff.1

theorem mergeSort_eq_insertionSort {cs : List Candidate} (h : (cs.map weight).Nodup) :
    cs.mergeSort Candidate.le = cs.insertionSort fun a b => a.weight ≤ b.weight := by
  have : Std.Total fun a b : Candidate => a.weight ≤ b.weight := ⟨fun _ _ => le_total _ _⟩
  have : IsTrans Candidate fun a b => a.weight ≤ b.weight := ⟨fun _ _ _ => le_trans⟩
  refine List.Perm.eq_of_pairwise (fun a b ha hb hab hba => ?_) (pairwise_mergeSort cs)
    (List.pairwise_insertionSort _ cs)
    ((List.mergeSort_perm cs _).trans (List.perm_insertionSort _ cs).symm)
  exact List.inj_on_of_nodup_map h (List.mem_mergeSort.1 ha) ((List.mem_insertionSort _).1 hb)
    (le_antisymm hab hba)

end Candidate

namespace Document

section Resolve

variable {cs : List Candidate} {p v : Text}

theorem get?_foldr_set :
    Properties.get? p
        (cs.foldr (fun c (ps : Properties) =>
          ps.set c.declaration.property c.declaration.value) []) =
      (cs.find? (·.declaration.property = p)).map (·.declaration.value) := by
  induction cs with
  | nil => rfl
  | cons c cs ih =>
    rw [List.foldr_cons, Properties.get?_set, ih]
    by_cases h : c.declaration.property = p <;> simp [h]

theorem resolve_eq :
    resolve cs = (cs.mergeSort Candidate.le).reverse.foldr
      (fun c (ps : Properties) => ps.set c.declaration.property c.declaration.value) [] :=
  List.foldl_eq_foldr_reverse

theorem sorted_resolve : (resolve cs).Sorted := by
  rw [resolve_eq]
  generalize (cs.mergeSort Candidate.le).reverse = l
  induction l with
  | nil => exact List.Pairwise.nil
  | cons c l ih => exact ih.set

theorem get?_resolve_isSome :
    ((resolve cs).get? p).isSome ↔ ∃ c ∈ cs, c.declaration.property = p := by
  rw [resolve_eq, get?_foldr_set, Option.isSome_map, List.find?_isSome]
  simp

theorem heaviest_of_get?_resolve (h : (resolve cs).get? p = some v) :
    ∃ c ∈ cs, c.declaration.property = p ∧ c.declaration.value = v ∧
      ∀ c' ∈ cs, c'.declaration.property = p → c'.weight ≤ c.weight := by
  rw [resolve_eq, get?_foldr_set, Option.map_eq_some_iff] at h
  obtain ⟨c, hfind, hv⟩ := h
  -- sorted and turned round, the list has the heavier candidates in front
  obtain ⟨hp, later, earlier, hsplit, hlater⟩ := List.find?_eq_some_iff_append.1 hfind
  have horder : (cs.mergeSort Candidate.le).reverse.Pairwise fun a b => b.weight ≤ a.weight :=
    List.pairwise_reverse.2 (Candidate.pairwise_mergeSort cs)
  have hmem (c' : Candidate) : c' ∈ cs ↔ c' ∈ later ++ c :: earlier := by
    rw [← hsplit, List.mem_reverse, List.mem_mergeSort]
  rw [hsplit] at horder
  have hearlier := (List.pairwise_cons.1 (List.pairwise_append.1 horder).2.1).1
  refine ⟨c, (hmem c).2 (by simp), of_decide_eq_true hp, hv, fun c' hc' hp' => ?_⟩
  rcases List.mem_append.1 ((hmem c').1 hc') with hl | hc
  · exact absurd (decide_eq_true hp') (by simpa using hlater c' hl)
  · rcases List.mem_cons.1 hc with rfl | he
    · exact le_refl _
    · exact hearlier c' he

end Resolve

variable {d : Document} {n : NodeId} {r : Rule} {order : Nat} {c : Candidate} {w : List Nat}

def MostSpecific (d : Document) (n : NodeId) (r : Rule) (w : List Nat) : Prop :=
  (∃ s ∈ r.selectors, d.selects s n ∧ s.weight = w) ∧
    ∀ s ∈ r.selectors, d.selects s n → s.weight ≤ w

/-- The rule holds the declaration, and its most specific selector gives the weight. -/
def Offers (d : Document) (n : NodeId) (r : Rule) (c : Candidate) : Prop :=
  d.MostSpecific n r [c.specificity.ids, c.specificity.classes, c.specificity.types] ∧
    c.specificity.important = c.declaration.important ∧
    r.declarations[c.index]? = some c.declaration

/-- A declaration of an attached rule that selects the node. The position of the rule is counted
across all attached sheets. -/
def Contends (d : Document) (n : NodeId) (c : Candidate) : Prop :=
  ∃ r, d.attachedRules[c.specificity.order]? = some r ∧ d.Offers n r c

def Wins (d : Document) (n : NodeId) (p : Text) (c : Candidate) : Prop :=
  d.Contends n c ∧ c.declaration.property = p ∧
    ∀ c', d.Contends n c' → c'.declaration.property = p → c' ≠ c → c'.weight < c.weight

theorem MostSpecific.unique {w' : List Nat} (h : d.MostSpecific n r w)
    (h' : d.MostSpecific n r w') : w = w' := by
  obtain ⟨⟨s, hs, hsel, rfl⟩, hmax⟩ := h
  obtain ⟨⟨s', hs', hsel', rfl⟩, hmax'⟩ := h'
  exact le_antisymm (hmax' s hs hsel) (hmax s' hs' hsel')

theorem Contends.eq_of_weight {c' : Candidate} (h : d.Contends n c) (h' : d.Contends n c')
    (hw : c.weight = c'.weight) : c = c' := by
  obtain ⟨r, hr, -, -, hdecl⟩ := h
  obtain ⟨r', hr', -, -, hdecl'⟩ := h'
  obtain ⟨hkey, hindex⟩ := List.append_inj' hw rfl
  have hspec : c.specificity = c'.specificity := Specificity.key_injective hkey
  have hi : c.index = c'.index := List.head_eq_of_cons_eq hindex
  rw [hspec] at hr
  obtain rfl : r = r' := Option.some.inj (hr.symm.trans hr')
  rw [hi] at hdecl
  have hd : c.declaration = c'.declaration := Option.some.inj (hdecl.symm.trans hdecl')
  cases c with
  | mk s i e =>
    cases c' with
    | mk s' i' e' => exact Candidate.mk.injEq .. ▸ ⟨hspec, hi, hd⟩

theorem mapM_eq_ok {α β : Type} {f : α → Except Fault β} {g : α → β} {l : List α}
    (h : ∀ a ∈ l, f a = .ok (g a)) : l.mapM f = .ok (l.map g) := by
  induction l with
  | nil => rfl
  | cons a l ih =>
    rw [List.mapM_cons, h a List.mem_cons_self,
      ih fun b hb => h b (List.mem_cons_of_mem a hb)]
    rfl

theorem specificities_eq (h : ∀ s ∈ r.selectors, d.selects s n → s.Countable) :
    d.specificities n order r =
      .ok ((r.selectors.filter (d.selects · n)).map fun s =>
        ⟨false, s.ids, s.classes, s.types, order⟩) := by
  refine mapM_eq_ok fun s hs => ?_
  obtain ⟨hmem, hsel⟩ := List.mem_filter.1 hs
  rw [Specificity.ofSelector_eq, if_pos (h s hmem hsel)]

theorem key_le_key_iff {s t : Selector} :
    Specificity.key ⟨false, s.ids, s.classes, s.types, order⟩ ≤
        Specificity.key ⟨false, t.ids, t.classes, t.types, order⟩ ↔ s.weight ≤ t.weight := by
  rw [← not_lt, ← not_lt, not_iff_not]
  simp [Specificity.key_lt_key_iff, Selector.weight, List.cons_lt_cons_iff]

theorem mostSpecific_highest {top : Specificity}
    (h : Specificity.highest? ((r.selectors.filter (d.selects · n)).map fun s =>
      ⟨false, s.ids, s.classes, s.types, order⟩) = some top) :
    d.MostSpecific n r [top.ids, top.classes, top.types] ∧ top.order = order := by
  obtain ⟨s, hs, rfl⟩ := List.mem_map.1 (Specificity.highest?_mem h)
  obtain ⟨hmem, hsel⟩ := List.mem_filter.1 hs
  refine ⟨⟨⟨s, hmem, hsel, rfl⟩, fun s' hmem' hsel' => ?_⟩, rfl⟩
  have hs' : s' ∈ r.selectors.filter (d.selects · n) := List.mem_filter.2 ⟨hmem', hsel'⟩
  exact key_le_key_iff.1 (Specificity.key_le_highest? h (List.mem_map.2 ⟨s', hs', rfl⟩))

theorem exists_mostSpecific {s : Selector} (hs : s ∈ r.selectors) (hsel : d.selects s n) :
    ∃ top : Specificity, d.MostSpecific n r [top.ids, top.classes, top.types] := by
  have hmem : s ∈ r.selectors.filter (d.selects · n) := List.mem_filter.2 ⟨hs, hsel⟩
  cases htop : Specificity.highest? ((r.selectors.filter (d.selects · n)).map fun s =>
      ⟨false, s.ids, s.classes, s.types, 0⟩) with
  | none =>
    rw [List.map_eq_nil_iff.1 (Specificity.highest?_eq_none_iff.1 htop)] at hmem
    cases hmem
  | some top => exact ⟨top, (mostSpecific_highest htop).1⟩

theorem exists_contends_iff {p : Text} :
    (∃ c, d.Contends n c ∧ c.declaration.property = p) ↔
      ∃ r ∈ d.attachedRules, (∃ s ∈ r.selectors, d.selects s n) ∧
        ∃ decl ∈ r.declarations, decl.property = p := by
  constructor
  · rintro ⟨c, ⟨r, hr, ⟨⟨s, hs, hsel, -⟩, -⟩, -, hdecl⟩, hp⟩
    exact ⟨r, List.mem_of_getElem? hr, ⟨s, hs, hsel⟩, c.declaration,
      List.mem_of_getElem? hdecl, hp⟩
  · rintro ⟨r, hr, ⟨s, hs, hsel⟩, decl, hdecl, hp⟩
    obtain ⟨position, hposition⟩ := List.getElem?_of_mem hr
    obtain ⟨index, hindex⟩ := List.getElem?_of_mem hdecl
    obtain ⟨top, htop⟩ := exists_mostSpecific hs hsel
    exact ⟨⟨⟨decl.important, top.ids, top.classes, top.types, position⟩, index, decl⟩,
      ⟨r, hposition, htop, rfl, hindex⟩, hp⟩

theorem ruleCandidates_eq_ok (order : Nat)
    (h : ∀ s ∈ r.selectors, d.selects s n → s.Countable) :
    ∃ cs, d.ruleCandidates n order r = .ok cs ∧
      ∀ c, c ∈ cs ↔ c.specificity.order = order ∧ d.Offers n r c := by
  rw [ruleCandidates, specificities_eq h]
  dsimp only
  split
  · rename_i hnone
    refine ⟨[], rfl, fun c => ?_⟩
    simp only [List.not_mem_nil, false_iff]
    rintro ⟨-, ⟨⟨s, hs, hsel, -⟩, -⟩, -⟩
    have hempty := List.map_eq_nil_iff.1 (Specificity.highest?_eq_none_iff.1 hnone)
    exact List.not_mem_nil (hempty ▸ List.mem_filter.2 ⟨hs, hsel⟩)
  · rename_i top htop
    obtain ⟨hmost, horder⟩ := mostSpecific_highest htop
    refine ⟨_, rfl, fun c => ?_⟩
    rw [List.mem_mapIdx]
    constructor
    · rintro ⟨i, hi, rfl⟩
      exact ⟨horder, hmost, rfl, List.getElem?_eq_getElem hi⟩
    · rintro ⟨hc, hoffer, himportant, hdecl⟩
      obtain ⟨hi, hget⟩ := List.getElem?_eq_some_iff.1 hdecl
      have hweight := hmost.unique hoffer
      have htop : top.withImportant c.declaration.important = c.specificity := by
        refine Specificity.key_injective ?_
        simp only [List.cons.injEq, and_true] at hweight
        simp only [Specificity.key, Specificity.withImportant, hweight, himportant, horder, hc]
      refine ⟨c.index, hi, ?_⟩
      rw [hget, htop]

theorem candidatesFrom_eq_ok (order : Nat) {rules : List Rule}
    (h : ∀ r ∈ rules, ∀ s ∈ r.selectors, d.selects s n → s.Countable)
    (hroom : order + rules.length ≤ Specificity.orderLimit) :
    ∃ cs, d.candidatesFrom n order rules = .ok cs ∧
      ∀ c, c ∈ cs ↔ ∃ i r, c.specificity.order = order + i ∧ rules[i]? = some r ∧
        d.Offers n r c := by
  -- the rest of the rules is numbered from the next position
  induction rules generalizing order with
  | nil => exact ⟨[], rfl, by simp⟩
  | cons r rest ih =>
    rw [List.length_cons] at hroom
    obtain ⟨here, hhere, hmem⟩ := ruleCandidates_eq_ok order (h r List.mem_cons_self)
    have hnext : successor Specificity.orderLimit order = .ok (order + 1) :=
      successor_eq_ok_iff.2 ⟨rfl, by omega⟩
    obtain ⟨more, hmore, hmem'⟩ := ih (order + 1)
      (fun r' hr' => h r' (List.mem_cons_of_mem r hr')) (by omega)
    refine ⟨here ++ more, by simp only [candidatesFrom, hhere, hnext, hmore], fun c => ?_⟩
    rw [List.mem_append, hmem, hmem']
    constructor
    · rintro (⟨horder, hoffer⟩ | ⟨i, r', horder, hget, hoffer⟩)
      · exact ⟨0, r, horder, rfl, hoffer⟩
      · exact ⟨i + 1, r', by omega, hget, hoffer⟩
    · rintro ⟨i, r', horder, hget, hoffer⟩
      cases i with
      | zero => exact .inl ⟨horder, Option.some.inj hget ▸ hoffer⟩
      | succ i => exact .inr ⟨i, r', by omega, hget, hoffer⟩

theorem candidatesFrom_attached
    (hcounts : ∀ r ∈ d.attachedRules, ∀ s ∈ r.selectors, d.selects s n → s.Countable)
    (hrules : d.attachedRules.length < Nat.pow 2 32) :
    ∃ cs, d.candidatesFrom n 0 d.attachedRules = .ok cs ∧ ∀ c, c ∈ cs ↔ d.Contends n c := by
  have hroom : 0 + d.attachedRules.length ≤ Specificity.orderLimit := by
    rw [Nat.zero_add]
    exact Nat.le_pred_of_lt hrules
  obtain ⟨cs, hcs, hmem⟩ := candidatesFrom_eq_ok 0 hcounts hroom
  exact ⟨cs, hcs, fun c => by simp [hmem, Contends]⟩

theorem get?_resolve_iff {cs : List Candidate} {p v : Text}
    (hmem : ∀ c, c ∈ cs ↔ d.Contends n c) :
    (resolve cs).get? p = some v ↔ ∃ c, d.Wins n p c ∧ c.declaration.value = v := by
  have hstrict {c c' : Candidate} (hc : d.Contends n c) (hc' : d.Contends n c') (hne : c' ≠ c)
      (hle : c'.weight ≤ c.weight) : c'.weight < c.weight :=
    lt_of_le_of_ne hle fun hw => hne (hc'.eq_of_weight hc hw)
  constructor
  · intro h
    obtain ⟨c, hc, hp, hv, hmax⟩ := heaviest_of_get?_resolve h
    refine ⟨c, ⟨(hmem c).1 hc, hp, fun c' hc' hp' hne => ?_⟩, hv⟩
    exact hstrict ((hmem c).1 hc) hc' hne (hmax c' ((hmem c').2 hc') hp')
  · rintro ⟨c, ⟨hc, hp, hmax⟩, rfl⟩
    have hsome : ((resolve cs).get? p).isSome := get?_resolve_isSome.2 ⟨c, (hmem c).2 hc, hp⟩
    obtain ⟨v, hv⟩ := Option.isSome_iff_exists.1 hsome
    obtain ⟨c', hc', hp', rfl, hmax'⟩ := heaviest_of_get?_resolve hv
    by_cases heq : c' = c
    · rw [hv, heq]
    · have hlt := hmax c' ((hmem c').1 hc') hp' heq
      exact absurd (hmax' c ((hmem c).2 hc) hp) (not_le.2 hlt)

/-- For every property that an attached rule selecting the node declares, and for no other, the
cascade has one entry: the value of the contender that outweighs all others for the property. -/
theorem declared_winners (d : Document) (n : NodeId)
    (hcounts : ∀ r ∈ d.attachedRules, ∀ s ∈ r.selectors, d.selects s n → s.Countable)
    (hrules : d.attachedRules.length < Nat.pow 2 32) :
    ∃ ps, d.declared n = .ok ps ∧ ps.Sorted ∧
      (∀ p, (∃ v, (p, v) ∈ ps) ↔ ∃ r ∈ d.attachedRules, (∃ s ∈ r.selectors, d.selects s n) ∧
        ∃ decl ∈ r.declarations, decl.property = p) ∧
      (∀ p v, (p, v) ∈ ps ↔ ∃ c, d.Wins n p c ∧ c.declaration.value = v) ∧
      ∀ p, ∃ a, d.computed? n p = .ok a ∧ ∀ v, a = some v ↔ (p, v) ∈ ps := by
  obtain ⟨cs, hcs, hmem⟩ := candidatesFrom_attached hcounts hrules
  have hdeclared : d.declared n = .ok (resolve cs) := by rw [declared, hcs]
  refine ⟨resolve cs, hdeclared, sorted_resolve, fun p => ?_, fun p v => ?_, fun p => ?_⟩
  · simp only [sorted_resolve.mem_iff, ← Option.isSome_iff_exists, get?_resolve_isSome, hmem]
    exact exists_contends_iff
  · exact sorted_resolve.mem_iff.trans (get?_resolve_iff hmem)
  · refine ⟨(resolve cs).get? p, ?_, fun v => sorted_resolve.mem_iff.symm⟩
    rw [computed?, hdeclared]

def twoSheets : Document :=
  start.editAll [.insertChild body ((Node.element "div".toList).addClass "a".toList),
    .attachSheet, .attachSheet,
    .insertRule ⟨0⟩ ".a { color: red !important; margin: 0; margin: 1px }".toList 0,
    .insertRule ⟨1⟩ "div { color: blue !important; margin: 2px; border: 0 }".toList 0]

theorem declared_winners_two_sheets :
    (∀ r ∈ twoSheets.attachedRules, ∀ s ∈ r.selectors, twoSheets.selects s ⟨3⟩ → s.Countable) ∧
      twoSheets.attachedRules.length < Nat.pow 2 32 ∧
      (∃ c, twoSheets.Wins ⟨3⟩ "margin".toList c ∧ c.declaration.value = "1px".toList) ∧
      ∃ c, twoSheets.Wins ⟨3⟩ "border".toList c ∧ c.declaration.value = "0".toList := by
  have hcounts : ∀ r ∈ twoSheets.attachedRules, ∀ s ∈ r.selectors,
      twoSheets.selects s ⟨3⟩ → s.Countable := by decide +kernel
  have hrules : twoSheets.attachedRules.length < Nat.pow 2 32 := by decide +kernel
  obtain ⟨ps, hps, -, -, hwins, -⟩ := declared_winners twoSheets ⟨3⟩ hcounts hrules
  obtain ⟨cs, hcs, -⟩ := candidatesFrom_attached hcounts hrules
  have hdistinct : (twoSheets.candidatesFrom ⟨3⟩ 0 twoSheets.attachedRules).map
      (fun cs => decide (cs.map Candidate.weight).Nodup) = .ok true := by decide +kernel
  have hordered : (twoSheets.candidatesFrom ⟨3⟩ 0 twoSheets.attachedRules).map
      (fun cs => (cs.insertionSort fun a b => a.weight ≤ b.weight).foldl
        (fun ps c => Properties.set c.declaration.property c.declaration.value ps) []) =
      .ok [("border".toList, "0".toList), ("color".toList, "red".toList),
        ("margin".toList, "1px".toList)] := by decide +kernel
  rw [hcs] at hdistinct hordered
  have hnodup : (cs.map Candidate.weight).Nodup := of_decide_eq_true (Except.ok.inj hdistinct)
  rw [declared, hcs] at hps
  have hresolved : resolve cs = ps := Except.ok.inj hps
  rw [resolve, Candidate.mergeSort_eq_insertionSort hnodup] at hresolved
  obtain rfl := (Except.ok.inj hordered).symm.trans hresolved
  exact ⟨hcounts, hrules, (hwins _ _).1 (by decide), (hwins _ _).1 (by decide)⟩

end Document
end ScopedStyle
