import Mathlib.Data.List.InsertIdx
import Mathlib.Data.List.Nodup
import Mathlib.Order.Monotone.Basic
import ScopedStyle.Proofs.Document.Attached
import ScopedStyle.Proofs.Document.Cascade
import ScopedStyle.Proofs.RuleList

/-!
# Rules that do not select a node

A rule put into an attached sheet moves all rules behind it one position on. What counts
in the cascade is which of two positions is the larger one, and a strictly monotone map of
the positions leaves that as it is. So a rule that has nothing for a node changes nothing for
it, as long as there is a position for every rule.
-/

namespace ScopedStyle

namespace Specificity

variable {f : Nat → Nat} {s t : Specificity}

def renumber (f : Nat → Nat) (s : Specificity) : Specificity := { s with order := f s.order }

theorem renumber_le_renumber (hf : StrictMono f) : s.renumber f ≤ t.renumber f ↔ s ≤ t := by
  rw [le_iff, le_iff, ← not_lt, ← not_lt, not_iff_not]
  simp [key, renumber, List.cons_lt_cons_iff, hf.lt_iff_lt, hf.injective.eq_iff]

theorem highest?_renumber (hf : StrictMono f) (l : List Specificity) :
    highest? (l.map (renumber f)) = (highest? l).map (renumber f) := by
  induction l with
  | nil => rfl
  | cons s l ih =>
    rw [List.map_cons, highest?, highest?, ih]
    cases highest? l with
    | none => rfl
    | some t =>
      simp only [Option.map_some, renumber_le_renumber hf]
      split
      · rfl
      · rfl

end Specificity

namespace Candidate

variable {f : Nat → Nat}

def renumber (f : Nat → Nat) (c : Candidate) : Candidate :=
  { c with specificity := c.specificity.renumber f }

theorem le_renumber (hf : StrictMono f) (a b : Candidate) :
    Candidate.le (a.renumber f) (b.renumber f) = Candidate.le a b := by
  rw [Bool.eq_iff_iff, le_iff, le_iff, ← not_lt, ← not_lt, not_iff_not]
  obtain ⟨⟨_, _, _, _, _⟩, _, _⟩ := a
  obtain ⟨⟨_, _, _, _, _⟩, _, _⟩ := b
  simp [weight_lt_weight_iff, Specificity.key_lt_key_iff, renumber, Specificity.renumber,
    hf.lt_iff_lt, hf.injective.eq_iff]

end Candidate

namespace Document

variable {d e : Document} {n : NodeId} {r : Rule} {rules front later : List Rule} {order : Nat}
  {f : Nat → Nat}

theorem resolve_renumber (hf : StrictMono f) (cs : List Candidate) :
    resolve (cs.map (Candidate.renumber f)) = resolve cs := by
  have hsort : (cs.map (Candidate.renumber f)).mergeSort Candidate.le =
      (cs.mergeSort Candidate.le).map (Candidate.renumber f) :=
    (List.map_mergeSort fun a _ b _ => (Candidate.le_renumber hf a b).symm).symm
  rw [resolve, hsort, List.foldl_map, resolve]
  rfl

def Weighable (d : Document) (n : NodeId) (r : Rule) : Prop :=
  ∀ s ∈ r.selectors, d.selects s n → s.Countable

instance (d : Document) (n : NodeId) : DecidablePred (d.Weighable n) := fun r =>
  inferInstanceAs (Decidable (∀ s ∈ r.selectors, d.selects s n → s.Countable))

def ruleContenders (d : Document) (n : NodeId) (order : Nat) (r : Rule) : List Candidate :=
  match Specificity.highest? ((r.selectors.filter (d.selects · n)).map fun s =>
      ⟨false, s.ids, s.classes, s.types, order⟩) with
  | none => []
  | some s => r.declarations.mapIdx fun i decl => ⟨s.withImportant decl.important, i, decl⟩

def contenders (d : Document) (n : NodeId) (order : Nat) : List Rule → List Candidate
  | [] => []
  | r :: rest => d.ruleContenders n order r ++ d.contenders n (order + 1) rest

theorem mapM_eq_ite {α β : Type} {g : α → Except Fault β} {p : α → Prop} [DecidablePred p]
    {φ : α → β} {fault : Fault} {l : List α}
    (h : ∀ a, g a = if p a then .ok (φ a) else .error fault) :
    l.mapM g = if ∀ a ∈ l, p a then .ok (l.map φ) else .error fault := by
  induction l with
  | nil => rw [if_pos fun a ha => by cases ha]; rfl
  | cons a l ih =>
    rw [List.mapM_cons, h, ih]
    by_cases ha : p a
    · by_cases hl : ∀ b ∈ l, p b
      · rw [if_pos ha, if_pos hl, if_pos (List.forall_mem_cons.2 ⟨ha, hl⟩)]
        rfl
      · rw [if_pos ha, if_neg hl, if_neg fun hall => hl (List.forall_mem_cons.1 hall).2]
        rfl
    · rw [if_neg ha, if_neg fun hall => ha (List.forall_mem_cons.1 hall).1]
      rfl

theorem ruleCandidates_eq_ite (d : Document) (n : NodeId) (order : Nat) (r : Rule) :
    d.ruleCandidates n order r =
      if d.Weighable n r then .ok (d.ruleContenders n order r) else .error .overflow := by
  have hselected : (∀ s ∈ r.selectors.filter (d.selects · n), s.Countable) ↔ d.Weighable n r := by
    simp only [List.mem_filter, and_imp]
    rfl
  rw [ruleCandidates, specificities, mapM_eq_ite fun s => Specificity.ofSelector_eq s order false]
  by_cases h : d.Weighable n r
  · rw [if_pos h, if_pos (hselected.2 h), ruleContenders]
    dsimp only
    generalize Specificity.highest? _ = top
    cases top with
    | none => rfl
    | some s => rfl
  · rw [if_neg h, if_neg (mt hselected.1 h)]

theorem candidatesFrom_eq_ite (d : Document) (n : NodeId) (rules : List Rule)
    (h : order ≤ Specificity.orderLimit) :
    d.candidatesFrom n order rules =
      if (∀ r ∈ rules, d.Weighable n r) ∧ order + rules.length ≤ Specificity.orderLimit then
        .ok (d.contenders n order rules)
      else .error .overflow := by
  induction rules generalizing order with
  | nil => rw [if_pos ⟨fun r hr => (by cases hr), h⟩]; rfl
  | cons r rest ih =>
    have hall : ((∀ r' ∈ r :: rest, d.Weighable n r') ∧
        order + (r :: rest).length ≤ Specificity.orderLimit) ↔
        d.Weighable n r ∧ (∀ r' ∈ rest, d.Weighable n r') ∧
          order + 1 + rest.length ≤ Specificity.orderLimit := by
      rw [List.forall_mem_cons, and_assoc, List.length_cons, Nat.add_right_comm, Nat.add_assoc]
    rw [candidatesFrom, ruleCandidates_eq_ite, successor]
    by_cases hr : d.Weighable n r
    · by_cases hroom : order < Specificity.orderLimit
      · rw [if_pos hr, if_pos hroom]
        dsimp only
        rw [ih hroom]
        by_cases hrest : (∀ r' ∈ rest, d.Weighable n r') ∧
            order + 1 + rest.length ≤ Specificity.orderLimit
        · rw [if_pos hrest, if_pos (hall.2 ⟨hr, hrest⟩)]
          rfl
        · rw [if_neg hrest, if_neg fun h => hrest (hall.1 h).2]
      · rw [if_pos hr, if_neg hroom, if_neg fun h => hroom (by have := (hall.1 h).2.2; omega)]
    · rw [if_neg hr, if_neg fun h => hr (hall.1 h).1]

theorem contenders_append (d : Document) (n : NodeId) (order : Nat) (front later : List Rule) :
    d.contenders n order (front ++ later) =
      d.contenders n order front ++ d.contenders n (order + front.length) later := by
  induction front generalizing order with
  | nil => rfl
  | cons r front ih =>
    rw [List.cons_append, contenders, ih, contenders, List.append_assoc, List.length_cons,
      Nat.add_right_comm, Nat.add_assoc order]

theorem ruleContenders_renumber (hf : StrictMono f) (order : Nat) (r : Rule) :
    d.ruleContenders n (f order) r = (d.ruleContenders n order r).map (Candidate.renumber f) := by
  have hspecs : ((r.selectors.filter (d.selects · n)).map fun s =>
      (⟨false, s.ids, s.classes, s.types, f order⟩ : Specificity)) =
      ((r.selectors.filter (d.selects · n)).map fun s =>
        (⟨false, s.ids, s.classes, s.types, order⟩ : Specificity)).map
          (Specificity.renumber f) := by
    rw [List.map_map]
    rfl
  rw [ruleContenders, hspecs, Specificity.highest?_renumber hf, ruleContenders]
  generalize Specificity.highest? _ = top
  cases top with
  | none => rfl
  | some s =>
    rw [Option.map_some]
    dsimp only
    refine List.ext_getElem? fun i => ?_
    rw [List.getElem?_map, List.getElem?_mapIdx, List.getElem?_mapIdx, Option.map_map]
    rfl

theorem contenders_renumber (hf : StrictMono f) (order order' : Nat)
    (hpos : ∀ i < rules.length, f (order + i) = order' + i) :
    d.contenders n order' rules = (d.contenders n order rules).map (Candidate.renumber f) := by
  induction rules generalizing order order' with
  | nil => rfl
  | cons r rest ih =>
    have hfirst : f order = order' := hpos 0 (Nat.succ_pos _)
    have hrest : ∀ i < rest.length, f (order + 1 + i) = order' + 1 + i := fun i hi => by
      rw [Nat.add_right_comm, Nat.add_assoc, hpos (i + 1) (Nat.succ_lt_succ hi)]
      omega
    rw [contenders, contenders, List.map_append, ← ruleContenders_renumber hf, hfirst,
      ih (order + 1) (order' + 1) hrest]

theorem ruleContenders_of_not_selects (h : ∀ s ∈ r.selectors, ¬d.selects s n) :
    d.ruleContenders n order r = [] := by
  have hnone : r.selectors.filter (d.selects · n) = [] := List.filter_eq_nil_iff.2 h
  rw [ruleContenders, hnone]
  rfl

/-- Where a position goes when one is put in at `k`. -/
def skip (k i : Nat) : Nat := if i < k then i else i + 1

theorem skip_strictMono (k : Nat) : StrictMono (skip k) := by
  intro i j hij
  unfold skip
  split
  · split <;> omega
  · split <;> omega

theorem contenders_insert (h : ∀ s ∈ r.selectors, ¬d.selects s n) (front later : List Rule) :
    d.contenders n 0 (front ++ r :: later) =
      (d.contenders n 0 (front ++ later)).map (Candidate.renumber (skip front.length)) := by
  have hmono := skip_strictMono front.length
  have hfront : ∀ i < front.length, skip front.length (0 + i) = 0 + i := fun i hi =>
    if_pos (by omega)
  have hlater : ∀ i < later.length, skip front.length (0 + front.length + i) =
      0 + front.length + 1 + i := fun i _ => (if_neg (by omega)).trans (by omega)
  rw [contenders_append, contenders, ruleContenders_of_not_selects h, List.nil_append,
    contenders_append, List.map_append, ← contenders_renumber hmono 0 0 hfront,
    ← contenders_renumber hmono (0 + front.length) _ hlater]

theorem candidatesFrom_insert (h : ∀ s ∈ r.selectors, ¬d.selects s n) (front later : List Rule) :
    (d.candidatesFrom n 0 (front ++ r :: later)).map resolve =
      if (front ++ later).length = Specificity.orderLimit then .error .overflow
      else (d.candidatesFrom n 0 (front ++ later)).map resolve := by
  have hr : d.Weighable n r := fun s hs hsel => absurd hsel (h s hs)
  have hall : ((∀ r' ∈ front ++ r :: later, d.Weighable n r') ∧
      0 + (front ++ r :: later).length ≤ Specificity.orderLimit) ↔
      (∀ r' ∈ front ++ later, d.Weighable n r') ∧
        (front ++ later).length < Specificity.orderLimit := by
    simp only [List.forall_mem_append, List.forall_mem_cons, hr, true_and, List.length_append,
      List.length_cons, Nat.zero_add, ← Nat.add_assoc, Nat.succ_le_iff]
  rw [candidatesFrom_eq_ite d n _ (Nat.zero_le _), candidatesFrom_eq_ite d n _ (Nat.zero_le _),
    contenders_insert h]
  by_cases hmore : (∀ r' ∈ front ++ later, d.Weighable n r') ∧
      (front ++ later).length < Specificity.orderLimit
  · rw [if_pos (hall.2 hmore), if_neg (Nat.ne_of_lt hmore.2),
      if_pos ⟨hmore.1, Nat.zero_add _ ▸ hmore.2.le⟩]
    exact congrArg Except.ok (resolve_renumber (skip_strictMono _) _)
  · rw [if_neg (mt hall.1 hmore)]
    split
    · rfl
    · rename_i hfull
      rw [if_neg fun h => hmore ⟨h.1, by have := h.2; omega⟩]

theorem declared_eq_map (d : Document) (n : NodeId) :
    d.declared n = (d.candidatesFrom n 0 d.attachedRules).map resolve := by
  rw [declared]
  cases d.candidatesFrom n 0 d.attachedRules with
  | error _ => rfl
  | ok _ => rfl

section Insertion

variable {s : SheetId} {index : Nat} {text : Text} {rule : Rule} {ids : List SheetId}

theorem sheet_set (h : s.index < d.sheets.length) (l : RuleList) (t : SheetId) :
    ({ d with sheets := d.sheets.set s.index l } : Document).sheet t =
      if t = s then l else d.sheet t := by
  rw [sheet, sheet]
  by_cases ht : t = s
  · rw [if_pos ht, ht]
    simp [h]
  · have hne : s.index ≠ t.index := fun hi => ht (congrArg SheetId.mk hi).symm
    rw [if_neg ht, List.getElem?_set_ne hne]

theorem insertRule_of_parse_ok (hs : s.index < d.sheets.length) (hindex : index ≤ (d.sheet s).size)
    (hrule : Rule.parse text = .ok rule) :
    ∃ e, d.insertRule s text index = (e, .ok index) ∧ e.nodes = d.nodes ∧
      e.childLists = d.childLists ∧ e.parents = d.parents ∧ e.attached = d.attached ∧
      ∀ t, e.sheet t =
        if t = s then ⟨(d.sheet s).rules.insertIdx index ⟨text, rule⟩⟩ else d.sheet t := by
  refine ⟨{ d with sheets := d.sheets.set s.index _ }, ?_, rfl, rfl, rfl, rfl, sheet_set hs _⟩
  rw [insertRule, RuleList.offer_of_parse_ok hindex hrule]

theorem insertRule_of_error {error : InsertError}
    (h : (d.insertRule s text index).2 = .error error) :
    (d.insertRule s text index).1 = d := by
  have hlist : ((d.sheet s).offer text index).1 = d.sheet s := RuleList.offer_of_error h
  have hsheets : d.sheets.set s.index (d.sheet s) = d.sheets := by
    rcases Nat.lt_or_ge s.index d.sheets.length with hs | hs
    · rw [sheet, List.getElem?_eq_getElem hs, Option.getD_some, List.set_getElem_self]
    · exact List.set_eq_of_length_le hs
  rw [insertRule]
  dsimp only
  rw [hlist, hsheets]

def rulesOf (d : Document) (ids : List SheetId) : List Rule :=
  (ids.map d.sheet).flatMap fun l => l.rules.map SheetRule.rule

theorem attachedRules_eq_rulesOf (d : Document) : d.attachedRules = d.rulesOf d.attached := rfl

theorem rulesOf_middle (d : Document) (before : List SheetId) (s : SheetId)
    (behind : List SheetId) :
    d.rulesOf (before ++ s :: behind) =
      d.rulesOf before ++ ((d.sheet s).rules.map SheetRule.rule ++ d.rulesOf behind) := by
  rw [rulesOf, List.map_append, List.flatMap_append, List.map_cons, List.flatMap_cons]
  rfl

theorem rulesOf_congr (h : ∀ t ∈ ids, e.sheet t = d.sheet t) : e.rulesOf ids = d.rulesOf ids := by
  rw [rulesOf, List.map_congr_left h, rulesOf]

/-- How a place in an attached sheet divides the attached rules. In front of it stand those of the
sheets before and the first ones of the sheet; all others take one position more when a rule comes
to the place. -/
def Divides (d : Document) (s : SheetId) (index : Nat) (front later : List Rule) : Prop :=
  ∃ before behind, d.attached = before ++ s :: behind ∧
    front = d.rulesOf before ++ ((d.sheet s).rules.map SheetRule.rule).take index ∧
    later = ((d.sheet s).rules.map SheetRule.rule).drop index ++ d.rulesOf behind

theorem Divides.attachedRules (h : d.Divides s index front later) :
    d.attachedRules = front ++ later := by
  obtain ⟨before, behind, hattached, rfl, rfl⟩ := h
  rw [attachedRules_eq_rulesOf, hattached, rulesOf_middle, List.append_assoc,
    ← List.append_assoc (List.take _ _), List.take_append_drop]

theorem Divides.attachedRules_insert (h : d.Divides s index front later)
    (hnodup : d.attached.Nodup) (hindex : index ≤ (d.sheet s).size)
    (hattached : e.attached = d.attached)
    (hsheet : ∀ t, e.sheet t =
      if t = s then ⟨(d.sheet s).rules.insertIdx index ⟨text, rule⟩⟩ else d.sheet t) :
    e.attachedRules = front ++ rule :: later := by
  obtain ⟨before, behind, hd, rfl, rfl⟩ := h
  rw [hd, List.nodup_middle, List.nodup_cons, List.mem_append, not_or] at hnodup
  have hother : ∀ ids : List SheetId, s ∉ ids → e.rulesOf ids = d.rulesOf ids := fun ids hids =>
    rulesOf_congr fun t ht => by
      rw [hsheet, if_neg]
      rintro rfl
      exact hids ht
  have hlength : index ≤ ((d.sheet s).rules.map SheetRule.rule).length := by
    rwa [List.length_map]
  rw [attachedRules_eq_rulesOf, hattached, hd, rulesOf_middle, hother _ hnodup.1.1,
    hother _ hnodup.1.2, hsheet, if_pos rfl, List.map_insertIdx,
    ← RuleList.take_append_cons_drop hlength]
  simp only [List.append_assoc, List.cons_append]

theorem Reachable.attachedRules_insertRule (h : Reachable d) (hs : s ∈ d.attached)
    (hindex : index ≤ (d.sheet s).size) (hrule : Rule.parse text = .ok rule) :
    ∃ e front later, d.insertRule s text index = (e, .ok index) ∧ d.Divides s index front later ∧
      e.attachedRules = front ++ rule :: later ∧ ∀ sel m, e.selects sel m = d.selects sel m := by
  have hnodup : d.attached.Nodup := h.inOrder.increasing.imp fun hlt => by
    rintro rfl
    exact Nat.lt_irrefl _ hlt
  obtain ⟨before, behind, hattached⟩ := List.append_of_mem hs
  have hdivides : d.Divides s index _ _ := ⟨before, behind, hattached, rfl, rfl⟩
  obtain ⟨e, he, hnodes, hlists, hparents, ha, hsheet⟩ :=
    insertRule_of_parse_ok (h.inOrder.made s hs) hindex hrule
  exact ⟨e, _, _, he, hdivides, hdivides.attachedRules_insert hnodup hindex ha hsheet,
    fun sel _ => h.forest.selects_congr sel hnodes hlists hparents⟩

theorem declared_of_insert (hd : d.attachedRules = front ++ later)
    (he : e.attachedRules = front ++ rule :: later)
    (hselects : ∀ sel, e.selects sel n = d.selects sel n)
    (hhidden : ∀ sel ∈ rule.selectors, ¬d.selects sel n) :
    e.declared n =
      if d.attachedRules.length = Specificity.orderLimit then .error .overflow
      else d.declared n := by
  rw [declared_eq_map, he, candidatesFrom_congr hselects, candidatesFrom_insert hhidden, ← hd,
    ← declared_eq_map]

/-- A rule that does not select a node goes into an attached sheet and changes nothing for the node,
although all rules behind it move one position on. Only where every position is taken already is
there none for one rule more. -/
theorem Reachable.declared_hidden (h : Reachable d) (hs : s ∈ d.attached)
    (hindex : index ≤ (d.sheet s).size) (hrule : Rule.parse text = .ok rule)
    (hhidden : ∀ sel ∈ rule.selectors, ¬d.selects sel n) :
    ∃ e front later, d.insertRule s text index = (e, .ok index) ∧ d.Divides s index front later ∧
      d.attachedRules = front ++ later ∧ e.attachedRules = front ++ rule :: later ∧
      e.declared n =
        if d.attachedRules.length = Specificity.orderLimit then .error .overflow
        else d.declared n := by
  obtain ⟨e, front, later, he, hdivides, hrules, hselects⟩ :=
    h.attachedRules_insertRule hs hindex hrule
  exact ⟨e, front, later, he, hdivides, hdivides.attachedRules, hrules,
    declared_of_insert hdivides.attachedRules hrules (fun sel => hselects sel n) hhidden⟩

theorem declared_hidden_two_sheets :
    Reachable twoSheets ∧ ⟨0⟩ ∈ twoSheets.attached ∧ 0 ≤ (twoSheets.sheet ⟨0⟩).size ∧
      ∃ rule, Rule.parse "p { color: green !important }".toList = .ok rule ∧
        (∀ sel ∈ rule.selectors, ¬twoSheets.selects sel ⟨3⟩) ∧
        ∃ e, twoSheets.insertRule ⟨0⟩ "p { color: green !important }".toList 0 = (e, .ok 0) ∧
          twoSheets.attachedRules.length = 2 ∧ e.attachedRules.length = 3 ∧
          e.declared ⟨3⟩ = twoSheets.declared ⟨3⟩ := by
  have h : Reachable twoSheets := Reachable.start.editAll _
  obtain ⟨hs, htwo⟩ : ⟨0⟩ ∈ twoSheets.attached ∧ twoSheets.attachedRules.length = 2 := by
    decide +kernel
  obtain ⟨rule, hrule, hhidden⟩ : ∃ rule, Rule.parse "p { color: green !important }".toList =
      .ok rule ∧ ∀ sel ∈ rule.selectors, ¬twoSheets.selects sel ⟨3⟩ :=
    ⟨⟨[⟨.tagged (.named "p".toList) [], []⟩], [⟨"color".toList, "green".toList, true⟩]⟩,
      by decide +kernel, by decide +kernel⟩
  obtain ⟨e, front, later, he, -, hrules, hrules', hdeclared⟩ :=
    h.declared_hidden hs (Nat.zero_le _) hrule hhidden
  have hthree : e.attachedRules.length = twoSheets.attachedRules.length + 1 := by
    rw [hrules', hrules, List.length_append, List.length_append, List.length_cons, Nat.add_assoc]
  rw [htwo] at hthree hdeclared
  exact ⟨h, hs, Nat.zero_le _, rule, hrule, hhidden, e, he, htwo, hthree,
    hdeclared.trans (if_neg (by decide))⟩

/-- As long as a position is free, a rule that does not select a node changes nothing for it. -/
theorem Reachable.declared_insertRule (h : Reachable d) (hs : s ∈ d.attached)
    (hindex : index ≤ (d.sheet s).size) (hrule : Rule.parse text = .ok rule)
    (hhidden : ∀ sel ∈ rule.selectors, ¬d.selects sel n)
    (hroom : d.attachedRules.length < Specificity.orderLimit) :
    (d.insertRule s text index).1.declared n = d.declared n := by
  obtain ⟨e, front, later, he, hdivides, hrules, hselects⟩ :=
    h.attachedRules_insertRule hs hindex hrule
  rw [he, declared_of_insert hdivides.attachedRules hrules (fun sel => hselects sel n) hhidden,
    if_neg (Nat.ne_of_lt hroom)]

end Insertion

end Document
end ScopedStyle
