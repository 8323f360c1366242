import Mathlib.Data.List.Basic
import Mathlib.Data.List.ModifyLast
import ScopedStyle.Template

/-!
# What a template evaluates to

A template is built of texts and slots, and whatever the calls were that built it, it
evaluates to the texts of its parts in their order. It fails exactly if a slot does, and
then with the first one that does.
-/

namespace ScopedStyle

inductive TemplatePart (π : Type)
  | text (t : Text)
  | slot (slot : Slot π)

def TemplatePart.slot? {π : Type} : TemplatePart π → Option (Slot π)
  | text _ => none
  | slot s => some s

/-- The slots of a row have values, and the texts of all its parts make up `out`. -/
inductive Yields {π : Type} (props : π) : List (TemplatePart π) → Text → Prop
  | nil : Yields props [] []
  | text {t out : Text} {parts : List (TemplatePart π)} : Yields props parts out →
      Yields props (.text t :: parts) (t ++ out)
  | slot {s : Slot π} {value : Value} {out : Text} {parts : List (TemplatePart π)} :
      s.evaluate props = .ok value → Yields props parts out →
      Yields props (.slot s :: parts) (value.render ++ out)

/-- `e` is the error of the first slot that fails. -/
def FailsFirst {π : Type} (props : π) (slots : List (Slot π)) (e : SlotError) : Prop :=
  ∃ front slot rest, slots = front ++ slot :: rest ∧ front.length = e.slot ∧
    (∀ s ∈ front, ∃ value, s.evaluate props = .ok value) ∧ slot.evaluate props = .error e.source

section Rows

variable {π : Type} {props : π} {parts front back : List (TemplatePart π)} {s : Slot π}
  {slots : List (Slot π)} {t u out : Text}

theorem yields_nil : Yields props [] out ↔ out = [] := by
  constructor
  · rintro ⟨⟩
    rfl
  · rintro rfl
    exact .nil

theorem yields_text :
    Yields props (.text t :: parts) out ↔ ∃ rest, out = t ++ rest ∧ Yields props parts rest := by
  constructor
  · rintro (_ | h | _)
    exact ⟨_, rfl, h⟩
  · rintro ⟨rest, rfl, h⟩
    exact .text h

theorem yields_slot :
    Yields props (.slot s :: parts) out ↔ ∃ value rest, s.evaluate props = .ok value ∧
      out = value.render ++ rest ∧ Yields props parts rest := by
  constructor
  · rintro (_ | _ | ⟨hs, h⟩)
    exact ⟨_, _, hs, rfl, h⟩
  · rintro ⟨value, rest, hs, rfl, h⟩
    exact .slot hs h

theorem yields_append :
    Yields props (front ++ back) out ↔
      ∃ a b, out = a ++ b ∧ Yields props front a ∧ Yields props back b := by
  constructor
  · intro h
    induction front generalizing out with
    | nil => exact ⟨[], out, rfl, .nil, h⟩
    | cons part front ih =>
      cases part with
      | text t =>
        obtain ⟨rest, rfl, hrest⟩ := yields_text.1 h
        obtain ⟨a, b, rfl, ha, hb⟩ := ih hrest
        exact ⟨t ++ a, b, (List.append_assoc t a b).symm, .text ha, hb⟩
      | slot s =>
        obtain ⟨value, rest, hs, rfl, hrest⟩ := yields_slot.1 h
        obtain ⟨a, b, rfl, ha, hb⟩ := ih hrest
        exact ⟨value.render ++ a, b, (List.append_assoc _ a b).symm, .slot hs ha, hb⟩
  · rintro ⟨a, b, rfl, ha, hb⟩
    induction ha with
    | nil => exact hb
    | text _ ih => exact (List.append_assoc _ _ b).symm ▸ .text ih
    | slot hs _ ih => exact (List.append_assoc _ _ b).symm ▸ .slot hs ih

theorem yields_single_text : Yields props [.text t] out ↔ out = t := by
  simp [yields_text, yields_nil]

theorem yields_merged :
    Yields props (front ++ [.text (t ++ u)]) out ↔
      Yields props (front ++ [.text t] ++ [.text u]) out := by
  simp only [yields_append, yields_single_text]
  constructor
  · rintro ⟨a, _, rfl, ha, rfl⟩
    exact ⟨a ++ t, u, (List.append_assoc a t u).symm, ⟨a, t, rfl, ha, rfl⟩, rfl⟩
  · rintro ⟨_, v, rfl, ⟨a, w, rfl, ha, rfl⟩, rfl⟩
    exact ⟨a, w ++ v, List.append_assoc a w v, ha, rfl⟩

theorem exists_yields :
    (∃ out, Yields props parts out) ↔
      ∀ s ∈ parts.filterMap TemplatePart.slot?, ∃ value, s.evaluate props = .ok value := by
  induction parts with
  | nil => simp [yields_nil]
  | cons part parts ih =>
    cases part with
    | text t => simp [yields_text, TemplatePart.slot?, ih]
    | slot s => simp [yields_slot, TemplatePart.slot?, ih]

theorem yields_of_literal
    (h : ∀ s ∈ parts.filterMap TemplatePart.slot?, s.isLiteral) :
    ∃ out, ∀ props, Yields props parts out := by
  induction parts with
  | nil => exact ⟨[], fun _ => .nil⟩
  | cons part parts ih =>
    cases part with
    | text t =>
      obtain ⟨out, hout⟩ := ih h
      exact ⟨t ++ out, fun props => .text (hout props)⟩
    | slot s =>
      obtain ⟨hs, hrest⟩ := List.forall_mem_cons.1 h
      obtain ⟨out, hout⟩ := ih hrest
      cases s with
      | literal value => exact ⟨value.render ++ out, fun props => .slot rfl (hout props)⟩
      | computed compute => cases hs

theorem exists_failsFirst (h : ∃ s ∈ slots, ∃ message, s.evaluate props = .error message) :
    ∃ e, FailsFirst props slots e := by
  induction slots with
  | nil => simp at h
  | cons slot slots ih =>
    cases hslot : slot.evaluate props with
    | error message => exact ⟨⟨0, message⟩, [], slot, slots, rfl, rfl, by simp, hslot⟩
    | ok value =>
      obtain ⟨failing, hm, message, hfails⟩ := h
      have hlater : failing ∈ slots := by
        refine (List.mem_cons.1 hm).resolve_left fun he => ?_
        rw [he, hslot] at hfails
        cases hfails
      obtain ⟨e, front, next, rest, rfl, hlength, hfront, hnext⟩ :=
        ih ⟨failing, hlater, message, hfails⟩
      exact ⟨⟨e.slot + 1, e.source⟩, slot :: front, next, rest, rfl, congrArg (· + 1) hlength,
        List.forall_mem_cons.2 ⟨⟨value, hslot⟩, hfront⟩, hnext⟩

end Rows

namespace Template

variable {π : Type} {props : π} {m : Template π} {out t : Text} {e : SlotError}

def behind (parts : List (Slot π × Text)) : List (TemplatePart π) :=
  parts.flatMap fun part => [.slot part.1, .text part.2]

def row (m : Template π) : List (TemplatePart π) := .text m.lead :: behind m.parts

theorem slots_row (m : Template π) : m.row.filterMap TemplatePart.slot? = m.slots := by
  have hparts : ∀ parts : List (Slot π × Text),
      (behind parts).filterMap TemplatePart.slot? = parts.map Prod.fst := by
    intro parts
    induction parts with
    | nil => rfl
    | cons part parts ih => exact congrArg (part.1 :: ·) ih
  exact hparts m.parts

theorem evaluateFrom_eq_ok_iff {parts : List (Slot π × Text)} (index : Nat) :
    evaluateFrom props index parts = .ok out ↔ Yields props (behind parts) out := by
  induction parts generalizing index out with
  | nil => rw [evaluateFrom, Except.ok.injEq, eq_comm, behind, List.flatMap_nil, yields_nil]
  | cons part parts ih =>
    obtain ⟨slot, t⟩ := part
    have hrow : behind ((slot, t) :: parts) = .slot slot :: .text t :: behind parts := rfl
    rw [hrow, yields_slot, evaluateFrom]
    cases slot.evaluate props with
    | error source => simp
    | ok value =>
      simp only [Except.ok.injEq, yields_text, ← ih (index + 1)]
      cases evaluateFrom props (index + 1) parts with
      | error e => simp
      | ok tail => simp [eq_comm]

theorem evaluate_eq_ok_iff : m.evaluate props = .ok out ↔ Yields props m.row out := by
  rw [row, yields_text, evaluate]
  simp only [← evaluateFrom_eq_ok_iff 0]
  cases evaluateFrom props 0 m.parts with
  | error e => simp
  | ok tail => simp [eq_comm]

theorem evaluateFrom_fails {front rest : List (Slot π × Text)} {slot : Slot π} {message : Text}
    (hfront : ∀ part ∈ front, ∃ value, part.1.evaluate props = .ok value)
    (hslot : slot.evaluate props = .error message) (index : Nat) :
    evaluateFrom props index (front ++ (slot, t) :: rest) =
      .error ⟨index + front.length, message⟩ := by
  induction front generalizing index with
  | nil =>
    rw [List.nil_append, evaluateFrom, hslot]
    rfl
  | cons part front ih =>
    obtain ⟨⟨value, hvalue⟩, hfront⟩ := List.forall_mem_cons.1 hfront
    rw [List.cons_append, evaluateFrom, hvalue, ih hfront, List.length_cons, Nat.add_assoc,
      Nat.add_comm 1]

theorem evaluate_of_failsFirst (h : FailsFirst props m.slots e) : m.evaluate props = .error e := by
  obtain ⟨front, slot, rest, hsplit, hlength, hfront, hslot⟩ := h
  obtain ⟨before, part, hparts, rfl, hpart⟩ := List.map_eq_append_iff.1 hsplit
  obtain ⟨⟨_, t⟩, after, rfl, rfl, rfl⟩ := List.map_eq_cons_iff.1 hpart
  have hvalues : ∀ part ∈ before, ∃ value, part.1.evaluate props = .ok value :=
    fun part hp => hfront part.1 (List.mem_map_of_mem hp)
  rw [evaluate, hparts, evaluateFrom_fails hvalues hslot, Nat.zero_add, ← List.length_map Prod.fst,
    hlength]

theorem evaluate_ok (h : ∀ slot ∈ m.slots, ∃ v, slot.evaluate props = .ok v) :
    ∃ style, m.evaluate props = .ok style := by
  simp only [evaluate_eq_ok_iff]
  exact exists_yields.2 (by rwa [slots_row])

theorem evaluate_error (h : ∃ slot ∈ m.slots, ∃ message, slot.evaluate props = .error message) :
    ∃ front slot rest message, m.slots = front ++ slot :: rest ∧
      (∀ s ∈ front, ∃ v, s.evaluate props = .ok v) ∧ slot.evaluate props = .error message ∧
      m.evaluate props = .error ⟨front.length, message⟩ := by
  obtain ⟨⟨index, message⟩, hfirst⟩ := exists_failsFirst h
  have hrun := evaluate_of_failsFirst hfirst
  obtain ⟨front, slot, rest, hsplit, rfl, hfront, hslot⟩ := hfirst
  exact ⟨front, slot, rest, message, hsplit, hfront, hslot, hrun⟩

theorem evaluate_eq_error_iff : m.evaluate props = .error e ↔ FailsFirst props m.slots e := by
  refine ⟨fun h => ?_, evaluate_of_failsFirst⟩
  have hfails : ∃ slot ∈ m.slots, ∃ message, slot.evaluate props = .error message := by
    by_contra hnone
    have hall : ∀ slot ∈ m.slots, ∃ v, slot.evaluate props = .ok v := by
      intro slot hslot
      cases hs : slot.evaluate props with
      | ok value => exact ⟨value, rfl⟩
      | error message => exact absurd ⟨slot, hslot, message, hs⟩ hnone
    obtain ⟨style, hstyle⟩ := evaluate_ok hall
    rw [h] at hstyle
    cases hstyle
  obtain ⟨first, hfirst⟩ := exists_failsFirst hfails
  obtain rfl : first = e := Except.error.inj ((evaluate_of_failsFirst hfirst).symm.trans h)
  exact hfirst

def add (m : Template π) : TemplatePart π → Template π
  | .text t => m.addText t
  | .slot s => m.addSlot s

def addAll (m : Template π) (parts : List (TemplatePart π)) : Template π := parts.foldl add m

theorem extend_concat (t : Text) (front : List (Slot π × Text)) (part : Slot π × Text) :
    extend t (front ++ [part]) = front ++ [(part.1, part.2 ++ t)] := by
  induction front with
  | nil => rfl
  | cons first front ih =>
    rw [List.cons_append, extend, ih, List.cons_append]
    simp

theorem addText_concat (lead : Text) (front : List (Slot π × Text)) (part : Slot π × Text)
    (t : Text) :
    addText ⟨lead, front ++ [part]⟩ t = ⟨lead, front ++ [(part.1, part.2 ++ t)]⟩ := by
  rw [addText, if_neg (by simp), extend_concat]

theorem row_addText (m : Template π) (t : Text) :
    ∃ front last,
      m.row = front ++ [.text last] ∧ (m.addText t).row = front ++ [.text (last ++ t)] := by
  obtain ⟨lead, parts⟩ := m
  rcases List.eq_nil_or_concat parts with rfl | ⟨front, part, rfl⟩
  · exact ⟨[], lead, rfl, rfl⟩
  · rw [List.concat_eq_append, addText_concat]
    exact ⟨.text lead :: (behind front ++ [.slot part.1]), part.2,
      by simp [row, behind], by simp [row, behind]⟩

theorem addText_nil (m : Template π) : m.addText [] = m := by
  obtain ⟨lead, parts⟩ := m
  rcases List.eq_nil_or_concat parts with rfl | ⟨front, part, rfl⟩
  · simp [addText]
  · rw [List.concat_eq_append, addText_concat, List.append_nil]

theorem yields_add (part : TemplatePart π) :
    Yields props (m.add part).row out ↔ Yields props (m.row ++ [part]) out := by
  cases part with
  | text t =>
    obtain ⟨front, last, hrow, hadd⟩ := m.row_addText t
    rw [add, hadd, hrow, yields_merged]
  | slot s =>
    have hadd : (m.addSlot s).row = m.row ++ [.slot s, .text []] := by
      simp [addSlot, row, behind]
    rw [add, hadd]
    simp [yields_append, yields_slot, yields_nil, yields_text]

theorem yields_addAll (parts : List (TemplatePart π)) :
    Yields props (m.addAll parts).row out ↔ Yields props (m.row ++ parts) out := by
  induction parts generalizing m with
  | nil =>
    rw [List.append_nil]
    rfl
  | cons part parts ih =>
    rw [← List.singleton_append, ← List.append_assoc, yields_append]
    simp only [← yields_add]
    rw [← yields_append]
    exact ih

/-- Segment `i` in front of slot `i`, for as long as there is one or the other. Segments that are
missing are empty. -/
def alternate (segments : List Text) (slots : List (Slot π)) : List (TemplatePart π) :=
  (List.range (max segments.length slots.length)).flatMap fun i =>
    .text (segments[i]?.getD []) :: slots[i]?.toList.map .slot

theorem alternate_step {segments : List Text} {slots : List (Slot π)}
    (h : segments ≠ [] ∨ slots ≠ []) :
    alternate segments slots = .text (segments.head?.getD []) ::
      (slots.head?.toList.map .slot ++ alternate segments.tail slots.tail) := by
  have hlength : max segments.length slots.length =
      max segments.tail.length slots.tail.length + 1 := by
    have hpos : segments.length ≠ 0 ∨ slots.length ≠ 0 := by simpa using h
    simp only [List.length_tail]
    omega
  rw [alternate, hlength, List.range_succ_eq_map, List.flatMap_cons, List.flatMap_map, alternate]
  simp [List.head?_eq_getElem?, List.getElem?_tail]

theorem foldl_addSlot_eq (m : Template π) (slots : List (Slot π)) :
    slots.foldl addSlot m = m.addAll (alternate [] slots) := by
  induction slots generalizing m with
  | nil => rfl
  | cons slot slots ih =>
    rw [alternate_step (.inr (List.cons_ne_nil _ _)), List.foldl_cons, ih]
    change _ = addAll ((m.addText []).addSlot slot) (alternate [] slots)
    rw [addText_nil]

theorem interleave_eq (m : Template π) (segments : List Text) (slots : List (Slot π)) :
    m.interleave segments slots = m.addAll (alternate segments slots) := by
  fun_induction interleave m segments slots with
  | case1 m slots => exact foldl_addSlot_eq m slots
  | case2 m t ts ih =>
    rw [ih, alternate_step (.inl (List.cons_ne_nil _ _))]
    rfl
  | case3 m t ts slot slots ih =>
    rw [ih, alternate_step (.inl (List.cons_ne_nil _ _))]
    rfl

/-- Segments and slots in two lists, neither of which knows how long the other is. -/
structure Lists (π : Type) where
  segments : List Text
  slots : List (Slot π)

namespace Lists

def empty : Lists π := ⟨[[]], []⟩

def add (l : Lists π) : TemplatePart π → Lists π
  | .text t => { l with segments := l.segments.modifyLast (· ++ t) }
  | .slot s => ⟨l.segments ++ [[]], l.slots ++ [s]⟩

def addAll (l : Lists π) (parts : List (TemplatePart π)) : Lists π := parts.foldl add l

def Aligned (l : Lists π) : Prop := l.segments.length = l.slots.length + 1

theorem Aligned.add {l : Lists π} (h : l.Aligned) (part : TemplatePart π) :
    (l.add part).Aligned := by
  unfold Aligned at h
  cases part with
  | text t =>
    obtain ⟨segments, slots⟩ := l
    rcases List.eq_nil_or_concat segments with rfl | ⟨front, last, rfl⟩
    · cases h
    · rw [List.concat_eq_append] at h
      rw [Aligned, Lists.add, List.concat_eq_append, List.modifyLast_concat]
      simpa using h
  | slot s => simpa [Lists.add, Aligned] using h

theorem Aligned.addAll {l : Lists π} (h : l.Aligned) (parts : List (TemplatePart π)) :
    (l.addAll parts).Aligned := by
  induction parts generalizing l with
  | nil => exact h
  | cons part parts ih => exact ih (h.add part)

theorem slots_addAll (l : Lists π) (parts : List (TemplatePart π)) :
    (l.addAll parts).slots = l.slots ++ parts.filterMap TemplatePart.slot? := by
  induction parts generalizing l with
  | nil => exact (List.append_nil _).symm
  | cons part parts ih =>
    refine (ih (l.add part)).trans ?_
    cases part with
    | text t => rfl
    | slot s => exact List.append_assoc l.slots [s] _

end Lists

def lists (m : Template π) : Lists π := ⟨m.segments, m.slots⟩

theorem lists_concat (lead : Text) (front : List (Slot π × Text)) (part : Slot π × Text) :
    lists ⟨lead, front ++ [part]⟩ =
      ⟨(lead :: front.map Prod.snd) ++ [part.2], front.map Prod.fst ++ [part.1]⟩ := by
  simp [lists, segments, slots]

theorem lists_add (m : Template π) (part : TemplatePart π) :
    (m.add part).lists = m.lists.add part := by
  cases part with
  | text t =>
    obtain ⟨lead, parts⟩ := m
    rcases List.eq_nil_or_concat parts with rfl | ⟨front, last, rfl⟩
    · rfl
    · rw [List.concat_eq_append, add, addText_concat, lists_concat, lists_concat, Lists.add,
        List.modifyLast_concat]
  | slot s => simp [add, addSlot, lists, Lists.add, segments, slots]

theorem lists_addAll (m : Template π) (parts : List (TemplatePart π)) :
    (m.addAll parts).lists = m.lists.addAll parts := by
  induction parts generalizing m with
  | nil => rfl
  | cons part parts ih =>
    exact (ih (m.add part)).trans (congrArg (·.addAll parts) (lists_add m part))

/-- A template that behaves like the row of `parts`. Its lists are those that the parts make when
segments and slots are kept apart. -/
structure Joins (m : Template π) (parts : List (TemplatePart π)) : Prop where
  listed : m.lists = Lists.empty.addAll parts
  aligned : m.segments.length = m.slots.length + 1
  slots : m.slots = parts.filterMap TemplatePart.slot?
  succeeds : ∀ props, (∃ out, m.evaluate props = .ok out) ↔
    ∀ slot ∈ m.slots, ∃ value, slot.evaluate props = .ok value
  value : ∀ props out, m.evaluate props = .ok out ↔ Yields props parts out
  failure : ∀ props e, m.evaluate props = .error e ↔ FailsFirst props m.slots e
  static : m.isStatic → ∃ out, ∀ props, m.evaluate props = .ok out

theorem joins_of_row {parts : List (TemplatePart π)} (hlists : m.lists = Lists.empty.addAll parts)
    (hrow : ∀ props out, Yields props m.row out ↔ Yields props parts out) : m.Joins parts where
  listed := hlists
  aligned := by
    have hempty : (Lists.empty : Lists π).Aligned := rfl
    have haligned : m.lists.Aligned := hlists ▸ hempty.addAll parts
    exact haligned
  slots := (congrArg Lists.slots hlists).trans (Lists.slots_addAll Lists.empty parts)
  succeeds props := by simp only [evaluate_eq_ok_iff, exists_yields, slots_row]
  value props out := evaluate_eq_ok_iff.trans (hrow props out)
  failure props e := evaluate_eq_error_iff
  static h := by
    simp only [evaluate_eq_ok_iff]
    exact yields_of_literal (by rw [slots_row]; exact List.all_eq_true.1 h)

theorem joins_addAll (parts : List (TemplatePart π)) : (empty.addAll parts).Joins parts := by
  refine joins_of_row (lists_addAll empty parts) fun props out => ?_
  have hempty : (empty : Template π).row = [.text []] := rfl
  rw [yields_addAll, hempty, List.singleton_append, yields_text]
  simp

/-- However a template is built, it behaves like the row of all that it was built of. -/
theorem joins_built :
    (∀ parts : List (TemplatePart π), (empty.addAll parts).Joins parts) ∧
      ∀ (segments : List Text) (slots : List (Slot π)) (parts : List (TemplatePart π)),
        ((ofParts segments slots).addAll parts).Joins (alternate segments slots ++ parts) := by
  refine ⟨joins_addAll, fun segments slots parts => ?_⟩
  rw [ofParts, interleave_eq]
  have hall : addAll (addAll empty (alternate segments slots)) parts =
      addAll empty (alternate segments slots ++ parts) := List.foldl_append.symm
  rw [hall]
  exact joins_addAll _

end Template
end ScopedStyle
