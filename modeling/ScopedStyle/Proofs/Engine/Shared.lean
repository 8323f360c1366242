import ScopedStyle.Proofs.Engine.Ledger

/-!
# Engines that share a document

Engines take turns on one document, which others may edit in between. Each engine
writes in a sheet of its own, so a turn is a call on one ledger and leaves those of
the other engines as they are. The sheets are made in the order in which the engines
first have rules to put in one, and attached in that order.
-/

namespace ScopedStyle
open Text

variable {ι : Type}

def rank (sheet? : ι → Option SheetId) (i : ι) : Nat := (sheet? i).elim 0 SheetId.index

/-- Sheets out of `count` ones went to the owners, one to each, in the order of the list. -/
structure HandedOut (sheet? : ι → Option SheetId) (owners : List ι) (count : Nat) : Prop where
  made : ∀ i id, sheet? i = some id → id.index < count
  owned : ∀ i, (sheet? i).isSome ↔ i ∈ owners
  order : owners.Pairwise (rank sheet? · < rank sheet? ·)

section HandedOut
variable {sheet? : ι → Option SheetId} {owners : List ι} {count more : Nat} {i j : ι} {id : SheetId}

theorem HandedOut.grow (h : HandedOut sheet? owners count) (hle : count ≤ more) :
    HandedOut sheet? owners more :=
  ⟨fun i id hid => Nat.lt_of_lt_of_le (h.made i id hid) hle, h.owned, h.order⟩

variable [DecidableEq ι]

theorem HandedOut.apart (h : HandedOut sheet? owners count) (hi : sheet? i = some id)
    (hne : i ≠ j) : sheet? j ≠ some id := by
  intro hj
  have hmi : i ∈ owners := (h.owned i).1 (hi ▸ rfl)
  have hmj : j ∈ owners := (h.owned j).1 (hj ▸ rfl)
  have hrank : rank sheet? i = rank sheet? j := by rw [rank, hi, rank, hj]
  have hij := idxOf_lt_idxOf_iff h.order hmi hmj
  have hji := idxOf_lt_idxOf_iff h.order hmj hmi
  have hplace : owners.idxOf i ≠ owners.idxOf j := fun he => hne ((List.idxOf_inj hmi).1 he)
  omega

theorem HandedOut.next (h : HandedOut sheet? owners count) (hnone : sheet? i = none)
    (hlt : count < more) :
    HandedOut (Function.update sheet? i (some ⟨count⟩)) (owners ++ [i]) more := by
  have hnew : i ∉ owners := by
    rw [← h.owned, hnone]
    exact Bool.false_ne_true
  have hrank : ∀ j ∈ owners, rank (Function.update sheet? i (some ⟨count⟩)) j = rank sheet? j := by
    intro j hj
    have hne : j ≠ i := fun he => hnew (he ▸ hj)
    rw [rank, Function.update_of_ne hne, rank]
  -- the number given out now is the count, above all that were given out before
  have hlast : rank (Function.update sheet? i (some ⟨count⟩)) i = count := by
    rw [rank, Function.update_self, Option.elim_some]
  refine ⟨fun j id hid => ?_, fun j => ?_, ?_⟩
  · rw [Function.update_apply] at hid
    split at hid
    · cases hid
      exact hlt
    · exact Nat.lt_trans (h.made j id hid) hlt
  · rw [Function.update_apply, List.mem_append, ← h.owned, List.mem_singleton]
    split
    · rename_i hj
      simp [hj]
    · rename_i hj
      simp [hj]
  · rw [List.pairwise_append]
    refine ⟨h.order.imp_of_mem fun hj hk hjk => ?_, List.pairwise_singleton _ _,
      fun j hj k hk => ?_⟩
    · rwa [hrank _ hj, hrank _ hk]
    · obtain ⟨id, hid⟩ := Option.isSome_iff_exists.1 ((h.owned j).2 hj)
      rw [List.mem_singleton.1 hk, hlast, hrank j hj, rank, hid]
      exact h.made j id hid

end HandedOut

structure Turn (ι : Type) where
  engine : ι
  style : Text
  answer : Except Fault Text
  attached : List SheetId

def Turn.batch (t : Turn ι) : List Text := answerBatch t.style t.answer

structure Shared (ι : Type) where
  engines : ι → Engine
  document : Document
  log : List (Turn ι)

namespace Shared

inductive Action (ι : Type)
  | call (i : ι) (style : Text)
  | edit (e : Document.Edit)

def start (configs : ι → EngineConfig) (d : Document) : Shared ι :=
  ⟨fun i => Engine.start (configs i), d, []⟩

def outcome (s : Shared ι) (i : ι) (style : Text) : Outcome Engine (Except Fault Text) :=
  (s.engines i).classFor s.document style

def turn (s : Shared ι) (i : ι) (style : Text) : Turn ι :=
  { engine := i
    style := style
    answer := (s.outcome i style).answer
    attached := (s.outcome i style).document.attached.filter (!s.document.attached.contains ·) }

def sheet? (s : Shared ι) (i : ι) : Option SheetId := (s.engines i).writer.sheet

def texts? (s : Shared ι) (i : ι) : Option (List Text) :=
  (s.sheet? i).map fun id => (s.document.sheet id).texts

def ledger (s : Shared ι) (i : ι) : Ledger := (s.engines i).ledger s.document

theorem isSome_texts (s : Shared ι) (i : ι) :
    (s.ledger i).written.texts.isSome = (s.sheet? i).isSome := Option.isSome_map

/-- The head is there for a call, and no edit puts a rule into the sheet of an engine. -/
def Allows (s : Shared ι) : Action ι → Prop
  | .call _ _ => s.document.contains Document.head
  | .edit (.insertRule id _ _) => ∀ i, s.sheet? i ≠ some id
  | .edit _ => True

theorem Allows.spares {s : Shared ι} {i : ι} {id : SheetId} {e : Document.Edit}
    (ha : s.Allows (.edit e)) (hid : s.sheet? i = some id) (text : Text) (index : Nat) :
    e ≠ .insertRule id text index := by
  rintro rfl
  exact ha i hid

def Action.styleBy? [DecidableEq ι] (i : ι) : Action ι → Option Text
  | .call j style => if j = i then some style else none
  | .edit _ => none

variable [DecidableEq ι]

def act (s : Shared ι) : Action ι → Shared ι
  | .call i style =>
      { engines := Function.update s.engines i (s.outcome i style).owner
        document := (s.outcome i style).document
        log := s.log ++ [s.turn i style] }
  | .edit e => { s with document := s.document.edit e }

def run (s : Shared ι) (actions : List (Action ι)) : Shared ι := actions.foldl act s

def Undisturbed : Shared ι → List (Action ι) → Prop
  | _, [] => True
  | s, a :: rest => s.Allows a ∧ (s.act a).Undisturbed rest

def turns (s : Shared ι) (i : ι) : List (Turn ι) := s.log.filter (·.engine = i)

def answers (s : Shared ι) (i : ι) : List (Except Fault Text) := (s.turns i).map Turn.answer

def attachedBy (s : Shared ι) (i : ι) : List SheetId := (s.turns i).flatMap Turn.attached

/-- The engines that had a batch with a rule in it, in the order of the first one of each. -/
def injectors (s : Shared ι) : List ι :=
  ((s.log.filter (!·.batch.isEmpty)).map Turn.engine).eraseDups

variable {s : Shared ι} {i j : ι} {style : Text} {actions : List (Action ι)}

theorem sheet?_call (s : Shared ι) (i : ι) (style : Text) :
    (s.act (.call i style)).sheet? =
      Function.update s.sheet? i (s.outcome i style).owner.writer.sheet := by
  funext j
  show (Function.update s.engines i _ j).writer.sheet = _
  rw [Function.update_apply, Function.update_apply]
  split
  · rfl
  · rfl

theorem turns_call (s : Shared ι) (i : ι) (style : Text) (j : ι) :
    (s.act (.call i style)).turns j =
      s.turns j ++ if i = j then [s.turn i style] else [] := by
  show (s.log ++ [s.turn i style]).filter _ = _
  rw [List.filter_append, List.filter_singleton]
  simp [turns, turn]

theorem answers_call (s : Shared ι) (i : ι) (style : Text) (j : ι) :
    (s.act (.call i style)).answers j =
      s.answers j ++ if i = j then [(s.outcome i style).answer] else [] := by
  rw [answers, turns_call, List.map_append, answers]
  split
  · rfl
  · rfl

theorem injectors_call (s : Shared ι) (i : ι) (style : Text) :
    (s.act (.call i style)).injectors =
      if (s.turn i style).batch = [] ∨ i ∈ s.injectors then s.injectors
      else s.injectors ++ [i] := by
  show ((List.filter _ (s.log ++ [s.turn i style])).map Turn.engine).eraseDups = _
  rw [List.filter_append, List.filter_singleton]
  by_cases hbatch : (s.turn i style).batch = []
  · simp [hbatch, injectors]
  · have hfull : (s.turn i style).batch.isEmpty = false := List.isEmpty_eq_false_iff.2 hbatch
    rw [hfull, Bool.not_false, cond_true, List.map_append, List.map_singleton, eraseDups_concat]
    simp only [List.contains_iff_mem, hbatch, false_or]
    rfl

structure Sound (s : Shared ι) : Prop where
  reachable : s.document.Reachable
  ledgers : ∀ i, (s.ledger i).Sound
  handed : HandedOut s.sheet? s.injectors s.document.sheets.length
  attachedBy : ∀ i, s.attachedBy i = (s.sheet? i).toList

theorem sound_start (configs : ι → EngineConfig) {d : Document} (hd : d.Reachable) :
    (start configs d).Sound where
  reachable := hd
  ledgers i := by
    constructor
    · intro text hm
      cases hm
    · intro style name hk
      cases hk
  handed := by
    refine ⟨fun i id hid => ?_, fun i => ⟨fun hs => ?_, fun hm => ?_⟩, .nil⟩
    · cases hid
    · cases hs
    · cases hm
  attachedBy i := rfl

section Call
variable (h : s.Sound)
include h

theorem Sound.attachedBy_call (i : ι) (style : Text) (j : ι) :
    (s.act (.call i style)).attachedBy j =
      (s.sheet? j).toList ++ if i = j then (s.turn i style).attached else [] := by
  rw [Shared.attachedBy, turns_call, List.flatMap_append, ← h.attachedBy, Shared.attachedBy]
  split
  · rw [List.flatMap_singleton]
  · rfl

variable (hhead : s.document.contains Document.head)
include hhead

theorem Sound.done (i : ι) (style : Text) :
    Engine.Answers.Done (s.engines i) s.document style (s.outcome i style) :=
  ((s.engines i).classFor_answers s.document style).done ⟨h.reachable, hhead, h.handed.made i⟩

theorem Sound.answer_call (i : ι) (style : Text) :
    (s.outcome i style).answer = ((s.ledger i).call style).2 :=
  congrArg Prod.snd (h.done hhead i style).ledger

theorem Sound.ledger_call (i : ι) (style : Text) (j : ι) :
    (s.act (.call i style)).ledger j =
      if i = j then ((s.ledger i).call style).1 else s.ledger j := by
  have hdone := h.done hhead i style
  show (Function.update s.engines i (s.outcome i style).owner j).ledger _ = _
  by_cases hij : i = j
  · subst hij
    rw [Function.update_self, if_pos rfl]
    exact congrArg Prod.fst hdone.ledger
  · rw [Function.update_of_ne (Ne.symm hij), if_neg hij]
    refine congrArg (Ledger.mk _ _) (SheetWriter.written_congr fun id hid => ?_)
    refine hdone.keeps.others id fun hown => ?_
    have hopens := hdone.opens
    rw [hown] at hopens
    -- the sheet behind the call is the one that the engine had, or no engine had it
    generalize (s.outcome i style).document.attached = attached at hopens
    generalize hsheet : some id = sheet at hopens
    cases hopens with
    | kept => exact h.handed.apart hsheet.symm hij hid
    | opened hnone =>
      cases hsheet
      exact Nat.lt_irrefl _ (h.handed.made j _ hid)

theorem Sound.call_opens (i : ι) (style : Text) :
    (s.act (.call i style)).sheet? = s.sheet? ∧
        (s.act (.call i style)).injectors = s.injectors ∧
        (s.outcome i style).document.attached = s.document.attached ∨
      s.sheet? i = none ∧
        (s.act (.call i style)).sheet? =
          Function.update s.sheet? i (some ⟨s.document.sheets.length⟩) ∧
        (s.act (.call i style)).injectors = s.injectors ++ [i] ∧
        (s.outcome i style).document.attached =
          s.document.attached ++ [⟨s.document.sheets.length⟩] := by
  have hdone := h.done hhead i style
  have hsome := (h.ledgers i).call_isSome style
  rw [← h.answer_call hhead, s.isSome_texts] at hsome
  have hopened : (s.outcome i style).owner.writer.sheet.isSome ↔
      (s.sheet? i).isSome ∨ (s.turn i style).batch ≠ [] := by
    have hledger : _ = ((s.ledger i).call style).1 := congrArg Prod.fst hdone.ledger
    rw [turn, Turn.batch, ← hsome, ← hledger]
    exact Bool.eq_iff_iff.1 Option.isSome_map.symm
  have hopens := hdone.opens
  rw [h.handed.owned] at hopened
  rw [sheet?_call, injectors_call]
  generalize (s.outcome i style).owner.writer.sheet = sheet at hopens hopened
  generalize (s.outcome i style).document.attached = attached at hopens
  cases hopens with
  | kept =>
    refine .inl ⟨Function.update_eq_self i s.sheet?, if_pos ?_, rfl⟩
    exact or_iff_not_imp_left.2 fun hne => (h.handed.owned i).1 (hopened.2 (.inr hne))
  | opened hnone =>
    have hnot : i ∉ s.injectors := by
      rw [← h.handed.owned, Shared.sheet?, hnone]
      exact Bool.false_ne_true
    refine .inr ⟨hnone, rfl, if_neg ?_, rfl⟩
    exact not_or.2 ⟨(hopened.1 rfl).resolve_left hnot, hnot⟩

theorem Sound.call (i : ι) (style : Text) : (s.act (.call i style)).Sound := by
  have hkeeps := (h.done hhead i style).keeps
  have hreachable := hkeeps.reachable h.reachable
  have hledgers : ∀ j, ((s.act (.call i style)).ledger j).Sound := by
    intro j
    rw [h.ledger_call hhead]
    split
    · exact (h.ledgers i).call style
    · exact h.ledgers j
  rcases h.call_opens hhead i style with ⟨hsheet, hinjectors, hsame⟩ |
    ⟨hnone, hsheet, hinjectors, hfresh⟩
  · have hturn : (s.turn i style).attached = [] := by
      rw [turn, hsame]
      simp
    refine ⟨hreachable, hledgers, ?_, fun j => ?_⟩
    · rw [hsheet, hinjectors]
      exact h.handed.grow hkeeps.stored
    · rw [h.attachedBy_call, hturn, hsheet, ite_self, List.append_nil]
  · have hmade : s.document.sheets.length < (s.outcome i style).document.sheets.length :=
      hreachable.inOrder.made _ (hfresh ▸ List.mem_concat_self)
    have hturn : (s.turn i style).attached = [⟨s.document.sheets.length⟩] := by
      have hold : ⟨s.document.sheets.length⟩ ∉ s.document.attached := fun hm =>
        Nat.lt_irrefl _ (h.reachable.inOrder.made _ hm)
      rw [turn, hfresh, List.filter_append]
      simp [hold]
    refine ⟨hreachable, hledgers, ?_, fun j => ?_⟩
    · rw [hsheet, hinjectors]
      exact h.handed.next hnone hmade
    · rw [h.attachedBy_call, hturn, hsheet]
      by_cases hij : i = j
      · subst hij
        rw [if_pos rfl, hnone, Function.update_self]
        rfl
      · rw [if_neg hij, Function.update_of_ne (Ne.symm hij), List.append_nil]

end Call

theorem ledger_edit {e : Document.Edit} (ha : s.Allows (.edit e)) (i : ι) :
    (s.act (.edit e)).ledger i = s.ledger i :=
  congrArg (Ledger.mk _ _)
    (SheetWriter.written_congr fun _ hid => Document.sheet_edit (ha.spares hid))

theorem Sound.act (h : s.Sound) {a : Action ι} (ha : s.Allows a) : (s.act a).Sound := by
  cases a with
  | call i style => exact h.call ha i style
  | edit e =>
    refine ⟨h.reachable.edit e, fun i => ?_, ?_, h.attachedBy⟩
    · rw [ledger_edit ha]
      exact h.ledgers i
    · exact h.handed.grow (s.document.length_sheets_edit e)

theorem Sound.run (h : s.Sound) (hu : s.Undisturbed actions) : (s.run actions).Sound := by
  induction actions generalizing s with
  | nil => exact h
  | cons a rest ih => exact ih (h.act hu.1) hu.2

def stylesOf (i : ι) (actions : List (Action ι)) : List Text := actions.filterMap (·.styleBy? i)

theorem Sound.run_ledger (h : s.Sound) (hu : s.Undisturbed actions) (i : ι) :
    (s.run actions).ledger i = (s.ledger i).settle (stylesOf i actions) ∧
      (s.run actions).answers i = s.answers i ++ (s.ledger i).answers (stylesOf i actions) := by
  -- only a call of the engine itself takes a step on both sides
  induction actions generalizing s with
  | nil => exact ⟨rfl, (List.append_nil _).symm⟩
  | cons a rest ih =>
    obtain ⟨hledger, hanswers⟩ := ih (h.act hu.1) hu.2
    cases a with
    | edit e =>
      rw [ledger_edit hu.1] at hledger hanswers
      exact ⟨hledger, hanswers⟩
    | call j style =>
      rw [h.ledger_call hu.1] at hledger hanswers
      rw [answers_call] at hanswers
      by_cases hij : j = i
      · subst hij
        have hstyles : stylesOf j (.call j style :: rest) = style :: stylesOf j rest :=
          List.filterMap_cons_some (if_pos rfl)
        rw [if_pos rfl] at hledger hanswers
        rw [if_pos rfl, h.answer_call hu.1, List.append_assoc] at hanswers
        rw [hstyles]
        exact ⟨hledger, hanswers⟩
      · have hstyles : stylesOf i (.call j style :: rest) = stylesOf i rest :=
          List.filterMap_cons_none (if_neg hij)
        rw [if_neg hij] at hledger hanswers
        rw [if_neg hij, List.append_nil] at hanswers
        rw [hstyles]
        exact ⟨hledger, hanswers⟩

theorem Sound.undisturbed_calls (h : s.Sound) (hhead : s.document.contains Document.head)
    (hcalls : ∀ a ∈ actions, ∃ i style, a = .call i style) : s.Undisturbed actions := by
  induction actions generalizing s with
  | nil => trivial
  | cons a rest ih =>
    obtain ⟨i, style, rfl⟩ := hcalls a List.mem_cons_self
    exact ⟨hhead, ih (h.call hhead i style) ((h.done hhead i style).keeps.live _ hhead)
      fun b hb => hcalls b (List.mem_cons_of_mem _ hb)⟩

theorem Sound.mem_attached (h : s.Sound) (hu : s.Undisturbed actions)
    (hkept : ∀ n, .edit (.remove n) ∉ actions)
    (hall : ∀ i id, s.sheet? i = some id → id ∈ s.document.attached) :
    ∀ i id, (s.run actions).sheet? i = some id → id ∈ (s.run actions).document.attached := by
  induction actions generalizing s with
  | nil => exact hall
  | cons a rest ih =>
    refine ih (h.act hu.1) hu.2 (fun n hn => hkept n (List.mem_cons_of_mem a hn)) fun i id hid => ?_
    cases a with
    | edit e =>
      refine Document.mem_attached_edit (fun n he => ?_) (hall i id hid)
      exact hkept n (he ▸ List.mem_cons_self)
    | call j style =>
      show id ∈ (s.outcome j style).document.attached
      rcases h.call_opens hu.1 j style with ⟨hsheet, -, hsame⟩ | ⟨-, hsheet, -, hfresh⟩
      · rw [hsame]
        exact hall i id (hsheet ▸ hid)
      · rw [hsheet, Function.update_apply] at hid
        rw [hfresh]
        split at hid
        · cases hid
          exact List.mem_concat_self
        · exact List.mem_append_left _ (hall i id hid)

def alone (configs : ι → EngineConfig) (actions : List (Action ι)) (i : ι) : Shared ι :=
  (start configs Document.start).run (actions.filter fun a => (a.styleBy? i).isSome)

theorem stylesOf_alone (i : ι) (actions : List (Action ι)) :
    stylesOf i (actions.filter fun a => (a.styleBy? i).isSome) = stylesOf i actions := by
  rw [stylesOf, List.filterMap_filter, stylesOf]
  refine List.filterMap_congr fun a _ => ?_
  cases a.styleBy? i with
  | none => rfl
  | some style => rfl

theorem undisturbed_alone (configs : ι → EngineConfig) (actions : List (Action ι)) (i : ι) :
    (start configs Document.start).Undisturbed
      (actions.filter fun a => (a.styleBy? i).isSome) := by
  refine (sound_start configs Document.Reachable.start).undisturbed_calls rfl fun a ha => ?_
  cases a with
  | call j style => exact ⟨j, style, rfl⟩
  | edit e => simp [Action.styleBy?] at ha

/-- Each engine answers, and fills its sheet, as it does alone on a new document, and it attaches no
more than that one sheet. Those sheets stand among the attached ones in the order in which their
engines first had a batch with a rule in it, and all of them are there if nothing was removed. -/
theorem run_independent (configs : ι → EngineConfig) {d : Document} (hd : d.Reachable)
    (hu : (start configs d).Undisturbed actions) :
    let s := (start configs d).run actions
    (∀ i, s.answers i = (alone configs actions i).answers i ∧
        s.texts? i = (alone configs actions i).texts? i ∧
        s.attachedBy i = (s.sheet? i).toList ∧
        ((s.sheet? i).isSome ↔ i ∈ s.injectors)) ∧
      (∀ i j a b, s.sheet? i = some a → s.sheet? j = some b →
        a ∈ s.document.attached → b ∈ s.document.attached →
        (s.document.attached.idxOf a < s.document.attached.idxOf b ↔
          s.injectors.idxOf i < s.injectors.idxOf j)) ∧
      ((∀ n, .edit (.remove n) ∉ actions) →
        ∀ i a, s.sheet? i = some a → a ∈ s.document.attached) := by
  have hstart := sound_start configs hd
  have hend := hstart.run hu
  refine ⟨fun i => ?_, fun i j a b hi hj ha hb => ?_, fun hkept => ?_⟩
  · have halone := (sound_start configs Document.Reachable.start).run_ledger
      (undisturbed_alone configs actions i) i
    have hshared := hstart.run_ledger hu i
    rw [stylesOf_alone] at halone
    refine ⟨hshared.2.trans halone.2.symm, ?_, hend.attachedBy i, hend.handed.owned i⟩
    exact congrArg (·.written.texts) (hshared.1.trans halone.1.symm)
  · have hmi := (hend.handed.owned i).1 (hi ▸ rfl)
    have hmj := (hend.handed.owned j).1 (hj ▸ rfl)
    rw [idxOf_lt_idxOf_iff hend.reachable.inOrder.increasing ha hb,
      idxOf_lt_idxOf_iff hend.handed.order hmi hmj, rank, hi, rank, hj]
    rfl
  · exact hstart.mem_attached hu hkept fun i id hid => by cases hid

def twoConfigs (i : Bool) : EngineConfig :=
  if i then EngineConfig.default else ⟨"alt".toList, 7, true⟩

def twoTurns : List (Action Bool) :=
  [.edit .attachSheet, .call true [], .call false "left: 0;".toList,
    .edit (.insertRule ⟨0⟩ "p \x7b top: 0; \x7d".toList 0), .call true "left: 0;".toList,
    .call false "left: 0;".toList]

theorem run_independent_twoTurns :
    let s := (start twoConfigs Document.start).run twoTurns
    (start twoConfigs Document.start).Undisturbed twoTurns ∧
      s.sheet? true = some ⟨2⟩ ∧ s.document.attached = [⟨0⟩, ⟨1⟩, ⟨2⟩] ∧
      s.injectors = [false, true] ∧ s.attachedBy true = [⟨2⟩] ∧
      s.answers true = (alone twoConfigs twoTurns true).answers true ∧
      s.texts? true = some [".styled-2 \x7b left: 0; \x7d".toList] ∧
      s.texts? true = (alone twoConfigs twoTurns true).texts? true := by
  have hu : (start twoConfigs Document.start).Undisturbed twoTurns := by
    refine ⟨trivial, ?_, ?_, fun i => ?_, ?_, ?_, trivial⟩
    · show Document.contains _ _ = true
      decide +kernel
    · show Document.contains _ _ = true
      decide +kernel
    · cases i with
      | false => decide +kernel
      | true => decide +kernel
    · show Document.contains _ _ = true
      decide +kernel
    · show Document.contains _ _ = true
      decide +kernel
  obtain ⟨hanswers, htexts, hattached, -⟩ :=
    (run_independent twoConfigs Document.Reachable.start hu).1 true
  have hsheet : ((start twoConfigs Document.start).run twoTurns).sheet? true = some ⟨2⟩ := by
    decide +kernel
  refine ⟨hu, hsheet, by decide +kernel, by decide +kernel, ?_, hanswers, by decide +kernel, htexts⟩
  rw [hattached, hsheet]
  rfl

end Shared
end ScopedStyle
