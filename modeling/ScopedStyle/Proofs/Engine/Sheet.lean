import ScopedStyle.Proofs.Engine.Batches
import ScopedStyle.Proofs.Entries
import ScopedStyle.Proofs.Nested.OneLine

/-!
# What an engine's sheet holds

A session is a run of calls on a document that others edit in between. The engine's
sheet holds the accepted rules of each text, in the order in which the texts first
got their classes, less the batches that had come before. A batch is known by
one joined text, which says enough: no flat rule is empty or has a line feed.
-/

namespace ScopedStyle
open Text

/-- A batch that can be told from its joined text. -/
def IsBatch (rules : List Text) : Prop := ∀ t ∈ rules, t ≠ [] ∧ '\n' ∉ t

namespace SheetWriter

theorem batchText_injective {xs ys : List Text} (hx : IsBatch xs) (hy : IsBatch ys)
    (h : batchText xs = batchText ys) : xs = ys := by
  have hlines := (batchLines_eq_iff (fun t ht => (hx t ht).2) (fun t ht => (hy t ht).2)).1
    (batchText_eq_iff.1 h)
  rcases hlines with hxy | ⟨-, rfl⟩ | ⟨rfl, -⟩
  · exact hxy
  · exact absurd rfl (hy [] List.mem_cons_self).1
  · exact absurd rfl (hx [] List.mem_cons_self).1

end SheetWriter

theorem isBatch_flatten {root : Text} (h : '\n' ∉ root) (style : Text) :
    IsBatch (flatten style root) := fun _ ht => flatten_oneLine h style ht

namespace SheetWriter
variable {w : SheetWriter} {d d' : Document} {id : SheetId} {rules : List Text}
  {batches : List (List Text)}

def sheetTexts (w : SheetWriter) (d : Document) : List Text :=
  match w.sheet with
  | none => []
  | some id => (d.sheet id).texts

structure Holds (w : SheetWriter) (d : Document) (batches : List (List Text)) : Prop where
  areBatches : ∀ rules ∈ batches, IsBatch rules
  remembered : w.batches = batches.map batchText
  stored : ∀ id, w.sheet = some id → id.index < d.sheets.length
  texts : w.sheetTexts d = batches.flatMap (·.filter accepted)

theorem Holds.hasWritten_iff (h : w.Holds d batches) (hb : IsBatch rules) :
    w.hasWritten rules ↔ rules ∈ batches := by
  rw [hasWritten, h.remembered, List.contains_iff_mem, List.mem_map]
  constructor
  · rintro ⟨other, hm, ht⟩
    rwa [← batchText_injective (h.areBatches other hm) hb ht]
  · intro hm
    exact ⟨rules, hm, rfl⟩

theorem sheetIn_eq_ok (hs : ∀ id, w.sheet = some id → id.index < d.sheets.length)
    (h : w.sheetIn d = (d', .ok id)) :
    id.index < d'.sheets.length ∧ (d'.sheet id).texts = w.sheetTexts d := by
  unfold sheetIn at h
  unfold sheetTexts
  split at h
  · rename_i id' hid
    cases h
    rw [hid]
    exact ⟨hs id hid, rfl⟩
  · rename_i hnone
    obtain ⟨rfl, hsheets⟩ := Document.attachSheet_eq_ok h
    rw [hnone, Document.sheet, hsheets]
    simp [RuleList.texts, RuleList.empty]

theorem sheetIn_eq_error {fault : Fault} (h : w.sheetIn d = (d', .error fault)) :
    w.sheet = none := by
  unfold sheetIn at h
  split at h
  · cases h
  · assumption

def addBatch (batches : List (List Text)) (rules : List Text) : List (List Text) :=
  if batches.contains rules then batches else batches ++ [rules]

theorem Holds.write {out : Outcome SheetWriter (Except Fault Batch)} {batch : Batch}
    (h : w.Holds d batches) (hb : IsBatch rules) (hw : w.Writes d rules out)
    (ha : out.answer = .ok batch) :
    out.owner.Holds out.document (addBatch batches rules) := by
  have hall : ∀ b ∈ batches ++ [rules], IsBatch b := by
    intro b hm
    rcases List.mem_append.1 hm with hm | hm
    · exact h.areBatches b hm
    · rwa [List.mem_singleton.1 hm]
  have hremembered : w.batches ++ [batchText rules] = (batches ++ [rules]).map batchText := by
    rw [h.remembered, List.map_append, List.map_singleton]
  -- the joined text tells batches apart, so a text not yet written is a batch not yet listed
  have hadd (hnew : ¬w.hasWritten rules) : addBatch batches rules = batches ++ [rules] := by
    rw [addBatch, if_neg]
    rwa [List.contains_iff_mem, ← h.hasWritten_iff hb]
  cases hw with
  | duplicate hold =>
    have hsame : addBatch batches rules = batches := by
      rw [addBatch, if_pos]
      rwa [List.contains_iff_mem, ← h.hasWritten_iff hb]
    rwa [hsame]
  | empty hnew hempty =>
    rw [hadd hnew]
    refine ⟨hall, hremembered, h.stored, h.texts.trans ?_⟩
    rw [hempty, List.flatMap_append]
    simp
  | unattached hnew hne hin => cases ha
  | written hnew hne hin hrules =>
    obtain ⟨hlt, htexts⟩ := sheetIn_eq_ok h.stored hin
    obtain ⟨hlength, happended⟩ := writeRules_texts hlt rules
    rw [hrules] at hlength happended
    rw [hadd hnew]
    refine ⟨hall, hremembered, fun id' hid => ?_, ?_⟩
    · cases hid
      exact hlength.symm ▸ hlt
    · show (Document.sheet _ _).texts = _
      rw [happended, htexts, h.texts, List.flatMap_append]
      simp

theorem Holds.fault {out : Outcome SheetWriter (Except Fault Batch)} {fault : Fault}
    (h : w.Holds d batches) (hw : w.Writes d rules out) (ha : out.answer = .error fault) :
    out.owner.Holds out.document batches := by
  cases hw with
  | duplicate _ => cases ha
  | empty _ _ => cases ha
  | written _ _ _ _ => cases ha
  | unattached hnew hne hin =>
    have hnone := sheetIn_eq_error hin
    refine ⟨h.areBatches, h.remembered, fun id hid => ?_, ?_⟩
    · rw [hnone] at hid
      cases hid
    · have htexts := h.texts
      unfold sheetTexts at htexts ⊢
      rwa [hnone] at htexts ⊢

theorem Holds.edit {e : Document.Edit} (h : w.Holds d batches)
    (he : ∀ id text index, w.sheet = some id → e ≠ .insertRule id text index) :
    w.Holds (d.edit e) batches := by
  refine ⟨h.areBatches, h.remembered, fun id hid => ?_, ?_⟩
  · exact Nat.lt_of_lt_of_le (h.stored id hid) (d.length_sheets_edit e)
  · rw [← h.texts]
    unfold sheetTexts
    split
    · rfl
    · rename_i id hid
      rw [Document.sheet_edit fun text index => he id text index hid]

end SheetWriter

structure Call where
  style : Text
  name : Text
  deriving DecidableEq

def Call.batch (c : Call) : List Text := flatten c.style (Engine.classSelector c.name)

def firstCalls (calls : List Call) : List Call := calls.eraseDupsBy (·.style == ·.style)

/-- The batches of the first calls, each of them once. -/
def firstBatches (calls : List Call) : List (List Text) :=
  ((firstCalls calls).map Call.batch).eraseDups

structure Session where
  engine : Engine
  document : Document
  answered : List Call

namespace Session

inductive Action
  | classFor (style : Text)
  | edit (e : Document.Edit)

def start (config : EngineConfig) (d : Document) : Session := ⟨Engine.start config, d, []⟩

def act (s : Session) : Action → Session
  | .classFor style =>
      let out := s.engine.classFor s.document style
      { engine := out.owner
        document := out.document
        answered :=
          match out.answer with
          | .ok name => s.answered ++ [⟨style, name⟩]
          | .error _ => s.answered }
  | .edit e => { s with document := s.document.edit e }

def run (s : Session) (actions : List Action) : Session := actions.foldl act s

def sheetTexts (s : Session) : List Text := s.engine.writer.sheetTexts s.document

def Action.fills (sheet : Option SheetId) : Action → Bool
  | .edit (.insertRule id _ _) => sheet == some id
  | _ => false

/-- Nobody else puts a rule into the engine's sheet. -/
def undisturbed (s : Session) : List Action → Bool
  | [] => true
  | a :: rest => !a.fills s.engine.writer.sheet && (s.act a).undisturbed rest

end Session

theorem firstCalls_again {calls : List Call} {c : Call} (h : c ∈ firstCalls calls) :
    firstCalls (calls ++ [c]) = firstCalls calls := by
  rw [firstCalls, eraseDupsBy_concat, if_pos]
  · rfl
  · exact List.any_eq_true.2 ⟨c, h, beq_self_eq_true c.style⟩

theorem firstCalls_new {calls : List Call} {c : Call}
    (h : ∀ c' ∈ firstCalls calls, c.style ≠ c'.style) :
    firstCalls (calls ++ [c]) = firstCalls calls ++ [c] := by
  rw [firstCalls, eraseDupsBy_concat, if_neg]
  · rfl
  · rw [Bool.not_eq_true, List.any_eq_false]
    intro c' hc' he
    exact h c' hc' (eq_of_beq he)

theorem firstBatches_new {calls : List Call} {c : Call}
    (h : ∀ c' ∈ firstCalls calls, c.style ≠ c'.style) :
    firstBatches (calls ++ [c]) = SheetWriter.addBatch (firstBatches calls) c.batch := by
  rw [firstBatches, firstCalls_new h, List.map_append, List.map_singleton, eraseDups_concat]
  rfl

namespace Session
variable {s : Session}

structure Consistent (s : Session) : Prop where
  stem : '\n' ∉ s.engine.supply.stem
  known : ∀ style name, s.engine.table.lookup? style = some name ↔
    ⟨style, name⟩ ∈ firstCalls s.answered
  holds : s.engine.writer.Holds s.document (firstBatches s.answered)

theorem consistent_start {config : EngineConfig} (h : '\n' ∉ config.classStem) (d : Document) :
    (start config d).Consistent := by
  have hholds : SheetWriter.start.Holds d [] := by
    refine ⟨fun rules hm => ?_, rfl, fun id hid => ?_, rfl⟩
    · cases hm
    · cases hid
  refine ⟨h, fun style name => ⟨fun hk => ?_, fun hm => ?_⟩, hholds⟩
  · cases hk
  · cases hm

theorem Consistent.name_unbroken (h : s.Consistent) :
    '\n' ∉ Engine.classSelector s.engine.nextClass := by
  have hdigits : '\n' ∉ ofNat s.engine.supply.next := by
    intro hm
    exact absurd (Nat.isDigit_of_mem_toDigits (by decide) (by decide) hm) (by decide)
  exact List.not_mem_cons_of_ne_of_not_mem (by decide)
    (List.not_mem_append h.stem (List.not_mem_cons_of_ne_of_not_mem (by decide) hdigits))

theorem Consistent.classFor (h : s.Consistent) (style : Text) :
    (s.act (.classFor style)).Consistent := by
  have hcall := s.engine.classFor_answers s.document style
  unfold Session.act
  dsimp only
  generalize s.engine.classFor s.document style = out at hcall
  cases hcall with
  | known hk =>
    have hfirst := firstCalls_again ((h.known style _).1 hk)
    refine ⟨h.stem, ?_, ?_⟩
    · rw [hfirst]
      exact h.known
    · rw [firstBatches, hfirst]
      exact h.holds
  | exhausted hk hfull => exact h
  | unwritten hk hroom hw ha => exact ⟨h.stem, h.known, h.holds.fault hw ha⟩
  | returned hk hroom hw ha =>
    -- the table knows the style of every call so far, and it does not know this one
    have hnew : ∀ c ∈ firstCalls s.answered, style ≠ c.style := by
      intro c hc he
      have hc' := (h.known c.style c.name).2 hc
      rw [← he, hk] at hc'
      cases hc'
    refine ⟨h.stem, fun other name => ?_, ?_⟩
    · rw [ClassTable.lookup?_record hk, firstCalls_new hnew, List.mem_append, List.mem_singleton]
      split
      · rename_i he
        subst he
        constructor
        · intro hs
          exact .inr (congrArg (Call.mk style) (Option.some.inj hs).symm)
        · rintro (hm | hm)
          · exact absurd rfl (hnew _ hm)
          · rw [(Call.mk.inj hm).2]
      · rename_i hne
        rw [h.known]
        constructor
        · exact .inl
        · rintro (hm | hm)
          · exact hm
          · exact absurd (Call.mk.inj hm).1.symm hne
    · rw [firstBatches_new hnew]
      exact h.holds.write (isBatch_flatten h.name_unbroken style) hw ha

theorem Consistent.act {a : Action} (h : s.Consistent)
    (ha : a.fills s.engine.writer.sheet = false) : (s.act a).Consistent := by
  cases a with
  | classFor style => exact h.classFor style
  | edit e =>
    refine ⟨h.stem, h.known, h.holds.edit fun id text index hid he => ?_⟩
    rw [he, hid] at ha
    exact absurd ha (by simp [Action.fills])

theorem Consistent.run {actions : List Action} (h : s.Consistent) (hu : s.undisturbed actions) :
    (s.run actions).Consistent := by
  induction actions generalizing s with
  | nil => exact h
  | cons a rest ih =>
    rw [undisturbed, Bool.and_eq_true, Bool.not_eq_true'] at hu
    exact ih (h.act hu.1) hu.2

/-- The sheet holds the accepted rules of the texts in the order of their first calls, where a batch
that had come before is left out as a whole. -/
theorem sheetTexts_run {config : EngineConfig} (h : '\n' ∉ config.classStem) (d : Document)
    {actions : List Action} (hu : (start config d).undisturbed actions) :
    ((start config d).run actions).sheetTexts =
      (firstBatches ((start config d).run actions).answered).flatMap (·.filter accepted) :=
  ((consistent_start h d).run hu).holds.texts

def twins : List Action :=
  [.edit .attachSheet, .classFor "&0 \x7b\n  color: red;\n\x7d".toList,
    .edit (.insertRule ⟨0⟩ "p \x7b top: 0; \x7d".toList 0)] ++
    "abcdefgh".toList.map (fun c => .classFor [c]) ++
    [.classFor "color: red;".toList, .classFor "left: 0;\n. \x7b\n  top: 0;\n\x7d".toList]

theorem sheetTexts_run_twins :
    '\n' ∉ EngineConfig.default.classStem ∧
      (start EngineConfig.default Document.start).undisturbed twins ∧
      (firstBatches ((start EngineConfig.default Document.start).run twins).answered) =
        [[".styled-10 \x7b color: red; \x7d".toList], [],
          [".styled-11 \x7b left: 0; \x7d".toList, ".styled-11 . \x7b top: 0; \x7d".toList]] ∧
      ((start EngineConfig.default Document.start).run twins).sheetTexts =
        [".styled-10 \x7b color: red; \x7d".toList, ".styled-11 \x7b left: 0; \x7d".toList] := by
  have hstem : '\n' ∉ EngineConfig.default.classStem := by decide
  have hu : (start EngineConfig.default Document.start).undisturbed twins := by decide +kernel
  have hbatches : firstBatches ((start EngineConfig.default Document.start).run twins).answered =
      [[".styled-10 \x7b color: red; \x7d".toList], [],
        [".styled-11 \x7b left: 0; \x7d".toList, ".styled-11 . \x7b top: 0; \x7d".toList]] := by
    decide +kernel
  refine ⟨hstem, hu, hbatches, ?_⟩
  rw [sheetTexts_run hstem Document.start hu, hbatches]
  decide +kernel

end Session
end ScopedStyle
