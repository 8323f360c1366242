import ScopedStyle.Proofs.Document.Attached
import ScopedStyle.Proofs.Document.Structural
import ScopedStyle.Proofs.Engine.Sheet
import ScopedStyle.Proofs.Nested.Root

/-!
# An engine apart from its document

Where a sheet can be attached, a document has no say in what an engine does: the
answers come from its table and its numbers, and the texts in its sheet are those
that its batches put there. So a call on a document is a call on the engine's
ledger, which holds all of that and no document. The document keeps its other
sheets, and a new one at most comes to be attached behind the others.
-/

namespace ScopedStyle
open Text

namespace Document
variable {d f g : Document} {own : Option SheetId}

/-- What a document keeps while the owner of a sheet writes in it. -/
structure Keeps (f d : Document) (own : Option SheetId) : Prop where
  reachable : d.Reachable → f.Reachable
  live : ∀ n, d.contains n → f.contains n
  stored : d.sheets.length ≤ f.sheets.length
  others : ∀ id, own ≠ some id → f.sheet id = d.sheet id

theorem Keeps.refl (d : Document) (own : Option SheetId) : d.Keeps d own :=
  ⟨id, fun _ h => h, Nat.le_refl _, fun _ _ => rfl⟩

theorem Keeps.trans (hg : g.Keeps f own) (hf : f.Keeps d own) : g.Keeps d own :=
  ⟨fun h => hg.reachable (hf.reachable h), fun n h => hg.live n (hf.live n h),
    Nat.le_trans hf.stored hg.stored, fun id h => (hg.others id h).trans (hf.others id h)⟩

theorem keeps_edit {e : Edit} (he : ∀ n, e ≠ .remove n)
    (hown : ∀ id text index, own ≠ some id → e ≠ .insertRule id text index) :
    (d.edit e).Keeps d own := by
  refine ⟨fun h => h.edit e, fun n hn => ?_, d.length_sheets_edit e, fun id hid => ?_⟩
  · rwa [contains_edit (index_lt_of_contains hn) he]
  · exact sheet_edit fun text index => hown id text index hid

end Document

structure Written where
  batches : List Text
  texts : Option (List Text)
  deriving DecidableEq

def Written.write (p : Written) (rules : List Text) : Written :=
  if p.batches.contains (SheetWriter.batchText rules) then p
  else
    ⟨p.batches ++ [SheetWriter.batchText rules],
      if rules.isEmpty then p.texts else some (p.texts.getD [] ++ rules.filter accepted)⟩

namespace SheetWriter
variable {w : SheetWriter} {d f : Document} {rules : List Text}

def written (w : SheetWriter) (d : Document) : Written :=
  ⟨w.batches, w.sheet.map fun id => (d.sheet id).texts⟩

theorem written_congr (h : ∀ id, w.sheet = some id → f.sheet id = d.sheet id) :
    w.written f = w.written d := by
  refine congrArg (Written.mk w.batches) (Option.map_congr fun id hid => ?_)
  rw [h id hid]

theorem sheetTexts_eq (w : SheetWriter) (d : Document) :
    w.sheetTexts d = (w.written d).texts.getD [] := by
  unfold sheetTexts written
  cases w.sheet with
  | none => rfl
  | some id => rfl

/-- The head can take a sheet, and the sheet of the writer, if there is one, is in the store. -/
structure Ready (w : SheetWriter) (d : Document) : Prop where
  reachable : d.Reachable
  head : d.contains Document.head
  stored : ∀ id, w.sheet = some id → id.index < d.sheets.length

inductive Opens (w : SheetWriter) (d : Document) : Option SheetId → List SheetId → Prop
  | kept : Opens w d w.sheet d.attached
  | opened (h : w.sheet = none) :
      Opens w d (some ⟨d.sheets.length⟩) (d.attached ++ [⟨d.sheets.length⟩])

theorem sheetIn_ready (h : w.Ready d) : ∃ id f, w.sheetIn d = (f, .ok id) ∧
    w.Opens d (some id) f.attached ∧ f.Keeps d (some id) := by
  cases hs : w.sheet with
  | some id =>
    refine ⟨id, d, ?_, hs ▸ .kept, .refl d _⟩
    rw [sheetIn, hs]
  | none =>
    obtain ⟨hok, hattached⟩ := h.reachable.forest.attachSheet_ok h.head
    refine ⟨⟨d.sheets.length⟩, d.attachSheet.1, ?_, ?_, ?_⟩
    · rw [sheetIn, hs, ← hok]
    · rw [hattached]
      exact .opened hs
    · exact Document.keeps_edit (e := .attachSheet) (fun _ he => by cases he)
        fun _ _ _ _ he => by cases he

theorem writeRules_of {P : Document → Prop} {id : SheetId}
    (hrule : ∀ d text index, P d → P (d.edit (.insertRule id text index))) (hd : P d)
    (rules : List Text) : P (writeRules d id rules).1 := by
  induction rules generalizing d with
  | nil => exact hd
  | cons text rules ih =>
    rw [writeRules_cons]
    exact ih (hrule d text _ hd)

theorem Writes.of_edits {P : Document → Prop} {out : Outcome SheetWriter (Except Fault Batch)}
    (hsheet : ∀ d, P d → P (d.edit .attachSheet))
    (hrule : ∀ d id text index, P d → P (d.edit (.insertRule id text index)))
    (hw : w.Writes d rules out) (hd : P d) : P out.document := by
  have hin : P (w.sheetIn d).1 := by
    rw [sheetIn]
    split
    · exact hd
    · exact hsheet d hd
  cases hw with
  | duplicate _ => exact hd
  | empty _ _ => exact hd
  | unattached _ _ h => rwa [h] at hin
  | @written _ _ id _ _ _ _ h hrules =>
    rw [h] at hin
    have hall := writeRules_of (fun d text index => hrule d id text index) hin rules
    rwa [hrules] at hall

theorem writeRules_keeps (d : Document) (id : SheetId) (rules : List Text) :
    (writeRules d id rules).1.Keeps d (some id) ∧
      (writeRules d id rules).1.attached = d.attached := by
  refine writeRules_of (P := fun f => f.Keeps d (some id) ∧ f.attached = d.attached)
    (fun f text index hf => ⟨?_, ?_⟩) ⟨.refl d _, rfl⟩ rules
  · refine Document.Keeps.trans (Document.keeps_edit (fun _ he => by cases he) ?_) hf.1
    intro other _ _ hother he
    cases he
    exact hother rfl
  · rw [← hf.2]
    have ha := f.edit_attaches (.insertRule id text index)
    generalize (f.edit (.insertRule id text index)).attached = attached at ha ⊢
    cases ha with
    | same => rfl

structure Writes.Done (w : SheetWriter) (d : Document) (rules : List Text)
    (out : Outcome SheetWriter (Except Fault Batch)) : Prop where
  answered : ∃ batch, out.answer = .ok batch
  written : out.owner.written out.document = (w.written d).write rules
  opens : w.Opens d out.owner.sheet out.document.attached
  keeps : out.document.Keeps d out.owner.sheet

theorem Writes.done {out : Outcome SheetWriter (Except Fault Batch)} (h : w.Ready d)
    (hw : w.Writes d rules out) : Done w d rules out := by
  have hnew (hb : ¬w.hasWritten rules) :
      (w.written d).write rules = ⟨w.batches ++ [batchText rules],
        if rules.isEmpty then (w.written d).texts
        else some ((w.written d).texts.getD [] ++ rules.filter accepted)⟩ := if_neg hb
  obtain ⟨id, f, hin, hopens, hkeeps⟩ := sheetIn_ready h
  cases hw with
  | duplicate hold => exact ⟨⟨_, rfl⟩, (if_pos hold).symm, .kept, .refl d _⟩
  | empty hb hempty =>
    refine ⟨⟨_, rfl⟩, ?_, .kept, .refl d _⟩
    rw [hnew hb, hempty]
    rfl
  | unattached hb hne hfault =>
    rw [hin] at hfault
    cases hfault
  | written hb hne hok hrules =>
    obtain ⟨hlt, htexts⟩ := sheetIn_eq_ok h.stored hok
    rw [hin] at hok
    cases hok
    have hbatch := writeRules_keeps f id rules
    have happended := (writeRules_texts hlt rules).2
    rw [hrules] at hbatch happended
    refine ⟨⟨_, rfl⟩, ?_, ?_, hbatch.1.trans hkeeps⟩
    · rw [hnew hb, List.isEmpty_eq_false_iff.2 hne, ← sheetTexts_eq, ← htexts]
      exact congrArg (fun texts => Written.mk _ (some texts)) happended
    · show w.Opens d (some id) _
      rw [hbatch.2]
      exact hopens

end SheetWriter

structure Ledger where
  table : ClassTable
  supply : ClassSupply
  written : Written
  deriving DecidableEq

namespace Ledger

def call (l : Ledger) (style : Text) : Ledger × Except Fault Text :=
  match l.table.lookup? style with
  | some name => (l, .ok name)
  | none =>
      match l.supply.take with
      | .error fault => (l, .error fault)
      | .ok (name, supply) =>
          (⟨l.table.record style name, supply,
            l.written.write (flatten style (Engine.classSelector name))⟩, .ok name)

def answers (l : Ledger) : List Text → List (Except Fault Text)
  | [] => []
  | style :: rest => (l.call style).2 :: (l.call style).1.answers rest

def settle (l : Ledger) : List Text → Ledger
  | [] => l
  | style :: rest => (l.call style).1.settle rest

end Ledger

namespace Engine
variable {e : Engine} {d : Document} {style : Text}

def ledger (e : Engine) (d : Document) : Ledger := ⟨e.table, e.supply, e.writer.written d⟩

structure Answers.Done (e : Engine) (d : Document) (style : Text)
    (out : Outcome Engine (Except Fault Text)) : Prop where
  ledger : (out.owner.ledger out.document, out.answer) = (e.ledger d).call style
  opens : e.writer.Opens d out.owner.writer.sheet out.document.attached
  keeps : out.document.Keeps d out.owner.writer.sheet

theorem Answers.done {out : Outcome Engine (Except Fault Text)} (h : e.writer.Ready d)
    (ha : e.Answers d style out) : Done e d style out := by
  cases ha with
  | known hk =>
    refine ⟨?_, .kept, .refl d _⟩
    rw [Ledger.call, Engine.ledger, hk]
  | exhausted hk hfull =>
    refine ⟨?_, .kept, .refl d _⟩
    rw [Ledger.call, Engine.ledger, hk, ClassSupply.take_of_le hfull]
  | unwritten hk hroom hw ha =>
    obtain ⟨batch, hok⟩ := (hw.done h).answered
    rw [ha] at hok
    cases hok
  | returned hk hroom hw ha =>
    have hdone := hw.done h
    refine ⟨?_, hdone.opens, hdone.keeps⟩
    rw [Ledger.call, Engine.ledger, Engine.ledger, hk, ClassSupply.take_of_lt hroom,
      hdone.written]
    rfl

theorem classFor_of_edits {P : Document → Prop} (hsheet : ∀ d, P d → P (d.edit .attachSheet))
    (hrule : ∀ d id text index, P d → P (d.edit (.insertRule id text index))) (hd : P d)
    (e : Engine) (style : Text) : P (e.classFor d style).document := by
  have hcall := e.classFor_answers d style
  generalize e.classFor d style = out at hcall
  cases hcall with
  | known _ => exact hd
  | exhausted _ _ => exact hd
  | unwritten _ _ hw _ => exact hw.of_edits hsheet hrule hd
  | returned _ _ hw _ => exact hw.of_edits hsheet hrule hd

end Engine

theorem flatten_class_ne_nil {style name t : Text}
    (ht : t ∈ flatten style (Engine.classSelector name)) : t ≠ [] := by
  rw [flatten_under] at ht
  obtain ⟨tail, -, rfl⟩ := List.mem_map.1 ht
  exact List.cons_ne_nil _ _

def Written.Sound (p : Written) : Prop := ∀ text ∈ p.batches, text ≠ [] → p.texts.isSome

theorem SheetWriter.batchText_ne_nil {rules : List Text} (h : ∀ t ∈ rules, t ≠ [])
    (hne : rules ≠ []) : batchText rules ≠ [] := by
  cases rules with
  | nil => exact absurd rfl hne
  | cons t rest =>
    have ht := h t List.mem_cons_self
    cases rest with
    | nil => simpa [batchText] using ht
    | cons u rest => simp [batchText, List.intercalate_cons_cons, ht]

theorem Written.Sound.write_isSome {p : Written} (h : p.Sound) {rules : List Text}
    (hrules : ∀ t ∈ rules, t ≠ []) :
    (p.write rules).texts.isSome ↔ p.texts.isSome ∨ rules ≠ [] := by
  unfold Written.write
  split
  · rename_i hold
    refine ⟨.inl, fun hs => hs.elim id fun hne => ?_⟩
    exact h _ (List.contains_iff_mem.1 hold) (SheetWriter.batchText_ne_nil hrules hne)
  · cases rules with
    | nil => simp
    | cons t rest => simp

theorem Written.Sound.write {p : Written} (h : p.Sound) {rules : List Text}
    (hrules : ∀ t ∈ rules, t ≠ []) : (p.write rules).Sound := by
  intro text hm hne
  rw [h.write_isSome hrules]
  unfold Written.write at hm
  split at hm
  · exact .inl (h text hm hne)
  · rcases List.mem_append.1 hm with hm | hm
    · exact .inl (h text hm hne)
    · refine .inr fun hempty => hne ?_
      rw [List.mem_singleton.1 hm, hempty]
      rfl

def answerBatch (style : Text) : Except Fault Text → List Text
  | .ok name => flatten style (Engine.classSelector name)
  | .error _ => []

namespace Ledger
variable {l : Ledger}

structure Sound (l : Ledger) : Prop where
  written : l.written.Sound
  known : ∀ style name, l.table.lookup? style = some name →
    answerBatch style (.ok name) ≠ [] → l.written.texts.isSome

theorem Sound.call_isSome (h : l.Sound) (style : Text) :
    (l.call style).1.written.texts.isSome ↔
      l.written.texts.isSome ∨ answerBatch style (l.call style).2 ≠ [] := by
  unfold call
  split
  · rename_i name hk
    exact ⟨.inl, fun hs => hs.elim id (h.known style name hk)⟩
  · split
    · simp [answerBatch]
    · exact h.written.write_isSome fun t => flatten_class_ne_nil

theorem Sound.call (h : l.Sound) (style : Text) : (l.call style).1.Sound := by
  have hsome := h.call_isSome style
  unfold Ledger.call at hsome ⊢
  split at hsome
  · exact h
  · rename_i hk
    split at hsome
    · exact h
    · rename_i name supply htake
      refine ⟨h.written.write fun t => flatten_class_ne_nil, fun other found hfound hne => ?_⟩
      rw [ClassTable.lookup?_record hk] at hfound
      rw [hsome]
      split at hfound
      · rename_i he
        cases hfound
        subst he
        exact .inr hne
      · exact .inl (h.known other found hfound hne)

end Ledger
end ScopedStyle
