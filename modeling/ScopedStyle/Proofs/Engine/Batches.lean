import ScopedStyle.Proofs.Engine.Call
import ScopedStyle.Proofs.Document.SheetStore
import ScopedStyle.Proofs.Nested.Layout

/-!
# Which batches are skipped

A writer knows a batch by its joined text, and the text tells no more than the lines
of the batch. So a batch is skipped exactly if one with the same lines was written
before. Where no rule has a line feed in it, that is the same batch, but for the empty
batch, which has the one line of the batch with one empty rule.
-/

namespace ScopedStyle.SheetWriter
open Text

variable {w : SheetWriter} {d : Document} {rules xs ys : List Text} {text : Text}

def batchLines (rules : List Text) : List Text :=
  if rules.isEmpty then [[]] else rules.flatMap (List.splitOn '\n')

theorem splitOn_batchText (rules : List Text) :
    (batchText rules).splitOn '\n' = batchLines rules := by
  induction rules with
  | nil => rfl
  | cons t rest ih =>
    cases rest with
    | nil => simp [batchText, batchLines]
    | cons u rest =>
      have hjoined : batchText (t :: u :: rest) = t ++ '\n' :: batchText (u :: rest) := by
        rw [batchText, List.intercalate_cons_cons, List.append_assoc]
        rfl
      have hcut : (t ++ '\n' :: batchText (u :: rest)).splitOn '\n' =
          t.splitOn '\n' ++ (batchText (u :: rest)).splitOn '\n' :=
        List.splitOnP_append_cons t _ (beq_self_eq_true '\n')
      rw [hjoined, hcut, ih]
      rfl

theorem batchText_eq_iff : batchText xs = batchText ys ↔ batchLines xs = batchLines ys := by
  rw [← splitOn_batchText, ← splitOn_batchText]
  constructor
  · exact congrArg (List.splitOn '\n')
  · intro h
    have hlines := congrArg (List.intercalate ['\n']) h
    rwa [List.intercalate_splitOn, List.intercalate_splitOn] at hlines

theorem batchLines_unbroken (h : Unbroken rules) :
    batchLines rules = if rules.isEmpty then [[]] else rules := by
  have hrule : ∀ t ∈ rules, t.splitOn '\n' = [t] := by
    intro t ht
    have hall : ∀ l ∈ [t], '\n' ∉ l := fun l hl => List.mem_singleton.1 hl ▸ h t ht
    have hsplit := List.splitOn_intercalate '\n' hall (List.cons_ne_nil t [])
    rwa [List.intercalate_singleton] at hsplit
  have hall : rules.flatMap (List.splitOn '\n') = rules := by
    rw [List.flatMap_congr hrule, List.flatMap_singleton']
  rw [batchLines, hall]

theorem batchLines_eq_iff (hx : Unbroken xs) (hy : Unbroken ys) :
    batchLines xs = batchLines ys ↔
      xs = ys ∨ xs = [] ∧ ys = [[]] ∨ xs = [[]] ∧ ys = [] := by
  rw [batchLines_unbroken hx, batchLines_unbroken hy]
  cases xs with
  | nil =>
    cases ys with
    | nil => simp
    | cons u ys => simp [eq_comm]
  | cons t xs =>
    cases ys with
    | nil => simp
    | cons u ys => simp

structure Delivery where
  rules : List Text
  answer : Except Fault Batch
  deriving DecidableEq

/-- The deliveries of a run. Documents come from outside, as others have left them. -/
def deliveries (w : SheetWriter) : List (Document × List Text) → List Delivery
  | [] => []
  | (d, rules) :: calls =>
      ⟨rules, (w.write d rules).answer⟩ :: (w.write d rules).owner.deliveries calls

theorem write_eq_duplicate_iff :
    (w.write d rules).answer = .ok .duplicate ↔ batchText rules ∈ w.batches := by
  have hwrites := w.write_writes d rules
  rw [← List.contains_iff_mem, ← hasWritten]
  generalize w.write d rules = out at hwrites
  cases hwrites with
  | duplicate h => simp [h]
  | empty hnew h => simp [hnew]
  | unattached hnew hne h => simp [hnew]
  | written hnew hne h hrules => simp [hnew]

theorem mem_batches_write :
    text ∈ (w.write d rules).owner.batches ↔
      text ∈ w.batches ∨ (w.write d rules).answer.isOk ∧ batchText rules = text := by
  have hwrites := w.write_writes d rules
  generalize w.write d rules = out at hwrites
  cases hwrites with
  | duplicate h =>
    have hmem : batchText rules ∈ w.batches := List.contains_iff_mem.1 h
    constructor
    · exact .inl
    · rintro (h | ⟨-, rfl⟩)
      · exact h
      · exact hmem
  | empty hnew h => simp [remember, Except.isOk, Except.toBool, eq_comm]
  | unattached hnew hne h => simp [Except.isOk, Except.toBool]
  | written hnew hne h hrules => simp [remember, Except.isOk, Except.toBool, eq_comm]

theorem delivery_duplicate_iff {calls : List (Document × List Text)} {before after : List Delivery}
    {e : Delivery} (h : w.deliveries calls = before ++ e :: after) :
    e.answer = .ok .duplicate ↔ batchText e.rules ∈ w.batches ∨
      ∃ f ∈ before, f.answer.isOk ∧ batchText f.rules = batchText e.rules := by
  induction calls generalizing w before with
  | nil => simp [deliveries] at h
  | cons call calls ih =>
    obtain ⟨d, rules⟩ := call
    rw [deliveries] at h
    cases before with
    | nil =>
      obtain ⟨rfl, -⟩ := List.cons.inj h
      simp [write_eq_duplicate_iff]
    | cons first before =>
      -- the first delivery is what the writer remembers more in the run of the others
      obtain ⟨rfl, hrest⟩ := List.cons.inj h
      rw [ih hrest, mem_batches_write, or_assoc]
      simp

/-- A batch is skipped exactly if a batch with the same lines came before it and did not fault.
Among batches whose rules have no line feed, the same lines are the same batch, but for the empty
batch and the batch with one empty rule. -/
theorem duplicate_iff_lines {calls : List (Document × List Text)} {before after : List Delivery}
    {e : Delivery} (h : start.deliveries calls = before ++ e :: after) :
    (e.answer = .ok .duplicate ↔
        ∃ f ∈ before, f.answer.isOk ∧ batchLines f.rules = batchLines e.rules) ∧
      ∀ f ∈ before, Unbroken f.rules → Unbroken e.rules →
        (batchLines f.rules = batchLines e.rules ↔
          f.rules = e.rules ∨ f.rules = [] ∧ e.rules = [[]] ∨ f.rules = [[]] ∧ e.rules = []) := by
  refine ⟨?_, fun f _ hf he => batchLines_eq_iff hf he⟩
  rw [delivery_duplicate_iff h]
  simp [start, batchText_eq_iff]

def joinedRules : List Text := ["a \x7b b: c; \x7d\np \x7b q: r; \x7d".toList]

def partedRules : List Text := ["a \x7b b: c; \x7d".toList, "p \x7b q: r; \x7d".toList]

theorem duplicate_iff_lines_parted :
    start.deliveries [(Document.start, [[]]), (Document.start, partedRules),
        (Document.start, joinedRules)] =
        [⟨[[]], .ok (.written 0 1)⟩, ⟨partedRules, .ok (.written 2 0)⟩] ++
          ⟨joinedRules, .ok .duplicate⟩ :: [] ∧
      ∃ f ∈ [(⟨[[]], .ok (.written 0 1)⟩ : Delivery), ⟨partedRules, .ok (.written 2 0)⟩],
        f.answer.isOk ∧ batchLines f.rules = batchLines joinedRules := by
  have h : start.deliveries [(Document.start, [[]]), (Document.start, partedRules),
      (Document.start, joinedRules)] =
      [⟨[[]], .ok (.written 0 1)⟩, ⟨partedRules, .ok (.written 2 0)⟩] ++
        ⟨joinedRules, .ok .duplicate⟩ :: [] := by decide +kernel
  exact ⟨h, (duplicate_iff_lines h).1.1 rfl⟩

/-- The two rules are skipped behind the text of both, which is no rule: the sheet stays empty. -/
theorem duplicate_regrouped :
    start.deliveries [(Document.start, joinedRules),
        ((start.write Document.start joinedRules).document, partedRules)] =
        [⟨joinedRules, .ok (.written 0 1)⟩, ⟨partedRules, .ok .duplicate⟩] ∧
      joinedRules ≠ partedRules ∧ (∀ t ∈ partedRules, accepted t) ∧
      (start.write Document.start joinedRules).document.sheets = [RuleList.empty] := by
  refine ⟨by decide +kernel, by decide, by decide +kernel, by decide +kernel⟩

end ScopedStyle.SheetWriter
