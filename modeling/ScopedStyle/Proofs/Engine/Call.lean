import Mathlib.Logic.Function.Basic
import ScopedStyle.Engine

/-!
# The ways that a call can end

A call for a known text is answered from the table. A call for a new text takes a
number, writes the flat rules of the text, and records its class unless the writing
faults. What a call can do, and what the writing in it can do, is listed here
once; every fact about runs of calls is a case analysis on the two lists.
-/

namespace ScopedStyle
open Text

namespace ClassSupply

def past (s : ClassSupply) : ClassSupply := { s with next := s.next + 1 }

theorem take_of_lt {s : ClassSupply} (h : s.next < limit) :
    s.take = .ok (className s.stem s.next, s.past) := by
  have hnext : successor limit s.next = .ok (s.next + 1) := successor_eq_ok_iff.2 ⟨rfl, h⟩
  rw [take, hnext]
  rfl

theorem take_of_le {s : ClassSupply} (h : limit ≤ s.next) : s.take = .error .overflow := by
  rw [take, successor, if_neg (Nat.not_lt.2 h)]

theorem className_injective (stem : Text) : Function.Injective (className stem) := by
  intro m n h
  have hdigits : ofNat m = ofNat n := (List.cons.inj (List.append_cancel_left h)).2
  have hvalue := congrArg (Nat.ofDigitChars 10 · 0) hdigits
  simpa only [ofNat, Nat.ofDigitChars_ten_toDigits] using hvalue

end ClassSupply

theorem ClassTable.lookup?_record {t : ClassTable} {style : Text} (h : t.lookup? style = none)
    (name other : Text) :
    (t.record style name).lookup? other =
      if style = other then some name else t.lookup? other := by
  rw [record, h]
  exact Entries.find?_put style other name t.entries

inductive SheetWriter.Writes (w : SheetWriter) (d : Document) (rules : List Text) :
    Outcome SheetWriter (Except Fault Batch) → Prop
  | duplicate (h : w.hasWritten rules) : Writes w d rules ⟨w, d, [], .ok .duplicate⟩
  | empty (hnew : ¬w.hasWritten rules) (h : rules = []) :
      Writes w d rules ⟨w.remember rules, d, [], .ok (.written 0 0)⟩
  | unattached {d' : Document} {fault : Fault} (hnew : ¬w.hasWritten rules) (hne : rules ≠ [])
      (h : w.sheetIn d = (d', .error fault)) : Writes w d rules ⟨w, d', [], .error fault⟩
  | written {d' d'' : Document} {id : SheetId} {inserted : Nat} {warnings : List Warning}
      (hnew : ¬w.hasWritten rules) (hne : rules ≠ []) (h : w.sheetIn d = (d', .ok id))
      (hrules : writeRules d' id rules = (d'', inserted, warnings)) :
      Writes w d rules ⟨{ w with sheet := some id }.remember rules, d'', warnings,
        .ok (.written inserted warnings.length)⟩

theorem SheetWriter.write_writes (w : SheetWriter) (d : Document) (rules : List Text) :
    w.Writes d rules (w.write d rules) := by
  unfold write
  split
  · rename_i h
    exact .duplicate h
  · rename_i hnew
    split
    · rename_i h
      exact .empty hnew (List.isEmpty_iff.1 h)
    · rename_i hne
      have hne' : rules ≠ [] := fun he => hne (List.isEmpty_iff.2 he)
      split
      · rename_i h
        exact .unattached hnew hne' h
      · rename_i h
        exact .written hnew hne' h rfl

namespace Engine

def nextClass (e : Engine) : Text := ClassSupply.className e.supply.stem e.supply.next

def nextBatch (e : Engine) (style : Text) : List Text := flatten style (classSelector e.nextClass)

inductive Answers (e : Engine) (d : Document) (style : Text) :
    Outcome Engine (Except Fault Text) → Prop
  | known {name : Text} (h : e.table.lookup? style = some name) :
      Answers e d style ⟨e, d, [], .ok name⟩
  | exhausted (h : e.table.lookup? style = none) (hfull : ClassSupply.limit ≤ e.supply.next) :
      Answers e d style ⟨e, d, [], .error .overflow⟩
  | unwritten {written : Outcome SheetWriter (Except Fault Batch)} {warnings : List Warning}
      {fault : Fault} (h : e.table.lookup? style = none) (hroom : e.supply.next < ClassSupply.limit)
      (hw : e.writer.Writes d (e.nextBatch style) written) (ha : written.answer = .error fault) :
      Answers e d style
        ⟨{ e with supply := e.supply.past, writer := written.owner }, written.document, warnings,
          .error fault⟩
  | returned {written : Outcome SheetWriter (Except Fault Batch)} {warnings : List Warning}
      {batch : Batch} (h : e.table.lookup? style = none) (hroom : e.supply.next < ClassSupply.limit)
      (hw : e.writer.Writes d (e.nextBatch style) written) (ha : written.answer = .ok batch) :
      Answers e d style
        ⟨{ e with
            supply := e.supply.past
            writer := written.owner
            table := e.table.record style e.nextClass },
          written.document, warnings, .ok e.nextClass⟩

theorem classFor_answers (e : Engine) (d : Document) (style : Text) :
    e.Answers d style (e.classFor d style) := by
  unfold classFor
  split
  · rename_i h
    exact .known h
  · rename_i h
    rcases Nat.lt_or_ge e.supply.next ClassSupply.limit with hroom | hfull
    · have hw := e.writer.write_writes d (e.nextBatch style)
      rw [ClassSupply.take_of_lt hroom]
      dsimp only
      split
      · rename_i ha
        exact .unwritten h hroom hw ha
      · rename_i ha
        exact .returned h hroom hw ha
    · rw [ClassSupply.take_of_le hfull]
      exact .exhausted h hfull

end Engine
end ScopedStyle
