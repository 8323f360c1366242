import ScopedStyle.Document
import ScopedStyle.Lint

/-!
# Writing batches of rules into a document

A writer has at most one sheet, which it attaches for its first batch that is
not empty, and skips every batch whose text it has written before. Rules that
the sheet refuses are passed over with a warning.
-/

namespace ScopedStyle
open Text

inductive Warning
  | rejectedRule (rule : Text) (error : InsertError)
  | finding (className : Text) (finding : Finding)
  deriving DecidableEq

def Warning.message : Warning → String
  | rejectedRule _ _ => "stylesheet rejected rule"
  | finding _ f => f.kind.message

structure Outcome (σ α : Type) where
  owner : σ
  document : Document
  warnings : List Warning
  answer : α

structure SheetWriter where
  sheet : Option SheetId
  batches : List Text
  deriving DecidableEq

inductive Batch
  | duplicate
  | written (inserted rejected : Nat)
  deriving DecidableEq

namespace SheetWriter

def start : SheetWriter := ⟨none, []⟩

def batchText (rules : List Text) : Text := List.intercalate ['\n'] rules

def hasWritten (w : SheetWriter) (rules : List Text) : Bool :=
  w.batches.contains (batchText rules)

def remember (w : SheetWriter) (rules : List Text) : SheetWriter :=
  { w with batches := w.batches ++ [batchText rules] }

def writeRules (d : Document) (id : SheetId) :
    List Text → Document × Nat × List Warning
  | [] => (d, 0, [])
  | text :: rest =>
      match d.insertRule id text (d.sheet id).size with
      | (d', .ok _) =>
          let (d'', inserted, warnings) := writeRules d' id rest
          (d'', inserted + 1, warnings)
      | (d', .error e) =>
          let (d'', inserted, warnings) := writeRules d' id rest
          (d'', inserted, .rejectedRule text e :: warnings)

def sheetIn (w : SheetWriter) (d : Document) : Document × Except Fault SheetId :=
  match w.sheet with
  | some id => (d, .ok id)
  | none => d.attachSheet

/-- Write a batch. A fault while attaching the sheet leaves the writer as it was. The writer knows
its sheet by number: handed another document than before, it writes to the sheet of that number
there, where a writer with a handle on its sheet would go on writing to the first document. The
owner, the warnings and the answer are the same for both. -/
def write (w : SheetWriter) (d : Document) (rules : List Text) :
    Outcome SheetWriter (Except Fault Batch) :=
  if w.hasWritten rules then ⟨w, d, [], .ok .duplicate⟩
  else if rules.isEmpty then ⟨w.remember rules, d, [], .ok (.written 0 0)⟩
  else
    match w.sheetIn d with
    | (d', .error e) => ⟨w, d', [], .error e⟩
    | (d', .ok id) =>
        let (d'', inserted, warnings) := writeRules d' id rules
        ⟨{ w with sheet := some id }.remember rules, d'', warnings,
          .ok (.written inserted warnings.length)⟩

end SheetWriter
end ScopedStyle
