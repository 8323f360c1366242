import ScopedStyle.ClassName
import ScopedStyle.Nested.Flattener
import ScopedStyle.SheetWriter

/-!
# The style engine

One call turns style text into a class: a text that was seen before has its
class already; a new one gets the next class, and its flat rules under that
class go into the document.
-/

namespace ScopedStyle

structure EngineConfig where
  classStem : Text
  firstId : Nat
  diagnostics : Bool
  deriving DecidableEq

def EngineConfig.default : EngineConfig :=
  ⟨ClassSupply.default.stem, ClassSupply.default.next, false⟩

structure Engine where
  config : EngineConfig
  table : ClassTable
  supply : ClassSupply
  writer : SheetWriter
  deriving DecidableEq

namespace Engine

def start (config : EngineConfig) : Engine :=
  ⟨config, ClassTable.empty, ⟨config.classStem, config.firstId⟩, SheetWriter.start⟩

def classSelector (className : Text) : Text := '.' :: className

def findings (e : Engine) (className style : Text) : List Warning :=
  if e.config.diagnostics then (lint style).map (.finding className) else []

/-- The class of a style text. A fault while its rules are written has used up the class, and
records neither the batch nor the class. -/
def classFor (e : Engine) (d : Document) (style : Text) :
    Outcome Engine (Except Fault Text) :=
  match e.table.lookup? style with
  | some name => ⟨e, d, [], .ok name⟩
  | none =>
      match e.supply.take with
      | .error fault => ⟨e, d, [], .error fault⟩
      | .ok (name, supply) =>
          let written := e.writer.write d (flatten style (classSelector name))
          let warnings := e.findings name style ++ written.warnings
          match written.answer with
          | .error fault =>
              ⟨{ e with supply, writer := written.owner }, written.document, warnings, .error fault⟩
          | .ok _ =>
              ⟨{ e with supply, writer := written.owner, table := e.table.record style name },
                written.document, warnings, .ok name⟩

end Engine
end ScopedStyle
