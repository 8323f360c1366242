import ScopedStyle.Entries
import ScopedStyle.Fault

/-!
# Class names

Generated classes are a stem and a number that is handed out once. A class table
remembers which class a style text has.
-/

namespace ScopedStyle
open Text

structure ClassSupply where
  stem : Text
  next : Nat
  deriving DecidableEq

namespace ClassSupply

/-- The largest number. It is never handed out, since the supply cannot go past it. -/
def limit : Nat := Nat.pow 2 64 - 1

def default : ClassSupply := ⟨['s', 't', 'y', 'l', 'e', 'd'], 1⟩

def className (stem : Text) (id : Nat) : Text := stem ++ '-' :: ofNat id

def take (s : ClassSupply) : Except Fault (Text × ClassSupply) :=
  match successor limit s.next with
  | .error e => .error e
  | .ok next => .ok (className s.stem s.next, { s with next })

end ClassSupply

structure ClassTable where
  entries : Entries Text
  deriving DecidableEq

namespace ClassTable

def empty : ClassTable := ⟨[]⟩

def size (t : ClassTable) : Nat := t.entries.length

def lookup? (t : ClassTable) (style : Text) : Option Text := t.entries.find? style

def record (t : ClassTable) (style className : Text) : ClassTable :=
  match t.lookup? style with
  | some _ => t
  | none => ⟨t.entries.put style className⟩

end ClassTable

def mergeClasses (caller : Option Text) (generated : Text) : Text :=
  match caller.map trim with
  | none => generated
  | some [] => generated
  | some names => names ++ ' ' :: generated

end ScopedStyle
