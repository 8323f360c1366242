import ScopedStyle.Entries
import ScopedStyle.Value

/-!
# Properties of a rendered component

A caller's class, attributes in the order they were first set, and children. An
attribute named `class` is the caller's class.
-/

namespace ScopedStyle

structure Props (ν : Type) where
  callerClass : Option Text
  attributes : Entries Value
  children : List ν

namespace Props

def empty {ν : Type} : Props ν := ⟨none, [], []⟩

def classKey : Text := ['c', 'l', 'a', 's', 's']

def withClass {ν : Type} (p : Props ν) (name : Text) : Props ν :=
  { p with callerClass := some name }

def withAttr {ν : Type} (p : Props ν) (key : Text) (value : Value) : Props ν :=
  if key = classKey then p.withClass value.render
  else { p with attributes := p.attributes.put key value }

def withChildren {ν : Type} (p : Props ν) (children : List ν) : Props ν :=
  { p with children := p.children ++ children }

def withChild {ν : Type} (p : Props ν) (child : ν) : Props ν := p.withChildren [child]

def get? {ν : Type} (p : Props ν) (key : Text) : Option Value := p.attributes.find? key

def flag {ν : Type} (p : Props ν) (key : Text) : Bool := (p.get? key).any Value.isTruthy

end Props
end ScopedStyle
