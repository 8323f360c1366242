import ScopedStyle.Engine
import ScopedStyle.Template

/-!
# Styled components

A component is a tag with a style template. Rendering it evaluates the template,
asks an engine for the class, and creates an element with the properties' own
attributes and children.
-/

namespace ScopedStyle

structure Component where
  tag : Text
  template : Template (Props NodeId)

inductive RenderError
  | slot (error : SlotError)
  | document (fault : Fault)
  deriving DecidableEq

namespace Component

def className (c : Component) (e : Engine) (d : Document) (props : Props NodeId) :
    Outcome Engine (Except RenderError Text) :=
  match c.template.evaluate props with
  | .error failure => ⟨e, d, [], .error (.slot failure)⟩
  | .ok style =>
      let called := e.classFor d style
      ⟨called.owner, called.document, called.warnings, called.answer.mapError .document⟩

def attributes (props : Props NodeId) (generated : Text) : Entries Text :=
  props.attributes.map (fun entry => (entry.1, entry.2.render)) ++
    [(Props.classKey, mergeClasses props.callerClass generated)]

def render (c : Component) (e : Engine) (d : Document) (props : Props NodeId) :
    Outcome Engine (Except RenderError NodeId) :=
  let found := c.className e d props
  match found.answer with
  | .error failure => ⟨found.owner, found.document, found.warnings, .error failure⟩
  | .ok generated =>
      let made := found.document.createElement c.tag (attributes props generated) props.children
      ⟨found.owner, made.1, found.warnings, made.2.mapError .document⟩

end Component
end ScopedStyle
