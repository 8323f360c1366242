import ScopedStyle.Proofs.Component
import ScopedStyle.Proofs.Document.Adoption
import ScopedStyle.Proofs.Engine.Classes
import ScopedStyle.Proofs.Engine.Ledger
import ScopedStyle.Proofs.Props
import ScopedStyle.Proofs.Template

/-!
# What a rendering forwards

A rendering evaluates the template, and a slot that fails ends it before the engine or
the document is touched. Else the engine answers with a class, and one new element takes
the attributes and the children that the properties were built with. Its class attribute is
the only one that is not the caller's: the generated class stands behind the caller's own.
-/

namespace ScopedStyle
open Text

namespace Engine

theorem class_of_answer {config : EngineConfig} {calls : List (Document × Text)} {d : Document}
    {style generated : Text}
    (h : (((start config).settle calls).classFor d style).answer = .ok generated) :
    ∃ n, generated = ClassSupply.className config.classStem n := by
  obtain ⟨n, -, hn⟩ :=
    (((numbered_start config).settle calls).classFor d style).below style generated
      (known_of_answer h)
  have hstem := ((classFor_extends _ d style).trans (settle_extends (start config) calls)).stem
  exact ⟨n, hn.trans (by rw [hstem]; rfl)⟩

theorem className_unblank {stem : Text} (h : ∀ c ∈ stem, isBlank c = false) (n : Nat) :
    ClassSupply.className stem n ≠ [] ∧
      ∀ c ∈ ClassSupply.className stem n, isBlank c = false := by
  refine ⟨by simp [ClassSupply.className], fun c hc => ?_⟩
  rcases List.mem_append.1 hc with hc | hc
  · exact h c hc
  · rcases List.mem_cons.1 hc with rfl | hc
    · decide
    · exact not_blank_of_nameChar (nameChar_of_mem_ofNat hc)

theorem classFor_grows {d : Document} (h : d.Reachable) (e : Engine) (style : Text) :
    (e.classFor d style).document.Reachable ∧
      ∀ n, d.contains n → (e.classFor d style).document.contains n := by
  have hkept : ∀ (f : Document) (x : Document.Edit), (∀ n, x ≠ .remove n) →
      (f.Reachable ∧ ∀ n, d.contains n → f.contains n) →
      (f.edit x).Reachable ∧ ∀ n, d.contains n → (f.edit x).contains n := by
    intro f x hx hf
    refine ⟨hf.1.edit x, fun n hn => ?_⟩
    rw [Document.contains_edit (Document.index_lt_of_contains (hf.2 n hn)) hx]
    exact hf.2 n hn
  exact classFor_of_edits (fun f => hkept f _ fun n he => by cases he)
    (fun f id text index => hkept f _ fun n he => by cases he) ⟨h, fun n hn => hn⟩ e style

end Engine

namespace Component
variable {c : Component} {e : Engine} {d : Document} {steps : List (Props.Step NodeId)}
  {generated : Text}

theorem keys_attributes (steps : List (Props.Step NodeId)) (generated : Text) :
    (attributes (Props.build steps) generated).map Prod.fst =
      Props.keys steps ++ [Props.classKey] := by
  rw [attributes, List.map_append, List.map_map, ← (Props.gathers_build steps).keys]
  rfl

theorem element_eq (c : Component) (steps : List (Props.Step NodeId)) (generated : Text) :
    c.element (Props.build steps) generated =
      ⟨lower c.tag, attributes (Props.build steps) generated, none, none⟩ := by
  have hnodup : (([] ++ attributes (Props.build steps) generated).map Prod.fst).Nodup := by
    rw [List.nil_append, keys_attributes]
    refine (Props.nodup_keys steps).append (List.nodup_singleton _) fun key hkey hclass => ?_
    exact Props.classKey_not_mem_keys steps (List.mem_singleton.1 hclass ▸ hkey)
  rw [element, Node.setAttributes_eq]
  exact congrArg (Node.mk _ · _ _) (Entries.foldl_put_of_nodup hnodup)

/-- The element that a component stands for, given the steps that its properties were built with:
each key once, where it was first set, with the text of its last value, and the classes behind. -/
structure IsElement (c : Component) (steps : List (Props.Step NodeId)) (generated : Text)
    (node : Node) : Prop where
  tag : node.tag = lower c.tag
  plain : node.text = none ∧ node.sheet = none
  attributes : ∃ own classes, node.attributes = own ++ [(Props.classKey, classes)] ∧
    own.map (fun entry => (entry.1, some entry.2)) =
      (Props.keys steps).map (fun key => (key, (Props.lastValue? steps key).map Value.render)) ∧
    words classes = words ((Props.lastClass? steps).getD []) ++ [generated]

theorem isElement_element (c : Component) (steps : List (Props.Step NodeId))
    (hne : generated ≠ []) (hg : ∀ ch ∈ generated, isBlank ch = false) :
    c.IsElement steps generated (c.element (Props.build steps) generated) := by
  rw [element_eq]
  refine ⟨rfl, ⟨rfl, rfl⟩, _, _, rfl, ?_, ?_⟩
  · have hkeys := congrArg (List.map fun entry => (entry.1, entry.2.map Value.render))
      (Props.attributes_build steps)
    rw [List.map_map, List.map_map] at hkeys
    rw [List.map_map]
    exact hkeys
  · rw [words_mergeClasses hne hg, (Props.gathers_build steps).callerClass]

/-- What a rendering does to a document in which the class is resolved: a new element takes the
children out of where they were. -/
structure Forwards (c : Component) (steps : List (Props.Step NodeId)) (generated : Text)
    (f d : Document) (n : NodeId) : Prop where
  new : ¬d.contains n
  element : ∃ node, f.node? n = some node ∧ c.IsElement steps generated node
  parent : f.parent? n = none
  children : f.children n = Props.given steps
  moved : ∀ p, p ≠ n → f.children p = (d.children p).filter (· ∉ Props.given steps)
  others : ∀ m, m ≠ n → f.node? m = d.node? m

theorem forwards_createElement (h : d.Forest) (hne : generated ≠ [])
    (hg : ∀ ch ∈ generated, isBlank ch = false) (hlive : ∀ n ∈ Props.given steps, d.contains n)
    (hnodup : (Props.given steps).Nodup) :
    let made := d.createElement c.tag (attributes (Props.build steps) generated)
      (Props.given steps)
    made.2 = .ok ⟨d.nodes.length⟩ ∧ c.Forwards steps generated made.1 d ⟨d.nodes.length⟩ := by
  intro made
  obtain ⟨hok, hadopts⟩ := h.createElement_ok c.tag (attributes (Props.build steps) generated)
    hlive hnodup
  have hnode : ∀ m, made.1.node? m =
      if m = ⟨d.nodes.length⟩ then some (c.element (Props.build steps) generated)
      else d.node? m := by
    intro m
    rw [(Document.sameNodes_createElement _ _ _).node?, Document.node?_insert]
    rfl
  have hnew : ⟨d.nodes.length⟩ ∉ Props.given steps := fun hm =>
    Document.not_contains_next (hlive _ hm)
  refine ⟨hok, Document.not_contains_next, ?_, ?_, ?_, fun p hp => ?_, fun m hm => ?_⟩
  · exact ⟨_, (hnode _).trans (if_pos rfl), isElement_element c steps hne hg⟩
  · rw [hadopts.parent, if_neg hnew]
    exact Option.eq_none_iff_forall_ne_some.2 fun p hp =>
      Document.not_contains_next (h.live _ p hp).1
  · rw [hadopts.children, h.children_eq_nil Document.not_contains_next, if_pos rfl]
    rfl
  · rw [hadopts.children, if_neg hp, List.append_nil]
  · rw [hnode, if_neg hm]

/-- A slot that fails is the answer, and nothing has changed. Else the answer is a new element with
all that the properties were built with and one class more. -/
theorem render_forwards (c : Component) (steps : List (Props.Step NodeId)) {config : EngineConfig}
    (hstem : ∀ ch ∈ config.classStem, isBlank ch = false) (calls : List (Document × Text))
    {d : Document} (hd : d.Reachable) :
    let e := (Engine.start config).settle calls
    let props := Props.build steps
    ((∃ slot ∈ c.template.slots, ∃ message, slot.evaluate props = .error message) →
      ∃ front slot rest message, c.template.slots = front ++ slot :: rest ∧
        (∀ s ∈ front, ∃ v, s.evaluate props = .ok v) ∧ slot.evaluate props = .error message ∧
        c.render e d props = ⟨e, d, [], .error (.slot ⟨front.length, message⟩)⟩) ∧
    ((∀ slot ∈ c.template.slots, ∃ v, slot.evaluate props = .ok v) →
      ∃ style, c.template.evaluate props = .ok style ∧
        ∀ generated, (e.classFor d style).answer = .ok generated →
          (Props.given steps).Nodup → (∀ n ∈ Props.given steps, d.contains n) →
          ∃ n, (c.render e d props).answer = .ok n ∧ ¬d.contains n ∧
            (c.render e d props).owner = (e.classFor d style).owner ∧
            c.Forwards steps generated (c.render e d props).document
              (e.classFor d style).document n) := by
  intro e props
  refine ⟨fun hfails => ?_, fun hslots => ?_⟩
  · obtain ⟨front, slot, rest, message, hsplit, hfront, hslot, hrun⟩ :=
      Template.evaluate_error hfails
    exact ⟨front, slot, rest, message, hsplit, hfront, hslot, render_of_slot hrun e d⟩
  · obtain ⟨style, hstyle⟩ := Template.evaluate_ok hslots
    refine ⟨style, hstyle, fun generated hanswer hnodup hlive => ?_⟩
    obtain ⟨hreach, hgrows⟩ := e.classFor_grows hd style
    obtain ⟨number, rfl⟩ := Engine.class_of_answer hanswer
    obtain ⟨hne, hg⟩ := Engine.className_unblank hstem number
    obtain ⟨hok, hforwards⟩ := forwards_createElement hreach.forest hne hg
      (fun n hn => hgrows n (hlive n hn)) hnodup
    have hrender := render_ok hstyle hanswer
    rw [(Props.gathers_build steps).children] at hrender
    rw [hrender]
    exact ⟨_, congrArg (Except.mapError _) hok, fun hn => hforwards.new (hgrows _ hn), rfl,
      hforwards⟩

def cardSteps : List (Props.Step NodeId) :=
  [.withClass "old".toList, .withAttr "id".toList (.int 1),
    .withAttr "color".toList (.text "red".toList),
    .withAttr Props.classKey (.text " card  big ".toList),
    .withAttr "color".toList (.text "blue".toList), .withChild ⟨4⟩, .withChildren [⟨3⟩]]

def nestedParagraph : Document :=
  Document.start.editAll [.insert (Node.element "p".toList), .insert (Node.element "b".toList),
    .append Document.body ⟨3⟩, .append ⟨3⟩ ⟨4⟩]

def colorCard : Component :=
  ⟨"DIV".toList, .ofParts ["color: ".toList, ";".toList] [Slot.get "color".toList]⟩

def renderedCard : Outcome Engine (Except RenderError NodeId) :=
  colorCard.render ((Engine.start ⟨['s'], 7, false⟩).settle [(Document.start, "a: 1;".toList)])
    nestedParagraph (Props.build cardSteps)

theorem render_forwards_card :
    ∃ n node own classes, renderedCard.answer = .ok n ∧ renderedCard.document.parent? n = none ∧
      renderedCard.document.children n = [⟨4⟩, ⟨3⟩] ∧ renderedCard.document.children ⟨3⟩ = [] ∧
      renderedCard.document.children Document.body = [] ∧
      renderedCard.document.node? n = some node ∧ node.tag = "div".toList ∧
      node.attributes = own ++ [(Props.classKey, classes)] ∧
      own.map (fun entry => (entry.1, some entry.2)) =
        [("id".toList, some "1".toList), ("color".toList, some "blue".toList)] ∧
      words classes = ["card".toList, "big".toList, "s-8".toList] := by
  have hreach : Document.Reachable nestedParagraph := Document.Reachable.start.editAll _
  have hslots : ∀ slot ∈ colorCard.template.slots,
      ∃ v, slot.evaluate (Props.build cardSteps) = .ok v := by
    intro slot hslot
    obtain rfl := List.mem_singleton.1 hslot
    exact ⟨_, rfl⟩
  have hstem : ∀ ch ∈ (EngineConfig.mk ['s'] 7 false).classStem, isBlank ch = false :=
    List.forall_mem_singleton.2 (by decide)
  obtain ⟨-, hforwards⟩ :=
    render_forwards colorCard cardSteps hstem [(Document.start, "a: 1;".toList)] hreach
  obtain ⟨style, hstyle, hrun⟩ := hforwards hslots
  obtain rfl : "color: blue;".toList = style := Except.ok.inj (Eq.trans (by decide +kernel) hstyle)
  obtain ⟨n, hanswer, hnew, -, hresult⟩ := hrun "s-8".toList (by decide +kernel)
    (by decide) (by decide)
  obtain ⟨node, hnode, helement⟩ := hresult.element
  obtain ⟨own, classes, hattributes, hown, hclasses⟩ := helement.attributes
  have hparagraph : (⟨3⟩ : NodeId) ≠ n := fun he => hnew (he ▸ by decide)
  have hbody : Document.body ≠ n := fun he => hnew (he ▸ by decide)
  change colorCard.Forwards _ _ renderedCard.document _ n at hresult
  refine ⟨n, node, own, classes, hanswer, hresult.parent, hresult.children, ?_, ?_,
    hnode, helement.tag, hattributes, hown, ?_⟩
  · rw [hresult.moved _ hparagraph]
    decide +kernel
  · rw [hresult.moved _ hbody]
    decide +kernel
  · rw [hclasses]
    decide +kernel

end Component
end ScopedStyle
