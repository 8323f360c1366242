import ScopedStyle.Node
import ScopedStyle.Proofs.Entries
import ScopedStyle.Proofs.Text.Words

/-!
# What a node is built with

A node begins without attributes and gets them one by one. Whatever it is built with,
its attributes are a map: a name stands once, where it was first set, with the value
that was set last. One of the values is read as a list of classes. To add a class is to
set that value again, and the list grows by the class, or not at all if it is there.
-/

namespace ScopedStyle
open Text

namespace Node

theorem attribute?_setAttribute (n : Node) (name value other : Text) :
    (n.setAttribute name value).attribute? other =
      if name = other then some value else n.attribute? other :=
  Entries.find?_put name other value n.attributes

theorem classes_setAttribute (n : Node) (name value : Text) :
    (n.setAttribute name value).classes = if name = classKey then words value else n.classes := by
  rw [classes, attribute?_setAttribute]
  split
  · rfl
  · rfl

theorem setAttributes_eq (attributes : Entries Text) (n : Node) :
    attributes.foldl (fun n entry => n.setAttribute entry.1 entry.2) n =
      { n with
        attributes := attributes.foldl (fun es entry => es.put entry.1 entry.2) n.attributes } := by
  induction attributes generalizing n with
  | nil => rfl
  | cons entry attributes ih => exact ih (n.setAttribute entry.1 entry.2)

theorem classKey_mem_of_class {n : Node} {name : Text} (h : name ∈ n.classes) :
    classKey ∈ n.attributes.map Prod.fst := by
  by_contra hnone
  have hattribute : n.attribute? classKey = none := Entries.find?_of_not_mem hnone
  rw [classes, hattribute, Option.getD_none, words_blank blank_nil] at h
  exact List.not_mem_nil h

def joinClass (held : Option Text) (name : Text) : Text :=
  if words (held.getD []) = [] then name else held.getD [] ++ ' ' :: name

theorem words_joinClass (held : Option Text) (name : Text) :
    words (joinClass held name) = words (held.getD []) ++ words name := by
  unfold joinClass
  split
  · rename_i hnone
    rw [hnone, List.nil_append]
  · exact words_append _ (by decide) name

theorem addClass_eq (n : Node) (name : Text) :
    n.addClass name =
      if name ∈ n.classes then n
      else n.setAttribute classKey (joinClass (n.attribute? classKey) name) := by
  have hhas : n.hasClass name = true ↔ name ∈ n.classes := List.contains_iff_mem
  unfold addClass
  simp only [hhas]
  split
  · rfl
  · cases n.attribute? classKey with
    | none => rw [joinClass, Option.getD_none, if_pos (words_blank blank_nil)]
    | some names =>
      have hblank : (trim names).isEmpty = true ↔ words names = [] := by
        rw [List.isEmpty_iff, trim_eq_nil_iff, words_eq_nil_iff]
      simp only [joinClass, Option.getD_some, hblank]
      split
      · rfl
      · rfl

theorem addClass_of_mem {n : Node} {name : Text} (h : name ∈ n.classes) : n.addClass name = n := by
  rw [addClass_eq, if_pos h]

theorem classes_addClass (n : Node) (name : Text) :
    (n.addClass name).classes =
      if name ∈ n.classes then n.classes else n.classes ++ words name := by
  rw [addClass_eq]
  split
  · rfl
  · rw [classes_setAttribute, if_pos rfl, words_joinClass]
    rfl

/-- What it is to add a class: the class attribute keeps its place among the others, or comes
behind them, and a class that is there is not added again. -/
structure AddsClass (n : Node) (name : Text) (added : Node) : Prop where
  kept : name ∈ n.classes → added = n
  kind : added.tag = n.tag ∧ added.text = n.text ∧ added.sheet = n.sheet
  others : added.attributes.filter (·.1 ≠ classKey) = n.attributes.filter (·.1 ≠ classKey)
  names : added.attributes.map Prod.fst =
    if classKey ∈ n.attributes.map Prod.fst then n.attributes.map Prod.fst
    else n.attributes.map Prod.fst ++ [classKey]
  classes : added.classes = if name ∈ n.classes then n.classes else n.classes ++ [name]
  again : added.addClass name = added

theorem addsClass_addClass (n : Node) {name : Text} (hne : name ≠ [])
    (hletters : ∀ c ∈ name, isBlank c = false) : n.AddsClass name (n.addClass name) := by
  have hclasses : (n.addClass name).classes =
      if name ∈ n.classes then n.classes else n.classes ++ [name] := by
    rw [classes_addClass, words_single hne hletters]
  have hadded : name ∈ (n.addClass name).classes := by
    rw [hclasses]
    split
    · assumption
    · exact List.mem_append_right _ (List.mem_singleton_self name)
  by_cases h : name ∈ n.classes
  · rw [addClass_of_mem h]
    refine ⟨fun _ => rfl, ⟨rfl, rfl, rfl⟩, rfl, ?_, ?_, addClass_of_mem h⟩
    · rw [if_pos (classKey_mem_of_class h)]
    · rw [if_pos h]
  · have hset : n.addClass name =
        n.setAttribute classKey (joinClass (n.attribute? classKey) name) := by
      rw [addClass_eq, if_neg h]
    refine ⟨fun hm => absurd hm h, ?_, ?_, ?_, hclasses, addClass_of_mem hadded⟩
    · rw [hset]
      exact ⟨rfl, rfl, rfl⟩
    · rw [hset]
      exact Entries.filter_put _ _ _
    · rw [hset]
      exact Entries.keys_put _ _ _

inductive Origin
  | element (tag : Text)
  | text (t : Text)

def Origin.node : Origin → Node
  | element tag => Node.element tag
  | text t => Node.ofText t

inductive Step
  | setAttribute (name value : Text)
  | setId (id : Text)
  | addClass (name : Text)

def Step.apply (n : Node) : Step → Node
  | setAttribute name value => n.setAttribute name value
  | setId id => n.setAttribute idKey id
  | addClass name => n.addClass name

def build (o : Origin) (steps : List Step) : Node := steps.foldl Step.apply o.node

/-- The attribute that a step sets where the class attribute is `held`. A class that is there is
not set again. -/
def Step.setting? (held : Option Text) : Step → Option (Text × Text)
  | setAttribute name value => some (name, value)
  | setId id => some (idKey, id)
  | addClass name =>
      if name ∈ words (held.getD []) then none else some (classKey, joinClass held name)

def Step.classes (found : List Text) : Step → List Text
  | setAttribute name value => if name = classKey then words value else found
  | setId _ => found
  | addClass name => if name ∈ found then found else found ++ words name

def settings (steps : List Step) : List (Text × Text) :=
  steps.foldl (fun made s => made ++ (s.setting? (Entries.last? classKey made)).toList) []

theorem Step.apply_eq (n : Node) (s : Step) :
    s.apply n =
      match s.setting? (n.attribute? classKey) with
      | none => n
      | some entry => n.setAttribute entry.1 entry.2 := by
  cases s with
  | setAttribute name value => rfl
  | setId id => rfl
  | addClass name =>
    rw [apply, addClass_eq, setting?, ← Node.classes]
    split
    · rfl
    · rfl

theorem Step.classes_apply (n : Node) (s : Step) : (s.apply n).classes = s.classes n.classes := by
  cases s with
  | setAttribute name value => exact classes_setAttribute n name value
  | setId id => exact (classes_setAttribute n idKey id).trans (if_neg (by decide))
  | addClass name => exact classes_addClass n name

theorem attributes_origin (o : Origin) : o.node.attributes = [] := by
  cases o with
  | element tag => rfl
  | text t => rfl

theorem records_build (o : Origin) (steps : List Step) :
    (build o steps).attributes.Records (settings steps) := by
  -- from the end, since what an added class sets depends on all settings in front of it
  induction steps using List.reverseRecOn with
  | nil =>
    show o.node.attributes.Records []
    rw [attributes_origin]
    exact Entries.records_nil
  | append_singleton steps s ih =>
    have hheld : (build o steps).attribute? classKey = Entries.last? classKey (settings steps) :=
      ih.values classKey
    have hbuild : build o (steps ++ [s]) = s.apply (build o steps) := List.foldl_concat ..
    have hsettings : settings (steps ++ [s]) =
        settings steps ++ (s.setting? ((build o steps).attribute? classKey)).toList := by
      rw [hheld, settings, List.foldl_concat]
      rfl
    rw [hbuild, hsettings, s.apply_eq]
    cases s.setting? ((build o steps).attribute? classKey) with
    | none => simpa using ih
    | some entry => exact ih.put entry

theorem classes_build (o : Origin) (steps : List Step) :
    (build o steps).classes = steps.foldl Step.classes [] := by
  induction steps using List.reverseRecOn with
  | nil =>
    show words ((Entries.find? classKey o.node.attributes).getD []) = []
    rw [attributes_origin]
    exact words_blank blank_nil
  | append_singleton steps s ih =>
    have hbuild : build o (steps ++ [s]) = s.apply (build o steps) := List.foldl_concat ..
    rw [hbuild, s.classes_apply, ih, List.foldl_concat]

/-- The attributes of a node are a map of what was set last, whatever the node is built with, and
its classes are a list that a further class is added to once. -/
theorem build_holds_settings (o : Origin) (steps : List Step) :
    ((build o steps).attributes.map Prod.fst).Nodup ∧
      (build o steps).attributes.map Prod.fst = ((settings steps).map Prod.fst).eraseDups ∧
      (∀ name, (build o steps).attribute? name = Entries.last? name (settings steps)) ∧
      (build o steps).classes = steps.foldl Step.classes [] ∧
      ∀ name, name ≠ [] → (∀ c ∈ name, isBlank c = false) →
        (build o steps).AddsClass name ((build o steps).addClass name) := by
  have hrecords := records_build o steps
  refine ⟨hrecords.nodup, hrecords.keys, hrecords.values, classes_build o steps, ?_⟩
  intro name hne hletters
  exact addsClass_addClass _ hne hletters

def cardSteps : List Step :=
  [.setAttribute "href".toList "/".toList,
    .setAttribute classKey " card\u2003big\u00a0".toList, .setId "intro".toList,
    .addClass "big".toList, .addClass "wide".toList,
    .setAttribute "href".toList "/home".toList]

theorem build_holds_settings_card :
    let n := build (.element "A".toList) cardSteps
    (n.attributes.map Prod.fst).Nodup ∧
      n.attributes.map Prod.fst = ["href".toList, classKey, idKey] ∧
      n.attribute? "href".toList = some "/home".toList ∧
      n.attribute? classKey = some " card\u2003big\u00a0 wide".toList ∧
      n.classes = ["card".toList, "big".toList, "wide".toList] ∧
      (n.addClass "card".toList).classes = n.classes ∧
      (n.addClass "s-1".toList).classes = n.classes ++ ["s-1".toList] ∧
      (n.addClass "s-1".toList).attributes.map Prod.fst = ["href".toList, classKey, idKey] ∧
      (n.addClass "s-1".toList).attributes.filter (·.1 ≠ classKey) =
        n.attributes.filter (·.1 ≠ classKey) ∧
      (n.addClass "s-1".toList).addClass "s-1".toList = n.addClass "s-1".toList := by
  intro n
  obtain ⟨hnodup, hnames, hvalues, hclasses, hadds⟩ :=
    build_holds_settings (.element "A".toList) cardSteps
  have hnames' : n.attributes.map Prod.fst = ["href".toList, classKey, idKey] :=
    hnames.trans (by decide +kernel)
  have hclasses' : n.classes = ["card".toList, "big".toList, "wide".toList] :=
    hclasses.trans (by decide +kernel)
  have hcard := hadds "card".toList (by decide) (by simp [isBlank])
  have hnew := hadds "s-1".toList (by decide) (by simp [isBlank])
  refine ⟨hnodup, hnames', ?_, ?_, hclasses', ?_, ?_, ?_, hnew.others, hnew.again⟩
  · exact (hvalues _).trans (by decide +kernel)
  · exact (hvalues _).trans (by decide +kernel)
  · apply hcard.classes.trans
    rw [hclasses, if_pos (by decide +kernel)]
  · apply hnew.classes.trans
    rw [if_neg (by rw [hclasses]; decide +kernel)]
  · apply hnew.names.trans
    rw [hnames, if_pos (by decide +kernel)]
    decide +kernel

end Node
end ScopedStyle
