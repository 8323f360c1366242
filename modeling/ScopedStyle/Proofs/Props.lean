import ScopedStyle.Props
import ScopedStyle.Proofs.Entries

/-!
# What properties gather

Properties are built step by step, and no step but the one that sets the class again undoes
another: what a whole run of steps leaves can be said of the run itself. The attributes are the
keys in the order of their first setting, each with its last value, the class is the last one that
was given, by either way, and the children are all that were given.
-/

namespace ScopedStyle
open Text

namespace Props

inductive Step (ν : Type)
  | withClass (name : Text)
  | withAttr (key : Text) (value : Value)
  | withChild (child : ν)
  | withChildren (children : List ν)

namespace Step
variable {ν : Type}

def apply (p : Props ν) : Step ν → Props ν
  | withClass name => p.withClass name
  | withAttr key value => p.withAttr key value
  | withChild child => p.withChild child
  | withChildren children => p.withChildren children

def callerClass? : Step ν → Option Text
  | withClass name => some name
  | withAttr key value => if key = classKey then some value.render else none
  | withChild _ => none
  | withChildren _ => none

/-- The attribute that a step sets, which is never the class. -/
def setting? : Step ν → Option (Text × Value)
  | withClass _ => none
  | withAttr key value => if key = classKey then none else some (key, value)
  | withChild _ => none
  | withChildren _ => none

def given : Step ν → List ν
  | withClass _ => []
  | withAttr _ _ => []
  | withChild child => [child]
  | withChildren children => children

theorem apply_eq (p : Props ν) (s : Step ν) :
    s.apply p =
      { callerClass := s.callerClass?.or p.callerClass
        attributes :=
          match s.setting? with
          | none => p.attributes
          | some entry => p.attributes.put entry.1 entry.2
        children := p.children ++ s.given } := by
  cases s with
  | withClass name => simp [apply, Props.withClass, callerClass?, setting?, given]
  | withAttr key value =>
    by_cases hk : key = classKey
    · simp [apply, Props.withAttr, Props.withClass, callerClass?, setting?, given, hk]
    · simp [apply, Props.withAttr, callerClass?, setting?, given, hk]
  | withChild child =>
    simp [apply, Props.withChild, Props.withChildren, callerClass?, setting?, given]
  | withChildren children => simp [apply, Props.withChildren, callerClass?, setting?, given]

end Step

variable {ν : Type} {p : Props ν} {steps : List (Step ν)}

def build (steps : List (Step ν)) : Props ν := steps.foldl Step.apply empty

def lastClass? (steps : List (Step ν)) : Option Text := (steps.filterMap Step.callerClass?).getLast?

def settings (steps : List (Step ν)) : List (Text × Value) := steps.filterMap Step.setting?

def keys (steps : List (Step ν)) : List Text := ((settings steps).map Prod.fst).eraseDups

def lastValue? (steps : List (Step ν)) (key : Text) : Option Value :=
  Entries.find? key (settings steps).reverse

def given (steps : List (Step ν)) : List ν := steps.flatMap Step.given

structure Gathers (p : Props ν) (steps : List (Step ν)) : Prop where
  callerClass : p.callerClass = lastClass? steps
  keys : p.attributes.map Prod.fst = keys steps
  values : ∀ key, p.get? key = lastValue? steps key
  children : p.children = given steps

theorem gathers_empty : (empty : Props ν).Gathers [] := ⟨rfl, rfl, fun _ => rfl, rfl⟩

theorem Gathers.records (h : p.Gathers steps) : p.attributes.Records (settings steps) :=
  ⟨h.keys, h.values⟩

theorem Gathers.apply (h : p.Gathers steps) (s : Step ν) : (s.apply p).Gathers (steps ++ [s]) := by
  have hgiven : p.children ++ s.given = given (steps ++ [s]) := by
    rw [h.children, given, given, List.flatMap_append, List.flatMap_singleton]
  have hclass : s.callerClass?.or p.callerClass = lastClass? (steps ++ [s]) := by
    rw [h.callerClass, lastClass?, lastClass?, List.filterMap_append, List.getLast?_append]
    cases hs : s.callerClass? <;> simp [hs]
  have hsettings : settings (steps ++ [s]) = settings steps ++ s.setting?.toList := by
    rw [settings, settings, List.filterMap_append]
    cases hs : s.setting? <;> simp [hs]
  have hrecords : (s.apply p).attributes.Records (settings (steps ++ [s])) := by
    rw [s.apply_eq, hsettings]
    cases s.setting? with
    | none => simpa using h.records
    | some entry => exact h.records.put entry
  refine ⟨?_, hrecords.keys, hrecords.values, ?_⟩
  · rw [s.apply_eq]
    exact hclass
  · rw [s.apply_eq]
    exact hgiven

theorem nodup_keys (steps : List (Step ν)) : (keys steps).Nodup := nodup_eraseDups _

theorem classKey_not_mem_keys (steps : List (Step ν)) : classKey ∉ keys steps := by
  intro hm
  obtain ⟨entry, hentry, hkey⟩ := List.mem_map.1 (List.mem_eraseDups.1 hm)
  obtain ⟨s, -, hs⟩ := List.mem_filterMap.1 hentry
  cases s with
  | withAttr key value =>
    rw [Step.setting?] at hs
    split at hs
    · cases hs
    · rename_i hne
      cases hs
      exact hne hkey
  | _ => cases hs

theorem gathers_build (steps : List (Step ν)) : (build steps).Gathers steps := by
  induction steps using List.reverseRecOn with
  | nil => exact gathers_empty
  | append_singleton steps s ih =>
    rw [build, List.foldl_concat]
    exact ih.apply s

theorem attributes_build (steps : List (Step ν)) :
    (build steps).attributes.map (fun entry => (entry.1, some entry.2)) =
      (keys steps).map fun key => (key, lastValue? steps key) := by
  have h := gathers_build steps
  have hnodup : ((build steps).attributes.map Prod.fst).Nodup := h.keys ▸ nodup_keys steps
  rw [← h.keys, List.map_map]
  refine List.map_congr_left fun entry hentry => Prod.ext rfl ?_
  exact (Entries.find?_of_mem hnodup hentry).symm.trans (h.values entry.1)

end Props
end ScopedStyle
