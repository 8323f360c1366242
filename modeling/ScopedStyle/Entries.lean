import ScopedStyle.Text.Basic

/-!
# Entries in insertion order

A list of keys with values in which a key stands once. Setting a key that is
there keeps its place.
-/

namespace ScopedStyle

abbrev Entries (α : Type) := List (Text × α)

namespace Entries

def find? {α : Type} (key : Text) : Entries α → Option α
  | [] => none
  | (k, v) :: rest => if k = key then some v else find? key rest

def put {α : Type} (key : Text) (value : α) : Entries α → Entries α
  | [] => [(key, value)]
  | (k, v) :: rest => if k = key then (k, value) :: rest else (k, v) :: put key value rest

theorem find?_put {α : Type} (key other : Text) (value : α) (es : Entries α) :
    find? other (put key value es) = if key = other then some value else find? other es := by
  induction es with
  | nil => simp [put, find?]
  | cons e es ih =>
    obtain ⟨k, v⟩ := e
    by_cases hk : k = key
    · by_cases ho : key = other <;> simp [put, find?, hk, ho]
    · by_cases ho : k = other
      · subst ho
        have : ¬key = k := fun h => hk h.symm
        simp [put, find?, hk, this]
      · simp [put, find?, hk, ho, ih]

theorem keys_put {α : Type} (key : Text) (value : α) (es : Entries α) :
    (put key value es).map Prod.fst =
      if key ∈ es.map Prod.fst then es.map Prod.fst else es.map Prod.fst ++ [key] := by
  induction es with
  | nil => simp [put]
  | cons e es ih =>
    obtain ⟨k, v⟩ := e
    by_cases hk : k = key
    · simp [put, hk]
    · have hk' : ¬key = k := fun h => hk h.symm
      simp only [put, hk, if_false, List.map_cons, ih, List.mem_cons, hk', false_or]
      split <;> simp

end Entries
end ScopedStyle
