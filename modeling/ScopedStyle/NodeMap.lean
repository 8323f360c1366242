import ScopedStyle.Node

/-!
# Maps on nodes

A list of nodes with a value each. Only the first entry of a node counts; setting
a node takes its older entries out.
-/

namespace ScopedStyle

abbrev NodeMap (α : Type) := List (NodeId × α)

namespace NodeMap
variable {α : Type}

def find? (id : NodeId) : NodeMap α → Option α
  | [] => none
  | (n, a) :: rest => if n = id then some a else find? id rest

def erase (id : NodeId) (m : NodeMap α) : NodeMap α := m.filter (·.1 ≠ id)

def set (id : NodeId) (a : α) (m : NodeMap α) : NodeMap α := (id, a) :: m.erase id

def modify (id : NodeId) (f : α → α) (m : NodeMap α) : NodeMap α :=
  m.map fun e => if e.1 = id then (e.1, f e.2) else e

theorem find?_erase (id n : NodeId) (m : NodeMap α) :
    (m.erase id).find? n = if n = id then none else m.find? n := by
  induction m with
  | nil => exact (ite_self none).symm
  | cons e m ih =>
    obtain ⟨k, a⟩ := e
    rw [erase] at ih ⊢
    by_cases hk : k = id
    · rw [List.filter_cons_of_neg (by simp [hk]), ih, find?]
      by_cases hn : n = id
      · rw [if_pos hn, if_pos hn]
      · rw [if_neg hn, if_neg hn, if_neg fun h => hn (h.symm.trans hk)]
    · rw [List.filter_cons_of_pos (by simp [hk]), find?, find?, ih]
      by_cases hn : k = n
      · rw [if_pos hn, if_pos hn, if_neg (hn ▸ hk)]
      · rw [if_neg hn, if_neg hn]

theorem find?_set (id n : NodeId) (a : α) (m : NodeMap α) :
    (m.set id a).find? n = if n = id then some a else m.find? n := by
  rw [set, find?, find?_erase]
  by_cases hn : n = id
  · rw [if_pos hn.symm, if_pos hn]
  · rw [if_neg fun h => hn h.symm, if_neg hn, if_neg hn]

theorem find?_modify (id n : NodeId) (f : α → α) (m : NodeMap α) :
    (m.modify id f).find? n = if n = id then (m.find? n).map f else m.find? n := by
  induction m with
  | nil => exact (ite_self none).symm
  | cons e m ih =>
    obtain ⟨k, a⟩ := e
    rw [modify] at ih ⊢
    rw [List.map_cons, find?]
    by_cases hk : k = id
    · rw [if_pos hk, find?, ih]
      by_cases hn : k = n
      · rw [if_pos hn, if_pos hn, if_pos (hn.symm.trans hk)]
        rfl
      · rw [if_neg hn, if_neg hn]
    · rw [if_neg hk, find?, ih]
      by_cases hn : k = n
      · rw [if_pos hn, if_pos hn, if_neg fun h => hk (hn.trans h)]
      · rw [if_neg hn, if_neg hn]

/-- The entries of a map to children and the children in them. -/
def links : NodeMap (List NodeId) → Nat
  | [] => 0
  | (_, kids) :: rest => kids.length + 1 + links rest

theorem links_erase_le (id : NodeId) (m : NodeMap (List NodeId)) :
    links (m.erase id) ≤ links m := by
  induction m with
  | nil => exact Nat.le_refl 0
  | cons e m ih =>
    rw [erase] at ih ⊢
    by_cases hk : e.1 = id
    · rw [List.filter_cons_of_neg (by simp [hk]), links]
      omega
    · rw [List.filter_cons_of_pos (by simp [hk]), links, links]
      omega

theorem links_erase_lt {id : NodeId} {m : NodeMap (List NodeId)} {kids : List NodeId}
    (h : m.find? id = some kids) : links (m.erase id) + kids.length < links m := by
  induction m with
  | nil => cases h
  | cons e m ih =>
    obtain ⟨k, ks⟩ := e
    rw [find?] at h
    split at h
    · rename_i hk
      obtain rfl := Option.some.inj h
      rw [erase, List.filter_cons_of_neg (by simp [hk]), links]
      have hrest := links_erase_le id m
      rw [erase] at hrest
      omega
    · rename_i hk
      have hrest := ih h
      rw [erase] at hrest ⊢
      rw [List.filter_cons_of_pos (by simp [hk]), links, links]
      omega

end NodeMap
end ScopedStyle
