import Mathlib.Data.List.Induction
import Mathlib.Data.List.Nodup
import ScopedStyle.Entries

/-!
# Entries and the settings behind them

Entries forget which settings they were put with, but not what these come to: each
key stands where it was first set, with the value that was set last. That is what a
log of the settings says, and it is kept by every further setting.
-/

namespace ScopedStyle

theorem eraseDupsBy_concat {α : Type} (r : α → α → Bool) (l : List α) (a : α) :
    (l ++ [a]).eraseDupsBy r =
      if (l.eraseDupsBy r).any (r a) then l.eraseDupsBy r else l.eraseDupsBy r ++ [a] := by
  have hloop (kept : List α) : List.eraseDupsBy.loop r (l ++ [a]) kept =
      if (List.eraseDupsBy.loop r l kept).any (r a) then List.eraseDupsBy.loop r l kept
      else List.eraseDupsBy.loop r l kept ++ [a] := by
    induction l generalizing kept with
    | nil =>
      simp only [List.nil_append, List.eraseDupsBy.loop, List.any_reverse]
      cases kept.any (r a) with
      | true => simp
      | false => simp
    | cons b l ih =>
      rw [List.cons_append, List.eraseDupsBy.loop, List.eraseDupsBy.loop]
      cases kept.any (r b) with
      | true => exact ih kept
      | false => exact ih (b :: kept)
  exact hloop []

theorem eraseDups_concat {α : Type} [BEq α] (l : List α) (a : α) :
    (l ++ [a]).eraseDups = if l.eraseDups.contains a then l.eraseDups else l.eraseDups ++ [a] := by
  rw [List.eraseDups, eraseDupsBy_concat, ← List.eraseDups, List.contains_eq_any_beq]

theorem nodup_eraseDups {α : Type} [BEq α] [LawfulBEq α] (l : List α) : l.eraseDups.Nodup := by
  induction l using List.reverseRecOn with
  | nil => exact List.nodup_nil
  | append_singleton l a ih =>
    rw [eraseDups_concat]
    split
    · exact ih
    · rename_i hnew
      apply ih.append (List.nodup_singleton a)
      intro b hb hsingle
      exact hnew (List.contains_iff_mem.2 (List.mem_singleton.1 hsingle ▸ hb))

namespace Entries
variable {α : Type} {es fs : Entries α} {key : Text} {value : α}

theorem put_of_not_mem (h : key ∉ es.map Prod.fst) : put key value es = es ++ [(key, value)] := by
  induction es with
  | nil => rfl
  | cons e es ih =>
    obtain ⟨k, v⟩ := e
    rw [List.map_cons, List.mem_cons, not_or] at h
    rw [put, if_neg fun hk => h.1 hk.symm, ih h.2, List.cons_append]

theorem foldl_put_of_nodup (h : ((es ++ fs).map Prod.fst).Nodup) :
    fs.foldl (fun es e => put e.1 e.2 es) es = es ++ fs := by
  induction fs generalizing es with
  | nil => rw [List.foldl_nil, List.append_nil]
  | cons e fs ih =>
    have hsplit : es ++ e :: fs = es ++ [e] ++ fs := List.append_cons es e fs
    have hnew : e.1 ∉ es.map Prod.fst := by
      rw [List.map_append, List.map_cons, List.nodup_middle, List.nodup_cons] at h
      exact fun hm => h.1 (List.mem_append_left _ hm)
    rw [List.foldl_cons, put_of_not_mem hnew, hsplit]
    exact ih (hsplit ▸ h)

theorem filter_put (key : Text) (value : α) (es : Entries α) :
    (put key value es).filter (·.1 ≠ key) = es.filter (·.1 ≠ key) := by
  induction es with
  | nil => simp [put]
  | cons e es ih =>
    obtain ⟨k, v⟩ := e
    by_cases hk : k = key
    · simp [put, hk]
    · rw [put, if_neg hk, List.filter_cons, List.filter_cons, ih]

theorem find?_of_not_mem (h : key ∉ es.map Prod.fst) : find? key es = none := by
  induction es with
  | nil => rfl
  | cons e es ih =>
    obtain ⟨k, v⟩ := e
    rw [List.map_cons, List.mem_cons, not_or] at h
    rw [find?, if_neg fun hk => h.1 hk.symm, ih h.2]

theorem find?_of_mem (h : (es.map Prod.fst).Nodup) (he : (key, value) ∈ es) :
    find? key es = some value := by
  induction es with
  | nil => cases he
  | cons e es ih =>
    obtain ⟨k, v⟩ := e
    rw [List.map_cons, List.nodup_cons] at h
    rw [find?]
    rcases List.mem_cons.1 he with hhead | htail
    · cases hhead
      rw [if_pos rfl]
    · rw [if_neg, ih h.2 htail]
      rintro rfl
      exact h.1 (List.mem_map.2 ⟨_, htail, rfl⟩)

def last? (key : Text) (log : List (Text × α)) : Option α := find? key log.reverse

theorem last?_concat (key : Text) (log : List (Text × α)) (entry : Text × α) :
    last? key (log ++ [entry]) = if entry.1 = key then some entry.2 else last? key log := by
  rw [last?, List.reverse_append, List.reverse_singleton, List.singleton_append, find?]
  rfl

/-- Entries that hold what a log of settings comes to. -/
structure Records (es : Entries α) (log : List (Text × α)) : Prop where
  keys : es.map Prod.fst = (log.map Prod.fst).eraseDups
  values : ∀ key, es.find? key = last? key log

variable {log : List (Text × α)}

theorem records_nil : Records ([] : Entries α) [] := ⟨rfl, fun _ => rfl⟩

theorem Records.put (h : es.Records log) (entry : Text × α) :
    (es.put entry.1 entry.2).Records (log ++ [entry]) := by
  constructor
  · rw [keys_put, h.keys, List.map_append, List.map_singleton, eraseDups_concat]
    simp only [List.contains_iff_mem]
  · intro key
    rw [find?_put, h.values, last?_concat]

theorem Records.nodup (h : es.Records log) : (es.map Prod.fst).Nodup := by
  rw [h.keys]
  exact nodup_eraseDups _

end Entries
end ScopedStyle
