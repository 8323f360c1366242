import ScopedStyle.Nested.Flattener
import ScopedStyle.Proofs.Text.Trim

/-!
# What one line does to a flattener

A line acts through its trimmed text. A declaration is held back, a selector
opens a block, and a closing brace ends one, with what follows it read as a line
of its own.
-/

namespace ScopedStyle
open Text

theorem isDeclaration_no_open {line : Text} (h : isDeclaration line) : '{' ∉ line := by
  simp only [isDeclaration, Bool.and_eq_true, Bool.not_eq_true', List.contains_eq_mem,
    decide_eq_false_iff_not] at h
  exact h.1.2

theorem isDeclaration_no_close {line : Text} (h : isDeclaration line) : '}' ∉ line := by
  simp only [isDeclaration, Bool.and_eq_true, Bool.not_eq_true', List.contains_eq_mem,
    decide_eq_false_iff_not] at h
  exact h.2

theorem not_isDeclaration_of_open {line : Text} (h : '{' ∈ line) : isDeclaration line = false := by
  cases hd : isDeclaration line with
  | false => rfl
  | true => exact absurd h (isDeclaration_no_open hd)

theorem not_isDeclaration_of_close {line : Text} (h : '}' ∈ line) :
    isDeclaration line = false := by
  cases hd : isDeclaration line with
  | false => rfl
  | true => exact absurd h (isDeclaration_no_close hd)

theorem not_isDeclaration_of_selector {line : Text} (h : classify line = .selector) :
    isDeclaration line = false := by
  unfold classify at h
  split at h
  · cases h
  · rename_i hd
    simpa using hd

namespace Flattener

@[simp] theorem flush_waiting (s : Flattener) : s.flush.waiting = s.waiting := by
  unfold flush
  split <;> rfl

@[simp] theorem flush_root (s : Flattener) : s.flush.root = s.root := by
  unfold flush
  split <;> rfl

@[simp] theorem flush_blocks (s : Flattener) : s.flush.blocks = s.blocks := by
  unfold flush
  split <;> rfl

@[simp] theorem flush_depth (s : Flattener) : s.flush.depth = s.depth := by
  unfold flush
  split <;> rfl

@[simp] theorem flush_pending (s : Flattener) : s.flush.pending = [] := by
  unfold flush
  split
  · rename_i h
    exact List.isEmpty_iff.1 h
  · rfl

@[simp] theorem declare_waiting (s : Flattener) (d : Text) :
    (s.declare d).waiting = s.waiting := rfl

@[simp] theorem select_waiting (s : Flattener) (t : Text) : (s.select t).waiting = s.waiting :=
  flush_waiting s

@[simp] theorem enter_waiting (s : Flattener) (t : Text) : (s.enter t).waiting = s.waiting := by
  simp only [enter]
  split
  · rw [select_waiting]
  · rfl

@[simp] theorem leave_waiting (s : Flattener) (t : Text) : (s.leave t).waiting = s.waiting := by
  simp only [leave, flush_waiting]
  split <;> rfl

theorem step_congr (s : Flattener) {raw raw' : Text} (h : trim raw = trim raw') :
    s.step raw = s.step raw' := by
  rw [step, step, h]

theorem feed_congr (s : Flattener) {raw raw' : Text} (h : trim raw = trim raw') :
    s.feed raw = s.feed raw' := by
  have hs := step_congr s h
  generalize hr : s.step raw' = r at hs
  obtain ⟨s', rest⟩ := r
  cases rest with
  | none => rw [feed_of_none hs, feed_of_none hr]
  | some rest => rw [feed_of_some hs, feed_of_some hr]

theorem feed_trim (s : Flattener) (raw : Text) : s.feed (trim raw) = s.feed raw :=
  feed_congr s (trim_idem raw)

theorem feed_blank (s : Flattener) {raw : Text} (h : trim raw = []) : s.feed raw = s :=
  feed_of_none (by simp [step, h])

theorem feed_begin {s : Flattener} {line : Text} (hw : s.waiting = none) (ht : trim line = line)
    (hne : line ≠ []) (hd : isDeclaration line) (he : endsWith ';' line = false) :
    s.feed line = { s with waiting := some line } :=
  feed_of_none (by simp [step, ht, hne, hw, hd, he])

theorem feed_resume {s : Flattener} {started line : Text} (hw : s.waiting = some started)
    (ht : trim line = line) (hne : line ≠ []) : s.feed line = s.resume started line :=
  feed_of_none (by simp [step, ht, hne, hw])

theorem feed_declaration {s : Flattener} {line : Text} (hw : s.waiting = none)
    (ht : trim line = line) (hne : line ≠ []) (hd : isDeclaration line) (he : endsWith ';' line) :
    s.feed line = s.declare line := by
  have ho := cut?_eq_none (isDeclaration_no_open hd)
  have hc := cut?_eq_none (isDeclaration_no_close hd)
  exact feed_of_none (by simp [step, ht, hne, hw, hd, he, ho, hc, plain, classify])

theorem feed_selector {s : Flattener} {line : Text} (hw : s.waiting = none)
    (ht : trim line = line) (hne : line ≠ []) (ho : '{' ∉ line) (hc : '}' ∉ line)
    (hs : classify line = .selector) : s.feed line = s.select line := by
  have hd := not_isDeclaration_of_selector hs
  exact feed_of_none
    (by simp [step, ht, hne, hw, hd, cut?_eq_none ho, cut?_eq_none hc, plain, hs])

theorem leave_congr (s : Flattener) {before before' : Text} (h : trim before = trim before') :
    s.leave before = s.leave before' := by
  rw [leave, leave, h]

/-- A closing brace in front of every opening one ends a block, and the rest is a line of its
own. -/
theorem feed_close {s : Flattener} {before rest : Text} (hw : s.waiting = none)
    (hb : '{' ∉ before) (hc : '}' ∉ before) (hr : '{' ∉ rest) :
    s.feed (before ++ '}' :: rest) = (s.leave before).feed rest := by
  have hm : '}' ∈ trim (before ++ '}' :: rest) := mem_trim (by decide) (by simp)
  have hne : trim (before ++ '}' :: rest) ≠ [] := List.ne_nil_of_mem hm
  have hline : '{' ∉ before ++ '}' :: rest :=
    List.not_mem_append hb (List.not_mem_cons_of_ne_of_not_mem (by decide) hr)
  have ho : '{' ∉ trim (before ++ '}' :: rest) := fun hm => hline ((trim_part _).subset hm)
  have hcut := cut?_trim (c := '}') (by decide) hc rest
  have hs : s.step (before ++ '}' :: rest) =
      (s.leave (trimLeft before), some (trimRight rest)) := by
    simp [step, hne, hw, not_isDeclaration_of_close hm, cut?_eq_none ho, hcut]
  rw [feed_of_some hs, leave_congr s (trim_trimLeft before),
    feed_congr _ (trim_trimRight rest)]

theorem cut_at_open {before : Text} (hb : '{' ∉ before) (rest : Text) :
    trim (before ++ '{' :: rest) ≠ [] ∧ isDeclaration (trim (before ++ '{' :: rest)) = false ∧
      cut? '{' (trim (before ++ '{' :: rest)) = some (trimLeft before, trimRight rest) := by
  have hm : '{' ∈ trim (before ++ '{' :: rest) := mem_trim (by decide) (by simp)
  exact ⟨List.ne_nil_of_mem hm, not_isDeclaration_of_open hm, cut?_trim (by decide) hb rest⟩

theorem step_open {s : Flattener} {before : Text} (hw : s.waiting = none) (hb : '{' ∉ before)
    (rest : Text) :
    s.step (before ++ '{' :: rest) = (s.enter (trim before)).afterBrace (trim rest) := by
  obtain ⟨hne, hd, hcut⟩ := cut_at_open hb rest
  simp [step, hne, hw, hd, hcut, trim_trimLeft, trim_trimRight]

theorem feed_open {s : Flattener} {before rest : Text} (hw : s.waiting = none)
    (hb : '{' ∉ before) (hr : '{' ∉ rest) (h : Blank rest ∨ '}' ∈ rest) :
    s.feed (before ++ '{' :: rest) = (s.enter (trim before)).feed rest := by
  have hs := step_open hw hb rest
  obtain ⟨a, b, -, -, hrest⟩ := exists_trim rest
  have ho : '{' ∉ trim rest := by
    intro hm
    exact hr (hrest ▸ List.mem_append_left b (List.mem_append_right a hm))
  rcases h with h | h
  · have ht := trim_blank h
    rw [ht] at hs
    rw [feed_blank _ ht]
    exact feed_of_none hs
  · have hm : '}' ∈ trim rest := mem_trim (by decide) h
    obtain ⟨before', rest', he, hn⟩ := List.eq_append_cons_of_mem hm
    rw [he] at ho
    rw [afterBrace, cut?_eq_none (he ▸ ho), he, cut?_append hn] at hs
    rw [feed_of_some hs, ← feed_trim _ rest, he]
    refine (feed_close (s.enter_waiting _ ▸ hw) ?_ hn ?_).symm
    · exact fun hm => ho (List.mem_append_left _ hm)
    · exact fun hm => ho (List.mem_append_right _ (List.mem_cons_of_mem _ hm))

end Flattener
end ScopedStyle
