import ScopedStyle.Proofs.Nested.Acts

/-!
# Moving a flattener under a root

The acts of a line do not depend on the selector around it, and each act commutes
with putting one text in front of all selectors. So the flat rules of a style text
under a root are those under no root with the root in front, and what is dropped at
the end is the same under every root.
-/

namespace ScopedStyle
open Text

theorem compose_append (root parent child : Text) :
    compose (root ++ parent) child = root ++ compose parent child := by
  unfold compose
  split <;> exact List.append_assoc ..

namespace Flattener

def under (root : Text) (s : Flattener) : Flattener :=
  { s with
    root := root ++ s.root
    blocks := s.blocks.map (root ++ ·)
    rules := s.rules.map (root ++ ·) }

variable (root : Text) (s : Flattener)

theorem start_under : (start []).under root = start root :=
  congrArg (fun r => (⟨r, [], [], [], 0, none⟩ : Flattener)) (List.append_nil root)

theorem current_under : (s.under root).current = root ++ s.current := by
  obtain ⟨-, blocks, -, -, -, -⟩ := s
  cases blocks with
  | nil => rfl
  | cons b bs => rfl

theorem flush_under : (s.under root).flush = s.flush.under root := by
  have hpending : (s.under root).pending = s.pending := rfl
  unfold flush
  rw [hpending, current_under]
  split
  · rfl
  · simp [under, ruleText]

theorem push_under (t : Text) : (s.under root).push t = (s.push t).under root := by
  simp only [push, current_under, compose_append]
  rfl

theorem select_under (t : Text) : (s.under root).select t = (s.select t).under root := by
  rw [select, flush_under, push_under]
  rfl

theorem act_under (a : Act) : (s.under root).act a = (s.act a).under root := by
  cases a with
  | count braces => rfl
  | wait waiting => rfl
  | declare declaration => rfl
  | select selector => exact select_under root s selector
  | close =>
    rw [act, act, flush_under]
    simp [under, List.map_tail]

theorem actAll_under (acts : List Act) :
    (s.under root).actAll acts = (s.actAll acts).under root := by
  induction acts generalizing s with
  | nil => rfl
  | cons a acts ih =>
    simp only [actAll, List.foldl_cons, act_under] at ih ⊢
    exact ih (s.act a)

theorem feed_under (raw : Text) : (s.under root).feed raw = (s.feed raw).under root := by
  have hwaiting : (s.under root).waiting = s.waiting := rfl
  rw [feed_eq, feed_eq, hwaiting, actAll_under]

theorem feedAll_under (lines : List Text) :
    (s.under root).feedAll lines = (s.feedAll lines).under root := by
  induction lines generalizing s with
  | nil => rfl
  | cons line lines ih =>
    simp only [feedAll, List.foldl_cons, feed_under] at ih ⊢
    exact ih (s.feed line)

theorem ofStyle_under (style : Text) :
    (ofStyle style []).under root = ofStyle style root := by
  rw [ofStyle, ← feedAll_under, start_under, ofStyle]

end Flattener

theorem flatten_under (style root : Text) :
    flatten style root = (flatten style []).map (root ++ ·) := by
  rw [flatten, ← Flattener.ofStyle_under, Flattener.finish, Flattener.flush_under]
  rfl

theorem droppedDeclaration_root (style root : Text) :
    droppedDeclaration style root = droppedDeclaration style [] := by
  rw [droppedDeclaration, ← Flattener.ofStyle_under]
  rfl

/-- One list of texts, each put behind the root, makes the flat rules under every root, and one
declaration, if any, is dropped under every root. So flat rules under two roots are equal but for
the root that each of them begins with. -/
theorem flatten_root_free (style : Text) :
    ∃ (tails : List Text) (dropped : Option Text),
      (∀ root, flatten style root = tails.map (root ++ ·) ∧
        droppedDeclaration style root = dropped) ∧
      (∀ root, ∀ rule ∈ flatten style root, root <+: rule) ∧
      ∀ root other, (flatten style root).map (List.drop root.length) =
        (flatten style other).map (List.drop other.length) := by
  have htails (root : Text) :
      (flatten style root).map (List.drop root.length) = flatten style [] := by
    rw [flatten_under, List.map_map]
    exact List.map_id'' (fun t => List.drop_left) _
  refine ⟨flatten style [], droppedDeclaration style [], fun root => ?_, fun root rule hr => ?_, ?_⟩
  · exact ⟨flatten_under style root, droppedDeclaration_root style root⟩
  · rw [flatten_under] at hr
    obtain ⟨tail, -, rfl⟩ := List.mem_map.1 hr
    exact List.prefix_append root tail
  · intro root other
    rw [htails root, htails other]

end ScopedStyle
