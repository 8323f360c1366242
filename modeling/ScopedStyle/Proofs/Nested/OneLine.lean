import ScopedStyle.Proofs.Nested.Acts
import ScopedStyle.Proofs.Nested.Layout

/-!
# Flat rules are single lines

The acts of a line put in parts of it, and a flattener puts what it keeps together
with spaces and braces. So if there is no line feed in the root, there is none in any
flat rule.
-/

namespace ScopedStyle
open Text

theorem trim_unbroken {t : Text} (h : '\n' ∉ t) : '\n' ∉ trim t :=
  fun hm => h ((trim_part t).subset hm)

theorem compose_unbroken {parent child : Text} (hp : '\n' ∉ parent) (hc : '\n' ∉ child) :
    '\n' ∉ compose parent child := by
  have ht := trim_unbroken hc
  unfold compose
  split
  · rename_i rest he
    rw [he] at ht
    exact List.not_mem_append hp fun hm => ht (List.mem_cons_of_mem _ hm)
  · rename_i rest he
    rw [he] at ht
    exact List.not_mem_append hp ht
  · exact List.not_mem_append hp (List.not_mem_cons_of_ne_of_not_mem (by decide) ht)

theorem unbroken_intercalate {texts : List Text} (h : Unbroken texts) :
    '\n' ∉ List.intercalate [' '] texts := by
  induction texts with
  | nil => exact List.not_mem_nil
  | cons t more ih =>
    have hmore := ih fun u hu => h u (List.mem_cons_of_mem t hu)
    cases more with
    | nil => simpa using h t List.mem_cons_self
    | cons u more =>
      rw [List.intercalate_cons_cons]
      exact List.not_mem_append (List.not_mem_append (h t List.mem_cons_self) (by decide)) hmore

namespace Flattener
variable {s : Flattener} {t raw : Text}

theorem ruleText_ne_nil (selector : Text) (declarations : List Text) :
    ruleText selector declarations ≠ [] := by
  simp [ruleText]

theorem ruleText_unbroken {selector : Text} {declarations : List Text} (hs : '\n' ∉ selector)
    (hd : Unbroken declarations) : '\n' ∉ ruleText selector declarations :=
  List.not_mem_append
    (List.not_mem_append (List.not_mem_append hs (by decide)) (unbroken_intercalate hd)) (by decide)

structure OneLine (s : Flattener) : Prop where
  root : '\n' ∉ s.root
  blocks : Unbroken s.blocks
  pending : Unbroken s.pending
  waiting : Unbroken s.waiting.toList
  rules : ∀ t ∈ s.rules, t ≠ [] ∧ '\n' ∉ t

namespace OneLine

theorem start (h : '\n' ∉ t) : (start t).OneLine :=
  ⟨h, by simp [Unbroken, Flattener.start], by simp [Unbroken, Flattener.start],
    by simp [Unbroken, Flattener.start], by simp [Flattener.start]⟩

theorem current (h : s.OneLine) : '\n' ∉ s.current := by
  obtain ⟨root, blocks, _, _, _, _⟩ := s
  cases blocks with
  | nil => exact h.root
  | cons b _ => exact h.blocks b List.mem_cons_self

theorem flush (h : s.OneLine) : s.flush.OneLine := by
  unfold Flattener.flush
  split
  · exact h
  · refine ⟨h.root, h.blocks, by simp [Unbroken], h.waiting, fun t ht => ?_⟩
    rcases List.mem_append.1 ht with ht | ht
    · exact h.rules t ht
    · rw [List.mem_singleton.1 ht]
      exact ⟨ruleText_ne_nil _ _, ruleText_unbroken h.current h.pending⟩

theorem declare (h : s.OneLine) (ht : '\n' ∉ t) : (s.declare t).OneLine :=
  ⟨h.root, h.blocks, h.pending.append (by simpa [Unbroken] using ht), h.waiting, h.rules⟩

theorem select (h : s.OneLine) (ht : '\n' ∉ t) : (s.select t).OneLine := by
  have hf := h.flush
  refine ⟨hf.root, fun b hb => ?_, hf.pending, hf.waiting, hf.rules⟩
  rcases List.mem_cons.1 hb with rfl | hb
  · exact compose_unbroken hf.current ht
  · exact hf.blocks b hb

theorem act (h : s.OneLine) (hr : '\n' ∉ raw) {a : Act} (ha : a.Within raw) :
    (s.act a).OneLine := by
  cases a with
  | count braces => exact ⟨h.root, h.blocks, h.pending, h.waiting, h.rules⟩
  | wait waiting =>
    refine ⟨h.root, h.blocks, h.pending, fun t ht hm => ?_, h.rules⟩
    exact hr ((ha t (Option.mem_toList.1 ht)).subset hm)
  | declare declaration => exact h.declare fun hm => hr (ha.subset hm)
  | select selector => exact h.select fun hm => hr (ha.1.subset hm)
  | close =>
    have hf := h.flush
    exact ⟨hf.root, fun b hb => hf.blocks b (List.mem_of_mem_tail hb), hf.pending, hf.waiting,
      hf.rules⟩

theorem actAll (h : s.OneLine) (hr : '\n' ∉ raw) {acts : List Act} (ha : AllWithin raw acts) :
    (s.actAll acts).OneLine := by
  induction acts generalizing s with
  | nil => exact h
  | cons a acts ih =>
    obtain ⟨hfirst, hrest⟩ := allWithin_cons.1 ha
    exact ih (h.act hr hfirst) hrest

theorem feed (h : s.OneLine) (hr : '\n' ∉ raw) : (s.feed raw).OneLine := by
  rw [feed_eq]
  cases hw : s.waiting with
  | none => exact h.actAll hr (lineActs_within raw)
  | some started =>
    rw [lineActs_waiting]
    split
    · exact h
    · have hjoined : '\n' ∉ started ++ ' ' :: trim raw :=
        List.not_mem_append (h.waiting started (by simp [hw]))
          (List.not_mem_cons_of_ne_of_not_mem (by decide) (trim_unbroken hr))
      exact h.actAll hjoined (resumeActs_within started (trim raw))

theorem feedAll (h : s.OneLine) {raws : List Text} (hr : Unbroken raws) :
    (s.feedAll raws).OneLine := by
  induction raws generalizing s with
  | nil => exact h
  | cons raw raws ih =>
    exact ih (h.feed (hr raw List.mem_cons_self)) fun l hl => hr l (List.mem_cons_of_mem raw hl)

end OneLine
end Flattener

theorem flatten_oneLine {root t : Text} (h : '\n' ∉ root) (style : Text)
    (ht : t ∈ flatten style root) : t ≠ [] ∧ '\n' ∉ t :=
  ((Flattener.OneLine.start h).feedAll (lines_unbroken style)).flush.rules t ht

end ScopedStyle
