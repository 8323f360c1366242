import Mathlib.Data.List.Infix
import ScopedStyle.Rule.Comment

/-!
# Texts without comments

Stripping leaves no comment opener behind, and leaves a text without an opener
as it is. Of any other text it gives what comes of it when the comments are found
from the left and each of them becomes one space.
-/

namespace ScopedStyle

def Clean (t : Text) : Prop := ¬['/', '*'] <:+: t

theorem clean_nil : Clean [] := by
  intro h
  exact absurd (List.infix_nil.1 h) (by simp)

theorem pair_not_prefixed {a b c : Char} {t : Text} :
    ¬[a, b] <+: c :: t ↔ (c = a → t.head? ≠ some b) := by
  rw [List.cons_prefix_cons, eq_comm, not_and]
  refine imp_congr_right fun _ => not_congr ?_
  cases t with
  | nil => simp
  | cons d t => simp [List.cons_prefix_cons, eq_comm]

theorem clean_cons {c : Char} {t : Text} :
    Clean (c :: t) ↔ (c = '/' → t.head? ≠ some '*') ∧ Clean t := by
  rw [Clean, List.infix_cons_iff, not_or, pair_not_prefixed]
  rfl

theorem Clean.part {s t : Text} (h : Clean t) (hs : s <:+: t) : Clean s :=
  fun ho => h (ho.trans hs)

theorem clean_append {a b : Text} (ha : Clean a) (hb : Clean b)
    (h : a.getLast? = some '/' → b.head? ≠ some '*') : Clean (a ++ b) := by
  induction a with
  | nil => exact hb
  | cons c a ih =>
    obtain ⟨hc, ha⟩ := clean_cons.1 ha
    cases a with
    | nil => exact clean_cons.2 ⟨fun he => h (by rw [he]; rfl), hb⟩
    | cons d a => exact clean_cons.2 ⟨hc, ih ha h⟩

theorem clean_of_not_mem {t : Text} (h : '/' ∉ t) : Clean t := by
  intro ho
  exact h (ho.subset List.mem_cons_self)

theorem stripAfter_kept {c : Char} {t : Text} (h : c = '/' → t.head? ≠ some '*') :
    stripAfter [] false (c :: t) = c :: stripAfter [] false t := by
  rw [stripAfter]
  · rw [stripAfter_eq]
    rfl
  · rintro rest rfl rfl
    exact h rfl rfl

theorem stripAfter_opened (t : Text) :
    stripAfter [] false ('/' :: '*' :: t) = ' ' :: stripAfter [] true t := by
  rw [stripAfter, stripAfter_eq]
  rfl

theorem stripAfter_closed (t : Text) :
    stripAfter [] true ('*' :: '/' :: t) = stripAfter [] false t := by
  rw [stripAfter]

theorem stripAfter_skipped {c : Char} {t : Text} (h : c = '*' → t.head? ≠ some '/') :
    stripAfter [] true (c :: t) = stripAfter [] true t := by
  rw [stripAfter]
  rintro rest rfl rfl
  exact h rfl rfl

theorem stripComments_clean {t : Text} (h : Clean t) : stripComments t = t := by
  rw [stripComments]
  induction t with
  | nil => rfl
  | cons c t ih =>
    obtain ⟨hc, ht⟩ := clean_cons.1 h
    rw [stripAfter_kept hc, ih ht]

theorem stripComments_append {a : Text} (h : '/' ∉ a) (b : Text) :
    stripComments (a ++ b) = a ++ stripComments b := by
  induction a with
  | nil => rfl
  | cons c a ih =>
    have hc : c ≠ '/' := fun he => h (he ▸ List.mem_cons_self)
    rw [List.cons_append, stripComments, stripAfter_kept fun he => absurd he hc]
    exact congrArg (c :: ·) (ih fun ha => h (List.mem_cons_of_mem c ha))

theorem head_stripAfter (t : Text) :
    (stripAfter [] false t).head? = t.head? ∨ (stripAfter [] false t).head? = some ' ' := by
  cases t with
  | nil => exact .inl rfl
  | cons c t =>
    by_cases h : c = '/' → t.head? ≠ some '*'
    · rw [stripAfter_kept h]
      exact .inl rfl
    · push Not at h
      obtain ⟨rfl, ht⟩ := h
      obtain ⟨rest, rfl⟩ := List.head?_eq_some_iff.1 ht
      rw [stripAfter_opened]
      exact .inr rfl

theorem strip_induction {motive : Bool → Text → Prop} (nil : ∀ inside, motive inside [])
    (opened : ∀ t, motive true t → motive false ('/' :: '*' :: t))
    (kept : ∀ c t, (c = '/' → t.head? ≠ some '*') → motive false t → motive false (c :: t))
    (closed : ∀ t, motive false t → motive true ('*' :: '/' :: t))
    (skipped : ∀ c t, (c = '*' → t.head? ≠ some '/') → motive true t → motive true (c :: t))
    (inside : Bool) (t : Text) : motive inside t := by
  refine stripAfter.induct (fun _ inside t => motive inside t) (fun _ => nil)
    (fun _ => opened) (fun _ c t h => kept c t ?_) (fun _ => closed)
    (fun _ c t h => skipped c t ?_) [] inside t
  · rintro rfl hs
    obtain ⟨rest, rfl⟩ := List.head?_eq_some_iff.1 hs
    exact h rest rfl rfl
  · rintro rfl hs
    obtain ⟨rest, rfl⟩ := List.head?_eq_some_iff.1 hs
    exact h rest rfl rfl

theorem clean_stripAfter (inside : Bool) (t : Text) : Clean (stripAfter [] inside t) := by
  induction inside, t using strip_induction with
  | nil inside => cases inside <;> exact clean_nil
  | opened t ih =>
    rw [stripAfter_opened]
    exact clean_cons.2 ⟨fun hc => absurd hc (by decide), ih⟩
  | kept c t hopen ih =>
    rw [stripAfter_kept hopen]
    refine clean_cons.2 ⟨fun hc hstar => ?_, ih⟩
    -- a star behind a kept slash would have opened a comment with it
    rcases head_stripAfter t with hh | hh
    · exact hopen hc (hh.symm.trans hstar)
    · rw [hh] at hstar
      exact absurd hstar (by decide)
  | closed t ih =>
    rw [stripAfter_closed]
    exact ih
  | skipped c t hclose ih =>
    rw [stripAfter_skipped hclose]
    exact ih

theorem clean_stripComments (t : Text) : Clean (stripComments t) := clean_stripAfter false t

theorem stripComments_eq_self_iff {t : Text} : stripComments t = t ↔ Clean t :=
  ⟨fun h => h ▸ clean_stripComments t, stripComments_clean⟩

/-- The first place of a mark in a text, by what stands in front of it and behind it. -/
structure FirstPlace (mark t front rest : Text) : Prop where
  split : t = front ++ mark ++ rest
  first : ∀ before after, t = before ++ mark ++ after → front.length ≤ before.length

namespace FirstPlace
variable {mark t front rest : Text} {c : Char}

theorem not_prefixed (h : FirstPlace mark t (c :: front) rest) : ¬mark <+: t := by
  rintro ⟨after, rfl⟩
  exact absurd (h.first [] after rfl) (by simp)

theorem tail (h : FirstPlace mark (c :: t) (c :: front) rest) : FirstPlace mark t front rest where
  split := (List.cons.inj h.split).2
  first before after hsplit :=
    Nat.le_of_succ_le_succ (h.first (c :: before) after (congrArg (c :: ·) hsplit))

theorem cons (h : FirstPlace mark t front rest) (hc : ¬mark <+: c :: t) :
    FirstPlace mark (c :: t) (c :: front) rest where
  split := congrArg (c :: ·) h.split
  first before after hsplit := by
    cases before with
    | nil => exact absurd ⟨after, hsplit.symm⟩ hc
    | cons d before => exact Nat.succ_le_succ (h.first before after (List.cons.inj hsplit).2)

end FirstPlace

theorem exists_firstPlace {mark t : Text} (h : mark <:+: t) :
    ∃ front rest, FirstPlace mark t front rest := by
  induction t with
  | nil =>
    obtain rfl := List.infix_nil.1 h
    exact ⟨[], [], rfl, fun _ _ _ => Nat.zero_le _⟩
  | cons c t ih =>
    by_cases hc : mark <+: c :: t
    · obtain ⟨rest, hrest⟩ := hc
      exact ⟨[], rest, hrest.symm, fun _ _ _ => Nat.zero_le _⟩
    · obtain ⟨front, rest, hplace⟩ := ih ((List.infix_cons_iff.1 h).resolve_left hc)
      exact ⟨c :: front, rest, hplace.cons hc⟩

/-- What becomes of a text whose comments are found one after the other, each behind the end of the
last: one space for each, and all else as it was. -/
inductive Uncomments : Text → Text → Prop
  | clean {t : Text} : Clean t → Uncomments t t
  | closed {t front inner body rest out : Text} : FirstPlace ['/', '*'] t front inner →
      FirstPlace ['*', '/'] inner body rest → Uncomments rest out →
      Uncomments t (front ++ ' ' :: out)
  | unclosed {t front inner : Text} : FirstPlace ['/', '*'] t front inner →
      ¬['*', '/'] <:+: inner → Uncomments t (front ++ [' '])

theorem stripAfter_front {t front rest : Text} (h : FirstPlace ['/', '*'] t front rest) :
    stripAfter [] false t = front ++ ' ' :: stripAfter [] true rest := by
  induction front generalizing t with
  | nil =>
    rw [h.split]
    exact stripAfter_opened rest
  | cons c front ih =>
    obtain ⟨u, rfl⟩ : ∃ u, t = c :: u := ⟨_, h.split⟩
    rw [stripAfter_kept (pair_not_prefixed.1 h.not_prefixed), ih h.tail, List.cons_append]

theorem stripAfter_body {t body rest : Text} (h : FirstPlace ['*', '/'] t body rest) :
    stripAfter [] true t = stripAfter [] false rest := by
  induction body generalizing t with
  | nil =>
    rw [h.split]
    exact stripAfter_closed rest
  | cons c body ih =>
    obtain ⟨u, rfl⟩ : ∃ u, t = c :: u := ⟨_, h.split⟩
    rw [stripAfter_skipped (pair_not_prefixed.1 h.not_prefixed), ih h.tail]

theorem stripAfter_unclosed {t : Text} (h : ¬['*', '/'] <:+: t) : stripAfter [] true t = [] := by
  induction t with
  | nil => rfl
  | cons c t ih =>
    rw [List.infix_cons_iff, not_or] at h
    rw [stripAfter_skipped (pair_not_prefixed.1 h.1), ih h.2]

theorem Uncomments.stripComments_eq {t out : Text} (h : Uncomments t out) :
    stripComments t = out := by
  induction h with
  | clean h => exact stripComments_clean h
  | closed hopen hclose _ ih =>
    rw [stripComments, stripAfter_front hopen, stripAfter_body hclose, ← ih]
    rfl
  | unclosed hopen hnone => rw [stripComments, stripAfter_front hopen, stripAfter_unclosed hnone]

theorem exists_uncomments (t : Text) : ∃ out, Uncomments t out := by
  induction hn : t.length using Nat.strongRecOn generalizing t with
  | ind n ih =>
    by_cases hclean : Clean t
    · exact ⟨t, .clean hclean⟩
    · obtain ⟨front, inner, hopen⟩ := exists_firstPlace (Decidable.not_not.1 hclean)
      by_cases hclosed : ['*', '/'] <:+: inner
      · obtain ⟨body, rest, hclose⟩ := exists_firstPlace hclosed
        have hshorter : rest.length < n := by
          rw [← hn, hopen.split, hclose.split]
          simp only [List.length_append, List.length_cons]
          omega
        obtain ⟨out, hout⟩ := ih _ hshorter rest rfl
        exact ⟨_, .closed hopen hclose hout⟩
      · exact ⟨_, .unclosed hopen hclosed⟩

/-- Stripping a text twice is stripping it once, for no comment opens in what it leaves, and that is
the text with one space for each of its comments. -/
theorem stripComments_normal (t : Text) :
    Clean (stripComments t) ∧ stripComments (stripComments t) = stripComments t ∧
      ∀ out, stripComments t = out ↔ Uncomments t out := by
  refine ⟨clean_stripComments t, stripComments_clean (clean_stripComments t), fun out => ?_⟩
  refine ⟨?_, Uncomments.stripComments_eq⟩
  rintro rfl
  obtain ⟨out, hout⟩ := exists_uncomments t
  rwa [hout.stripComments_eq]

example : stripComments "a/*/b*/*c/**//* d".toList = "a *c  ".toList := by decide

end ScopedStyle
