import Mathlib.Data.List.DropRight
import ScopedStyle.Text.Basic

/-!
# Trimming, cutting and lines

What a text keeps when blanks at its ends are dropped, when it is cut at a first
character, and when lines are joined and taken apart again.
-/

namespace ScopedStyle.Text

def Blank (t : Text) : Prop := ∀ c ∈ t, isBlank c

theorem blank_nil : Blank [] := by simp [Blank]

theorem blank_space : Blank [' '] := by
  intro c hc
  rw [List.mem_singleton.1 hc]
  decide

theorem trimLeft_blank {a : Text} (h : Blank a) : trimLeft a = [] := by
  rw [trimLeft, List.dropWhile_eq_nil_iff]
  exact h

theorem trimLeft_blank_append {a : Text} (h : Blank a) (t : Text) :
    trimLeft (a ++ t) = trimLeft t :=
  List.dropWhile_append_of_pos h

theorem trimRight_append_blank {b : Text} (h : Blank b) (t : Text) :
    trimRight (t ++ b) = trimRight t := by
  rw [trimRight, trimRight, List.reverse_append]
  congr 1
  exact List.dropWhile_append_of_pos fun c hc => h c (List.mem_reverse.1 hc)

theorem trim_blank {a : Text} (h : Blank a) : trim a = [] := by
  rw [trim, trimLeft_blank h]
  rfl

theorem trim_blank_append {a : Text} (h : Blank a) (t : Text) : trim (a ++ t) = trim t := by
  rw [trim, trim, trimLeft_blank_append h]

theorem trim_append_blank {b : Text} (h : Blank b) (t : Text) : trim (t ++ b) = trim t := by
  rw [trim, trim, trimLeft, List.dropWhile_append]
  split
  · rename_i he
    have ht : t.dropWhile isBlank = [] := by simpa using he
    rw [trimLeft, ht]
    exact trim_blank h
  · exact trimRight_append_blank h _

theorem trimLeft_idem (t : Text) : trimLeft (trimLeft t) = trimLeft t :=
  List.dropWhile_idempotent isBlank t

theorem trim_trimLeft (t : Text) : trim (trimLeft t) = trim t := by
  rw [trim, trimLeft_idem, trim]

theorem exists_trimLeft (t : Text) : ∃ a, Blank a ∧ t = a ++ trimLeft t := by
  refine ⟨t.takeWhile isBlank, ?_, (List.takeWhile_append_dropWhile).symm⟩
  intro c hc
  exact List.mem_takeWhile_imp hc

theorem exists_trimRight (t : Text) : ∃ b, Blank b ∧ t = trimRight t ++ b := by
  refine ⟨t.rtakeWhile isBlank, ?_, (List.rdropWhile_append_rtakeWhile).symm⟩
  intro c hc
  exact List.mem_rtakeWhile_imp hc

theorem exists_trim (t : Text) : ∃ a b, Blank a ∧ Blank b ∧ t = a ++ trim t ++ b := by
  obtain ⟨a, ha, hl⟩ := exists_trimLeft t
  obtain ⟨b, hb, hr⟩ := exists_trimRight (trimLeft t)
  refine ⟨a, b, ha, hb, ?_⟩
  rw [List.append_assoc, trim, ← hr]
  exact hl

theorem trim_eq_nil_iff {t : Text} : trim t = [] ↔ Blank t := by
  refine ⟨fun h => ?_, trim_blank⟩
  obtain ⟨a, b, ha, hb, htext⟩ := exists_trim t
  rw [h, List.append_nil] at htext
  rw [htext]
  exact fun c hc => (List.mem_append.1 hc).elim (ha c) (hb c)

theorem trim_part (t : Text) : trim t <:+: t := by
  obtain ⟨a, b, -, -, ht⟩ := exists_trim t
  exact ⟨a, b, ht.symm⟩

theorem trim_idem (t : Text) : trim (trim t) = trim t := by
  obtain ⟨a, b, ha, hb, ht⟩ := exists_trim t
  conv => rhs; rw [ht, trim_append_blank hb, trim_blank_append ha]

theorem mem_trim {c : Char} {t : Text} (hc : isBlank c = false) (h : c ∈ t) : c ∈ trim t := by
  obtain ⟨a, b, ha, hb, ht⟩ := exists_trim t
  rw [ht] at h
  rcases List.mem_append.1 h with h | h
  · rcases List.mem_append.1 h with h | h
    · exact absurd (ha c h) (by simp [hc])
    · exact h
  · exact absurd (hb c h) (by simp [hc])

theorem front_of_trimmed {a t : Text} (h : trim (a ++ t) = a ++ t) (ha : Blank a) : a = [] := by
  have hlen := length_trim_le t
  rw [← trim_blank_append ha, h, List.length_append] at hlen
  exact List.eq_nil_of_length_eq_zero (by omega)

theorem back_of_trimmed {t b : Text} (h : trim (t ++ b) = t ++ b) (hb : Blank b) : b = [] := by
  have hlen := length_trim_le t
  rw [← trim_append_blank hb, h, List.length_append] at hlen
  exact List.eq_nil_of_length_eq_zero (by omega)

theorem head_of_trimmed {c : Char} {t : Text} (h : trim (c :: t) = c :: t) :
    isBlank c = false := by
  by_contra hc
  have hblank : Blank [c] := by simpa [Blank] using hc
  exact absurd (front_of_trimmed (a := [c]) h hblank) (List.cons_ne_nil c [])

theorem last_of_trimmed {c : Char} {t : Text} (h : trim (t ++ [c]) = t ++ [c]) :
    isBlank c = false := by
  by_contra hc
  have hblank : Blank [c] := by simpa [Blank] using hc
  exact absurd (back_of_trimmed h hblank) (List.cons_ne_nil c [])

theorem trimLeft_around {c : Char} (hc : isBlank c = false) (a b : Text) :
    trimLeft (a ++ c :: b) = trimLeft a ++ c :: b := by
  have hb : (c :: b).dropWhile isBlank = c :: b := List.dropWhile_cons_of_neg (by simp [hc])
  rw [trimLeft, trimLeft, List.dropWhile_append]
  split
  · rename_i he
    rw [hb, List.isEmpty_iff.1 he, List.nil_append]
  · rfl

theorem trimRight_around {c : Char} (hc : isBlank c = false) (a b : Text) :
    trimRight (a ++ c :: b) = a ++ c :: trimRight b := by
  have h := trimLeft_around hc b.reverse a.reverse
  rw [trimLeft, trimLeft] at h
  rw [trimRight, List.reverse_append, List.reverse_cons, List.append_assoc, List.singleton_append,
    h, List.reverse_append, List.reverse_cons, List.reverse_reverse, List.append_assoc,
    List.singleton_append, trimRight]

theorem trim_around {c : Char} (hc : isBlank c = false) (a b : Text) :
    trim (a ++ c :: b) = trimLeft a ++ c :: trimRight b := by
  rw [trim, trimLeft_around hc, trimRight_around hc]

theorem trim_between {c e : Char} (hc : isBlank c = false) (he : isBlank e = false) (t : Text) :
    trim (c :: t ++ [e]) = c :: t ++ [e] := by
  have h := trim_around hc [] (t ++ [e])
  rw [trimRight_around he t []] at h
  exact h

theorem trim_trimRight (t : Text) : trim (trimRight t) = trim t := by
  obtain ⟨b, hb, ht⟩ := exists_trimRight t
  conv => rhs; rw [ht, trim_append_blank hb]

theorem cut?_append {c : Char} {before : Text} (h : c ∉ before) (after : Text) :
    cut? c (before ++ c :: after) = some (before, after) := by
  have hp : ∀ d ∈ before, (d != c) = true := by
    intro d hd
    exact bne_iff_ne.2 fun he => h (he ▸ hd)
  rw [cut?, List.dropWhile_append_of_pos hp, List.takeWhile_append_of_pos hp]
  simp

theorem cut?_trim {c : Char} (hc : isBlank c = false) {before : Text} (h : c ∉ before)
    (after : Text) :
    cut? c (trim (before ++ c :: after)) = some (trimLeft before, trimRight after) := by
  rw [trim_around hc]
  exact cut?_append (fun hm => h ((List.dropWhile_sublist _).subset hm)) _

theorem cut?_eq_none {c : Char} {t : Text} (h : c ∉ t) : cut? c t = none := by
  have hp : t.dropWhile (· != c) = [] := by
    rw [List.dropWhile_eq_nil_iff]
    intro d hd
    exact bne_iff_ne.2 fun he => h (he ▸ hd)
  rw [cut?, hp]

theorem cut?_eq_some {c : Char} {t before after : Text} (h : cut? c t = some (before, after)) :
    t = before ++ c :: after := by
  by_cases hc : c ∈ t
  · obtain ⟨b, a, ht, hb⟩ := List.eq_append_cons_of_mem hc
    rw [ht, cut?_append hb] at h
    cases h
    exact ht
  · rw [cut?_eq_none hc] at h
    cases h

theorem cut?_part {c : Char} {t before after : Text} (h : cut? c t = some (before, after)) :
    before <:+: t ∧ after <:+: t := by
  rw [cut?_eq_some h]
  exact ⟨(List.prefix_append before (c :: after)).isInfix,
    (List.suffix_cons c after).isInfix.trans (List.suffix_append before (c :: after)).isInfix⟩

def dropReturn (t : Text) : Text :=
  match t.reverse with
  | '\r' :: kept => kept.reverse
  | _ => t

theorem trim_dropReturn (t : Text) : trim (dropReturn t) = trim t := by
  unfold dropReturn
  split
  · rename_i kept he
    have ht : t = kept.reverse ++ ['\r'] := by simpa using congrArg List.reverse he
    rw [ht, trim_append_blank (b := ['\r']) (by intro c hc; rw [List.mem_singleton.1 hc]; decide)]
  · rfl

theorem linesAfter_feed (started t rest : Text) (h : '\n' ∉ t) :
    linesAfter started (t ++ '\n' :: rest) =
      dropReturn (started.reverse ++ t) :: linesAfter [] rest := by
  induction t generalizing started with
  | nil =>
    cases started with
    | nil => rfl
    | cons c kept =>
      by_cases hc : c = '\r'
      · subst hc
        simp [linesAfter, dropReturn]
      · simp [linesAfter, dropReturn, hc]
  | cons c t ih =>
    have hc : c ≠ '\n' := fun he => h (he ▸ List.mem_cons_self)
    rw [List.cons_append, linesAfter]
    · rw [ih _ fun hm => h (List.mem_cons_of_mem c hm)]
      simp
    · exact hc

theorem linesAfter_last (started t : Text) (h : '\n' ∉ t) :
    linesAfter started t =
      if (started.reverse ++ t).isEmpty then [] else [started.reverse ++ t] := by
  induction t generalizing started with
  | nil => simp [linesAfter]
  | cons c t ih =>
    have hc : c ≠ '\n' := fun he => h (he ▸ List.mem_cons_self)
    rw [linesAfter]
    · rw [ih _ fun hm => h (List.mem_cons_of_mem c hm)]
      simp
    · exact hc

theorem linesAfter_unbroken {started : Text} (hs : '\n' ∉ started) (t : Text) :
    ∀ l ∈ linesAfter started t, '\n' ∉ l := by
  fun_induction linesAfter started t with
  | case1 started he => simp
  | case2 started he => simpa using hs
  | case3 started rest ih =>
    intro l hl
    rcases List.mem_cons.1 hl with rfl | hl
    · split
      · exact fun hm => hs (List.mem_cons_of_mem _ (List.mem_reverse.1 hm))
      · exact fun hm => hs (List.mem_reverse.1 hm)
    · exact ih List.not_mem_nil l hl
  | case4 started c rest hc ih =>
    exact ih (List.not_mem_cons_of_ne_of_not_mem (fun he => hc he.symm) hs)

theorem lines_unbroken (t : Text) : ∀ l ∈ lines t, '\n' ∉ l :=
  linesAfter_unbroken List.not_mem_nil t

theorem lines_feed (t rest : Text) (h : '\n' ∉ t) :
    lines (t ++ '\n' :: rest) = dropReturn t :: lines rest :=
  linesAfter_feed [] t rest h

theorem lines_last (t : Text) (h : '\n' ∉ t) : lines t = if t.isEmpty then [] else [t] :=
  linesAfter_last [] t h

end ScopedStyle.Text
