import ScopedStyle.Proofs.Nested.Acts

/-!
# Where a declaration begins to wait

A declaration without its semicolon waits from the line on that it stands on: it is
that line, or it stands behind the last closing brace that the line has read. The
line cannot end with a semicolon then, and none of the lines that go on with the
declaration does before it is over.
-/

namespace ScopedStyle
open Text

theorem Text.endsWith_iff {c : Char} {t : Text} : endsWith c t ↔ ∃ front, t = front ++ [c] := by
  rw [endsWith, beq_iff_eq, List.getLast?_eq_some_iff]

theorem Text.endsWith_append {c : Char} {t : Text} (front : Text) (h : t ≠ []) :
    endsWith c (front ++ t) = endsWith c t := by
  rw [endsWith, List.getLast?_append_of_ne_nil front h, endsWith]

theorem Text.endsWith_trim {c : Char} (hc : isBlank c = false) {t : Text} (h : endsWith c t) :
    endsWith c (trim t) := by
  obtain ⟨front, rfl⟩ := endsWith_iff.1 h
  exact endsWith_iff.2 ⟨trimLeft front, trim_around hc front []⟩

namespace Flattener

variable {s s' : Flattener} {raw rest t : Text}

theorem plain_waiting (s : Flattener) (line : Text) : (s.plain line).waiting = s.waiting := by
  unfold plain
  cases classify line with
  | declaration => rfl
  | selector => exact select_waiting s line
  | other => rfl

theorem step_begins (hw : s.waiting = none) (h : s.step raw = (s', none))
    (ht : s'.waiting = some t) : t = trim raw ∧ isDeclaration t ∧ endsWith ';' t = false := by
  have hidle : ∀ {f : Flattener}, f.waiting = none → f = s' → False := by
    rintro f hf rfl
    rw [hf] at ht
    cases ht
  unfold step at h
  dsimp only at h
  split at h
  · exact (hidle hw (Prod.mk.inj h).1).elim
  · rw [hw] at h
    dsimp only at h
    split at h
    · rename_i hd
      obtain rfl := (Prod.mk.inj h).1
      cases ht
      rw [Bool.and_eq_true, Bool.not_eq_true'] at hd
      exact ⟨rfl, hd.1, hd.2⟩
    · split at h
      · refine (hidle ?_ (congrArg Prod.fst h)).elim
        rw [afterBrace_waiting, enter_waiting, hw]
      · split at h
        · cases h
        · exact (hidle ((plain_waiting s _).trans hw) (Prod.mk.inj h).1).elim

def Follows (front rest : Text) : Prop := '{' ∈ rest ∨ ∃ before, front = before ++ ['}']

theorem tailActs_rest {tail : Text} (h : (tailActs tail).2 = some rest) :
    ∃ front, tail = front ++ rest ∧ Follows front rest := by
  have hclosed {before : Text} (hc : cut? '}' tail = some (before, rest)) :
      ∃ front, tail = front ++ rest ∧ Follows front rest := by
    refine ⟨before ++ ['}'], ?_, .inr ⟨before, rfl⟩⟩
    rw [List.append_assoc]
    exact cut?_eq_some hc
  have hopened {outer after : Text} (hc : cut? '{' tail = some (outer, after)) :
      ∃ front, tail = front ++ tail ∧ Follows front tail :=
    ⟨[], rfl, .inl (cut?_eq_some hc ▸ by simp)⟩
  unfold tailActs at h
  split at h
  · cases h
  · rename_i hc
    exact hclosed (Option.some.inj h ▸ hc)
  · rename_i hc _
    exact Option.some.inj h ▸ hopened hc
  · rename_i ho hc
    split at h
    · exact hclosed (Option.some.inj h ▸ hc)
    · exact Option.some.inj h ▸ hopened ho

theorem step_rest (hw : s.waiting = none) (h : s.step raw = (s', some rest)) :
    ∃ front back, Blank back ∧ trim raw = front ++ (rest ++ back) ∧ Follows front rest := by
  have hrest : (stepActs none raw).2 = some rest := by
    rw [step_eq, hw] at h
    exact (Prod.mk.inj h).2
  unfold stepActs at hrest
  dsimp only at hrest
  split at hrest
  · cases hrest
  · split at hrest
    · cases hrest
    · split at hrest
      · rename_i before after hopen
        obtain ⟨front, hfront, hkind⟩ := tailActs_rest hrest
        obtain ⟨a, b, -, hb, hafter⟩ := exists_trim after
        refine ⟨before ++ '{' :: a ++ front, b, hb, ?_, hkind.imp_right ?_⟩
        · rw [cut?_eq_some hopen, hafter, hfront]
          simp
        · rintro ⟨inner, rfl⟩
          exact ⟨before ++ '{' :: a ++ inner, (List.append_assoc ..).symm⟩
      · split at hrest
        · rename_i before behind hclose
          cases hrest
          refine ⟨before ++ ['}'], [], blank_nil, ?_, .inr ⟨before, rfl⟩⟩
          rw [cut?_eq_some hclose]
          simp
        · cases hrest

theorem feed_begins (hw : s.waiting = none) (ht : (s.feed raw).waiting = some t) :
    isDeclaration t ∧ endsWith ';' t = false ∧
      (t = trim raw ∨ ∃ front behind, trim raw = front ++ '}' :: behind ∧ t = trim behind) := by
  fun_induction feed s raw with
  | case1 s raw s' h =>
    obtain ⟨hline, hd, he⟩ := step_begins hw h ht
    exact ⟨hd, he, .inl hline⟩
  | case2 s raw s' rest h ih =>
    obtain ⟨hd, he, hplace⟩ := ih (step_waiting h) ht
    obtain ⟨front, back, hback, hline, hkind⟩ := step_rest hw h
    refine ⟨hd, he, .inr ?_⟩
    rcases hplace with rfl | ⟨inner, behind, hrest, rfl⟩
    · rcases hkind with hopen | ⟨before, rfl⟩
      · exact absurd (mem_trim (by decide) hopen) (isDeclaration_no_open hd)
      · refine ⟨before, rest ++ back, ?_, (trim_append_blank hback rest).symm⟩
        rw [hline, List.append_assoc]
        rfl
    · obtain ⟨a, b, -, hb, hr⟩ := exists_trim rest
      refine ⟨front ++ a ++ inner, behind ++ (b ++ back), ?_, ?_⟩
      · rw [hline, hr, hrest]
        simp
      · rw [← List.append_assoc, trim_append_blank hback, trim_append_blank hb]

theorem resume_waiting (started : Text) {line : Text} (hne : line ≠ []) :
    (s.resume started line).waiting =
      if endsWith ';' line then none else some (started ++ ' ' :: line) := by
  have hjoined : endsWith ';' (started ++ ' ' :: line) = endsWith ';' line := by
    rw [← List.singleton_append, ← List.append_assoc, endsWith_append _ hne]
  rw [resume, hjoined]
  split
  · rfl
  · rfl

theorem feed_ended (he : endsWith ';' (trim raw)) : (s.feed raw).waiting = none := by
  have hne : trim raw ≠ [] := by
    intro hnil
    rw [hnil] at he
    cases he
  cases hw : s.waiting with
  | some started =>
    rw [← feed_trim, feed_resume hw (trim_idem raw) hne, resume_waiting started hne, if_pos he]
  | none =>
    cases ht : (s.feed raw).waiting with
    | none => rfl
    | some t =>
      obtain ⟨-, hopen, rfl | ⟨front, behind, hline, rfl⟩⟩ := feed_begins hw ht
      · rw [he] at hopen
        cases hopen
      · have hbehind : endsWith ';' ('}' :: behind) := by
          rw [← endsWith_append front (List.cons_ne_nil '}' behind), ← hline]
          exact he
        have hback : behind ≠ [] := by
          rintro rfl
          cases hbehind
        rw [← List.singleton_append, endsWith_append _ hback] at hbehind
        rw [endsWith_trim (by decide) hbehind] at hopen
        cases hopen

end Flattener
end ScopedStyle
