import ScopedStyle.Lint
import ScopedStyle.Proofs.Nested.Waiting

/-!
# Which dropped declarations the lint reports

A style text may end while a declaration waits for its semicolon, and the flattener
drops it then. None of the lines from where it began ends with a semicolon, and over
such lines the lint reports a missing semicolon exactly if one of them is a
declaration. So it misses no declaration that began on a line of its own, but one that
began behind a closing brace.
-/

namespace ScopedStyle
open Text

namespace Lint

variable {s : Lint}

/-- A missing semicolon was found, or will be if the text ends here. -/
def Alert (s : Lint) : Prop :=
  s.waiting.isSome ∨ ∃ f ∈ s.findings, f.kind = .missingSemicolon

theorem alert_finish : (∃ f ∈ s.finish, f.kind = .missingSemicolon) ↔ s.Alert := by
  have hopened : ¬∃ f ∈ s.opened.reverse.map (⟨·, .unclosedBlock⟩ : Nat → Finding),
      f.kind = .missingSemicolon := by simp
  have hwaiting : (∃ f ∈ s.waiting.toList.map (⟨·, .missingSemicolon⟩ : Nat → Finding),
      f.kind = .missingSemicolon) ↔ s.waiting.isSome := by
    cases s.waiting <;> simp
  rw [finish, Alert]
  simp only [List.mem_append, or_and_right, exists_or, hopened, hwaiting, or_false]
  exact or_comm

theorem alert_report (line : Nat) : (s.report line .missingSemicolon).Alert :=
  .inr ⟨⟨line, .missingSemicolon⟩, List.mem_append_right _ (List.mem_singleton_self _), rfl⟩

theorem alert_brace (line : Nat) (k : TokenKind) : (brace line s k).Alert ↔ s.Alert := by
  unfold brace
  split
  · rfl
  · rfl
  · simp [Alert, report, or_and_right, exists_or]
  · rfl

theorem alert_braces (line : Nat) (kinds : List TokenKind) :
    (kinds.foldl (brace line) s).Alert ↔ s.Alert := by
  induction kinds generalizing s with
  | nil => rfl
  | cons k kinds ih => exact ih.trans (alert_brace line k)

theorem alert_scanFresh (line : Nat) (kinds : List TokenKind) {text : Text}
    (he : endsWith ';' text = false) :
    (s.scanFresh line text kinds).Alert ↔ s.Alert ∨ isDeclaration text := by
  unfold scanFresh
  rw [he, Bool.not_false, Bool.and_true]
  split
  · rename_i hd
    simp [Alert, hd]
  · rename_i hd
    rw [alert_braces]
    simp [hd]

theorem alert_scan (line : Nat) {raw : Text} (he : endsWith ';' (trim raw) = false) :
    (s.scan line raw).Alert ↔ s.Alert ∨ isDeclaration (trim raw) := by
  unfold scan
  dsimp only
  split
  · rename_i hblank
    rw [List.isEmpty_iff.1 hblank]
    exact (or_iff_left (by decide)).symm
  · unfold scanKinds
    split
    · exact alert_scanFresh line _ he
    · rename_i since hw
      have halert : s.Alert := .inl (hw ▸ rfl)
      split
      · rw [alert_scanFresh line _ he]
        exact iff_of_true (.inl (alert_report since)) (.inl halert)
      · rw [he]
        simp [halert]

theorem alert_scanAll (line : Nat) {raws : List Text}
    (h : ∀ l ∈ raws, endsWith ';' (trim l) = false) :
    (s.scanAll line raws).Alert ↔ s.Alert ∨ ∃ l ∈ raws, isDeclaration (trim l) := by
  induction raws generalizing s line with
  | nil => simp [scanAll]
  | cons raw rest ih =>
    obtain ⟨hraw, hrest⟩ := List.forall_mem_cons.1 h
    rw [scanAll, ih (line + 1) hrest, alert_scan line hraw, or_assoc]
    simp

theorem scanAll_append (s : Lint) (line : Nat) (raws more : List Text) :
    s.scanAll line (raws ++ more) = (s.scanAll line raws).scanAll (line + raws.length) more := by
  induction raws generalizing s line with
  | nil => rfl
  | cons raw raws ih =>
    rw [List.cons_append, scanAll, ih, scanAll, List.length_cons, Nat.add_right_comm, Nat.add_assoc]

end Lint

/-- After the lines `before` nothing waits, and from `line` on a declaration does. -/
structure Flattener.BeginsOn (root : Text) (before : List Text) (line : Text)
    (after : List Text) : Prop where
  idle : ((start root).feedAll before).waiting = none
  waits : ∀ more, more <+: after → ((start root).feedAll (before ++ line :: more)).waiting.isSome

namespace Flattener

variable {root line : Text} {before after : List Text}

theorem feedAll_concat (s : Flattener) (lines : List Text) (line : Text) :
    s.feedAll (lines ++ [line]) = (s.feedAll lines).feed line :=
  List.foldl_append

theorem exists_beginsOn {lines : List Text}
    (h : ((start root).feedAll lines).waiting.isSome) :
    ∃ before line after, lines = before ++ line :: after ∧ BeginsOn root before line after := by
  -- the last line either began the declaration or goes on with one that an earlier line began
  induction lines using List.reverseRecOn with
  | nil => cases h
  | append_singleton lines last ih =>
    cases hw : ((start root).feedAll lines).waiting with
    | none =>
      refine ⟨lines, last, [], rfl, hw, fun more hmore => ?_⟩
      rwa [List.prefix_nil.1 hmore]
    | some started =>
      obtain ⟨before, line, after, rfl, hidle, hwaits⟩ := ih (hw ▸ rfl)
      refine ⟨before, line, after ++ [last], by simp, hidle, fun more hmore => ?_⟩
      rcases List.prefix_concat_iff.1 hmore with rfl | hmore
      · simpa using h
      · exact hwaits more hmore

theorem BeginsOn.unended (h : BeginsOn root before line after) :
    ∀ l ∈ line :: after, endsWith ';' (trim l) = false := by
  intro l hl
  obtain ⟨read, rest, hsplit⟩ := List.append_of_mem hl
  have hwaits : ((start root).feedAll (before ++ (read ++ [l]))).waiting.isSome := by
    cases read with
    | nil =>
      obtain ⟨rfl, -⟩ := List.cons.inj hsplit
      exact h.waits [] List.nil_prefix
    | cons first read =>
      obtain ⟨rfl, rfl⟩ := List.cons.inj hsplit
      exact h.waits (read ++ [l]) ⟨rest, by simp⟩
  rw [← List.append_assoc, feedAll_concat] at hwaits
  refine eq_false_of_ne_true fun he => ?_
  rw [feed_ended he] at hwaits
  cases hwaits

theorem BeginsOn.place (h : BeginsOn root before line after) :
    isDeclaration (trim line) ∨ ∃ front behind, trim line = front ++ '}' :: behind ∧
      isDeclaration (trim behind) := by
  have hwaits := h.waits [] List.nil_prefix
  rw [feedAll_concat] at hwaits
  obtain ⟨t, ht⟩ := Option.isSome_iff_exists.1 hwaits
  obtain ⟨hd, -, rfl | ⟨front, behind, hline, rfl⟩⟩ := feed_begins h.idle ht
  · exact .inl hd
  · exact .inr ⟨front, behind, hline, hd⟩

end Flattener

/-- A dropped declaration begins on one line of its text. The lint then reports a missing semicolon
exactly if that line or one behind it is a declaration as a whole, or if it reports one for the
lines in front. A line that is no declaration has the beginning behind a closing brace. -/
theorem lint_reports_iff_of_dropped {style root : Text}
    (h : (droppedDeclaration style root).isSome) :
    ∃ before line after, lines style = before ++ line :: after ∧
      Flattener.BeginsOn root before line after ∧
      ((∃ f ∈ lint style, f.kind = .missingSemicolon) ↔
        (∃ l ∈ line :: after, isDeclaration (trim l)) ∨
          ∃ f ∈ (Lint.start.scanAll 1 before).finish, f.kind = .missingSemicolon) ∧
      (isDeclaration (trim line) ∨ ∃ front behind, trim line = front ++ '}' :: behind ∧
        isDeclaration (trim behind)) := by
  obtain ⟨before, line, after, hlines, hbegins⟩ := Flattener.exists_beginsOn h
  refine ⟨before, line, after, hlines, hbegins, ?_, hbegins.place⟩
  have hlint : (∃ f ∈ lint style, f.kind = .missingSemicolon) ↔
      (Lint.start.scanAll 1 (lines style)).Alert := by
    simp only [lint, List.mem_mergeSort, Lint.alert_finish]
  rw [hlint, hlines, Lint.scanAll_append, Lint.alert_scanAll _ hbegins.unended, Lint.alert_finish]
  exact or_comm

def swallowing : Text := ".a \x7b\n  color: red;\n\x7d margin: 0\nborder: 1px".toList

theorem lint_reports_iff_of_dropped_swallowing :
    droppedDeclaration swallowing ".r".toList = some "margin: 0 border: 1px".toList ∧
      lint swallowing = [⟨4, .missingSemicolon⟩] ∧
      ∃ before line after, lines swallowing = before ++ line :: after ∧
        Flattener.BeginsOn ".r".toList before line after ∧
        ((∃ l ∈ line :: after, isDeclaration (trim l)) ∨
          ∃ f ∈ (Lint.start.scanAll 1 before).finish, f.kind = .missingSemicolon) := by
  have hdropped : droppedDeclaration swallowing ".r".toList =
      some "margin: 0 border: 1px".toList := by decide +kernel
  have hlint : lint swallowing = [⟨4, .missingSemicolon⟩] := by decide +kernel
  have hsome : (droppedDeclaration swallowing ".r".toList).isSome := hdropped ▸ rfl
  obtain ⟨before, line, after, hlines, hbegins, hiff, -⟩ := lint_reports_iff_of_dropped hsome
  refine ⟨hdropped, hlint, before, line, after, hlines, hbegins, hiff.1 ?_⟩
  exact ⟨⟨4, .missingSemicolon⟩, hlint ▸ List.mem_singleton_self _, rfl⟩

/-- The declaration behind the brace is dropped, and the lint finds nothing. -/
theorem lint_misses_dropped :
    droppedDeclaration ".a \x7b\n  color: red;\n\x7d margin: 0".toList ".r".toList =
        some "margin: 0".toList ∧
      lint ".a \x7b\n  color: red;\n\x7d margin: 0".toList = [] := by
  constructor
  · decide +kernel
  · decide +kernel

end ScopedStyle
