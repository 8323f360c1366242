import Mathlib.Data.List.Infix
import Mathlib.Data.List.Sort
import ScopedStyle.Lint
import ScopedStyle.Proofs.Lint.Matching

/-!
# The braces that the lint reports

The lint takes the braces of a text line by line and passes over the lines of a declaration
that waits for its semicolon. Of the braces that it takes it reports exactly those that match
no other, each with its line, and its findings are in the order of the lines.
-/

namespace ScopedStyle
open Text

def lineKinds (raw : Text) : List TokenKind := (tokens (trim raw)).map Token.kind

def Unended (raw : Text) : Prop := isDeclaration (trim raw) = true ∧ endsWith ';' (trim raw) = false

/-- A line with which a declaration can go on: it holds no brace and begins no declaration. -/
def GoesOn (raw : Text) : Prop :=
  (lineKinds raw).any Lint.isBrace = false ∧ Lint.beginsDeclaration (lineKinds raw) = false

def Awaits : List Text → Prop
  | [] => False
  | line :: more => Unended line ∧ ∀ l ∈ more, GoesOn l ∧ endsWith ';' (trim l) = false

def Waits (before : List Text) : Prop := ∃ ls ∈ before.tails, Awaits ls

/-- A line whose braces are taken: it is not blank, no declaration without its semicolon, and does
not go on with one. -/
def Scans (before : List Text) (raw : Text) : Prop :=
  trim raw ≠ [] ∧ ¬Unended raw ∧ ¬(Waits before ∧ GoesOn raw)

instance : DecidablePred Unended := fun _ => inferInstanceAs (Decidable (_ ∧ _))

instance : DecidablePred GoesOn := fun _ => inferInstanceAs (Decidable (_ ∧ _))

instance : DecidablePred Awaits
  | [] => inferInstanceAs (Decidable False)
  | _ :: _ => inferInstanceAs (Decidable (_ ∧ _))

instance : DecidablePred Waits := fun before =>
  inferInstanceAs (Decidable (∃ ls ∈ before.tails, Awaits ls))

instance (before : List Text) : DecidablePred (Scans before) :=
  fun _ => inferInstanceAs (Decidable (_ ∧ _ ∧ _))

def braceOf? (line : Nat) : TokenKind → Option Brace
  | .braceOpen => some ⟨line, true⟩
  | .braceClose => some ⟨line, false⟩
  | _ => none

def lineBraces (before : List Text) (raw : Text) : List Brace :=
  if Scans before raw then (lineKinds raw).filterMap (braceOf? (before.length + 1)) else []

def bracesBehind (before : List Text) : List Text → List Brace
  | [] => []
  | raw :: rest => lineBraces before raw ++ bracesBehind (before ++ [raw]) rest

def braces (style : Text) : List Brace := bracesBehind [] (lines style)

section Lines

variable {before rest ls : List Text} {raw : Text} {b : Brace} {line : Nat}

theorem awaits_concat :
    Awaits (ls ++ [raw]) ↔
      (ls = [] ∧ Unended raw) ∨ (Awaits ls ∧ GoesOn raw ∧ endsWith ';' (trim raw) = false) := by
  cases ls with
  | nil => simp [Awaits]
  | cons first more =>
    rw [List.cons_append, Awaits, List.forall_mem_append, List.forall_mem_singleton]
    simp [Awaits, and_assoc]

theorem waits_concat :
    Waits (before ++ [raw]) ↔
      Unended raw ∨ (Waits before ∧ GoesOn raw ∧ endsWith ';' (trim raw) = false) := by
  simp only [Waits, List.mem_tails, List.suffix_concat_iff]
  constructor
  · rintro ⟨_, rfl | ⟨ls, rfl, hls⟩, h⟩
    · exact h.elim
    · rcases awaits_concat.1 h with ⟨-, hraw⟩ | ⟨hawaits, hraw⟩
      · exact .inl hraw
      · exact .inr ⟨⟨ls, hls, hawaits⟩, hraw⟩
  · rintro (hraw | ⟨⟨ls, hls, hawaits⟩, hraw⟩)
    · exact ⟨[raw], .inr ⟨[], rfl, List.nil_suffix⟩, awaits_concat.2 (.inl ⟨rfl, hraw⟩)⟩
    · exact ⟨ls ++ [raw], .inr ⟨ls, rfl, hls⟩, awaits_concat.2 (.inr ⟨hawaits, hraw⟩)⟩

theorem waits_concat_of_blank (h : trim raw = []) : Waits (before ++ [raw]) ↔ Waits before := by
  have hunended : ¬Unended raw := by
    rw [Unended, h]
    decide
  have hgoes : GoesOn raw := by
    rw [GoesOn, lineKinds, h]
    decide +kernel
  have hend : endsWith ';' (trim raw) = false := by
    rw [h]
    rfl
  rw [waits_concat]
  simp only [hunended, hgoes, hend, and_true, false_or]

theorem waits_concat_of_fresh (h : ¬(Waits before ∧ GoesOn raw)) :
    Waits (before ++ [raw]) ↔ Unended raw :=
  waits_concat.trans (or_iff_left fun hmore => h ⟨hmore.1, hmore.2.1⟩)

theorem waits_concat_of_goesOn (hwait : Waits before) (hgo : GoesOn raw) :
    Waits (before ++ [raw]) ↔ endsWith ';' (trim raw) = false := by
  rw [waits_concat]
  exact ⟨fun h => h.elim And.right fun hmore => hmore.2.2, fun h => .inr ⟨hwait, hgo, h⟩⟩

theorem lineBraces_of_fresh (hblank : trim raw ≠ []) (h : ¬(Waits before ∧ GoesOn raw)) :
    lineBraces before raw =
      if Unended raw then [] else (lineKinds raw).filterMap (braceOf? (before.length + 1)) := by
  rw [lineBraces]
  by_cases hraw : Unended raw
  · rw [if_pos hraw, if_neg fun hscans => hscans.2.1 hraw]
  · rw [if_neg hraw, if_pos ⟨hblank, hraw, h⟩]

theorem line_eq_of_mem_lineBraces (h : b ∈ lineBraces before raw) : b.line = before.length + 1 := by
  rw [lineBraces] at h
  split at h
  · obtain ⟨k, -, hk⟩ := List.mem_filterMap.1 h
    cases k <;> cases hk <;> rfl
  · cases h

theorem le_line_of_mem (h : b ∈ bracesBehind before rest) : before.length + 1 ≤ b.line := by
  induction rest generalizing before with
  | nil => cases h
  | cons raw rest ih =>
    rcases List.mem_append.1 h with h | h
    · exact (line_eq_of_mem_lineBraces h).ge
    · have hle := ih h
      rw [List.length_append, List.length_singleton] at hle
      exact Nat.le_of_succ_le hle

theorem pairwise_bracesBehind (before rest : List Text) :
    (bracesBehind before rest).Pairwise (·.line ≤ ·.line) := by
  induction rest generalizing before with
  | nil => exact .nil
  | cons raw rest ih =>
    refine List.pairwise_append.2 ⟨?_, ih _, fun a ha b hb => ?_⟩
    · refine List.pairwise_of_forall_mem_list fun a ha b hb => ?_
      rw [line_eq_of_mem_lineBraces ha, line_eq_of_mem_lineBraces hb]
    · have hle := le_line_of_mem hb
      rw [List.length_append] at hle
      rw [line_eq_of_mem_lineBraces ha]
      exact Nat.le_of_succ_le hle

end Lines

def linesOf (kind : FindingKind) (fs : List Finding) : List Nat :=
  (fs.filter (·.kind = kind)).map Finding.line

section Findings

variable {kind other : FindingKind} {fs gs : List Finding}

theorem linesOf_append : linesOf kind (fs ++ gs) = linesOf kind fs ++ linesOf kind gs := by
  rw [linesOf, List.filter_append, List.map_append, linesOf, linesOf]

theorem linesOf_same (kind : FindingKind) (ls : List Nat) :
    linesOf kind (ls.map (⟨·, kind⟩)) = ls := by
  simp [linesOf, List.filter_map, Function.comp_def]

theorem linesOf_other (h : other ≠ kind) (ls : List Nat) :
    linesOf kind (ls.map (⟨·, other⟩)) = [] := by
  simp [linesOf, List.filter_map, Function.comp_def, h]

theorem pairwise_mergeSort_line (fs : List Finding) :
    (fs.mergeSort fun a b => a.line ≤ b.line).Pairwise (·.line ≤ ·.line) := by
  have hsorted : (fs.mergeSort fun a b => a.line ≤ b.line).Pairwise
      fun a b => decide (a.line ≤ b.line) = true := by
    refine List.pairwise_mergeSort (fun a b c hab hbc => ?_) (fun a b => ?_) fs
    · exact decide_eq_true ((of_decide_eq_true hab).trans (of_decide_eq_true hbc))
    · simpa using Nat.le_total a.line b.line
  exact hsorted.imp of_decide_eq_true

theorem linesOf_mergeSort (h : (linesOf kind fs).Pairwise (· ≤ ·)) :
    linesOf kind (fs.mergeSort fun a b => a.line ≤ b.line) = linesOf kind fs := by
  have hsorted : (linesOf kind (fs.mergeSort fun a b => a.line ≤ b.line)).Pairwise (· ≤ ·) :=
    List.pairwise_map.2 ((pairwise_mergeSort_line fs).sublist List.filter_sublist)
  exact (((fs.mergeSort_perm _).filter _).map _).eq_of_pairwise' hsorted h

end Findings

namespace Lint

variable {s : Lint} {bs : List Brace} {before rest : List Text} {raw : Text}

/-- A lint has met some braces: it has reported the closing ones that close no brace, and still
holds the open ones that no brace closed. -/
structure Meets (s : Lint) (bs : List Brace) : Prop where
  opened : s.opened = (unmatched bs).opens.map Brace.line
  reported : linesOf .unbalancedClose s.findings = (unmatched bs).closes.map Brace.line
  pending : linesOf .unclosedBlock s.findings = []

structure HasRead (s : Lint) (before : List Text) (bs : List Brace) : Prop extends Meets s bs where
  waits : s.waiting.isSome ↔ Waits before

theorem linesOf_report (kind : FindingKind) (line : Nat) (k : FindingKind) :
    linesOf kind (s.report line k).findings =
      linesOf kind s.findings ++ if k = kind then [line] else [] := by
  rw [report, linesOf_append]
  split
  · rename_i h
    rw [h]
    exact congrArg _ (linesOf_same kind [line])
  · rename_i h
    exact congrArg _ (linesOf_other h [line])

theorem Meets.brace (h : Meets s bs) (line : Nat) (k : TokenKind) :
    Meets (brace line s k) (bs ++ (braceOf? line k).toList) := by
  obtain ⟨findings, opened, waiting⟩ := s
  obtain ⟨hopened, hreported, hpending⟩ := h
  cases k with
  | braceOpen =>
    have hrun : unmatched (bs ++ [⟨line, true⟩]) =
        ⟨(unmatched bs).closes, ⟨line, true⟩ :: (unmatched bs).opens⟩ := unmatched_concat _ _
    refine ⟨?_, ?_, hpending⟩
    · exact hrun ▸ congrArg (line :: ·) hopened
    · exact hrun ▸ hreported
  | braceClose =>
    obtain ⟨hb, -⟩ | ⟨-, o, os, ho, hmeet⟩ | ⟨-, ho, hmeet⟩ :=
      meet_cases (unmatched bs) ⟨line, false⟩
    · cases hb
    · -- the innermost open brace has found its partner
      have hrun := (unmatched_concat bs ⟨line, false⟩).trans hmeet
      rw [ho] at hopened
      subst hopened
      refine ⟨?_, ?_, hpending⟩
      · exact hrun ▸ rfl
      · exact hrun ▸ hreported
    · -- no brace is open, so this one is reported
      have hrun : unmatched (bs ++ (braceOf? line .braceClose).toList) =
          ⟨(unmatched bs).closes ++ [⟨line, false⟩], []⟩ := (unmatched_concat _ _).trans hmeet
      rw [ho] at hopened
      subst hopened
      refine ⟨?_, ?_, ?_⟩
      · exact hrun ▸ rfl
      · rw [hrun, List.map_append, ← hreported]
        exact linesOf_report .unbalancedClose line .unbalancedClose
      · refine (linesOf_report .unclosedBlock line .unbalancedClose).trans ?_
        rw [hpending]
        rfl
  | _ =>
    change Meets ⟨findings, opened, waiting⟩ (bs ++ [])
    rw [List.append_nil]
    exact ⟨hopened, hreported, hpending⟩

theorem Meets.braces (h : Meets s bs) (line : Nat) (kinds : List TokenKind) :
    Meets (kinds.foldl (Lint.brace line) s) (bs ++ kinds.filterMap (braceOf? line)) := by
  induction kinds generalizing s bs with
  | nil => rwa [List.filterMap_nil, List.append_nil]
  | cons k kinds ih =>
    have hrow : (k :: kinds).filterMap (braceOf? line) =
        (braceOf? line k).toList ++ kinds.filterMap (braceOf? line) := by
      rw [List.filterMap_cons]
      cases braceOf? line k <;> rfl
    rw [hrow, ← List.append_assoc]
    exact ih (h.brace line k)

theorem Meets.wait (h : Meets s bs) (waiting : Option Nat) : Meets { s with waiting } bs :=
  ⟨h.opened, h.reported, h.pending⟩

theorem Meets.missing (h : Meets s bs) (line : Nat) :
    Meets (s.report line .missingSemicolon) bs := by
  refine ⟨h.opened, ?_, ?_⟩
  · rw [linesOf_report, h.reported]
    exact List.append_nil _
  · rw [linesOf_report, h.pending]
    rfl

theorem waiting_braces (line : Nat) (kinds : List TokenKind) :
    (kinds.foldl (Lint.brace line) s).waiting = s.waiting := by
  induction kinds generalizing s with
  | nil => rfl
  | cons k kinds ih =>
    rw [List.foldl_cons, ih]
    unfold Lint.brace
    split <;> rfl

theorem Meets.scanFresh (h : Meets s bs) (hw : s.waiting = none) (line : Nat) (raw : Text) :
    Meets (s.scanFresh line (trim raw) (lineKinds raw))
        (bs ++ if Unended raw then [] else (lineKinds raw).filterMap (braceOf? line)) ∧
      ((s.scanFresh line (trim raw) (lineKinds raw)).waiting.isSome ↔ Unended raw) := by
  have hguard : (isDeclaration (trim raw) && !endsWith ';' (trim raw)) = true ↔ Unended raw := by
    simp [Unended]
  rw [Lint.scanFresh]
  by_cases hraw : Unended raw
  · rw [if_pos (hguard.2 hraw), if_pos hraw, List.append_nil]
    exact ⟨h.wait _, by simp [hraw]⟩
  · rw [if_neg (mt hguard.1 hraw), if_neg hraw, waiting_braces, hw]
    exact ⟨h.braces line _, by simp [hraw]⟩

theorem HasRead.fresh (h : Meets s bs) (hidle : s.waiting = none) (hblank : trim raw ≠ [])
    (hfresh : ¬(Waits before ∧ GoesOn raw)) :
    HasRead (s.scanFresh (before.length + 1) (trim raw) (lineKinds raw)) (before ++ [raw])
      (bs ++ lineBraces before raw) := by
  obtain ⟨hmeets, hwaits⟩ := h.scanFresh hidle (before.length + 1) raw
  rw [lineBraces_of_fresh hblank hfresh]
  exact ⟨hmeets, hwaits.trans (waits_concat_of_fresh hfresh).symm⟩

theorem HasRead.takeIn (h : HasRead s before bs) (hwait : Waits before) (hgo : GoesOn raw) :
    HasRead (if endsWith ';' (trim raw) then { s with waiting := none } else s) (before ++ [raw])
      (bs ++ lineBraces before raw) := by
  have hnone : lineBraces before raw = [] := if_neg fun hscans => hscans.2.2 ⟨hwait, hgo⟩
  have hnext := waits_concat_of_goesOn hwait hgo
  rw [hnone, List.append_nil]
  cases hend : endsWith ';' (trim raw) with
  | true => exact ⟨h.toMeets.wait none, by simp [hnext, hend]⟩
  | false => exact ⟨h.toMeets, by simp [hnext, hend, h.waits, hwait]⟩

theorem HasRead.scan (h : HasRead s before bs) (raw : Text) :
    HasRead (s.scan (before.length + 1) raw) (before ++ [raw]) (bs ++ lineBraces before raw) := by
  by_cases hblank : trim raw = []
  · have hscan : s.scan (before.length + 1) raw = s := by simp [Lint.scan, hblank]
    have hnone : lineBraces before raw = [] := if_neg fun hscans => hscans.1 hblank
    rw [hscan, hnone, List.append_nil]
    exact ⟨h.toMeets, h.waits.trans (waits_concat_of_blank hblank).symm⟩
  have hscan : s.scan (before.length + 1) raw =
      s.scanKinds (before.length + 1) (trim raw) (lineKinds raw) := by
    simp [Lint.scan, hblank, lineKinds]
  have hguard : ((lineKinds raw).any isBrace || beginsDeclaration (lineKinds raw)) = false ↔
      GoesOn raw := by rw [Bool.or_eq_false_iff, GoesOn]
  rw [hscan, Lint.scanKinds]
  cases hw : s.waiting with
  | none =>
    have hnot : ¬Waits before := by simp [← h.waits, hw]
    exact .fresh h.toMeets hw hblank fun hboth => hnot hboth.1
  | some since =>
    dsimp only
    by_cases hgo : GoesOn raw
    · rw [hguard.2 hgo]
      exact h.takeIn (h.waits.1 (hw ▸ rfl)) hgo
    · rw [if_pos (Bool.eq_true_of_not_eq_false (mt hguard.1 hgo))]
      exact .fresh ((h.toMeets.wait none).missing since) rfl hblank fun hboth => hgo hboth.2

theorem HasRead.scanAll (h : HasRead s before bs) (rest : List Text) :
    HasRead (s.scanAll (before.length + 1) rest) (before ++ rest)
      (bs ++ bracesBehind before rest) := by
  induction rest generalizing s before bs with
  | nil => simpa [Lint.scanAll, bracesBehind] using h
  | cons raw rest ih =>
    have hrest := ih (h.scan raw)
    rw [List.length_append, List.length_singleton, List.append_assoc, List.append_assoc] at hrest
    exact hrest

theorem hasRead_start : HasRead start [] [] := by
  refine ⟨⟨rfl, rfl, rfl⟩, ?_⟩
  decide

theorem Meets.finish (h : Meets s bs) :
    linesOf .unbalancedClose s.finish = (unopened bs).map Brace.line ∧
      linesOf .unclosedBlock s.finish = (unclosed bs).map Brace.line := by
  rw [Lint.finish, linesOf_append, linesOf_append, linesOf_append, linesOf_append]
  constructor
  · rw [linesOf_other (by decide), linesOf_other (by decide), h.reported, unopened_eq]
    simp
  · rw [linesOf_other (by decide), linesOf_same, h.pending, h.opened, unclosed_eq, List.map_reverse]
    rfl

end Lint

/-- The lint reports exactly the braces that match no other, each with its line, and its findings
are in the order of the lines. A closing brace matches the nearest open brace in front of it that
no brace between them closes. -/
theorem lint_braces (style : Text) :
    linesOf .unbalancedClose (lint style) = (unopened (braces style)).map Brace.line ∧
      linesOf .unclosedBlock (lint style) = (unclosed (braces style)).map Brace.line ∧
      (∀ i j, Matches (braces style) i j ↔
        i < j ∧ ((braces style)[i]?.any fun o => o.opens) ∧
          ((braces style)[j]?.any fun c => !c.opens) ∧
          (∀ l < j, ¬Matches (braces style) i l) ∧
          ∀ k < j, i < k → ((braces style)[k]?.any fun o => o.opens) →
            ∃ l < j, Matches (braces style) k l) ∧
      (lint style).Pairwise (·.line ≤ ·.line) := by
  have hread : (Lint.start.scanAll 1 (lines style)).HasRead (lines style) (braces style) :=
    Lint.hasRead_start.scanAll (lines style)
  obtain ⟨hclose, hopen⟩ := hread.toMeets.finish
  have hlines : (braces style).Pairwise (·.line ≤ ·.line) := pairwise_bracesBehind [] (lines style)
  refine ⟨?_, ?_, fun _ _ => matches_iff_nearest, pairwise_mergeSort_line _⟩
  · refine (linesOf_mergeSort ?_).trans hclose
    rw [hclose]
    exact List.pairwise_map.2 (hlines.sublist (unopened_sublist _))
  · refine (linesOf_mergeSort ?_).trans hopen
    rw [hopen]
    exact List.pairwise_map.2 (hlines.sublist (unclosed_sublist _))

example :
    braces "\x7d\n.a \x7b\ncolor: red,\nblue\n\x7d\n[x=\"\x7d\"] \x7b".toList =
        [⟨1, false⟩, ⟨2, true⟩, ⟨5, false⟩, ⟨6, true⟩] ∧
      lint "\x7d\n.a \x7b\ncolor: red,\nblue\n\x7d\n[x=\"\x7d\"] \x7b".toList =
        [⟨1, .unbalancedClose⟩, ⟨3, .missingSemicolon⟩, ⟨6, .unclosedBlock⟩] := by
  constructor
  · decide +kernel
  · cbv

end ScopedStyle
