import ScopedStyle.Proofs.Nested.Feed

/-!
# What reading a line does

A line does a few acts to a flattener, and which ones follows from the line and
from the declaration that waits, never from the blocks, the rules or the depth.
Only one kind of act holds a declaration back, and the two that change the
current selector first flush. So what every act keeps, all lines keep. The texts
that acts put into a flattener are parts of the line.
-/

namespace ScopedStyle
open Text

namespace Flattener

inductive Act
  | count (braces : Int)
  | wait (waiting : Option Text)
  | declare (declaration : Text)
  | select (selector : Text)
  | close
  deriving DecidableEq

def act (s : Flattener) : Act → Flattener
  | .count braces => { s with depth := s.depth + braces }
  | .wait waiting => { s with waiting }
  | .declare declaration => s.declare declaration
  | .select selector => s.select selector
  | .close => { s.flush with blocks := s.flush.blocks.tail }

def actAll (s : Flattener) (acts : List Act) : Flattener := acts.foldl act s

def enterActs (before : Text) : List Act :=
  .count 1 :: if !before.isEmpty && classify before = .selector then [.select before] else []

def leaveActs (before : Text) : List Act :=
  (if isDeclaration (trim before) then [.declare (trim before)] else []) ++ [.count (-1), .close]

def resumeActs (started line : Text) : List Act :=
  let joined := started ++ ' ' :: line
  if endsWith ';' joined then [.wait none, .declare joined] else [.wait (some joined)]

def plainActs (line : Text) : List Act :=
  match classify line with
  | .declaration => [.declare line]
  | .selector => [.select line]
  | .other => []

def tailActs (tail : Text) : List Act × Option Text :=
  match cut? '{' tail, cut? '}' tail with
  | none, none => (if isDeclaration tail then [.declare tail] else [], none)
  | none, some (before, rest) => (leaveActs before, some rest)
  | some _, none => ([], some tail)
  | some (outer, _), some (before, rest) =>
      if before.length < outer.length then (leaveActs before, some rest) else ([], some tail)

def stepActs (waiting : Option Text) (raw : Text) : List Act × Option Text :=
  let line := trim raw
  if line.isEmpty then ([], none)
  else
    match waiting with
    | some started => (resumeActs started line, none)
    | none =>
        if isDeclaration line && !endsWith ';' line then ([.wait (some line)], none)
        else
          match cut? '{' line with
          | some (before, after) =>
              (enterActs (trim before) ++ (tailActs (trim after)).1, (tailActs (trim after)).2)
          | none =>
              match cut? '}' line with
              | some (before, rest) => (leaveActs before, some rest)
              | none => (plainActs line, none)

section
variable (s : Flattener)

theorem actAll_append (acts more : List Act) :
    s.actAll (acts ++ more) = (s.actAll acts).actAll more :=
  List.foldl_append

theorem enter_eq (before : Text) : s.enter before = s.actAll (enterActs before) := by
  unfold enter enterActs
  split
  · rfl
  · rfl

theorem leave_eq (before : Text) : s.leave before = s.actAll (leaveActs before) := by
  unfold leave leaveActs
  split
  · rfl
  · rfl

theorem resume_eq (started line : Text) :
    s.resume started line = s.actAll (resumeActs started line) := by
  unfold resume resumeActs
  dsimp only
  split
  · rfl
  · rfl

theorem plain_eq (line : Text) : s.plain line = s.actAll (plainActs line) := by
  unfold plain plainActs
  cases classify line with
  | declaration => rfl
  | selector => rfl
  | other => rfl

theorem afterBrace_eq (tail : Text) :
    s.afterBrace tail = (s.actAll (tailActs tail).1, (tailActs tail).2) := by
  unfold afterBrace tailActs
  cases cut? '{' tail with
  | none =>
    cases cut? '}' tail with
    | none =>
      dsimp only
      split
      · rfl
      · rfl
    | some closed => exact congrArg (·, some closed.2) (leave_eq s closed.1)
  | some opened =>
    cases cut? '}' tail with
    | none => rfl
    | some closed =>
      dsimp only
      split
      · rw [leave_eq]
      · rfl

theorem step_eq (raw : Text) :
    s.step raw = (s.actAll (stepActs s.waiting raw).1, (stepActs s.waiting raw).2) := by
  unfold step stepActs
  dsimp only
  split
  · rfl
  · cases s.waiting with
    | some started => exact congrArg (·, none) (resume_eq s started _)
    | none =>
      dsimp only
      split
      · rfl
      · cases cut? '{' (trim raw) with
        | some opened =>
          dsimp only
          rw [enter_eq, afterBrace_eq, actAll_append]
        | none =>
          cases cut? '}' (trim raw) with
          | some closed => exact congrArg (·, some closed.2) (leave_eq s closed.1)
          | none => exact congrArg (·, none) (plain_eq s _)

end

theorem stepActs_shorter {waiting : Option Text} {raw rest : Text} {acts : List Act}
    (h : stepActs waiting raw = (acts, some rest)) : rest.length < raw.length := by
  have hs := step_eq { start [] with waiting } raw
  rw [h] at hs
  exact step_shorter hs

/-- All acts of a line, its rest being a line that nothing waits for. -/
def lineActs (waiting : Option Text) (raw : Text) : List Act :=
  match _h : stepActs waiting raw with
  | (acts, none) => acts
  | (acts, some rest) => acts ++ lineActs none rest
termination_by raw.length
decreasing_by exact stepActs_shorter _h

theorem lineActs_of_none {waiting : Option Text} {raw : Text} {acts : List Act}
    (h : stepActs waiting raw = (acts, none)) : lineActs waiting raw = acts := by
  rw [lineActs]
  split
  · simp_all
  · simp_all

theorem lineActs_of_some {waiting : Option Text} {raw rest : Text} {acts : List Act}
    (h : stepActs waiting raw = (acts, some rest)) :
    lineActs waiting raw = acts ++ lineActs none rest := by
  rw [lineActs]
  split
  · simp_all
  · simp_all

theorem afterBrace_waiting (s : Flattener) (tail : Text) :
    (s.afterBrace tail).1.waiting = s.waiting := by
  unfold afterBrace
  split
  · split
    · rfl
    · rfl
  · rw [leave_waiting]
  · rfl
  · split
    · rw [leave_waiting]
    · rfl

theorem step_waiting {s s' : Flattener} {raw rest : Text} (h : s.step raw = (s', some rest)) :
    s'.waiting = none := by
  unfold step at h
  dsimp only at h
  split at h
  · cases h
  · split at h
    · cases h
    · rename_i hw
      split at h
      · cases h
      · split at h
        · rename_i before after _
          have hs := congrArg (·.1.waiting) h
          dsimp only at hs
          rw [← hs, afterBrace_waiting, enter_waiting, hw]
        · split at h
          · cases h
            rw [leave_waiting, hw]
          · cases h

theorem feed_eq (s : Flattener) (raw : Text) :
    s.feed raw = s.actAll (lineActs s.waiting raw) := by
  fun_induction feed s raw with
  | case1 s raw s' h =>
    rw [step_eq, Prod.mk.injEq] at h
    rw [lineActs_of_none (Prod.ext rfl h.2), h.1]
  | case2 s raw s' rest h ih =>
    have hw := step_waiting h
    rw [step_eq, Prod.mk.injEq] at h
    rw [lineActs_of_some (Prod.ext rfl h.2), actAll_append, h.1, ih, hw]

def SelectorIn (raw t : Text) : Prop := t <:+: raw ∧ classify t = .selector

def Act.Within (raw : Text) : Act → Prop
  | .wait waiting => ∀ t ∈ waiting, t <:+: raw
  | .declare declaration => declaration <:+: raw
  | .select selector => SelectorIn raw selector
  | .count _ | .close => True

def AllWithin (raw : Text) (acts : List Act) : Prop := ∀ a ∈ acts, a.Within raw

section
variable {raw line before : Text} {acts more : List Act}

theorem allWithin_nil : AllWithin raw [] := by simp [AllWithin]

theorem allWithin_cons {a : Act} : AllWithin raw (a :: acts) ↔ a.Within raw ∧ AllWithin raw acts :=
  List.forall_mem_cons

theorem AllWithin.append (h : AllWithin raw acts) (hm : AllWithin raw more) :
    AllWithin raw (acts ++ more) :=
  List.forall_mem_append.2 ⟨h, hm⟩

theorem AllWithin.part (h : AllWithin line acts) (hl : line <:+: raw) : AllWithin raw acts := by
  intro a ha
  have hwithin := h a ha
  cases a with
  | count braces => trivial
  | wait waiting => exact fun t ht => (hwithin t ht).trans hl
  | declare declaration => exact hwithin.trans hl
  | select selector => exact ⟨hwithin.1.trans hl, hwithin.2⟩
  | close => trivial

theorem enterActs_within (before : Text) : AllWithin before (enterActs before) := by
  unfold enterActs
  split
  · rename_i hs
    rw [Bool.and_eq_true, decide_eq_true_eq] at hs
    have hselect : Act.Within before (.select before) := ⟨List.infix_rfl, hs.2⟩
    exact allWithin_cons.2 ⟨trivial, allWithin_cons.2 ⟨hselect, allWithin_nil⟩⟩
  · exact allWithin_cons.2 ⟨trivial, allWithin_nil⟩

theorem leaveActs_within (before : Text) : AllWithin before (leaveActs before) := by
  have hclose : AllWithin before [.count (-1), .close] :=
    allWithin_cons.2 ⟨trivial, allWithin_cons.2 ⟨trivial, allWithin_nil⟩⟩
  unfold leaveActs
  split
  · exact allWithin_cons.2 ⟨trim_part before, hclose⟩
  · exact hclose

theorem resumeActs_within (started line : Text) :
    AllWithin (started ++ ' ' :: line) (resumeActs started line) := by
  unfold resumeActs
  dsimp only
  split
  · exact allWithin_cons.2 ⟨by simp [Act.Within], allWithin_cons.2 ⟨List.infix_rfl, allWithin_nil⟩⟩
  · exact allWithin_cons.2 ⟨by simp [Act.Within], allWithin_nil⟩

theorem plainActs_within (line : Text) : AllWithin line (plainActs line) := by
  unfold plainActs
  split
  · exact allWithin_cons.2 ⟨List.infix_rfl, allWithin_nil⟩
  · rename_i hs
    exact allWithin_cons.2 ⟨⟨List.infix_rfl, hs⟩, allWithin_nil⟩
  · exact allWithin_nil

theorem tailActs_within (tail : Text) :
    AllWithin tail (tailActs tail).1 ∧ ∀ rest ∈ (tailActs tail).2, rest <:+: tail := by
  unfold tailActs
  split
  · split
    · exact ⟨allWithin_cons.2 ⟨List.infix_rfl, allWithin_nil⟩, by simp⟩
    · exact ⟨allWithin_nil, by simp⟩
  · rename_i hc
    obtain ⟨hb, hr⟩ := cut?_part hc
    exact ⟨(leaveActs_within _).part hb, by simpa using hr⟩
  · exact ⟨allWithin_nil, by simp⟩
  · rename_i hc
    obtain ⟨hb, hr⟩ := cut?_part hc
    split
    · exact ⟨(leaveActs_within _).part hb, by simpa using hr⟩
    · exact ⟨allWithin_nil, by simp⟩

theorem stepActs_within (raw : Text) :
    AllWithin raw (stepActs none raw).1 ∧ ∀ rest ∈ (stepActs none raw).2, rest <:+: raw := by
  have hline := trim_part raw
  unfold stepActs
  dsimp only
  split
  · exact ⟨allWithin_nil, by simp⟩
  · split
    · exact ⟨allWithin_cons.2 ⟨by simpa [Act.Within] using hline, allWithin_nil⟩, by simp⟩
    · split
      · rename_i before after hc
        obtain ⟨hb, ha⟩ := cut?_part hc
        obtain ⟨htail, hrest⟩ := tailActs_within (trim after)
        have hbefore : trim before <:+: raw := (trim_part before).trans (hb.trans hline)
        have hafter : trim after <:+: raw := (trim_part after).trans (ha.trans hline)
        exact ⟨((enterActs_within _).part hbefore).append (htail.part hafter),
          fun rest hr => (hrest rest hr).trans hafter⟩
      · split
        · rename_i hc
          obtain ⟨hb, hr⟩ := cut?_part hc
          exact ⟨(leaveActs_within _).part (hb.trans hline), by simpa using hr.trans hline⟩
        · exact ⟨(plainActs_within _).part hline, by simp⟩

theorem lineActs_within (raw : Text) : AllWithin raw (lineActs none raw) := by
  induction hn : raw.length using Nat.strongRecOn generalizing raw with
  | ind n ih =>
    obtain ⟨hacts, hrest⟩ := stepActs_within raw
    generalize hs : stepActs none raw = out at hacts hrest
    obtain ⟨acts, rest⟩ := out
    cases rest with
    | none =>
      rw [lineActs_of_none hs]
      exact hacts
    | some rest =>
      rw [lineActs_of_some hs]
      exact hacts.append ((ih _ (hn ▸ stepActs_shorter hs) rest rfl).part (hrest rest rfl))

theorem lineActs_waiting (started raw : Text) :
    lineActs (some started) raw =
      if (trim raw).isEmpty then [] else resumeActs started (trim raw) := by
  apply lineActs_of_none
  unfold stepActs
  dsimp only
  split
  · rfl
  · rfl

end

end Flattener
end ScopedStyle
