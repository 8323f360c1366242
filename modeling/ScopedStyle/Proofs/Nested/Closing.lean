import ScopedStyle.Proofs.Nested.Acts

/-!
# Lines that go on behind a closing brace

What stands behind the first closing brace of a line is read as a line of its own,
unless the first opening brace of the line stands behind it: then that brace is
judged first, and the closing one ends no block. The braces that a line counts tell
the two readings apart.
-/

namespace ScopedStyle
open Text

namespace Flattener

def Act.braces : Act → Int
  | .count braces => braces
  | _ => 0

def balance (acts : List Act) : Int := acts.foldr (fun a n => a.braces + n) 0

theorem balance_cons (a : Act) (acts : List Act) : balance (a :: acts) = a.braces + balance acts :=
  rfl

theorem balance_append (acts more : List Act) :
    balance (acts ++ more) = balance acts + balance more := by
  induction acts with
  | nil => exact (Int.zero_add _).symm
  | cons a acts ih => rw [List.cons_append, balance_cons, balance_cons, ih, Int.add_assoc]

theorem depth_act (s : Flattener) (a : Act) : (s.act a).depth = s.depth + a.braces := by
  cases a with
  | count braces => rfl
  | wait waiting => exact (Int.add_zero _).symm
  | declare declaration => exact (Int.add_zero _).symm
  | select selector => exact (flush_depth s).trans (Int.add_zero _).symm
  | close => exact (flush_depth s).trans (Int.add_zero _).symm

theorem depth_actAll (s : Flattener) (acts : List Act) :
    (s.actAll acts).depth = s.depth + balance acts := by
  induction acts generalizing s with
  | nil => exact (Int.add_zero _).symm
  | cons a acts ih =>
    have h := ih (s.act a)
    rw [depth_act, Int.add_assoc, ← balance_cons] at h
    exact h

theorem depth_feed (s : Flattener) (raw : Text) :
    (s.feed raw).depth = s.depth + balance (lineActs s.waiting raw) := by
  rw [feed_eq, depth_actAll]

theorem balance_enterActs (before : Text) : balance (enterActs before) = 1 := by
  unfold enterActs
  split
  · rfl
  · rfl

theorem balance_leaveActs (before : Text) : balance (leaveActs before) = -1 := by
  unfold leaveActs
  split
  · rfl
  · rfl

theorem stepActs_open {before : Text} (hb : '{' ∉ before) (rest : Text) :
    stepActs none (before ++ '{' :: rest) =
      (enterActs (trim before) ++ (tailActs (trim rest)).1, (tailActs (trim rest)).2) := by
  obtain ⟨hne, hd, hcut⟩ := cut_at_open hb rest
  simp [stepActs, hne, hd, hcut, trim_trimLeft, trim_trimRight]

theorem balance_open {before before' : Text} (hb : '{' ∉ before) (hb' : '{' ∉ before')
    (rest : Text) :
    balance (lineActs none (before ++ '{' :: rest)) =
      balance (lineActs none (before' ++ '{' :: rest)) := by
  have h := stepActs_open hb rest
  have h' := stepActs_open hb' rest
  cases hr : (tailActs (trim rest)).2 with
  | none =>
    rw [hr] at h h'
    rw [lineActs_of_none h, lineActs_of_none h', balance_append, balance_append,
      balance_enterActs, balance_enterActs]
  | some more =>
    rw [hr] at h h'
    rw [lineActs_of_some h, lineActs_of_some h', balance_append, balance_append, balance_append,
      balance_append, balance_enterActs, balance_enterActs]

theorem afterBrace_close (s : Flattener) {before : Text} (ho : '{' ∉ before) (hc : '}' ∉ before)
    (rest : Text) : s.afterBrace (before ++ '}' :: rest) = (s.leave before, some rest) := by
  have hclose := cut?_append hc rest
  unfold afterBrace
  rw [hclose]
  by_cases hr : '{' ∈ rest
  · obtain ⟨x, y, rfl, hx⟩ := List.eq_append_cons_of_mem hr
    have hn : '{' ∉ before ++ '}' :: x :=
      List.not_mem_append ho (List.not_mem_cons_of_ne_of_not_mem (by decide) hx)
    have hopen := cut?_append hn y
    rw [List.append_assoc, List.cons_append] at hopen
    rw [hopen]
    simp
  · have hn : '{' ∉ before ++ '}' :: rest :=
      List.not_mem_append ho (List.not_mem_cons_of_ne_of_not_mem (by decide) hr)
    rw [cut?_eq_none hn]

theorem afterBrace_open (s : Flattener) {before : Text} (ho : '{' ∉ before) (hc : '}' ∉ before)
    (rest : Text) :
    s.afterBrace (before ++ '{' :: rest) = (s, some (before ++ '{' :: rest)) := by
  have hopen := cut?_append ho rest
  unfold afterBrace
  rw [hopen]
  by_cases hr : '}' ∈ rest
  · obtain ⟨x, y, rfl, hx⟩ := List.eq_append_cons_of_mem hr
    have hn : '}' ∉ before ++ '{' :: x :=
      List.not_mem_append hc (List.not_mem_cons_of_ne_of_not_mem (by decide) hx)
    have hclose := cut?_append hn y
    rw [List.append_assoc, List.cons_append] at hclose
    have hlater : ¬(before ++ '{' :: x).length < before.length := by simp
    rw [hclose]
    exact if_neg hlater
  · have hn : '}' ∉ before ++ '{' :: rest :=
      List.not_mem_append hc (List.not_mem_cons_of_ne_of_not_mem (by decide) hr)
    rw [cut?_eq_none hn]

theorem feed_opened_close {s : Flattener} {before inside : Text} (hw : s.waiting = none)
    (hb : '{' ∉ before) (ho : '{' ∉ inside) (hc : '}' ∉ inside) (rest : Text) :
    s.feed (before ++ '{' :: (inside ++ '}' :: rest)) =
      ((s.enter (trim before)).leave inside).feed rest := by
  have hsub : (trimLeft inside).Sublist inside := List.dropWhile_sublist _
  have hs := step_open hw hb (inside ++ '}' :: rest)
  rw [trim_around (by decide), afterBrace_close _ (fun hm => ho (hsub.subset hm))
    (fun hm => hc (hsub.subset hm)), leave_congr _ (trim_trimLeft inside)] at hs
  rw [feed_of_some hs, feed_congr _ (trim_trimRight rest)]

theorem feed_opened_open {s : Flattener} {before inside : Text} (hw : s.waiting = none)
    (hb : '{' ∉ before) (ho : '{' ∉ inside) (hc : '}' ∉ inside) (rest : Text) :
    s.feed (before ++ '{' :: (inside ++ '{' :: rest)) =
      (s.enter (trim before)).feed (inside ++ '{' :: rest) := by
  have hsub : (trimLeft inside).Sublist inside := List.dropWhile_sublist _
  have hs := step_open hw hb (inside ++ '{' :: rest)
  rw [trim_around (by decide), afterBrace_open _ (fun hm => ho (hsub.subset hm))
    (fun hm => hc (hsub.subset hm)), ← trim_around (by decide)] at hs
  rw [feed_of_some hs, feed_trim]

theorem feed_close_of_open {s : Flattener} {a : Text} (hw : s.waiting = none) (hc : '}' ∉ a)
    (ho : '{' ∈ a) (b : Text) :
    s.feed (a ++ '}' :: b) = (s.feed (a ++ ['}'])).feed b := by
  -- on the number of characters: each opening brace leaves a shorter line of the same kind
  induction hn : a.length using Nat.strongRecOn generalizing s a with
  | ind n ih =>
    obtain ⟨before, inside, rfl, hb⟩ := List.eq_append_cons_of_mem ho
    have hinside : '}' ∉ inside := fun hm =>
      hc (List.mem_append_right _ (List.mem_cons_of_mem _ hm))
    simp only [List.append_assoc, List.cons_append]
    by_cases hi : '{' ∈ inside
    · obtain ⟨x, y, hxy, hx⟩ := List.eq_append_cons_of_mem hi
      have hxc : '}' ∉ x := fun hm => hinside (hxy ▸ List.mem_append_left _ hm)
      have hshort : inside.length < n := by
        simp only [List.length_append, List.length_cons] at hn
        omega
      have hrest := ih inside.length hshort (s := s.enter (trim before))
        ((s.enter_waiting _).trans hw) hinside hi rfl
      rw [hxy] at hrest ⊢
      simp only [List.append_assoc, List.cons_append] at hrest ⊢
      rw [feed_opened_open hw hb hx hxc, feed_opened_open hw hb hx hxc, hrest]
    · rw [feed_opened_close hw hb hi hinside, feed_opened_close hw hb hi hinside,
        feed_blank _ (trim_blank blank_nil)]

theorem depth_feed_close {s : Flattener} {a b : Text} (hw : s.waiting = none) (hc : '}' ∉ a)
    (ho : '{' ∉ a) (hb : '{' ∈ b) :
    (s.feed (a ++ '}' :: b)).depth = ((s.feed (a ++ ['}'])).feed b).depth + 1 := by
  obtain ⟨before, rest, rfl, hbefore⟩ := List.eq_append_cons_of_mem hb
  have hjoined : '{' ∉ a ++ '}' :: before :=
    List.not_mem_append ho (List.not_mem_cons_of_ne_of_not_mem (by decide) hbefore)
  have hsame := balance_open hjoined hbefore rest
  rw [List.append_assoc, List.cons_append] at hsame
  have hleft : s.feed (a ++ ['}']) = s.leave a := by
    rw [feed_close hw ho hc List.not_mem_nil, feed_blank _ (trim_blank blank_nil)]
  have hdepth : (s.leave a).depth = s.depth - 1 := by
    rw [leave_eq, depth_actAll, balance_leaveActs]
    rfl
  rw [hleft, depth_feed, depth_feed, leave_waiting, hw, hdepth, hsame]
  omega

/-- What stands behind the first closing brace of a line is read as a line of its own exactly if the
first opening brace of the line, where it has one, stands in front of that closing brace. -/
theorem feed_close_eq_iff {s : Flattener} {a : Text} (hw : s.waiting = none) (hc : '}' ∉ a)
    (b : Text) :
    s.feed (a ++ '}' :: b) = (s.feed (a ++ ['}'])).feed b ↔ ('{' ∈ b → '{' ∈ a) := by
  constructor
  · intro heq hb
    by_contra ho
    have hdepth := depth_feed_close hw hc ho hb
    rw [heq] at hdepth
    omega
  · intro h
    by_cases ho : '{' ∈ a
    · exact feed_close_of_open hw hc ho b
    · have hb : '{' ∉ b := fun hb => ho (h hb)
      rw [feed_close hw ho hc hb, feed_close hw ho hc List.not_mem_nil,
        feed_blank _ (trim_blank blank_nil)]

theorem feed_close_eq_oneLine :
    let s := (start ".r".toList).feedAll [".a \x7b".toList]
    s.waiting = none ∧ '}' ∉ ".b \x7b color: red; ".toList ∧
      s.feed ".b \x7b color: red; \x7d .c \x7b".toList =
        (s.feed ".b \x7b color: red; \x7d".toList).feed " .c \x7b".toList := by
  have hw : ((start ".r".toList).feedAll [".a \x7b".toList]).waiting = none := by decide +kernel
  have hc : '}' ∉ ".b \x7b color: red; ".toList := by decide
  exact ⟨hw, hc, (feed_close_eq_iff hw hc " .c \x7b".toList).2 fun _ => by decide⟩

/-- A block that is opened behind a closing brace, with nothing opened in front of it: the closing
brace becomes part of the selector. -/
theorem feed_close_joined :
    let s := (start ".r".toList).feedAll [".a \x7b".toList]
    s.waiting = none ∧
      s.feed "\x7d .b \x7b".toList ≠ (s.feed "\x7d".toList).feed " .b \x7b".toList ∧
      (s.feed "\x7d .b \x7b".toList).current = ".r .a \x7d .b".toList := by
  decide +kernel

end Flattener
end ScopedStyle
