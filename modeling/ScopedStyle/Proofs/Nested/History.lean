import Mathlib.Data.List.Chain
import ScopedStyle.Proofs.Nested.Acts

/-!
# Where declarations go

The history of a run lists the declarations in the order in which they are held
back, each with the selector that is current then. The rules and what is still
held back always make up the history, since no act leaves a selector before its
declarations are written. The selectors that are open form a chain down to the root.
-/

namespace ScopedStyle
open Text

namespace Flattener

structure Entry where
  selector : Text
  declaration : Text
  deriving DecidableEq

def entries (s : Flattener) : Act → List Entry
  | .declare declaration => [⟨s.current, declaration⟩]
  | .count _ | .wait _ | .select _ | .close => []

def history (s : Flattener) : List Act → List Entry
  | [] => []
  | a :: acts => s.entries a ++ (s.act a).history acts

def readActs (s : Flattener) : List Text → List Act
  | [] => []
  | line :: lines => lineActs s.waiting line ++ (s.feed line).readActs lines

theorem feedAll_eq (s : Flattener) (lines : List Text) :
    s.feedAll lines = s.actAll (s.readActs lines) := by
  induction lines generalizing s with
  | nil => rfl
  | cons line lines ih =>
    rw [readActs, actAll_append, ← feed_eq]
    exact ih (s.feed line)

structure Batch where
  selector : Text
  declarations : List Text

namespace Batch

def text (b : Batch) : Text := ruleText b.selector b.declarations

def entries (b : Batch) : List Entry := b.declarations.map (⟨b.selector, ·⟩)

end Batch

/-- The rules stand for batches whose entries, and then what is held back, make up a history. -/
def Accounts (s : Flattener) (past : List Entry) : Prop :=
  ∃ batches : List Batch, s.rules = batches.map Batch.text ∧
    (∀ b ∈ batches, b.declarations ≠ []) ∧
    batches.flatMap Batch.entries ++ s.pending.map (⟨s.current, ·⟩) = past

variable {s : Flattener} {past : List Entry}

theorem accounts_start (root : Text) : (start root).Accounts [] := ⟨[], rfl, by simp, rfl⟩

theorem Accounts.flush (h : s.Accounts past) : s.flush.Accounts past := by
  obtain ⟨batches, hrules, hfull, hpast⟩ := h
  by_cases hp : s.pending = []
  · have hflush : s.flush = s := by simp [Flattener.flush, hp]
    rw [hflush]
    exact ⟨batches, hrules, hfull, hpast⟩
  · refine ⟨batches ++ [⟨s.current, s.pending⟩], ?_, ?_, ?_⟩
    · simp [Flattener.flush, hp, hrules, Batch.text]
    · intro b hb
      rcases List.mem_append.1 hb with hb | hb
      · exact hfull b hb
      · rw [List.mem_singleton.1 hb]
        exact hp
    · simpa [Batch.entries] using hpast

theorem Accounts.reopen (h : s.Accounts past) (blocks : List Text) :
    Accounts { s.flush with blocks } past := by
  obtain ⟨batches, hrules, hfull, hpast⟩ := h.flush
  rw [flush_pending] at hpast
  refine ⟨batches, hrules, hfull, ?_⟩
  rw [flush_pending]
  exact hpast

theorem Accounts.act (h : s.Accounts past) (a : Act) :
    (s.act a).Accounts (past ++ s.entries a) := by
  cases a with
  | count braces =>
    rw [entries, List.append_nil]
    exact h
  | wait waiting =>
    rw [entries, List.append_nil]
    exact h
  | declare declaration =>
    obtain ⟨batches, hrules, hfull, rfl⟩ := h
    refine ⟨batches, hrules, hfull, ?_⟩
    simp [Flattener.act, Flattener.declare, entries, current]
  | select selector =>
    rw [entries, List.append_nil]
    exact h.reopen _
  | close =>
    rw [entries, List.append_nil]
    exact h.reopen _

theorem Accounts.actAll (h : s.Accounts past) (acts : List Act) :
    (s.actAll acts).Accounts (past ++ s.history acts) := by
  induction acts generalizing s past with
  | nil =>
    rw [history, List.append_nil]
    exact h
  | cons a acts ih =>
    rw [history, ← List.append_assoc]
    exact ih (h.act a)

def stack (s : Flattener) : List Text := s.blocks ++ [s.root]

theorem head?_stack (s : Flattener) : s.stack.head? = some s.current := by
  obtain ⟨root, blocks, -, -, -, -⟩ := s
  cases blocks with
  | nil => rfl
  | cons b blocks => rfl

/-- What an act does to a stack of selectors that may run empty. A selector goes on top of it,
composed with the one there; a closing brace takes the top away unless it is the only one. -/
def restack (stack : List Text) : Act → List Text
  | .select selector => compose (stack.headD []) selector :: stack
  | .close => if 1 < stack.length then stack.tail else stack
  | .count _ | .wait _ | .declare _ => stack

def restackAll (stack : List Text) (acts : List Act) : List Text := acts.foldl restack stack

theorem stack_act (s : Flattener) (a : Act) : (s.act a).stack = restack s.stack a := by
  cases a with
  | count braces => rfl
  | wait waiting => rfl
  | declare declaration => rfl
  | select selector =>
    have htop : s.stack.headD [] = s.current := by
      rw [List.headD_eq_head?_getD, head?_stack, Option.getD_some]
    rw [restack, htop]
    simp [Flattener.act, select, push, stack, current]
  | close =>
    have hstack : (s.act .close).stack = s.blocks.tail ++ [s.root] := by
      simp [Flattener.act, stack]
    rw [hstack, restack, stack]
    cases s.blocks with
    | nil => rfl
    | cons b blocks => simp

theorem stack_actAll (s : Flattener) (acts : List Act) :
    (s.actAll acts).stack = restackAll s.stack acts := by
  induction acts generalizing s with
  | nil => rfl
  | cons a acts ih => exact (ih (s.act a)).trans (congrArg (restackAll · acts) (stack_act s a))

variable {stack : List Text} {root : Text}

theorem getLast?_restack (h : stack.getLast? = some root) (a : Act) :
    (restack stack a).getLast? = some root := by
  cases a with
  | count braces => exact h
  | wait waiting => exact h
  | declare declaration => exact h
  | select selector =>
    rw [restack, List.getLast?_cons, h]
    rfl
  | close =>
    rw [restack]
    split
    · rename_i hlength
      rwa [List.getLast?_tail, if_neg (Nat.ne_of_gt hlength)]
    · exact h

theorem getLast?_restackAll (h : stack.getLast? = some root) (acts : List Act) :
    (restackAll stack acts).getLast? = some root := by
  induction acts generalizing stack with
  | nil => exact h
  | cons a acts ih => exact ih (getLast?_restack h a)

/-- Each open selector but the root is the one around it with a text of some kind put in. -/
def Nests (fed : Text → Prop) (stack : List Text) : Prop :=
  stack.IsChain fun inner outer => ∃ t, fed t ∧ inner = compose outer t

theorem Nests.restack {fed : Text → Prop} {a : Act} (h : Nests fed stack)
    (ha : ∀ t, a = .select t → fed t) : Nests fed (restack stack a) := by
  cases a with
  | count braces => exact h
  | wait waiting => exact h
  | declare declaration => exact h
  | select selector =>
    refine List.isChain_cons.2 ⟨fun outer houter => ⟨selector, ha selector rfl, ?_⟩, h⟩
    rw [List.headD_eq_head?_getD, Option.mem_def.1 houter, Option.getD_some]
  | close =>
    rw [Flattener.restack]
    split
    · exact h.tail
    · exact h

theorem Nests.restackAll {fed : Text → Prop} {acts : List Act} (h : Nests fed stack)
    (ha : ∀ t, .select t ∈ acts → fed t) : Nests fed (restackAll stack acts) := by
  induction acts generalizing stack with
  | nil => exact h
  | cons a acts ih =>
    exact ih (h.restack fun t ht => ha t (ht ▸ List.mem_cons_self))
      fun t ht => ha t (List.mem_cons_of_mem a ht)

theorem select_mem_lineActs {waiting : Option Text} {raw t : Text}
    (h : .select t ∈ lineActs waiting raw) : SelectorIn raw t := by
  cases waiting with
  | none => exact lineActs_within raw _ h
  | some started =>
    -- a declaration that goes on opens nothing
    rw [lineActs_waiting] at h
    unfold resumeActs at h
    split at h
    · cases h
    · dsimp only at h
      split at h
      · simp at h
      · simp at h

theorem select_mem_readActs (s : Flattener) (lines : List Text) :
    ∀ t, .select t ∈ s.readActs lines → ∃ line ∈ lines, SelectorIn line t := by
  induction lines generalizing s with
  | nil => simp [readActs]
  | cons line lines ih =>
    intro t ht
    rcases List.mem_append.1 ht with ht | ht
    · exact ⟨line, List.mem_cons_self, select_mem_lineActs ht⟩
    · obtain ⟨l, hl, hs⟩ := ih (s.feed line) t ht
      exact ⟨l, List.mem_cons_of_mem line hl, hs⟩

/-- Lines come to acts that hold declarations back one by one. The rules that they end in hold each
of these once, in that order, under the selector that was current; no rule is without one; and the
open selectors, kept on one stack with the root, form a chain that ends with it. -/
theorem declarations_kept (root : Text) (lines : List Text) :
    let s := (start root).feedAll lines
    let acts := (start root).readActs lines
    (start root).actAll acts = s ∧
      (∃ batches : List Batch, s.finish = batches.map Batch.text ∧
        (∀ b ∈ batches, b.declarations ≠ []) ∧
        batches.flatMap Batch.entries = (start root).history acts) ∧
      s.stack = restackAll [root] acts ∧
      s.stack.head? = some s.current ∧ s.stack.getLast? = some root ∧
      Nests (fun t => ∃ line ∈ lines, SelectorIn line t) s.stack := by
  intro s acts
  have hs : s = (start root).actAll acts := feedAll_eq (start root) lines
  have haccounts : s.Accounts ((start root).history acts) := hs ▸ (accounts_start root).actAll acts
  have hstack : s.stack = restackAll [root] acts := hs ▸ stack_actAll (start root) acts
  have hnests : Nests (fun t => ∃ line ∈ lines, SelectorIn line t) s.stack :=
    hstack ▸ Nests.restackAll (List.isChain_singleton root)
      (select_mem_readActs (start root) lines)
  have hroot : s.stack.getLast? = some root := hstack ▸ getLast?_restackAll rfl acts
  obtain ⟨batches, hrules, hfull, hpast⟩ := haccounts.flush
  rw [flush_pending, List.map_nil, List.append_nil] at hpast
  exact ⟨hs.symm, ⟨batches, hrules, hfull, hpast⟩, hstack, head?_stack s, hroot, hnests⟩

-- a surplus closing brace leaves the root open, and the declaration behind it belongs to the root
example :
    let lines := [".a \x7b color: red; \x7d \x7d".toList, "margin:".toList, "0;".toList]
    (start ".r".toList).history ((start ".r".toList).readActs lines) =
      [⟨".r .a".toList, "color: red;".toList⟩, ⟨".r".toList, "margin: 0;".toList⟩] := by
  decide +kernel

end Flattener
end ScopedStyle
