import Mathlib.Data.List.Basic
import ScopedStyle.Interpolation

/-!
# Where a slot ends

The body of a slot is code. It is a row of braces, of quoted text, in which braces do not
count, and of other characters, and the slot ends at the first brace that closes what no brace
of the body has opened. An apostrophe quotes only when a character literal follows; this can
depend on text behind the end of the slot.
-/

namespace ScopedStyle
open Text

/-- What stands between two quotes. A backslash takes the character behind it along, so that this
one neither ends the text nor escapes another. -/
inductive Enclosed (quote : Char) : Text → Prop
  | nil : Enclosed quote []
  | escaped (c : Char) {t : Text} : Enclosed quote t → Enclosed quote ('\\' :: c :: t)
  | char {c : Char} {t : Text} : c ≠ '\\' → c ≠ quote → Enclosed quote t → Enclosed quote (c :: t)

/-- Behind an apostrophe, what makes it begin a character literal and not a lifetime: an escape, or
one character and the other apostrophe. -/
def OpensLiteral (t : Text) : Prop := t[0]? = some '\\' ∨ t[1]? = some '\''

def Quotes (c : Char) (rest : Text) : Prop := c = '"' ∨ c = '\'' ∧ OpensLiteral rest

inductive CodePart
  | opening
  | closing
  | quoted (quote : Char) (inside : Text)
  | plain (c : Char)
  deriving DecidableEq

namespace CodePart

def text : CodePart → Text
  | opening => ['{']
  | closing => ['}']
  | quoted quote inside => quote :: (inside ++ [quote])
  | plain c => [c]

def spelled (parts : List CodePart) : Text := parts.flatMap text

def Stands (rest : Text) : CodePart → Prop
  | opening => True
  | closing => True
  | quoted quote inside => Enclosed quote inside ∧ Quotes quote (inside ++ quote :: rest)
  | plain c => c ≠ '{' ∧ c ≠ '}' ∧ ¬Quotes c rest

def AllStand (rest : Text) : List CodePart → Prop
  | [] => True
  | p :: ps => p.Stands (spelled ps ++ rest) ∧ AllStand rest ps

/-- The parts close the `depth` braces that are open in front of them and all that they open, and at
no point more than are open there. -/
def Closes (depth : Nat) (parts : List CodePart) : Prop :=
  (∀ front, front <+: parts → front.count closing ≤ depth + front.count opening) ∧
    parts.count closing = depth + parts.count opening

def depth? (depth : Nat) : CodePart → Option Nat
  | opening => some (depth + 1)
  | closing => if depth = 0 then none else some (depth - 1)
  | quoted _ _ => some depth
  | plain _ => some depth

theorem closes_nil (depth : Nat) : Closes depth [] ↔ depth = 0 := by
  simp [Closes, eq_comm]

theorem forall_prefix_cons {p : CodePart} {ps : List CodePart} {P : List CodePart → Prop} :
    (∀ front, front <+: p :: ps → P front) ↔ P [] ∧ ∀ front, front <+: ps → P (p :: front) := by
  refine ⟨fun h => ⟨h _ List.nil_prefix, fun front hf => h _ ((List.prefix_cons_inj p).2 hf)⟩,
    fun ⟨hnil, hcons⟩ front hf => ?_⟩
  obtain rfl | ⟨front, rfl, hfront⟩ := List.prefix_cons_iff.1 hf
  · exact hnil
  · exact hcons front hfront

theorem closes_uncounted {depth : Nat} {p : CodePart} {ps : List CodePart} (ho : p ≠ opening)
    (hc : p ≠ closing) : Closes depth (p :: ps) ↔ Closes depth ps := by
  simp only [Closes, forall_prefix_cons, List.count_cons_of_ne ho, List.count_cons_of_ne hc,
    List.count_nil, Nat.zero_le, true_and]

theorem closes_cons (depth : Nat) (p : CodePart) (ps : List CodePart) :
    Closes depth (p :: ps) ↔ ∃ d, p.depth? depth = some d ∧ Closes d ps := by
  cases p with
  | opening =>
    have hne : opening ≠ closing := by decide
    simp only [depth?, Option.some.injEq, exists_eq_left', Closes, forall_prefix_cons,
      List.count_cons_self, List.count_cons_of_ne hne, List.count_nil, Nat.zero_le, true_and,
      ← Nat.add_assoc, Nat.add_right_comm depth 1]
  | closing =>
    have hne : closing ≠ opening := by decide
    simp only [depth?, Closes, forall_prefix_cons, List.count_cons_self, List.count_cons_of_ne hne,
      List.count_nil, Nat.zero_le, true_and]
    cases depth with
    | zero =>
      -- The empty front is in front of the brace, which is one too many.
      simp only [if_true, reduceCtorEq, false_and, exists_false, iff_false, not_and]
      intro hfront
      exact absurd (hfront [] List.nil_prefix) (by decide)
    | succ d =>
      simp only [Nat.succ_ne_zero, if_false, Nat.succ_sub_one, Option.some.injEq, exists_eq_left',
        Nat.add_right_comm d 1, Nat.add_le_add_iff_right, Nat.add_right_cancel_iff]
  | quoted quote inside =>
    simp only [depth?, Option.some.injEq, exists_eq_left']
    exact closes_uncounted nofun nofun
  | plain c =>
    simp only [depth?, Option.some.injEq, exists_eq_left']
    exact closes_uncounted nofun nofun

end CodePart

open CodePart

def ClosesFirst (depth : Nat) (t after : Text) : Prop :=
  ∃ parts, spelled parts = t ∧ AllStand ('}' :: after) parts ∧ Closes depth parts

section Code

variable {depth : Nat} {quote c : Char} {t after : Text}

theorem closesFirst_nil : ClosesFirst depth [] after ↔ depth = 0 := by
  refine ⟨fun ⟨parts, hspelled, _, hcloses⟩ => ?_, fun h => ⟨[], rfl, trivial, (closes_nil _).2 h⟩⟩
  cases parts with
  | nil => exact (closes_nil _).1 hcloses
  | cons p ps => cases p <;> cases hspelled

theorem closesFirst_part : ClosesFirst depth (c :: t) after ↔
    ∃ (p : CodePart) (rest : Text) (d : Nat), p.text ++ rest = c :: t ∧
      p.Stands (rest ++ '}' :: after) ∧ p.depth? depth = some d ∧ ClosesFirst d rest after := by
  constructor
  · rintro ⟨parts, hspelled, hstand, hcloses⟩
    cases parts with
    | nil => cases hspelled
    | cons p ps =>
      obtain ⟨d, hd, hcloses⟩ := (closes_cons _ _ _).1 hcloses
      exact ⟨p, _, d, hspelled, hstand.1, hd, ps, rfl, hstand.2, hcloses⟩
  · rintro ⟨p, -, d, htext, hp, hd, ps, rfl, hstand, hcloses⟩
    exact ⟨p :: ps, htext, ⟨hp, hstand⟩, (closes_cons _ _ _).2 ⟨d, hd, hcloses⟩⟩

def QuoteFirst (depth : Nat) (quote : Char) (t after : Text) : Prop :=
  ∃ inside rest, t = inside ++ quote :: rest ∧ Enclosed quote inside ∧ ClosesFirst depth rest after

theorem closesFirst_cons : ClosesFirst depth (c :: t) after ↔
    (c = '{' ∧ ClosesFirst (depth + 1) t after) ∨
    (c = '}' ∧ ∃ d, depth = d + 1 ∧ ClosesFirst d t after) ∨
    (Quotes c (t ++ '}' :: after) ∧ QuoteFirst depth c t after) ∨
    (c ≠ '{' ∧ c ≠ '}' ∧ ¬Quotes c (t ++ '}' :: after) ∧ ClosesFirst depth t after) := by
  rw [closesFirst_part]
  constructor
  · rintro ⟨p, rest, d, htext, hp, hd, hrest⟩
    cases p with
    | opening =>
      cases htext
      cases hd
      exact .inl ⟨rfl, hrest⟩
    | closing =>
      cases htext
      cases depth with
      | zero => cases hd
      | succ d =>
        cases hd
        exact .inr (.inl ⟨rfl, d, rfl, hrest⟩)
    | quoted quote inside =>
      simp only [CodePart.text, List.cons_append, List.append_assoc, List.cons.injEq] at htext
      obtain ⟨rfl, rfl⟩ := htext
      cases hd
      refine .inr (.inr (.inl ⟨?_, inside, rest, rfl, hp.1, hrest⟩))
      rw [List.append_assoc]
      exact hp.2
    | plain c =>
      cases htext
      cases hd
      exact .inr (.inr (.inr ⟨hp.1, hp.2.1, hp.2.2, hrest⟩))
  · rintro (⟨rfl, h⟩ | ⟨rfl, d, rfl, h⟩ | ⟨hquotes, inside, rest, rfl, hinside, h⟩ |
      ⟨ho, hc, hquotes, h⟩)
    · exact ⟨opening, t, depth + 1, rfl, trivial, rfl, h⟩
    · exact ⟨closing, t, d, rfl, trivial, rfl, h⟩
    · rw [List.append_assoc] at hquotes
      refine ⟨quoted c inside, rest, depth, ?_, ⟨hinside, hquotes⟩, rfl, h⟩
      rw [CodePart.text, List.cons_append, List.append_assoc, List.singleton_append]
    · exact ⟨plain c, t, depth, rfl, ⟨ho, hc, hquotes⟩, rfl, h⟩

theorem quoteFirst_escape (hquote : quote ≠ '\\') : QuoteFirst depth quote ('\\' :: t) after ↔
    ∃ c rest, t = c :: rest ∧ QuoteFirst depth quote rest after := by
  constructor
  · rintro ⟨inside, rest, htext, hinside, hrest⟩
    cases hinside with
    | nil => exact absurd (List.cons.inj htext).1.symm hquote
    | escaped c hinside => exact ⟨c, _, (List.cons.inj htext).2, _, rest, rfl, hinside, hrest⟩
    | char hc _ _ => exact absurd (List.cons.inj htext).1.symm hc
  · rintro ⟨c, -, rfl, inside, rest, rfl, hinside, hrest⟩
    exact ⟨'\\' :: c :: inside, rest, rfl, hinside.escaped c, hrest⟩

theorem quoteFirst_quote (hquote : quote ≠ '\\') :
    QuoteFirst depth quote (quote :: t) after ↔ ClosesFirst depth t after := by
  constructor
  · rintro ⟨inside, rest, htext, hinside, hrest⟩
    cases hinside with
    | nil => exact (List.cons.inj htext).2 ▸ hrest
    | escaped c _ => exact absurd (List.cons.inj htext).1 hquote
    | char _ hc _ => exact absurd (List.cons.inj htext).1.symm hc
  · exact fun h => ⟨[], t, rfl, .nil, h⟩

theorem quoteFirst_char (hescape : c ≠ '\\') (hquote : c ≠ quote) :
    QuoteFirst depth quote (c :: t) after ↔ QuoteFirst depth quote t after := by
  constructor
  · rintro ⟨inside, rest, htext, hinside, hrest⟩
    cases hinside with
    | nil => exact absurd (List.cons.inj htext).1 hquote
    | escaped _ _ => exact absurd (List.cons.inj htext).1 hescape
    | char _ _ hinside => exact ⟨_, rest, (List.cons.inj htext).2, hinside, hrest⟩
  · rintro ⟨inside, rest, rfl, hinside, hrest⟩
    exact ⟨c :: inside, rest, rfl, .char hescape hquote hinside, hrest⟩

end Code

theorem beginsCharLiteral_iff (t : Text) : beginsCharLiteral t ↔ OpensLiteral t := by
  unfold beginsCharLiteral OpensLiteral
  split
  · simp
  · simp
  · rename_i hescape hchar
    rcases t with - | ⟨a, - | ⟨b, t⟩⟩
    · simp
    · simpa using hescape
    · have ha : a ≠ '\\' := fun h => hescape _ (by rw [h])
      have hb : b ≠ '\'' := fun h => hchar _ _ (by rw [h])
      simp [ha, hb]

namespace SlotMode

def Ends (after : Text) : SlotMode → Text → Prop
  | code depth, t => ClosesFirst depth t after
  | literal depth quote, t => quote ≠ '\\' ∧ QuoteFirst depth quote t after
  | escape depth quote, t =>
      quote ≠ '\\' ∧ ∃ c rest, t = c :: rest ∧ QuoteFirst depth quote rest after

variable {mode mode' : SlotMode} {c : Char} {t after : Text}

theorem next_eq_none_iff : mode.next c t = none ↔ mode = code 0 ∧ c = '}' := by
  cases mode with
  | code depth =>
    simp only [next]
    split_ifs with hquote hliteral ho hc
    · simp [hquote]
    · simp [hliteral]
    · simp [ho]
    · cases depth with
      | zero => simp [hc]
      | succ d => simp
    · simp [hc]
  | literal depth quote =>
    simp only [next]
    split_ifs <;> simp
  | escape depth quote => simp [next]

theorem ends_nil : mode.Ends after [] ↔ mode = code 0 := by
  cases mode with
  | code depth => simp [Ends, closesFirst_nil]
  | literal depth quote => simp [Ends, QuoteFirst]
  | escape depth quote => simp [Ends]

theorem ends_cons (h : mode.next c (t ++ '}' :: after) = some mode') :
    mode.Ends after (c :: t) ↔ mode'.Ends after t := by
  cases mode with
  | code depth =>
    rw [Ends, closesFirst_cons, Quotes, ← beginsCharLiteral_iff]
    simp only [next] at h
    split_ifs at h with hstring hchar ho hc
    · cases h
      simp [Ends, hstring]
    · cases h
      simp [Ends, hchar]
    · cases h
      simp [Ends, ho]
    · cases depth with
      | zero => cases h
      | succ d =>
        cases h
        simp [Ends, hc]
    · cases h
      simp only [Ends, ho, hc, not_or.2 ⟨hstring, hchar⟩, false_and, false_or, true_and, ne_eq,
        not_false_eq_true]
  | literal depth quote =>
    simp only [next] at h
    split_ifs at h with hescape hquote
    · cases h
      subst hescape
      exact and_congr_right quoteFirst_escape
    · cases h
      subst hquote
      exact (and_iff_right hescape).trans (quoteFirst_quote hescape)
    · cases h
      exact and_congr_right fun _ => quoteFirst_char hescape hquote
  | escape depth quote =>
    cases h
    simp [Ends]

end SlotMode

theorem slotBody?_eq_some_iff {mode : SlotMode} {read t body after : Text} :
    slotBody? mode read t = some (body, after) ↔
      ∃ inner, body = read.reverse ++ inner ∧ t = inner ++ '}' :: after ∧
        mode.Ends after inner := by
  induction t generalizing mode read with
  | nil => simp [slotBody?]
  | cons c t ih =>
    rw [slotBody?]
    cases hnext : mode.next c t with
    | none =>
      obtain ⟨rfl, rfl⟩ := SlotMode.next_eq_none_iff.1 hnext
      constructor
      · intro h
        cases h
        exact ⟨[], (List.append_nil _).symm, rfl, SlotMode.ends_nil.2 rfl⟩
      · rintro ⟨inner, rfl, htext, hends⟩
        cases inner with
        | nil =>
          cases htext
          rw [List.append_nil]
        | cons c inner =>
          cases htext
          -- a brace at depth zero closes the slot, so no body goes past it
          simp [SlotMode.Ends, closesFirst_cons, Quotes] at hends
    | some mode' =>
      dsimp only
      rw [ih]
      constructor
      · rintro ⟨inner, rfl, rfl, hends⟩
        exact ⟨c :: inner, by simp, rfl, (SlotMode.ends_cons hnext).2 hends⟩
      · rintro ⟨inner, rfl, htext, hends⟩
        cases inner with
        | nil =>
          cases htext
          rw [SlotMode.ends_nil.1 hends, SlotMode.next_eq_none_iff.2 ⟨rfl, rfl⟩] at hnext
          cases hnext
        | cons c inner =>
          cases htext
          exact ⟨inner, by simp, rfl, (SlotMode.ends_cons hnext).1 hends⟩

theorem slotBody?_iff {t body after : Text} :
    slotBody? (.code 0) [] t = some (body, after) ↔
      t = body ++ '}' :: after ∧ ClosesFirst 0 body after := by
  rw [slotBody?_eq_some_iff]
  constructor
  · rintro ⟨inner, rfl, h⟩
    exact h
  · exact fun h => ⟨body, rfl, h⟩

end ScopedStyle
