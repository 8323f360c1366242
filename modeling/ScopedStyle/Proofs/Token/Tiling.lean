import ScopedStyle.Proofs.Token.Regular
import ScopedStyle.Rule.Parser

/-!
# A text as a row of spans

Each lexeme takes up a span of bytes. The spans of a text follow each other, nothing
but gaps is left between them, a token is the longest match where it starts, and a
stray is a blank that is no gap or an opener that nothing closes. Reading the tokens
with their spans gives all spans, or the first stray.
-/

namespace ScopedStyle
open Text

/-- An opener with no closer behind it. A quote or bracket at the end of a text opens nothing. -/
inductive Unclosed : Text → Prop
  | enclosed {opener closer : Char} {inside : Text} :
      (opener, closer) ∈ [('"', '"'), ('\'', '\''), ('[', ']')] → inside ≠ [] → closer ∉ inside →
      Unclosed (opener :: inside)
  | argument {name inside : Text} : IsWord Char.isAlpha name → ')' ∉ inside →
      Unclosed (':' :: name ++ '(' :: inside)

theorem unclosed_of_runsAway {t : Text} (h : runsAway t) : Unclosed t := by
  have henclosed {rest : Text} {c : Char} (h : (!rest.isEmpty && !rest.contains c) = true) :
      rest ≠ [] ∧ c ∉ rest := by
    simpa using h
  unfold runsAway at h
  split at h
  · obtain ⟨hne, hn⟩ := henclosed h
    exact .enclosed (by simp) hne hn
  · obtain ⟨hne, hn⟩ := henclosed h
    exact .enclosed (by simp) hne hn
  · obtain ⟨hne, hn⟩ := henclosed h
    exact .enclosed (by simp) hne hn
  · rename_i rest
    split at h
    · cases h
    · rename_i n hn
      split at h
      · rename_i inside hdrop
        obtain ⟨hw, -, -⟩ := word_of_nameReach hn
        have hi : ')' ∉ inside := by simpa using h
        rw [← List.take_append_drop n rest, hdrop]
        exact .argument hw hi
      · cases h
  · cases h

theorem runsAway_of_unclosed {t : Text} (h : Unclosed t) : runsAway t := by
  cases h with
  | @enclosed opener closer inside hpair hne hn =>
    have hall : (!inside.isEmpty && !inside.contains closer) = true := by
      simpa using ⟨hne, hn⟩
    simp only [List.mem_cons, Prod.mk.injEq, List.not_mem_nil, or_false] at hpair
    rcases hpair with ⟨rfl, rfl⟩ | ⟨rfl, rfl⟩ | ⟨rfl, rfl⟩
    · exact hall
    · exact hall
    · exact hall
  | @argument name inside hname hi =>
    have hn : nameReach Char.isAlpha (name ++ '(' :: inside) = some name.length :=
      nameReach_word hname (stopped_cons.2 (by decide))
    rw [List.cons_append, runsAway, hn]
    dsimp only
    rw [List.drop_left]
    simpa using hi

theorem blank_of_longest {c : Char} {t : Text} (h : longest (c :: t) = none) : isBlank c := by
  have hnone (k : TokenKind) (n : Nat) : k.reach (c :: t) ≠ some n := by
    intro hk
    obtain ⟨r, hr, -⟩ := longest_beats hk
    rw [h] at hr
    cases hr
  by_contra hb
  rw [Bool.not_eq_true] at hb
  have hdelim : ¬isDelim c := fun hd =>
    hnone .delim 1 ((charReach_eq_some_iff (t := t)).2 ⟨hd, rfl⟩)
  have hmark : c = '{' ∨ c = '}' ∨ c = ';' := by
    by_contra hno
    simp only [not_or] at hno
    exact hdelim (by simp [isDelim, hb, hno])
  rcases hmark with rfl | rfl | rfl
  · exact hnone .braceOpen 1 rfl
  · exact hnone .braceClose 1 rfl
  · exact hnone .semicolon 1 rfl

def Stands (rest : Text) : Lexeme → Prop
  | .token t => FirstLongest t.kind t.text rest ∧ ¬Unclosed (t.text ++ rest)
  | .stray _ text => (∃ c, text = [c] ∧ isBlank c ∧ isGap c = false) ∨ rest = [] ∧ Unclosed text

inductive Lexed : List Lexeme → Text → Prop
  | gap {gap : Text} : IsGap gap → Lexed [] gap
  | lexeme {l : Lexeme} {ls : List Lexeme} {rest : Text} : IsGap l.gap → l.text ≠ [] →
      Stands rest l → Lexed ls rest → Lexed (l :: ls) (l.source ++ rest)

theorem lexemeAt_gap (gap : Text) (c : Char) (t : Text) : (lexemeAt gap c t).1.gap = gap := by
  unfold lexemeAt
  split
  · rfl
  · split
    · rfl
    · rfl

theorem stands_lexemeAt (gap : Text) {c : Char} (hc : isGap c = false) (t : Text) :
    Stands (lexemeAt gap c t).2 (lexemeAt gap c t).1 := by
  unfold lexemeAt
  split
  · rename_i hrun
    exact .inr ⟨rfl, unclosed_of_runsAway hrun⟩
  · rename_i hrun
    split
    · rename_i k n hl
      have hlen : ((c :: t).take n).length = n :=
        List.length_take_of_le (TokenKind.reach_le (reach_of_longest hl))
      refine ⟨firstLongest_of_longest ?_, fun hu => hrun ?_⟩
      · rw [List.take_append_drop, hlen]
        exact hl
      · rw [List.take_append_drop] at hu
        exact runsAway_of_unclosed hu
    · rename_i hl
      exact .inl ⟨c, rfl, blank_of_longest hl, hc⟩

theorem nextLexeme?_stands {t rest : Text} {l : Lexeme} (h : nextLexeme? t = some (l, rest)) :
    IsGap l.gap ∧ l.text ≠ [] ∧ Stands rest l := by
  unfold nextLexeme? at h
  split at h
  · cases h
  · rename_i c after hdrop
    have hc : isGap c = false := by
      have hhead := List.head?_dropWhile_not isGap t
      rw [hdrop] at hhead
      simpa using hhead
    have hgap := lexemeAt_gap (t.takeWhile isGap) c after
    have hne := lexemeAt_text_ne_nil (t.takeWhile isGap) c after
    have hstands := stands_lexemeAt (t.takeWhile isGap) hc after
    rw [Option.some.inj h] at hgap hne hstands
    exact ⟨hgap ▸ fun d hd => List.mem_takeWhile_imp hd, hne, hstands⟩

theorem gap_of_nextLexeme? {t : Text} (h : nextLexeme? t = none) : IsGap t := by
  unfold nextLexeme? at h
  split at h
  · rename_i hdrop
    intro c hc
    exact List.dropWhile_eq_nil_iff.1 hdrop c hc
  · cases h

theorem lexed_lexemes (t : Text) : Lexed (lexemes t) t := by
  induction hn : t.length using Nat.strongRecOn generalizing t with
  | ind n ih =>
    cases hnext : nextLexeme? t with
    | none =>
      rw [lexemes_of_none hnext]
      exact .gap (gap_of_nextLexeme? hnext)
    | some next =>
      obtain ⟨l, rest⟩ := next
      obtain ⟨hgap, hne, hstands⟩ := nextLexeme?_stands hnext
      have hrest : Lexed (lexemes rest) rest := ih _ (hn ▸ nextLexeme?_shorter hnext) _ rfl
      rw [lexemes_of_some hnext, ← nextLexeme?_source hnext]
      exact .lexeme hgap hne hstands hrest

structure Span where
  start : Nat
  stop : Nat
  lexeme : Lexeme

def spansFrom (offset : Nat) : List Lexeme → List Span
  | [] => []
  | l :: ls =>
      ⟨offset + byteSize l.gap, offset + byteSize l.source, l⟩ ::
        spansFrom (offset + byteSize l.source) ls

def spans (t : Text) : List Span := spansFrom 0 (lexemes t)

/-- The spans of a text without strays. A stray is refused with its offset. -/
def tokenSpans (t : Text) : Except (Nat × Text) (List Span) :=
  match firstStray? 0 (lexemes t) with
  | some stray => .error stray
  | none => .ok (spans t)

variable {ls : List Lexeme} {t : Text}

theorem map_lexeme_spansFrom (offset : Nat) (ls : List Lexeme) :
    (spansFrom offset ls).map Span.lexeme = ls := by
  induction ls generalizing offset with
  | nil => rfl
  | cons l ls ih => rw [spansFrom, List.map_cons, ih]

theorem tokens_eq_spans (t : Text) : tokens t = (spans t).filterMap (·.lexeme.token?) := by
  have hmap := map_lexeme_spansFrom 0 (lexemes t)
  rw [tokens, ← hmap, List.filterMap_map]
  rfl

theorem parse_eq_tokenSpans (t : Text) :
    Rule.parse t =
      match tokenSpans (stripComments t) with
      | .error (offset, text) => .error (.invalidCharacter offset text)
      | .ok ss => Rule.ofTokens (ss.filterMap (·.lexeme.token?)) := by
  unfold Rule.parse tokenSpans
  dsimp only
  cases firstStray? 0 (lexemes (stripComments t)) with
  | some stray => rfl
  | none => exact congrArg Rule.ofTokens (tokens_eq_spans _)

structure Tiling (t : Text) (ss : List Span) : Prop where
  nonempty : ∀ s ∈ ss, s.start < s.stop
  ordered : ss.Pairwise fun s s' => s.stop ≤ s'.start
  placed : ∀ s ∈ ss, ∃ before after, t = before ++ s.lexeme.text ++ after ∧
    byteSize before = s.start ∧ byteSize (before ++ s.lexeme.text) = s.stop ∧
    Stands after s.lexeme
  covers : ∀ before c after, t = before ++ c :: after →
    isGap c ∨ ∃ s ∈ ss, s.start ≤ byteSize before ∧ byteSize before < s.stop

theorem le_start_spansFrom (offset : Nat) (ls : List Lexeme) :
    ∀ s ∈ spansFrom offset ls, offset ≤ s.start := by
  induction ls generalizing offset with
  | nil => simp [spansFrom]
  | cons l ls ih =>
    intro s hs
    rcases List.mem_cons.1 hs with rfl | hs
    · exact Nat.le_add_right ..
    · exact Nat.le_trans (Nat.le_add_right ..) (ih _ s hs)

theorem ordered_spansFrom (offset : Nat) (ls : List Lexeme) :
    (spansFrom offset ls).Pairwise fun s s' => s.stop ≤ s'.start := by
  induction ls generalizing offset with
  | nil => exact .nil
  | cons l ls ih => exact .cons (le_start_spansFrom _ ls) (ih _)

theorem byteSize_source (l : Lexeme) : byteSize l.source = byteSize l.gap + byteSize l.text := by
  rw [Lexeme.source, byteSize_append]

theorem nonempty_spansFrom (h : Lexed ls t) (offset : Nat) :
    ∀ s ∈ spansFrom offset ls, s.start < s.stop := by
  induction h generalizing offset with
  | gap => exact fun s hs => absurd hs List.not_mem_nil
  | @lexeme l ls rest hgap hne hstands hrest ih =>
    intro s hs
    rcases List.mem_cons.1 hs with rfl | hs
    · have hpos : 0 < byteSize l.text := Nat.pos_of_ne_zero fun h => hne (byteSize_eq_zero.1 h)
      exact Nat.add_lt_add_left (byteSize_source l ▸ Nat.lt_add_of_pos_right hpos) offset
    · exact ih _ s hs

theorem placed_spansFrom (h : Lexed ls t) (offset : Nat) :
    ∀ s ∈ spansFrom offset ls, ∃ before after, t = before ++ s.lexeme.text ++ after ∧
      offset + byteSize before = s.start ∧ offset + byteSize (before ++ s.lexeme.text) = s.stop ∧
      Stands after s.lexeme := by
  induction h generalizing offset with
  | gap => exact fun s hs => absurd hs List.not_mem_nil
  | @lexeme l ls rest hgap hne hstands hrest ih =>
    intro s hs
    rcases List.mem_cons.1 hs with rfl | hs
    · exact ⟨l.gap, rest, rfl, rfl, rfl, hstands⟩
    · obtain ⟨before, after, rfl, hstart, hstop, hstands⟩ := ih _ s hs
      refine ⟨l.source ++ before, after, by simp, ?_, ?_, hstands⟩
      · rw [byteSize_append, ← Nat.add_assoc, hstart]
      · rw [List.append_assoc, byteSize_append, ← Nat.add_assoc, hstop]

theorem parted {a b before after : Text} {c : Char} (h : a ++ b = before ++ c :: after) :
    (∃ more, a = before ++ c :: more) ∨ ∃ more, before = a ++ more ∧ b = more ++ c :: after := by
  rcases List.append_eq_append_iff.1 h with ⟨more, rfl, rfl⟩ | ⟨more, rfl, hmore⟩
  · exact .inr ⟨more, rfl, rfl⟩
  · cases more with
    | nil => exact .inr ⟨[], by simp, hmore.symm⟩
    | cons d more =>
      obtain ⟨rfl, -⟩ := List.cons.inj hmore
      exact .inl ⟨more, rfl⟩

theorem covers_spansFrom (h : Lexed ls t) (offset : Nat) :
    ∀ before c after, t = before ++ c :: after → isGap c ∨
      ∃ s ∈ spansFrom offset ls,
        s.start ≤ offset + byteSize before ∧ offset + byteSize before < s.stop := by
  induction h generalizing offset with
  | gap hgap =>
    rintro before c after rfl
    exact .inl (hgap c (List.mem_append_right before List.mem_cons_self))
  | @lexeme l ls rest hgap hne hstands hrest ih =>
    intro before c after htext
    rw [Lexeme.source, List.append_assoc] at htext
    -- the character stands in the gap, in the text of the lexeme or behind it
    rcases parted htext with ⟨more, hin⟩ | ⟨middle, rfl, hmiddle⟩
    · exact .inl (hgap c (hin ▸ List.mem_append_right before List.mem_cons_self))
    rcases parted hmiddle with ⟨more, hin⟩ | ⟨tail, rfl, hbehind⟩
    · refine .inr ⟨_, List.mem_cons_self, ?_, ?_⟩
      · rw [byteSize_append]
        exact Nat.add_le_add_left (Nat.le_add_right ..) offset
      · have hpos := c.utf8Size_pos
        have hlt : byteSize (l.gap ++ middle) < byteSize l.source := by
          rw [byteSize_source, hin, byteSize_append, byteSize_append, byteSize_cons]
          omega
        exact Nat.add_lt_add_left hlt offset
    · refine (ih (offset + byteSize l.source) tail c after hbehind).imp_right ?_
      rintro ⟨s, hs, hstart, hstop⟩
      have hbytes : offset + byteSize (l.gap ++ (l.text ++ tail)) =
          offset + byteSize l.source + byteSize tail := by
        rw [← List.append_assoc, byteSize_append, Lexeme.source, Nat.add_assoc]
      rw [hbytes]
      exact ⟨s, List.mem_cons_of_mem _ hs, hstart, hstop⟩

theorem tiling_spans (t : Text) : Tiling t (spans t) := by
  have hlexed := lexed_lexemes t
  have hplaced := placed_spansFrom hlexed 0
  have hcovers := covers_spansFrom hlexed 0
  simp only [Nat.zero_add] at hplaced hcovers
  exact ⟨nonempty_spansFrom hlexed 0, ordered_spansFrom 0 (lexemes t), hplaced, hcovers⟩

theorem firstStray?_spansFrom (offset : Nat) (ls : List Lexeme) :
    firstStray? offset ls =
      ((spansFrom offset ls).find? (·.lexeme.token?.isNone)).map
        fun s => (s.start, s.lexeme.text) := by
  induction ls generalizing offset with
  | nil => rfl
  | cons l ls ih =>
    cases l with
    | token t =>
      rw [firstStray?, ih, spansFrom, byteSize_source, Nat.add_assoc]
      rfl
    | stray gap text => rfl

theorem tokenSpans_eq (t : Text) :
    tokenSpans t =
      match (spans t).find? (·.lexeme.token?.isNone) with
      | none => .ok (spans t)
      | some s => .error (s.start, s.lexeme.text) := by
  rw [tokenSpans, firstStray?_spansFrom, ← spans]
  cases (spans t).find? (·.lexeme.token?.isNone) with
  | none => rfl
  | some s => rfl

/-- The spans of a text tile it. Its tokens are those of the spans that are no strays, and they are
read with their spans unless there is a stray, the first of which is refused. -/
theorem spans_tile (t : Text) :
    Tiling t (spans t) ∧ tokens t = (spans t).filterMap (·.lexeme.token?) ∧
      tokenSpans t =
        match (spans t).find? (·.lexeme.token?.isNone) with
        | none => .ok (spans t)
        | some s => .error (s.start, s.lexeme.text) :=
  ⟨tiling_spans t, tokens_eq_spans t, tokenSpans_eq t⟩

-- a dimension, a gap, and a pseudo-class whose argument runs to the end
example : (spans "1px \t:not(a".toList).map (fun s => (s.start, s.stop, s.lexeme.token?.isNone)) =
    [(0, 3, false), (5, 11, true)] := by
  decide +kernel

end ScopedStyle
