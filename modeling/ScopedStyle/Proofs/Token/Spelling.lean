import ScopedStyle.Proofs.Token.Boundary

/-!
# Spelling

A row of tokens spells a text in front of a rest when each of them, with its gap,
is the first lexeme where it stands. The lexemes of the text are then these
tokens, and a row that spells a text up to a boundary does so whatever stands
behind the boundary.
-/

namespace ScopedStyle
open Text

def Token.source (t : Token) : Text := t.gap ++ t.text

def sources (ts : List Token) : Text := ts.flatMap Token.source

@[simp] theorem sources_nil : sources [] = [] := rfl

@[simp] theorem sources_cons (t : Token) (ts : List Token) :
    sources (t :: ts) = t.source ++ sources ts := List.flatMap_cons

@[simp] theorem sources_append (ts us : List Token) :
    sources (ts ++ us) = sources ts ++ sources us := List.flatMap_append

/-- A token is the first lexeme of its own text in front of `rest`. -/
def Lexes (t : Token) (rest : Text) : Prop :=
  nextLexeme? (t.source ++ rest) = some (.token t, rest)

structure Found (t : Token) (rest : Text) : Prop where
  gap : ∀ c ∈ t.gap, isGap c
  front : ∃ c text, t.text = c :: text ∧ isGap c = false
  closed : runsAway (t.text ++ rest) = false
  longest : longest (t.text ++ rest) = some (t.kind, t.text.length)

theorem token_of_lexemeAt {gap r rest : Text} {c : Char} {t : Token}
    (h : lexemeAt gap c r = (.token t, rest)) :
    t.gap = gap ∧ t.text ≠ [] ∧ t.text ++ rest = c :: r ∧ runsAway (c :: r) = false ∧
      longest (c :: r) = some (t.kind, t.text.length) := by
  simp only [lexemeAt] at h
  split at h
  · cases h
  · rename_i hrun
    split at h
    · rename_i k n hl
      have hle := TokenKind.reach_le (reach_of_longest hl)
      have hpos := TokenKind.reach_pos (reach_of_longest hl)
      cases h
      have hlen : ((c :: r).take n).length = n := List.length_take_of_le hle
      refine ⟨rfl, ?_, List.take_append_drop n (c :: r), by simpa using hrun, ?_⟩
      · exact List.ne_nil_of_length_pos (Nat.lt_of_lt_of_eq hpos hlen.symm)
      · rw [hl, hlen]
    · cases h

theorem found_of_lexes {t : Token} {rest : Text} (h : Lexes t rest) : Found t rest := by
  unfold Lexes nextLexeme? at h
  split at h
  · cases h
  · rename_i c r hdrop
    have hgap : isGap c = false := by
      have := List.head?_dropWhile_not isGap (t.source ++ rest)
      rw [hdrop] at this
      simpa using this
    obtain ⟨hg, hne, hfront, hrun, hlong⟩ := token_of_lexemeAt (Option.some.inj h)
    obtain ⟨e, text, htext⟩ := List.exists_cons_of_ne_nil hne
    have he : e = c := by
      rw [htext, List.cons_append] at hfront
      exact (List.cons.inj hfront).1
    refine ⟨fun d hd => ?_, ⟨c, text, he ▸ htext, hgap⟩, ?_, ?_⟩
    · rw [hg] at hd
      exact List.mem_takeWhile_imp hd
    · rw [hfront, hrun]
    · rw [hfront, hlong]

theorem lexes_of_found {t : Token} {rest : Text} (h : Found t rest) : Lexes t rest := by
  obtain ⟨hgap, ⟨c, text, htext, hc⟩, hclosed, hlongest⟩ := h
  have hfront : t.source ++ rest = t.gap ++ c :: (text ++ rest) := by
    rw [Token.source, htext, List.append_assoc, List.cons_append]
  have htake : (t.source ++ rest).takeWhile isGap = t.gap := by
    rw [hfront, List.takeWhile_append_of_pos hgap]
    simp [hc]
  have hdrop : (t.source ++ rest).dropWhile isGap = c :: (text ++ rest) := by
    rw [hfront, List.dropWhile_append_of_pos hgap]
    simp [hc]
  have hcons : c :: (text ++ rest) = t.text ++ rest := by rw [htext, List.cons_append]
  have hat : lexemeAt t.gap c (text ++ rest) = (.token t, rest) := by
    rw [lexemeAt, hcons, hclosed, hlongest]
    simp
  rw [Lexes, nextLexeme?, hdrop, htake]
  exact congrArg some hat

theorem Found.contained {t : Token} {x rest : Text} (h : Found t (x ++ rest)) :
    Contained (t.text ++ x) rest := by
  obtain ⟨-, ⟨c, text, htext, -⟩, hclosed, hlongest⟩ := h
  refine ⟨by simp [htext], by rwa [List.append_assoc], fun k n hk => ?_⟩
  rw [List.append_assoc] at hk
  have hb := (longest_eq_some_iff.1 hlongest).2 k n hk
  rw [List.length_append]
  unfold Beats at hb
  simp only at hb
  omega

theorem Lexes.boundary {t : Token} {x a b : Text} {c d : Char} (hc : isBoundary c)
    (hd : isBoundary d) (h : Lexes t (x ++ c :: a)) : Lexes t (x ++ d :: b) := by
  have hf := found_of_lexes h
  have hcon := hf.contained
  have hlong : longest (t.text ++ (x ++ d :: b)) = longest (t.text ++ (x ++ c :: a)) := by
    rw [← List.append_assoc, ← List.append_assoc]
    exact longest_congr fun k => hcon.reach hc hd k
  refine lexes_of_found ⟨hf.gap, hf.front, ?_, hlong.trans hf.longest⟩
  rw [← List.append_assoc]
  exact hcon.runsAway hc hd

/-- Each token of a row is the first lexeme where it stands. -/
def Spells : List Token → Text → Prop
  | [], _ => True
  | t :: ts, rest => Lexes t (sources ts ++ rest) ∧ Spells ts rest

theorem spells_append {ts us : List Token} {rest : Text} :
    Spells (ts ++ us) rest ↔ Spells ts (sources us ++ rest) ∧ Spells us rest := by
  induction ts with
  | nil => simp [Spells]
  | cons t ts ih =>
    rw [List.cons_append, Spells, Spells, ih, sources_append, List.append_assoc, and_assoc]

theorem lexemes_of_spells {ts : List Token} {rest : Text} (h : Spells ts rest) :
    lexemes (sources ts ++ rest) = ts.map .token ++ lexemes rest := by
  induction ts with
  | nil => rfl
  | cons t ts ih =>
    have ht : nextLexeme? (sources (t :: ts) ++ rest) = some (.token t, sources ts ++ rest) := by
      rw [sources_cons, List.append_assoc]
      exact h.1
    rw [lexemes_of_some ht, ih h.2]
    rfl

theorem lexemes_sources {ts : List Token} (h : Spells ts []) :
    lexemes (sources ts) = ts.map .token := by
  have hlex := lexemes_of_spells h
  have hnil : lexemes [] = [] := lexemes_of_none rfl
  rwa [List.append_nil, hnil, List.append_nil] at hlex

theorem nextLexeme?_of_lexemes {t : Text} {l : Lexeme} {ls : List Lexeme}
    (h : lexemes t = l :: ls) : ∃ rest, nextLexeme? t = some (l, rest) ∧ lexemes rest = ls := by
  cases hn : nextLexeme? t with
  | none => rw [lexemes_of_none hn] at h; cases h
  | some p =>
    obtain ⟨l', rest⟩ := p
    rw [lexemes_of_some hn] at h
    cases h
    exact ⟨rest, rfl, rfl⟩

theorem spells_of_lexemes {t : Text} {ts : List Token} {ls : List Lexeme}
    (h : lexemes t = ts.map .token ++ ls) :
    ∃ rest, t = sources ts ++ rest ∧ Spells ts rest ∧ lexemes rest = ls := by
  -- lexemes join up to the text, so what is left of it is what the tokens do not cover
  induction ts generalizing t with
  | nil => exact ⟨t, rfl, trivial, h⟩
  | cons tok ts ih =>
    obtain ⟨next, hn, hl⟩ := nextLexeme?_of_lexemes h
    obtain ⟨rest, rfl, hs, hr⟩ := ih hl
    have ht : tok.source ++ (sources ts ++ rest) = t := nextLexeme?_source hn
    refine ⟨rest, ?_, ⟨?_, hs⟩, hr⟩
    · rw [sources_cons, List.append_assoc, ht]
    · rw [Lexes, ht, hn]

theorem Spells.boundary {ts : List Token} {a b : Text} {c d : Char} (hc : isBoundary c)
    (hd : isBoundary d) (h : Spells ts (c :: a)) : Spells ts (d :: b) := by
  induction ts with
  | nil => trivial
  | cons t ts ih => exact ⟨h.1.boundary hc hd, ih h.2⟩

def IsGap (gap : Text) : Prop := ∀ c ∈ gap, isGap c

theorem isGap_nil : IsGap [] := by simp [IsGap]

theorem isGap_space : IsGap [' '] := by
  intro c hc
  rw [List.mem_singleton.1 hc]
  rfl

def marks : List (TokenKind × Char) :=
  [(.braceOpen, '{'), (.braceClose, '}'), (.semicolon, ';'), (.comma, ','), (.star, '*'),
    (.greaterThan, '>'), (.plus, '+'), (.tilde, '~')]

theorem lexes_mark {k : TokenKind} {c : Char} {gap : Text} (h : (k, c) ∈ marks) (hg : IsGap gap)
    (rest : Text) : Lexes ⟨k, [c], gap⟩ rest := by
  have hgap : isGap c = false := by
    revert h
    simp only [marks, List.mem_cons, Prod.mk.injEq, List.not_mem_nil, or_false]
    rintro (⟨-, rfl⟩ | ⟨-, rfl⟩ | ⟨-, rfl⟩ | ⟨-, rfl⟩ | ⟨-, rfl⟩ | ⟨-, rfl⟩ | ⟨-, rfl⟩ |
      ⟨-, rfl⟩) <;> rfl
  have hrun : runsAway (c :: rest) = false ∧ k.reach (c :: rest) = some 1 ∧
      ∀ j : TokenKind, j.opens c → j = k ∨ j = .delim := by
    revert h
    simp only [marks, List.mem_cons, Prod.mk.injEq, List.not_mem_nil, or_false]
    rintro (⟨rfl, rfl⟩ | ⟨rfl, rfl⟩ | ⟨rfl, rfl⟩ | ⟨rfl, rfl⟩ | ⟨rfl, rfl⟩ | ⟨rfl, rfl⟩ |
      ⟨rfl, rfl⟩ | ⟨rfl, rfl⟩) <;> exact ⟨rfl, rfl, fun j => by cases j <;> decide⟩
  exact lexes_of_found
    ⟨hg, ⟨c, [], rfl, hgap⟩, hrun.1, longest_of_opens hrun.2.1 hrun.2.2⟩

theorem numberReach_dot {rest : Text} (h : Stopped Char.isDigit rest) :
    numberReach ('.' :: rest) = none := by
  have hrun : run Char.isDigit rest = 0 := run_append (w := []) (by simp) h
  have hdot : run Char.isDigit ('.' :: rest) = 0 := rfl
  simp [numberReach, unsignedReach, hdot, fractionReach, hrun]

theorem dot_kinds {j : TokenKind} (h : j.opens '.') :
    j = .dimension ∨ j = .number ∨ j = .dot ∨ j = .delim := by
  revert h
  cases j <;> decide

theorem lexes_dot {gap rest : Text} (hg : IsGap gap) (hr : Stopped Char.isDigit rest) :
    Lexes ⟨.dot, ['.'], gap⟩ rest := by
  have hnum := numberReach_dot hr
  have hreach : TokenKind.dot.reach ('.' :: rest) = some 1 := rfl
  refine lexes_of_found ⟨hg, ⟨'.', [], rfl, rfl⟩, rfl, longest_of_rivals hreach ?_⟩
  intro j m hj hk hd
  rcases dot_kinds (TokenKind.opens_of_reach hj) with rfl | rfl | rfl | rfl
  · have hd : dimensionReach ('.' :: rest) = some m := hj
    simp [dimensionReach, hnum] at hd
  · have hn : numberReach ('.' :: rest) = some m := hj
    rw [hnum] at hn
    cases hn
  · exact absurd rfl hk
  · exact absurd rfl hd

theorem colon_kinds {j : TokenKind} (h : j.opens ':') :
    j = .pseudoElement ∨ j = .pseudoClass ∨ j = .colon ∨ j = .delim := by
  revert h
  cases j <;> decide

theorem lexes_colon {gap rest : Text} (hg : IsGap gap) :
    Lexes ⟨.colon, [':'], gap⟩ (' ' :: rest) := by
  have hreach : TokenKind.colon.reach (':' :: ' ' :: rest) = some 1 := rfl
  refine lexes_of_found ⟨hg, ⟨':', [], rfl, rfl⟩, rfl, longest_of_rivals hreach ?_⟩
  intro j m hj hk hd
  rcases colon_kinds (TokenKind.opens_of_reach hj) with rfl | rfl | rfl | rfl
  · cases hj
  · cases hj
  · exact absurd rfl hk
  · exact absurd rfl hd

theorem nameStart_not_digit {c : Char} (hc : isNameStart c) : c.isDigit = false := by
  by_contra hd
  have halpha : c.isAlpha = (decide (c.val ≥ 65 ∧ c.val ≤ 90) ||
      decide (c.val ≥ 97) && decide (c.val ≤ 122)) := rfl
  simp only [isNameStart, halpha, Bool.or_eq_true, beq_iff_eq, decide_eq_true_eq,
    Bool.and_eq_true] at hc
  simp only [Char.isDigit, Bool.and_eq_true, decide_eq_true_eq, Bool.not_eq_false] at hd
  rcases hc with (hc | hc) | rfl
  · exact absurd (UInt32.le_trans hc.1 hd.2) (by decide)
  · exact absurd (UInt32.le_trans hc.1 hd.2) (by decide)
  · exact absurd hd.2 (by decide)

theorem nameStart_not_number {c : Char} (hc : isNameStart c) :
    ¬(c.isDigit || c == '.' || c == '-') := by
  rw [nameStart_not_digit hc]
  simp only [Bool.false_or, Bool.or_eq_true, beq_iff_eq]
  rintro (rfl | rfl)
  · exact absurd hc (by decide)
  · exact absurd hc (by decide)

theorem nameStart_kinds {j : TokenKind} {c : Char} (hc : isNameStart c) (h : j.opens c) :
    j = .ident ∨ j = .delim := by
  cases j
  case ident => exact .inl rfl
  case delim => exact .inr rfl
  case dimension => exact absurd h (nameStart_not_number hc)
  case number => exact absurd h (nameStart_not_number hc)
  all_goals
    obtain rfl := beq_iff_eq.1 h
    exact absurd hc (by decide)

theorem dash_kinds {j : TokenKind} (h : j.opens '-') :
    j = .dimension ∨ j = .number ∨ j = .ident ∨ j = .delim := by
  revert h
  cases j <;> decide

theorem numberReach_dash {w : Text} (hw : IsWord isNameStart w) (rest : Text) :
    numberReach ('-' :: w ++ rest) = none ∧ numberReach ('-' :: '-' :: w ++ rest) = none := by
  obtain ⟨c, cs, rfl, hc, -⟩ := hw
  have hn := nameStart_not_number hc
  have hu : ∀ t, unsignedReach (c :: t) = none := by
    intro t
    cases hr : unsignedReach (c :: t) with
    | none => rfl
    | some n => exact absurd (by simp only [opens_of_unsignedReach hr, Bool.true_or]) hn
  have hd : ∀ t, unsignedReach ('-' :: t) = none := by
    intro t
    cases hr : unsignedReach ('-' :: t) with
    | none => rfl
    | some n => exact absurd (opens_of_unsignedReach hr) (by decide)
  constructor
  · simp [numberReach, hu]
  · simp [numberReach, hd]

theorem longest_dashed {t : Text} {n : Nat} (hn : numberReach ('-' :: t) = none)
    (hi : TokenKind.ident.reach ('-' :: t) = some n) :
    longest ('-' :: t) = some (.ident, n) := by
  refine longest_of_rivals hi fun j m hj hk hd => ?_
  rcases dash_kinds (TokenKind.opens_of_reach hj) with rfl | rfl | rfl | rfl
  · have hd : dimensionReach ('-' :: t) = some m := hj
    simp [dimensionReach, hn] at hd
  · have hd : numberReach ('-' :: t) = some m := hj
    rw [hn] at hd
    cases hd
  · exact absurd rfl hk
  · exact absurd rfl hd

theorem nameStart_not_gap {c : Char} (hc : isNameStart c) : isGap c = false := by
  by_contra hg
  rcases isGap_iff.1 (Bool.not_eq_false _ ▸ hg) with rfl | rfl | rfl | rfl | rfl <;>
    exact absurd hc (by decide)

theorem nameStart_closed {c : Char} (hc : isNameStart c) (t : Text) :
    runsAway (c :: t) = false := by
  have hne : ∀ d, isNameStart d = false → c ≠ d := by
    rintro d hd rfl
    rw [hd] at hc
    cases hc
  simp [runsAway, hne '"' rfl, hne '\'' rfl, hne '[' rfl, hne ':' rfl]

theorem lexes_ident {w gap rest : Text} (hw : IsIdent w) (hg : IsGap gap)
    (hr : Stopped isNameChar rest) : Lexes ⟨.ident, w, gap⟩ rest := by
  have hreach := identReach_ident hw hr
  obtain ⟨dashes, w, rfl, hd, hw⟩ := hw
  have hnum := numberReach_dash hw rest
  obtain ⟨c, cs, rfl, hc, hcs⟩ := hw
  rcases hd with rfl | rfl | rfl
  · exact lexes_of_found ⟨hg, ⟨c, cs, rfl, nameStart_not_gap hc⟩, nameStart_closed hc _,
      longest_of_opens hreach fun _ => nameStart_kinds hc⟩
  · exact lexes_of_found ⟨hg, ⟨'-', c :: cs, rfl, rfl⟩, rfl, longest_dashed hnum.1 hreach⟩
  · exact lexes_of_found ⟨hg, ⟨'-', '-' :: c :: cs, rfl, rfl⟩, rfl, longest_dashed hnum.2 hreach⟩

theorem lexes_hash {w gap rest : Text} (hw : IsHashName w) (hg : IsGap gap)
    (hr : Stopped isNameChar rest) : Lexes ⟨.hash, '#' :: w, gap⟩ rest := by
  have hopens : ∀ j : TokenKind, j.opens '#' → j = .hash ∨ j = .delim := by
    intro j
    cases j <;> decide
  have hreach : TokenKind.hash.reach ('#' :: w ++ rest) = some (w.length + 1) :=
    hashReach_name hw hr
  exact lexes_of_found ⟨hg, ⟨'#', w, rfl, rfl⟩, rfl, longest_of_opens hreach hopens⟩

theorem lexes_bracketed {inside gap : Text} (h : ']' ∉ inside) (hg : IsGap gap) (rest : Text) :
    Lexes ⟨.bracketed, '[' :: inside ++ [']'], gap⟩ rest := by
  have htext : '[' :: inside ++ [']'] ++ rest = '[' :: inside ++ ']' :: rest := by simp
  have hrun : runsAway ('[' :: inside ++ [']'] ++ rest) = false := by
    simp [runsAway]
  have hopens : ∀ j : TokenKind, j.opens '[' → j = .bracketed ∨ j = .delim := by
    intro j
    cases j <;> decide
  have hreach : TokenKind.bracketed.reach ('[' :: inside ++ ']' :: rest) =
      some (inside.length + 2) := @enclosedReach_closed '[' ']' inside h rest
  refine lexes_of_found ⟨hg, ⟨'[', inside ++ [']'], rfl, rfl⟩, hrun, ?_⟩
  have hlong : longest ('[' :: inside ++ ']' :: rest) = some (.bracketed, inside.length + 2) :=
    longest_of_opens hreach hopens
  rw [htext, hlong]
  simp

theorem lexes_important {gap : Text} (hg : IsGap gap) (rest : Text) :
    Lexes ⟨.important, importantMark, gap⟩ rest := by
  have hopens : ∀ j : TokenKind, j.opens '!' → j = .important ∨ j = .delim := by
    intro j
    cases j <;> decide
  have hreach : TokenKind.important.reach (importantMark ++ rest) = some importantMark.length := by
    simp only [TokenKind.reach]
    rw [if_pos (List.isPrefixOf_iff_prefix.2 (List.prefix_append _ _))]
  exact lexes_of_found ⟨hg, ⟨'!', _, rfl, rfl⟩, rfl, longest_of_opens hreach hopens⟩

theorem lexes_pseudoClass {w gap rest : Text} (hw : IsPseudoClass w) (hg : IsGap gap)
    (hr : EndsName rest) : Lexes ⟨.pseudoClass, ':' :: w, gap⟩ rest := by
  have hreach := pseudoClassReach_append hw hr
  obtain ⟨name, argument, rfl, hn, ha⟩ := hw
  have hname := nameReach_pseudoClass hn ha hr
  have hrun : runsAway (':' :: (name ++ argument) ++ rest) = false := by
    have hdrop : (name ++ argument ++ rest).drop name.length = argument ++ rest := by
      rw [List.append_assoc, List.drop_left]
    rw [List.cons_append]
    simp only [runsAway, hname, hdrop]
    cases ha with
    | none =>
      cases rest with
      | nil => rfl
      | cons c rest =>
        have hc : c ≠ '(' := by simpa using stopped_cons.1 hr.2
        simp [hc]
    | some hi => simp
  refine lexes_of_found ⟨hg, ⟨':', _, rfl, rfl⟩, hrun,
    @longest_of_rivals .pseudoClass _ _ _ hreach ?_⟩
  intro j m hj hk hd
  rcases colon_kinds (TokenKind.opens_of_reach hj) with rfl | rfl | rfl | rfl
  · obtain ⟨c, cs, rfl, hc, -⟩ := hn
    have hne : c ≠ ':' := by
      rintro rfl
      exact absurd hc (by decide)
    have hp : pseudoElementReach (':' :: c :: (cs ++ argument ++ rest)) = some m := hj
    simp [pseudoElementReach, hne] at hp
  · exact absurd rfl hk
  · cases hj
    refine .inl ?_
    obtain ⟨c, cs, rfl, -, -⟩ := hn
    simp
  · exact absurd rfl hd

theorem lexes_pseudoElement {w gap rest : Text} (hw : IsWord Char.isAlpha w) (hg : IsGap gap)
    (hr : Stopped isNameChar rest) : Lexes ⟨.pseudoElement, ':' :: ':' :: w, gap⟩ rest := by
  have hreach := pseudoElementReach_append hw hr
  refine lexes_of_found ⟨hg, ⟨':', _, rfl, rfl⟩, rfl,
    @longest_of_rivals .pseudoElement _ _ _ hreach ?_⟩
  intro j m hj hk hd
  rcases colon_kinds (TokenKind.opens_of_reach hj) with rfl | rfl | rfl | rfl
  · exact absurd rfl hk
  · cases hj
  · cases hj
    refine .inl ?_
    simp
  · exact absurd rfl hd

end ScopedStyle
