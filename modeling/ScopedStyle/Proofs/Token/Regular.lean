import Mathlib.Computability.Language
import ScopedStyle.Proofs.Token.Spelling

/-!
# Token patterns as regular languages

The table of patterns, each written as a regular expression. A reach into a text is
the length of the longest beginning of it that the expression matches, so the token
that is found is the longest match, and of equally long ones the first in the table.
-/

namespace ScopedStyle
open Text
open scoped Computability

def oneOf (p : Char → Bool) : Language Char := {t | ∃ c, p c ∧ t = [c]}

def anyOf (p : Char → Bool) : Language Char := (oneOf p)∗

def someOf (p : Char → Bool) : Language Char := oneOf p * anyOf p

def mark (c : Char) : Language Char := {[c]}

def perhaps (l : Language Char) : Language Char := 1 + l

def nameFrom (start : Char → Bool) : Language Char := oneOf start * anyOf isNameChar

def enclosed (opener closer : Char) : Language Char :=
  mark opener * anyOf (· != closer) * mark closer

def unsigned : Language Char :=
  someOf Char.isDigit + anyOf Char.isDigit * mark '.' * someOf Char.isDigit

def numeral : Language Char := perhaps (mark '-') * unsigned

def TokenKind.pattern : TokenKind → Language Char
  | .important => {importantMark}
  | .atKeyword => mark '@' * perhaps (mark '-') * nameFrom isNameStart
  | .hash => mark '#' * someOf isNameChar
  | .dimension => numeral * (someOf Char.isAlpha + mark '%')
  | .pseudoElement => mark ':' * mark ':' * nameFrom Char.isAlpha
  | .pseudoClass => mark ':' * nameFrom Char.isAlpha * perhaps (enclosed '(' ')')
  | .bracketed => enclosed '[' ']'
  | .stringLiteral => enclosed '"' '"'
  | .stringLiteralSingle => enclosed '\'' '\''
  | .number => numeral
  | .ident => perhaps (mark '-' * mark '-' + mark '-') * nameFrom isNameStart
  | .braceOpen => mark '{'
  | .braceClose => mark '}'
  | .parenOpen => mark '('
  | .parenClose => mark ')'
  | .colon => mark ':'
  | .semicolon => mark ';'
  | .comma => mark ','
  | .dot => mark '.'
  | .star => mark '*'
  | .greaterThan => mark '>'
  | .plus => mark '+'
  | .tilde => mark '~'
  | .slash => mark '/'
  | .equals => mark '='
  | .delim => oneOf isDelim

section
variable {p : Char → Bool} {c : Char} {l : Language Char} {t : Text}

theorem mem_anyOf : t ∈ anyOf p ↔ ∀ c ∈ t, p c := by
  rw [anyOf, Language.mem_kstar]
  constructor
  · rintro ⟨pieces, rfl, hpieces⟩ c hc
    obtain ⟨piece, hpiece, hc⟩ := List.mem_flatten.1 hc
    obtain ⟨d, hd, rfl⟩ := hpieces piece hpiece
    rw [List.mem_singleton.1 hc]
    exact hd
  · intro h
    have ht : t = (t.map ([·])).flatten := by
      rw [← List.flatMap_def, List.flatMap_singleton']
    refine ⟨t.map ([·]), ht, fun piece hpiece => ?_⟩
    obtain ⟨c, hc, rfl⟩ := List.mem_map.1 hpiece
    exact ⟨c, h c hc, rfl⟩

theorem mark_eq_oneOf (c : Char) : mark c = oneOf (· == c) := by
  refine Language.ext fun t => ⟨?_, ?_⟩
  · rintro rfl
    exact ⟨c, beq_self_eq_true c, rfl⟩
  · rintro ⟨d, hd, rfl⟩
    rw [beq_iff_eq.1 hd]
    rfl

theorem mem_perhaps : t ∈ perhaps l ↔ t = [] ∨ t ∈ l := by
  rw [perhaps, Language.mem_add, Language.mem_one]

theorem mem_mark_mul : t ∈ mark c * l ↔ ∃ u ∈ l, t = c :: u := by
  rw [Language.mem_mul]
  constructor
  · rintro ⟨a, rfl, u, hu, rfl⟩
    exact ⟨u, hu, rfl⟩
  · rintro ⟨u, hu, rfl⟩
    exact ⟨[c], rfl, u, hu, rfl⟩

theorem mem_someOf : t ∈ someOf p ↔ t ≠ [] ∧ ∀ c ∈ t, p c := by
  rw [someOf, Language.mem_mul]
  constructor
  · rintro ⟨a, ⟨c, hc, rfl⟩, u, hu, rfl⟩
    exact ⟨List.cons_ne_nil c u, List.forall_mem_cons.2 ⟨hc, mem_anyOf.1 hu⟩⟩
  · rintro ⟨hne, h⟩
    obtain ⟨c, u, rfl⟩ := List.exists_cons_of_ne_nil hne
    obtain ⟨hc, hu⟩ := List.forall_mem_cons.1 h
    exact ⟨[c], ⟨c, hc, rfl⟩, u, mem_anyOf.2 hu, rfl⟩

theorem mem_nameFrom : t ∈ nameFrom p ↔ IsWord p t := by
  rw [nameFrom, Language.mem_mul]
  constructor
  · rintro ⟨a, ⟨c, hc, rfl⟩, u, hu, rfl⟩
    exact ⟨c, u, rfl, hc, mem_anyOf.1 hu⟩
  · rintro ⟨c, u, rfl, hc, hu⟩
    exact ⟨[c], ⟨c, hc, rfl⟩, u, mem_anyOf.2 hu, rfl⟩

theorem mem_enclosed {opener closer : Char} :
    t ∈ enclosed opener closer ↔ ∃ inside, closer ∉ inside ∧ t = opener :: inside ++ [closer] := by
  rw [enclosed, mul_assoc, mem_mark_mul]
  constructor
  · rintro ⟨u, hu, rfl⟩
    obtain ⟨inside, hi, a, rfl, rfl⟩ := Language.mem_mul.1 hu
    exact ⟨inside, fun hm => by simpa using mem_anyOf.1 hi closer hm, rfl⟩
  · rintro ⟨inside, hi, rfl⟩
    refine ⟨inside ++ [closer],
      Language.mem_mul.2 ⟨inside, mem_anyOf.2 ?_, [closer], rfl, rfl⟩, rfl⟩
    exact fun c hc => bne_iff_ne.2 fun he => hi (he ▸ hc)

end

/-- A reach into every text is the length of the longest beginning of it in a language. -/
structure Reaches (l : Language Char) (reach : Text → Option Nat) : Prop where
  sound : ∀ {t : Text} {n : Nat}, reach t = some n →
    ∃ w rest, t = w ++ rest ∧ w.length = n ∧ w ∈ l
  longest : ∀ {w : Text} (rest : Text), w ∈ l → ∃ n, reach (w ++ rest) = some n ∧ w.length ≤ n

theorem exists_stopped (p : Char → Bool) (t : Text) :
    ∃ more rest, t = more ++ rest ∧ (∀ c ∈ more, p c) ∧ Stopped p rest :=
  ⟨t.take (run p t), t.drop (run p t), (List.take_append_drop ..).symm, fun _ hc => mem_take_run hc,
    stopped_drop_run p t⟩

theorem le_run_append {p : Char → Bool} {w : Text} (hw : ∀ c ∈ w, p c) (rest : Text) :
    w.length ≤ run p (w ++ rest) := by
  rw [run, List.takeWhile_append_of_pos hw, List.length_append]
  exact Nat.le_add_right ..

theorem reaches_char (p : Char → Bool) : Reaches (oneOf p) (charReach p) where
  sound := by
    intro t n h
    cases t with
    | nil => cases h
    | cons c t =>
      obtain ⟨hc, rfl⟩ := (charReach_eq_some_iff (t := t)).1 h
      exact ⟨[c], t, rfl, rfl, c, hc, rfl⟩
  longest := by
    rintro w rest ⟨c, hc, rfl⟩
    exact ⟨1, charReach_eq_some_iff.2 ⟨hc, rfl⟩, Nat.le_refl 1⟩

theorem reaches_mark (c : Char) : Reaches (mark c) (charReach (· == c)) :=
  mark_eq_oneOf c ▸ reaches_char (· == c)

theorem reaches_important : Reaches TokenKind.important.pattern TokenKind.important.reach where
  sound := by
    intro t n h
    simp only [TokenKind.reach] at h
    split at h
    · rename_i hp
      cases h
      obtain ⟨rest, rfl⟩ := List.isPrefixOf_iff_prefix.1 hp
      exact ⟨importantMark, rest, rfl, rfl, rfl⟩
    · cases h
  longest := by
    rintro w rest rfl
    have hp : importantMark.isPrefixOf (importantMark ++ rest) = true :=
      List.isPrefixOf_iff_prefix.2 (List.prefix_append ..)
    exact ⟨importantMark.length, by rw [TokenKind.reach, if_pos hp], Nat.le_refl _⟩

theorem reaches_enclosed (opener closer : Char) :
    Reaches (enclosed opener closer) (enclosedReach opener closer) where
  sound := by
    intro t n h
    obtain ⟨inside, rest, rfl, hi, rfl⟩ := closed_of_enclosedReach h
    exact ⟨opener :: inside ++ [closer], rest, by simp, by simp, mem_enclosed.2 ⟨inside, hi, rfl⟩⟩
  longest := by
    intro w rest hw
    obtain ⟨inside, hi, rfl⟩ := mem_enclosed.1 hw
    have h : enclosedReach opener closer (opener :: inside ++ closer :: rest) =
        some (inside.length + 2) := enclosedReach_closed hi rest
    exact ⟨inside.length + 2, by simpa using h, by simp⟩

theorem mem_ident {t : Text} : t ∈ TokenKind.ident.pattern ↔ IsIdent t := by
  rw [TokenKind.pattern, Language.mem_mul]
  constructor
  · rintro ⟨dashes, hd, w, hw, rfl⟩
    refine ⟨dashes, w, rfl, ?_, mem_nameFrom.1 hw⟩
    rcases mem_perhaps.1 hd with rfl | hd
    · exact .inl rfl
    · rcases (Language.mem_add ..).1 hd with hd | rfl
      · obtain ⟨u, rfl, rfl⟩ := mem_mark_mul.1 hd
        exact .inr (.inr rfl)
      · exact .inr (.inl rfl)
  · rintro ⟨dashes, w, rfl, hd, hw⟩
    refine ⟨dashes, mem_perhaps.2 ?_, w, mem_nameFrom.2 hw, rfl⟩
    rcases hd with rfl | rfl | rfl
    · exact .inl rfl
    · exact .inr (.inr rfl)
    · exact .inr (.inl (mem_mark_mul.2 ⟨['-'], rfl, rfl⟩))

theorem reaches_ident : Reaches TokenKind.ident.pattern identReach where
  sound := by
    intro t n h
    obtain ⟨hw, hle⟩ := ident_of_identReach h
    exact ⟨t.take n, t.drop n, (List.take_append_drop ..).symm, List.length_take_of_le hle,
      mem_ident.2 hw⟩
  longest := by
    intro w rest hw
    obtain ⟨more, rest, rfl, hmore, hrest⟩ := exists_stopped isNameChar rest
    have h := identReach_ident ((mem_ident.1 hw).append hmore) hrest
    rw [List.append_assoc] at h
    exact ⟨_, h, by simp⟩

theorem IsWord.append {start : Char → Bool} {w more : Text} (h : IsWord start w)
    (hm : ∀ c ∈ more, isNameChar c) : IsWord start (w ++ more) := by
  obtain ⟨c, cs, rfl, hc, hcs⟩ := h
  exact ⟨c, cs ++ more, rfl, hc, List.forall_mem_append.2 ⟨hcs, hm⟩⟩

theorem reaches_name (start : Char → Bool) : Reaches (nameFrom start) (nameReach start) where
  sound := by
    intro t n h
    obtain ⟨hw, hle, -⟩ := word_of_nameReach h
    exact ⟨t.take n, t.drop n, (List.take_append_drop ..).symm, List.length_take_of_le hle,
      mem_nameFrom.2 hw⟩
  longest := by
    intro w rest hw
    obtain ⟨more, rest, rfl, hmore, hrest⟩ := exists_stopped isNameChar rest
    have h := nameReach_word ((mem_nameFrom.1 hw).append hmore) hrest
    rw [List.append_assoc] at h
    exact ⟨_, h, by simp⟩

theorem reaches_atKeyword : Reaches TokenKind.atKeyword.pattern atKeywordReach where
  sound := by
    intro t n h
    rw [TokenKind.pattern, mul_assoc]
    unfold atKeywordReach at h
    split at h
    · obtain ⟨m, hm, rfl⟩ := Option.map_eq_some_iff.1 h
      obtain ⟨w, rest, rfl, rfl, hw⟩ := (reaches_name isNameStart).sound hm
      exact ⟨'@' :: '-' :: w, rest, rfl, rfl, mem_mark_mul.2
        ⟨'-' :: w, Language.mem_mul.2 ⟨['-'], mem_perhaps.2 (.inr rfl), w, hw, rfl⟩, rfl⟩⟩
    · obtain ⟨m, hm, rfl⟩ := Option.map_eq_some_iff.1 h
      obtain ⟨w, rest, rfl, rfl, hw⟩ := (reaches_name isNameStart).sound hm
      exact ⟨'@' :: w, rest, rfl, rfl, mem_mark_mul.2
        ⟨w, Language.mem_mul.2 ⟨[], mem_perhaps.2 (.inl rfl), w, hw, rfl⟩, rfl⟩⟩
    · cases h
  longest := by
    intro w rest hw
    rw [TokenKind.pattern, mul_assoc] at hw
    obtain ⟨u, hu, rfl⟩ := mem_mark_mul.1 hw
    obtain ⟨dash, hd, name, hname, rfl⟩ := Language.mem_mul.1 hu
    obtain ⟨n, hn, hle⟩ := (reaches_name isNameStart).longest rest hname
    rcases mem_perhaps.1 hd with rfl | rfl
    · obtain ⟨c, cs, rfl, hc, -⟩ := mem_nameFrom.1 hname
      have hne := nameStart_ne_dash hc
      refine ⟨n + 1, ?_, Nat.succ_le_succ hle⟩
      simp only [List.cons_append, List.nil_append] at hn ⊢
      rw [atKeywordReach]
      · rw [hn]
        rfl
      · intro r hr
        cases hr
        exact hne rfl
    · refine ⟨n + 2, ?_, Nat.succ_le_succ (Nat.succ_le_succ hle)⟩
      simp only [List.cons_append, List.nil_append] at hn ⊢
      rw [atKeywordReach, hn]
      rfl

theorem reaches_hash : Reaches TokenKind.hash.pattern hashReach where
  sound := by
    intro t n h
    obtain ⟨w, rest, rfl, rfl, hw⟩ := hashName_of_hashReach h
    exact ⟨'#' :: w, rest, rfl, rfl, mem_mark_mul.2 ⟨w, mem_someOf.2 hw, rfl⟩⟩
  longest := by
    intro w rest hw
    obtain ⟨name, hname, rfl⟩ := mem_mark_mul.1 hw
    obtain ⟨hne, hall⟩ := mem_someOf.1 hname
    obtain ⟨more, rest, rfl, hmore, hrest⟩ := exists_stopped isNameChar rest
    have hlonger : IsHashName (name ++ more) :=
      ⟨List.append_ne_nil_of_left_ne_nil hne more, List.forall_mem_append.2 ⟨hall, hmore⟩⟩
    have h := hashReach_name hlonger hrest
    rw [List.cons_append, List.append_assoc] at h
    exact ⟨_, h, by simp⟩

theorem reaches_pseudoElement :
    Reaches TokenKind.pseudoElement.pattern pseudoElementReach where
  sound := by
    intro t n h
    obtain ⟨w, rest, rfl, rfl, hw⟩ := pseudoElement_of_pseudoElementReach h
    refine ⟨':' :: ':' :: w, rest, rfl, rfl, ?_⟩
    rw [TokenKind.pattern, mul_assoc]
    exact mem_mark_mul.2 ⟨':' :: w, mem_mark_mul.2 ⟨w, mem_nameFrom.2 hw, rfl⟩, rfl⟩
  longest := by
    intro w rest hw
    rw [TokenKind.pattern, mul_assoc] at hw
    obtain ⟨u, hu, rfl⟩ := mem_mark_mul.1 hw
    obtain ⟨name, hname, rfl⟩ := mem_mark_mul.1 hu
    obtain ⟨n, hn, hle⟩ := (reaches_name Char.isAlpha).longest rest hname
    refine ⟨n + 2, ?_, Nat.succ_le_succ (Nat.succ_le_succ hle)⟩
    rw [List.cons_append, List.cons_append, pseudoElementReach, hn]
    rfl

theorem mem_argument {t : Text} : t ∈ perhaps (enclosed '(' ')') ↔ IsArgument t := by
  rw [mem_perhaps, mem_enclosed]
  constructor
  · rintro (rfl | ⟨inside, hi, rfl⟩)
    · exact .none
    · exact .some hi
  · rintro (_ | hi)
    · exact .inl rfl
    · exact .inr ⟨_, hi, rfl⟩

theorem mem_pseudoClass {t : Text} :
    t ∈ TokenKind.pseudoClass.pattern ↔ ∃ w, IsPseudoClass w ∧ t = ':' :: w := by
  rw [TokenKind.pattern, mul_assoc, mem_mark_mul]
  refine exists_congr fun w => and_congr_left fun _ => ?_
  rw [Language.mem_mul]
  constructor
  · rintro ⟨name, hn, argument, ha, rfl⟩
    exact ⟨name, argument, rfl, mem_nameFrom.1 hn, mem_argument.1 ha⟩
  · rintro ⟨name, argument, rfl, hn, ha⟩
    exact ⟨name, mem_nameFrom.2 hn, argument, mem_argument.2 ha, rfl⟩

theorem reaches_pseudoClass : Reaches TokenKind.pseudoClass.pattern pseudoClassReach where
  sound := by
    intro t n h
    obtain ⟨w, rest, rfl, rfl, hw⟩ := pseudoClass_of_pseudoClassReach h
    exact ⟨':' :: w, rest, rfl, rfl, mem_pseudoClass.2 ⟨w, hw, rfl⟩⟩
  longest := by
    intro w rest hw
    obtain ⟨w, ⟨name, argument, rfl, hn, ha⟩, rfl⟩ := mem_pseudoClass.1 hw
    cases ha with
    | none =>
      obtain ⟨n, hreach, hle⟩ := (reaches_name Char.isAlpha).longest rest (mem_nameFrom.2 hn)
      refine ⟨n + argumentReach ((name ++ rest).drop n) + 1, ?_, ?_⟩
      · rw [List.append_nil, List.cons_append, pseudoClassReach, hreach]
        rfl
      · rw [List.append_nil, List.length_cons]
        omega
    | @some inside hi =>
      -- the parenthesis stops the name, so the argument is taken whatever stands behind it
      have hreach : nameReach Char.isAlpha (name ++ ('(' :: inside ++ ')' :: rest)) =
          some name.length := nameReach_word hn (stopped_cons.2 (by decide))
      have htext : (':' :: (name ++ ('(' :: inside ++ [')']))) ++ rest =
          ':' :: (name ++ ('(' :: inside ++ ')' :: rest)) := by simp
      refine ⟨name.length + (inside.length + 2) + 1, ?_, by simp⟩
      rw [htext, pseudoClassReach, hreach, Option.map_some, List.drop_left,
        argumentReach_closed hi]

def IsUnsigned (t : Text) : Prop :=
  (t ≠ [] ∧ ∀ c ∈ t, c.isDigit) ∨
    ∃ whole fraction, t = whole ++ '.' :: fraction ∧ (∀ c ∈ whole, c.isDigit) ∧
      fraction ≠ [] ∧ ∀ c ∈ fraction, c.isDigit

theorem mem_unsigned {t : Text} : t ∈ unsigned ↔ IsUnsigned t := by
  rw [unsigned, Language.mem_add, mem_someOf, mul_assoc, Language.mem_mul]
  refine or_congr_right ⟨?_, ?_⟩
  · rintro ⟨whole, hw, u, hu, rfl⟩
    obtain ⟨fraction, hf, rfl⟩ := mem_mark_mul.1 hu
    exact ⟨whole, fraction, rfl, mem_anyOf.1 hw, mem_someOf.1 hf⟩
  · rintro ⟨whole, fraction, rfl, hw, hf⟩
    exact ⟨whole, mem_anyOf.2 hw, '.' :: fraction, mem_mark_mul.2 ⟨fraction, mem_someOf.2 hf, rfl⟩,
      rfl⟩

theorem fractionReach_digits {fraction rest : Text} (h : fraction ≠ [])
    (hd : ∀ c ∈ fraction, c.isDigit) :
    fractionReach ('.' :: (fraction ++ rest)) = run Char.isDigit (fraction ++ rest) + 1 := by
  have hle := le_run_append hd rest
  have hpos := List.length_pos_iff.2 h
  rw [fractionReach, if_neg (by omega)]

theorem reaches_unsigned : Reaches unsigned unsignedReach where
  sound := by
    intro t n h
    obtain ⟨whole, rest, rfl, hwhole, hrest⟩ := exists_stopped Char.isDigit t
    have hn : n ≠ 0 ∧ n = whole.length + fractionReach rest := by
      rw [unsignedReach, run_append hwhole hrest, List.drop_left] at h
      split at h
      · cases h
      · rename_i hpos
        cases h
        exact ⟨hpos, rfl⟩
    obtain ⟨hpos, hn⟩ := hn
    unfold fractionReach at hn
    split at hn
    · rename_i fraction
      split at hn
      · have hne : whole ≠ [] := List.length_pos_iff.1 (by omega)
        exact ⟨whole, '.' :: fraction, rfl, hn.symm, mem_unsigned.2 (.inl ⟨hne, hwhole⟩)⟩
      · rename_i hrun
        obtain ⟨digits, rest, rfl, hd, hstop⟩ := exists_stopped Char.isDigit fraction
        rw [run_append hd hstop] at hn hrun
        refine ⟨whole ++ '.' :: digits, rest, by simp, ?_, mem_unsigned.2 (.inr ?_)⟩
        · rw [hn, List.length_append, List.length_cons]
        · exact ⟨whole, digits, rfl, hwhole, List.length_pos_iff.1 (Nat.pos_of_ne_zero hrun), hd⟩
    · have hne : whole ≠ [] := List.length_pos_iff.1 (by omega)
      exact ⟨whole, rest, rfl, hn.symm, mem_unsigned.2 (.inl ⟨hne, hwhole⟩)⟩
  longest := by
    intro w rest hw
    rcases mem_unsigned.1 hw with ⟨hne, hd⟩ | ⟨whole, fraction, rfl, hwhole, hne, hd⟩
    · have hle := le_run_append hd rest
      have hpos := List.length_pos_iff.2 hne
      exact ⟨_, if_neg (by omega), by omega⟩
    · have hrun : run Char.isDigit (whole ++ ('.' :: (fraction ++ rest))) = whole.length :=
        run_append hwhole (stopped_cons.2 (by decide))
      have hle := le_run_append hd rest
      have htext : (whole ++ '.' :: fraction) ++ rest = whole ++ ('.' :: (fraction ++ rest)) := by
        simp
      refine ⟨whole.length + (run Char.isDigit (fraction ++ rest) + 1), ?_, ?_⟩
      · rw [htext, unsignedReach, hrun, List.drop_left, fractionReach_digits hne hd,
          if_neg (by omega)]
      · simp
        omega

def isNumberChar (c : Char) : Bool := c.isDigit || c == '.' || c == '-'

theorem IsUnsigned.chars {t : Text} (h : IsUnsigned t) : ∀ c ∈ t, c.isDigit || c == '.' := by
  intro c hc
  rcases h with ⟨-, hd⟩ | ⟨whole, fraction, rfl, hw, -, hf⟩
  · rw [hd c hc, Bool.true_or]
  · rcases List.mem_append.1 hc with hc | hc
    · rw [hw c hc, Bool.true_or]
    · rcases List.mem_cons.1 hc with rfl | hc
      · rfl
      · rw [hf c hc, Bool.true_or]

theorem IsUnsigned.ne_nil {t : Text} (h : IsUnsigned t) : t ≠ [] := by
  rcases h with ⟨hne, -⟩ | ⟨whole, fraction, rfl, -⟩
  · exact hne
  · exact List.append_ne_nil_of_right_ne_nil whole (List.cons_ne_nil '.' fraction)

theorem IsUnsigned.not_dash {t : Text} (h : IsUnsigned t) : '-' ∉ t := fun hm =>
  absurd (h.chars '-' hm) (by decide)

theorem mem_numeral {t : Text} :
    t ∈ numeral ↔ ∃ sign digits, t = sign ++ digits ∧ (sign = [] ∨ sign = ['-']) ∧
      IsUnsigned digits := by
  rw [numeral, Language.mem_mul]
  constructor
  · rintro ⟨sign, hs, digits, hd, rfl⟩
    exact ⟨sign, digits, rfl, mem_perhaps.1 hs, mem_unsigned.1 hd⟩
  · rintro ⟨sign, digits, rfl, hs, hd⟩
    exact ⟨sign, mem_perhaps.2 hs, digits, mem_unsigned.2 hd, rfl⟩

theorem numeral_chars {t : Text} (h : t ∈ numeral) : ∀ c ∈ t, isNumberChar c := by
  obtain ⟨sign, digits, rfl, hs, hd⟩ := mem_numeral.1 h
  intro c hc
  rcases List.mem_append.1 hc with hc | hc
  · rcases hs with rfl | rfl
    · cases hc
    · rw [List.mem_singleton.1 hc]
      rfl
  · rw [isNumberChar, hd.chars c hc, Bool.true_or]

theorem reaches_numeral : Reaches numeral numberReach where
  sound := by
    intro t n h
    unfold numberReach at h
    split at h
    · obtain ⟨m, hm, rfl⟩ := Option.map_eq_some_iff.1 h
      obtain ⟨digits, rest, rfl, rfl, hd⟩ := reaches_unsigned.sound hm
      exact ⟨'-' :: digits, rest, rfl, rfl, mem_numeral.2
        ⟨['-'], digits, rfl, .inr rfl, mem_unsigned.1 hd⟩⟩
    · obtain ⟨digits, rest, rfl, rfl, hd⟩ := reaches_unsigned.sound h
      exact ⟨digits, rest, rfl, rfl, mem_numeral.2
        ⟨[], digits, rfl, .inl rfl, mem_unsigned.1 hd⟩⟩
  longest := by
    intro w rest hw
    obtain ⟨sign, digits, rfl, hs, hd⟩ := mem_numeral.1 hw
    obtain ⟨n, hn, hle⟩ := reaches_unsigned.longest rest (mem_unsigned.2 hd)
    rcases hs with rfl | rfl
    · refine ⟨n, ?_, hle⟩
      rw [List.nil_append, numberReach]
      · exact hn
      · intro r hr
        have hdash : '-' ∈ digits := by
          cases digits with
          | nil => exact absurd rfl hd.ne_nil
          | cons c digits =>
            cases hr
            exact List.mem_cons_self
        exact hd.not_dash hdash
    · refine ⟨n + 1, ?_, Nat.succ_le_succ hle⟩
      rw [List.cons_append, List.cons_append, List.nil_append, numberReach, hn]
      rfl

theorem Reaches.exact {l : Language Char} {reach : Text → Option Nat} {p : Char → Bool}
    (h : Reaches l reach) (hl : ∀ {t}, t ∈ l → ∀ c ∈ t, p c) {w rest : Text} (hw : w ∈ l)
    (hr : Stopped p rest) : reach (w ++ rest) = some w.length := by
  obtain ⟨n, hn, hle⟩ := h.longest rest hw
  obtain ⟨v, tail, htext, hlen, hv⟩ := h.sound hn
  have hstop : v.length ≤ w.length := by
    rcases List.append_eq_append_iff.1 htext with ⟨more, rfl, hmore⟩ | ⟨more, rfl, -⟩
    · cases more with
      | nil => simp
      | cons c more =>
        rw [hmore] at hr
        have hc : p c = true := hl hv c (List.mem_append_right w List.mem_cons_self)
        exact absurd hc (by simp [stopped_cons.1 hr])
    · simp
  rw [hn, ← hlen]
  exact congrArg some (Nat.le_antisymm hstop (hlen ▸ hle))

theorem mem_dimension {t : Text} :
    t ∈ TokenKind.dimension.pattern ↔ ∃ number ∈ numeral, ∃ unit, t = number ++ unit ∧
      (unit = ['%'] ∨ unit ≠ [] ∧ ∀ c ∈ unit, c.isAlpha) := by
  rw [TokenKind.pattern, Language.mem_mul]
  constructor
  · rintro ⟨number, hn, unit, hu, rfl⟩
    exact ⟨number, hn, unit, rfl, ((Language.mem_add ..).1 hu).symm.imp id mem_someOf.1⟩
  · rintro ⟨number, hn, unit, rfl, hu⟩
    exact ⟨number, hn, unit, (Language.mem_add ..).2 (hu.symm.imp mem_someOf.2 id), rfl⟩

theorem reaches_dimension : Reaches TokenKind.dimension.pattern dimensionReach where
  sound := by
    intro t n h
    unfold dimensionReach at h
    split at h
    · cases h
    · rename_i m hm
      obtain ⟨number, rest, rfl, rfl, hn⟩ := reaches_numeral.sound hm
      rw [List.drop_left] at h
      split at h
      · rename_i rest
        cases h
        exact ⟨number ++ ['%'], rest, by simp, by simp, mem_dimension.2
          ⟨number, hn, ['%'], rfl, .inl rfl⟩⟩
      · obtain ⟨unit, rest, rfl, hunit, hstop⟩ := exists_stopped Char.isAlpha rest
        rw [run_append hunit hstop] at h
        split at h
        · cases h
        · rename_i hne
          cases h
          exact ⟨number ++ unit, rest, by simp, by simp, mem_dimension.2
            ⟨number, hn, unit, rfl, .inr ⟨List.length_pos_iff.1 (Nat.pos_of_ne_zero hne), hunit⟩⟩⟩
  longest := by
    intro w rest hw
    obtain ⟨number, hn, unit, rfl, hu⟩ := mem_dimension.1 hw
    -- the unit stops the number, so the number is reached as a whole
    rcases hu with rfl | ⟨hne, hunit⟩
    · have hnumber : numberReach (number ++ '%' :: rest) = some number.length :=
        reaches_numeral.exact numeral_chars hn (stopped_cons.2 (by decide))
      refine ⟨number.length + 1, ?_, by simp⟩
      rw [List.append_assoc, List.singleton_append, dimensionReach, hnumber]
      dsimp only
      rw [List.drop_left]
      rfl
    · obtain ⟨c, cs, rfl⟩ := List.exists_cons_of_ne_nil hne
      have hc : c.isAlpha := hunit c List.mem_cons_self
      have hstart : isNameStart c := by rw [isNameStart, hc, Bool.true_or]
      have hnumber : numberReach (number ++ (c :: cs ++ rest)) = some number.length :=
        reaches_numeral.exact numeral_chars hn
          (stopped_cons.2 (by simpa [isNumberChar] using nameStart_not_number hstart))
      have hle := le_run_append hunit rest
      refine ⟨number.length + run Char.isAlpha (c :: cs ++ rest), ?_, ?_⟩
      · rw [List.append_assoc, dimensionReach, hnumber]
        dsimp only
        rw [List.drop_left]
        split
        · rename_i tail htail
          cases htail
          exact absurd hc (by decide)
        · exact if_neg (by rw [List.length_cons] at hle; omega)
      · rw [List.length_append]
        omega

theorem TokenKind.reaches (k : TokenKind) : Reaches k.pattern k.reach := by
  cases k
  case important => exact reaches_important
  case atKeyword => exact reaches_atKeyword
  case hash => exact reaches_hash
  case dimension => exact reaches_dimension
  case pseudoElement => exact reaches_pseudoElement
  case pseudoClass => exact reaches_pseudoClass
  case bracketed => exact reaches_enclosed '[' ']'
  case stringLiteral => exact reaches_enclosed '"' '"'
  case stringLiteralSingle => exact reaches_enclosed '\'' '\''
  case number => exact reaches_numeral
  case ident => exact reaches_ident
  case delim => exact reaches_char isDelim
  all_goals exact reaches_mark _

/-- A text is the longest match in front of a rest, and its kind is the first in the table that
matches it. -/
structure FirstLongest (k : TokenKind) (text rest : Text) : Prop where
  matched : text ∈ k.pattern
  longest : ∀ (j : TokenKind) (w : Text), w <+: text ++ rest → w ∈ j.pattern →
    w.length ≤ text.length
  first : ∀ j : TokenKind, text ∈ j.pattern → k.rank ≤ j.rank

theorem firstLongest_of_longest {k : TokenKind} {text rest : Text}
    (h : longest (text ++ rest) = some (k, text.length)) : FirstLongest k text rest := by
  obtain ⟨hreach, hbeats⟩ := longest_eq_some_iff.1 h
  refine ⟨?_, fun j w hw hj => ?_, fun j hj => ?_⟩
  · obtain ⟨w, tail, htext, hlen, hw⟩ := (TokenKind.reaches k).sound hreach
    rw [(List.append_inj htext hlen.symm).1]
    exact hw
  · obtain ⟨tail, htail⟩ := hw
    obtain ⟨n, hn, hle⟩ := (TokenKind.reaches j).longest tail hj
    rw [htail] at hn
    have hb : n < text.length ∨ text.length = n ∧ k.rank ≤ j.rank := hbeats j n hn
    omega
  · obtain ⟨n, hn, hle⟩ := (TokenKind.reaches j).longest rest hj
    have hb : n < text.length ∨ text.length = n ∧ k.rank ≤ j.rank := hbeats j n hn
    omega

end ScopedStyle
