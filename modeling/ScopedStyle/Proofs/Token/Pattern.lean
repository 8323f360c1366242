import Mathlib.Data.List.TakeWhile
import ScopedStyle.Proofs.Token.Longest

/-!
# What tokens look like

The shapes of names and of the tokens built from them. A reach into a text is
the length of such a shape at its front, and a shape in front of a text that
cannot prolong it is reached into exactly.
-/

namespace ScopedStyle
open Text

def Stopped (p : Char → Bool) (t : Text) : Prop := ∀ c ∈ t.head?, p c = false

theorem stopped_nil (p : Char → Bool) : Stopped p [] := fun c hc => by cases hc

theorem stopped_cons {p : Char → Bool} {c : Char} {t : Text} : Stopped p (c :: t) ↔ p c = false :=
  ⟨fun h => h c rfl, fun h d hd => by cases hd; exact h⟩

theorem Stopped.append {p : Char → Bool} {a b : Text} (ha : Stopped p a) (hb : Stopped p b) :
    Stopped p (a ++ b) := by
  cases a with
  | nil => exact hb
  | cons c a => exact stopped_cons.2 (stopped_cons.1 ha)

namespace Text

theorem run_append {p : Char → Bool} {w rest : Text} (hw : ∀ c ∈ w, p c) (hr : Stopped p rest) :
    run p (w ++ rest) = w.length := by
  rw [run, List.takeWhile_append_of_pos hw, List.length_append]
  cases rest with
  | nil => rfl
  | cons c rest => simp [stopped_cons.1 hr]

theorem take_run (p : Char → Bool) (t : Text) : t.take (run p t) = t.takeWhile p := by
  conv => lhs; arg 2; rw [← List.takeWhile_append_dropWhile (p := p) (l := t)]
  rw [run, List.take_left]

theorem drop_run (p : Char → Bool) (t : Text) : t.drop (run p t) = t.dropWhile p := by
  conv => lhs; arg 2; rw [← List.takeWhile_append_dropWhile (p := p) (l := t)]
  rw [run, List.drop_left]

theorem mem_take_run {p : Char → Bool} {t : Text} {c : Char} (h : c ∈ t.take (run p t)) : p c := by
  rw [take_run] at h
  exact List.mem_takeWhile_imp h

theorem stopped_drop_run (p : Char → Bool) (t : Text) : Stopped p (t.drop (run p t)) := by
  rw [drop_run]
  intro c hc
  have := List.head?_dropWhile_not p t
  rw [Option.mem_def.1 hc] at this
  simpa using this

theorem run_le (p : Char → Bool) (t : Text) : run p t ≤ t.length :=
  (List.takeWhile_sublist p).length_le

theorem distance?_append {c : Char} {before : Text} (h : c ∉ before) (after : Text) :
    distance? c (before ++ c :: after) = some before.length := by
  have hp : ∀ d ∈ before, (d != c) = true := fun d hd => bne_iff_ne.2 fun he => h (he ▸ hd)
  rw [distance?, if_pos (by simp), run_append hp (stopped_cons.2 (by simp))]

theorem eq_append_of_distance? {c : Char} {t : Text} {n : Nat} (h : distance? c t = some n) :
    ∃ before after, t = before ++ c :: after ∧ c ∉ before ∧ before.length = n := by
  unfold distance? at h
  split at h
  · rename_i hm
    obtain ⟨before, after, ht, hn⟩ := List.eq_append_cons_of_mem (List.contains_iff_mem.1 hm)
    have hd := distance?_append hn after
    rw [← ht, distance?, if_pos hm, h] at hd
    cases hd
    exact ⟨before, after, ht, hn, rfl⟩
  · cases h

end Text

def IsWord (start : Char → Bool) (t : Text) : Prop :=
  ∃ c rest, t = c :: rest ∧ start c ∧ ∀ d ∈ rest, isNameChar d

theorem nameReach_word {start : Char → Bool} {w rest : Text} (hw : IsWord start w)
    (hr : Stopped isNameChar rest) : nameReach start (w ++ rest) = some w.length := by
  obtain ⟨c, cs, rfl, hc, hcs⟩ := hw
  rw [List.cons_append, nameReach, if_pos hc, run_append hcs hr]
  rfl

theorem word_of_nameReach {start : Char → Bool} {t : Text} {n : Nat}
    (h : nameReach start t = some n) :
    IsWord start (t.take n) ∧ n ≤ t.length ∧ Stopped isNameChar (t.drop n) := by
  cases t with
  | nil => cases h
  | cons c rest =>
    simp only [nameReach] at h
    split at h
    · rename_i hc
      cases h
      refine ⟨⟨c, rest.take (run isNameChar rest), rfl, hc, fun d hd => mem_take_run hd⟩, ?_, ?_⟩
      · exact Nat.succ_le_succ (run_le _ _)
      · exact stopped_drop_run isNameChar rest
    · cases h

/-- A name with at most two dashes in front of it. -/
def IsIdent (t : Text) : Prop :=
  ∃ dashes w, t = dashes ++ w ∧ (dashes = [] ∨ dashes = ['-'] ∨ dashes = ['-', '-']) ∧
    IsWord isNameStart w

theorem IsIdent.append {w more : Text} (h : IsIdent w) (hm : ∀ c ∈ more, isNameChar c) :
    IsIdent (w ++ more) := by
  obtain ⟨dashes, w, rfl, hd, c, cs, rfl, hc, hcs⟩ := h
  refine ⟨dashes, c :: cs ++ more, List.append_assoc .., hd, c, cs ++ more, rfl, hc, ?_⟩
  exact List.forall_mem_append.2 ⟨hcs, hm⟩

theorem IsIdent.ne_nil {w : Text} (h : IsIdent w) : w ≠ [] := by
  obtain ⟨dashes, w, rfl, -, c, cs, rfl, -, -⟩ := h
  simp

theorem IsIdent.nameChars {w : Text} (h : IsIdent w) : ∀ c ∈ w, isNameChar c := by
  obtain ⟨dashes, w, rfl, hd, c, cs, rfl, hc, hcs⟩ := h
  have hdashes : ∀ e ∈ dashes, isNameChar e := by
    intro e he
    obtain rfl : e = '-' := by
      rcases hd with rfl | rfl | rfl
      · cases he
      · exact List.mem_singleton.1 he
      · simpa using he
    rfl
  have hfirst : isNameChar c := by
    simp only [isNameStart, Bool.or_eq_true] at hc
    simp only [isNameChar, Char.isAlphanum, Bool.or_eq_true]
    tauto
  exact List.forall_mem_append.2 ⟨hdashes, List.forall_mem_cons.2 ⟨hfirst, hcs⟩⟩

theorem not_blank_of_nameChar {c : Char} (h : isNameChar c) : isBlank c = false := by
  have hrange : 0x2d ≤ c.toNat ∧ c.toNat ≤ 0x7a := by
    simp only [isNameChar, Char.isAlphanum, Bool.or_eq_true, beq_iff_eq] at h
    rcases h with ((halpha | hdigit) | rfl) | rfl
    · rcases Bool.or_eq_true_iff.1 halpha with hupper | hlower
      · have hbounds : 'A'.toNat ≤ c.toNat ∧ c.toNat ≤ 'Z'.toNat := of_decide_eq_true hupper
        exact ⟨Nat.le_trans (by decide) hbounds.1, Nat.le_trans hbounds.2 (by decide)⟩
      · obtain ⟨hlow, hhigh⟩ := Bool.and_eq_true_iff.1 hlower
        have hlow : 'a'.toNat ≤ c.toNat := of_decide_eq_true hlow
        have hhigh : c.toNat ≤ 'z'.toNat := of_decide_eq_true hhigh
        exact ⟨Nat.le_trans (by decide) hlow, Nat.le_trans hhigh (by decide)⟩
    · have hbounds := Char.isDigit_iff_toNat.1 hdigit
      exact ⟨Nat.le_trans (by decide) hbounds.1, Nat.le_trans hbounds.2 (by decide)⟩
    · decide
    · decide
  generalize hn : c.toNat = n at hrange
  simp only [isBlank, hn, Bool.or_eq_false_iff, Bool.and_eq_false_iff, decide_eq_false_iff_not,
    beq_eq_false_iff_ne]
  omega

theorem nameStart_ne_dash {c : Char} (h : isNameStart c) : c ≠ '-' := by
  rintro rfl
  exact absurd h (by decide)

theorem identReach_ident {w rest : Text} (hw : IsIdent w) (hr : Stopped isNameChar rest) :
    identReach (w ++ rest) = some w.length := by
  obtain ⟨dashes, w, rfl, hd, hw⟩ := hw
  have hn := nameReach_word hw hr
  obtain ⟨c, cs, rfl, hc, -⟩ := hw
  have hne := nameStart_ne_dash hc
  rcases hd with rfl | rfl | rfl
  · simpa [identReach, hne] using hn
  · simp only [List.cons_append, List.nil_append] at hn ⊢
    rw [identReach]
    · rw [hn]
      rfl
    · intro r hr
      cases hr
      exact hne rfl
  · simp only [List.cons_append, List.nil_append] at hn ⊢
    rw [identReach, hn]
    rfl

theorem ident_of_identReach {t : Text} {n : Nat} (h : identReach t = some n) :
    IsIdent (t.take n) ∧ n ≤ t.length := by
  unfold identReach at h
  split at h
  · rename_i rest
    obtain ⟨m, hm, rfl⟩ := Option.map_eq_some_iff.1 h
    obtain ⟨hw, hle, -⟩ := word_of_nameReach hm
    exact ⟨⟨['-', '-'], _, rfl, .inr (.inr rfl), hw⟩, Nat.add_le_add_right hle 2⟩
  · rename_i rest _
    obtain ⟨m, hm, rfl⟩ := Option.map_eq_some_iff.1 h
    obtain ⟨hw, hle, -⟩ := word_of_nameReach hm
    exact ⟨⟨['-'], _, rfl, .inr (.inl rfl), hw⟩, Nat.add_le_add_right hle 1⟩
  · obtain ⟨hw, hle, -⟩ := word_of_nameReach h
    exact ⟨⟨[], _, rfl, .inl rfl, hw⟩, hle⟩

def IsHashName (t : Text) : Prop := t ≠ [] ∧ ∀ c ∈ t, isNameChar c

theorem hashReach_name {w rest : Text} (hw : IsHashName w) (hr : Stopped isNameChar rest) :
    hashReach ('#' :: w ++ rest) = some (w.length + 1) := by
  have hrun := run_append hw.2 hr
  have hpos : w.length ≠ 0 := fun h => hw.1 (List.length_eq_zero_iff.1 h)
  rw [List.cons_append, hashReach, hrun, if_neg hpos]

theorem hashName_of_hashReach {t : Text} {n : Nat} (h : hashReach t = some n) :
    ∃ w rest, t = '#' :: w ++ rest ∧ n = w.length + 1 ∧ IsHashName w := by
  unfold hashReach at h
  split at h
  · rename_i rest
    split at h
    · cases h
    · rename_i hrun
      cases h
      have hlen : (rest.take (run isNameChar rest)).length = run isNameChar rest :=
        List.length_take_of_le (run_le _ _)
      refine ⟨rest.take (run isNameChar rest), rest.drop (run isNameChar rest), ?_, ?_, ?_, ?_⟩
      · rw [List.cons_append, List.take_append_drop]
      · rw [hlen]
      · intro he
        rw [he] at hlen
        exact hrun hlen.symm
      · exact fun c hc => mem_take_run hc
  · cases h

theorem enclosedReach_closed {opener closer : Char} {inside : Text} (h : closer ∉ inside)
    (rest : Text) :
    enclosedReach opener closer (opener :: inside ++ closer :: rest) =
      some (inside.length + 2) := by
  rw [List.cons_append, enclosedReach, if_pos rfl, distance?_append h]
  rfl

theorem closed_of_enclosedReach {opener closer : Char} {t : Text} {n : Nat}
    (h : enclosedReach opener closer t = some n) :
    ∃ inside rest, t = opener :: inside ++ closer :: rest ∧ closer ∉ inside ∧
      n = inside.length + 2 := by
  cases t with
  | nil => cases h
  | cons c t =>
    simp only [enclosedReach] at h
    split at h
    · rename_i hc
      obtain ⟨m, hm, rfl⟩ := Option.map_eq_some_iff.1 h
      obtain ⟨inside, rest, rfl, hn, rfl⟩ := eq_append_of_distance? hm
      exact ⟨inside, rest, by rw [hc]; rfl, hn, rfl⟩
    · cases h

inductive IsArgument : Text → Prop
  | none : IsArgument []
  | some {inside : Text} : ')' ∉ inside → IsArgument ('(' :: inside ++ [')'])

def IsPseudoClass (t : Text) : Prop :=
  ∃ w argument, t = w ++ argument ∧ IsWord Char.isAlpha w ∧ IsArgument argument

theorem argumentReach_le (t : Text) : argumentReach t ≤ t.length := by
  unfold argumentReach
  split
  · rename_i rest
    split
    · rename_i n hn
      obtain ⟨before, after, rfl, -, rfl⟩ := eq_append_of_distance? hn
      simp only [List.length_cons, List.length_append]
      omega
    · exact Nat.zero_le _
  · exact Nat.zero_le _

theorem argument_of_argumentReach (t : Text) : IsArgument (t.take (argumentReach t)) := by
  unfold argumentReach
  split
  · rename_i rest
    split
    · rename_i n hn
      obtain ⟨before, after, rfl, hb, rfl⟩ := eq_append_of_distance? hn
      have ht : ('(' :: (before ++ ')' :: after)).take (before.length + 2) =
          '(' :: before ++ [')'] := by
        rw [List.take_succ_cons, List.take_append, List.take_of_length_le (Nat.le_succ _)]
        simp
      rw [ht]
      exact .some hb
    · exact .none
  · exact .none

theorem pseudoClass_of_pseudoClassReach {t : Text} {n : Nat} (h : pseudoClassReach t = some n) :
    ∃ w rest, t = ':' :: w ++ rest ∧ n = w.length + 1 ∧ IsPseudoClass w := by
  unfold pseudoClassReach at h
  split at h
  · rename_i t'
    obtain ⟨m, hm, rfl⟩ := Option.map_eq_some_iff.1 h
    obtain ⟨hw, hle, -⟩ := word_of_nameReach hm
    have harg := argument_of_argumentReach (t'.drop m)
    have hlen := argumentReach_le (t'.drop m)
    have hsplit : t'.take (m + argumentReach (t'.drop m)) =
        t'.take m ++ (t'.drop m).take (argumentReach (t'.drop m)) := List.take_add
    rw [List.length_drop] at hlen
    refine ⟨t'.take (m + argumentReach (t'.drop m)), t'.drop (m + argumentReach (t'.drop m)),
      ?_, ?_, _, _, hsplit, hw, harg⟩
    · rw [List.cons_append, List.take_append_drop]
    · rw [List.length_take_of_le (by omega)]
  · cases h

theorem pseudoElement_of_pseudoElementReach {t : Text} {n : Nat}
    (h : pseudoElementReach t = some n) :
    ∃ w rest, t = ':' :: ':' :: w ++ rest ∧ n = w.length + 2 ∧ IsWord Char.isAlpha w := by
  unfold pseudoElementReach at h
  split at h
  · rename_i t'
    obtain ⟨m, hm, rfl⟩ := Option.map_eq_some_iff.1 h
    obtain ⟨hw, hle, -⟩ := word_of_nameReach hm
    refine ⟨t'.take m, t'.drop m, ?_, ?_, hw⟩
    · rw [List.cons_append, List.cons_append, List.take_append_drop]
    · rw [List.length_take_of_le hle]
  · cases h

/-- A text that cannot go on a pseudo-class without an argument. -/
def EndsName (t : Text) : Prop := Stopped isNameChar t ∧ Stopped (· == '(') t

theorem argumentReach_ends {t : Text} (h : EndsName t) : argumentReach t = 0 := by
  cases t with
  | nil => rfl
  | cons c t =>
    have hc : c ≠ '(' := by simpa using stopped_cons.1 h.2
    simp [argumentReach, hc]

theorem argumentReach_closed {inside : Text} (h : ')' ∉ inside) (rest : Text) :
    argumentReach ('(' :: inside ++ ')' :: rest) = inside.length + 2 := by
  rw [List.cons_append, argumentReach, distance?_append h]

theorem nameReach_pseudoClass {w argument rest : Text} (hw : IsWord Char.isAlpha w)
    (ha : IsArgument argument) (hr : EndsName rest) :
    nameReach Char.isAlpha (w ++ argument ++ rest) = some w.length := by
  rw [List.append_assoc]
  refine nameReach_word hw ?_
  cases ha with
  | none => exact hr.1
  | some _ => exact stopped_cons.2 (by decide)

theorem argumentReach_argument {argument rest : Text} (ha : IsArgument argument)
    (hr : EndsName rest) : argumentReach (argument ++ rest) = argument.length := by
  cases ha with
  | none => exact argumentReach_ends hr
  | some hn =>
    rw [List.append_assoc, List.singleton_append, argumentReach_closed hn]
    simp

theorem pseudoClassReach_append {w rest : Text} (hw : IsPseudoClass w) (hr : EndsName rest) :
    pseudoClassReach (':' :: w ++ rest) = some (w.length + 1) := by
  obtain ⟨name, argument, rfl, hn, ha⟩ := hw
  have hdrop : (name ++ argument ++ rest).drop name.length = argument ++ rest := by
    rw [List.append_assoc, List.drop_left]
  rw [List.cons_append, pseudoClassReach, nameReach_pseudoClass hn ha hr, Option.map_some, hdrop,
    argumentReach_argument ha hr, List.length_append]

theorem pseudoElementReach_append {w rest : Text} (hw : IsWord Char.isAlpha w)
    (hr : Stopped isNameChar rest) :
    pseudoElementReach (':' :: ':' :: w ++ rest) = some (w.length + 2) := by
  rw [List.cons_append, List.cons_append, pseudoElementReach, nameReach_word hw hr]
  rfl

theorem charReach_le {p : Char → Bool} {t : Text} {n : Nat} (h : charReach p t = some n) :
    n ≤ t.length := by
  cases t with
  | nil => cases h
  | cons c t =>
    rw [((charReach_eq_some_iff (t := t)).1 h).2, List.length_cons]
    omega

theorem fractionReach_le (t : Text) : fractionReach t ≤ t.length := by
  unfold fractionReach
  split
  · rename_i rest
    split
    · exact Nat.zero_le _
    · exact Nat.succ_le_succ (run_le _ _)
  · exact Nat.zero_le _

theorem unsignedReach_le {t : Text} {n : Nat} (h : unsignedReach t = some n) : n ≤ t.length := by
  have hrun := run_le Char.isDigit t
  have hfrac := fractionReach_le (t.drop (run Char.isDigit t))
  rw [List.length_drop] at hfrac
  simp only [unsignedReach] at h
  split at h
  · cases h
  · cases h
    omega

theorem numberReach_le {t : Text} {n : Nat} (h : numberReach t = some n) : n ≤ t.length := by
  unfold numberReach at h
  split at h
  · obtain ⟨m, hm, rfl⟩ := Option.map_eq_some_iff.1 h
    exact Nat.succ_le_succ (unsignedReach_le hm)
  · exact unsignedReach_le h

theorem dimensionReach_le {t : Text} {n : Nat} (h : dimensionReach t = some n) :
    n ≤ t.length := by
  simp only [dimensionReach] at h
  split at h
  · cases h
  · rename_i m hm
    have hle := numberReach_le hm
    have hrun := run_le Char.isAlpha (t.drop m)
    have hlen := List.length_drop (i := m) (l := t)
    split at h
    · rename_i hd
      cases h
      rw [hd, List.length_cons] at hlen
      omega
    · split at h
      · cases h
      · cases h
        omega

theorem atKeywordReach_le {t : Text} {n : Nat} (h : atKeywordReach t = some n) :
    n ≤ t.length := by
  unfold atKeywordReach at h
  split at h
  · obtain ⟨m, hm, rfl⟩ := Option.map_eq_some_iff.1 h
    exact Nat.add_le_add_right (word_of_nameReach hm).2.1 2
  · obtain ⟨m, hm, rfl⟩ := Option.map_eq_some_iff.1 h
    exact Nat.add_le_add_right (word_of_nameReach hm).2.1 1
  · cases h

theorem enclosedReach_le {opener closer : Char} {t : Text} {n : Nat}
    (h : enclosedReach opener closer t = some n) : n ≤ t.length := by
  obtain ⟨inside, rest, rfl, -, rfl⟩ := closed_of_enclosedReach h
  simp only [List.length_append, List.length_cons]
  omega

theorem TokenKind.reach_le {k : TokenKind} {t : Text} {n : Nat} (h : k.reach t = some n) :
    n ≤ t.length := by
  cases k
  case important =>
    simp only [TokenKind.reach] at h
    split at h
    · rename_i hp
      cases h
      exact (List.isPrefixOf_iff_prefix.1 hp).length_le
    · cases h
  case atKeyword => exact atKeywordReach_le h
  case hash =>
    obtain ⟨w, rest, rfl, rfl, -⟩ := hashName_of_hashReach h
    simp
  case dimension => exact dimensionReach_le h
  case pseudoElement =>
    obtain ⟨w, rest, rfl, rfl, -⟩ := pseudoElement_of_pseudoElementReach h
    simp
  case pseudoClass =>
    obtain ⟨w, rest, rfl, rfl, -⟩ := pseudoClass_of_pseudoClassReach h
    simp
  case number => exact numberReach_le h
  case ident => exact (ident_of_identReach h).2
  case bracketed => exact enclosedReach_le h
  case stringLiteral => exact enclosedReach_le h
  case stringLiteralSingle => exact enclosedReach_le h
  all_goals exact charReach_le h

end ScopedStyle
