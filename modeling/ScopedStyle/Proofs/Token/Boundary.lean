import ScopedStyle.Proofs.Token.Pattern

/-!
# Boundaries

A space or a semicolon goes on no token that ends in front of it. So a token
that ends there is found again whatever stands behind the boundary, and also when
the one boundary is put in place of the other.
-/

namespace ScopedStyle
open Text

def isBoundary (c : Char) : Bool := c == ' ' || c == ';'

theorem isBoundary_iff {c : Char} : isBoundary c ↔ c = ' ' ∨ c = ';' := by
  simp [isBoundary]

def Inner (p : Char → Bool) : Prop := p ' ' = false ∧ p ';' = false

theorem Inner.apply {p : Char → Bool} (h : Inner p) {c : Char} (hc : isBoundary c) :
    p c = false := by
  rcases isBoundary_iff.1 hc with rfl | rfl
  · exact h.1
  · exact h.2

theorem inner_nameChar : Inner isNameChar := ⟨by decide, by decide⟩

theorem inner_nameStart : Inner isNameStart := ⟨by decide, by decide⟩

theorem inner_alpha : Inner Char.isAlpha := ⟨by decide, by decide⟩

theorem inner_digit : Inner Char.isDigit := ⟨by decide, by decide⟩

variable {c d : Char} {a b : Text}

theorem run_boundary {p : Char → Bool} (hp : Inner p) (hc : isBoundary c) (hd : isBoundary d)
    (x : Text) : run p (x ++ d :: b) = run p (x ++ c :: a) := by
  induction x with
  | nil => simp [run, hp.apply hc, hp.apply hd]
  | cons e x ih =>
    simp only [run, List.cons_append, List.takeWhile_cons] at ih ⊢
    split
    · rw [List.length_cons, List.length_cons, ih]
    · rfl

theorem run_boundary_le {p : Char → Bool} (hp : Inner p) (hc : isBoundary c) (x : Text) :
    run p (x ++ c :: a) ≤ x.length := by
  induction x with
  | nil => simp [run, hp.apply hc]
  | cons e x ih =>
    simp only [run, List.cons_append, List.takeWhile_cons] at ih ⊢
    split
    · exact Nat.succ_le_succ ih
    · exact Nat.zero_le _

theorem nameReach_boundary {start : Char → Bool} (hs : Inner start) (hc : isBoundary c)
    (hd : isBoundary d) (x : Text) :
    nameReach start (x ++ d :: b) = nameReach start (x ++ c :: a) := by
  cases x with
  | nil => simp [nameReach, hs.apply hc, hs.apply hd]
  | cons e x =>
    simp only [List.cons_append, nameReach]
    rw [run_boundary (a := a) inner_nameChar hc hd]

theorem nameReach_boundary_le {start : Char → Bool} {n : Nat} (hs : Inner start)
    (hc : isBoundary c) {x : Text} (h : nameReach start (x ++ c :: a) = some n) :
    n ≤ x.length := by
  cases x with
  | nil => simp [nameReach, hs.apply hc] at h
  | cons e x =>
    simp only [List.cons_append, nameReach] at h
    split at h
    · cases h
      exact Nat.succ_le_succ (run_boundary_le inner_nameChar hc x)
    · cases h

theorem drop_boundary {n : Nat} {x : Text} (h : n ≤ x.length) (t : Text) :
    (x ++ t).drop n = x.drop n ++ t := List.drop_append_of_le_length h

theorem boundary_ne {e : Char} (he : e ≠ ' ' ∧ e ≠ ';') (hc : isBoundary c) : c ≠ e := by
  rcases isBoundary_iff.1 hc with rfl | rfl
  · exact he.1.symm
  · exact he.2.symm

theorem identReach_boundary (hc : isBoundary c) (hd : isBoundary d) (x : Text) :
    identReach (x ++ d :: b) = identReach (x ++ c :: a) := by
  have hc' := boundary_ne (e := '-') (by decide) hc
  have hd' := boundary_ne (e := '-') (by decide) hd
  have key := fun y => nameReach_boundary (a := a) (b := b) inner_nameStart hc hd y
  match x with
  | [] => simpa [identReach, hc', hd'] using key []
  | [e] =>
    by_cases he : e = '-'
    · subst he
      have := key []
      simp only [List.nil_append] at this
      simp [identReach, hc', hd', this]
    · simpa [identReach, he] using key [e]
  | e :: f :: x =>
    by_cases he : e = '-'
    · subst he
      by_cases hf : f = '-'
      · subst hf
        simp [identReach, key x]
      · have := key (f :: x)
        simp only [List.cons_append] at this
        simp [identReach, hf, this]
    · simpa [identReach, he] using key (e :: f :: x)

theorem atKeywordReach_boundary (hc : isBoundary c) (hd : isBoundary d) (x : Text) (hx : x ≠ []) :
    atKeywordReach (x ++ d :: b) = atKeywordReach (x ++ c :: a) := by
  have hc' := boundary_ne (e := '-') (by decide) hc
  have hd' := boundary_ne (e := '-') (by decide) hd
  have key := fun y => nameReach_boundary (a := a) (b := b) inner_nameStart hc hd y
  match x, hx with
  | [e], _ =>
    by_cases he : e = '@'
    · subst he
      have := key []
      simp only [List.nil_append] at this
      simp [atKeywordReach, hc', hd', this]
    · simp [atKeywordReach, he]
  | e :: f :: x, _ =>
    by_cases he : e = '@'
    · subst he
      by_cases hf : f = '-'
      · subst hf
        simp [atKeywordReach, key x]
      · have := key (f :: x)
        simp only [List.cons_append] at this
        simp [atKeywordReach, hf, this]
    · simp [atKeywordReach, he]

theorem hashReach_boundary (hc : isBoundary c) (hd : isBoundary d) (x : Text) (hx : x ≠ []) :
    hashReach (x ++ d :: b) = hashReach (x ++ c :: a) := by
  obtain ⟨e, y, rfl⟩ := List.exists_cons_of_ne_nil hx
  by_cases he : e = '#'
  · subst he
    simp only [List.cons_append, hashReach]
    rw [run_boundary (a := a) inner_nameChar hc hd]
  · simp [hashReach, he]

theorem fractionReach_boundary (hc : isBoundary c) (hd : isBoundary d) (x : Text) :
    fractionReach (x ++ d :: b) = fractionReach (x ++ c :: a) := by
  have hc' := boundary_ne (e := '.') (by decide) hc
  have hd' := boundary_ne (e := '.') (by decide) hd
  cases x with
  | nil => simp [fractionReach, hc', hd']
  | cons e x =>
    by_cases he : e = '.'
    · subst he
      simp only [List.cons_append, fractionReach]
      rw [run_boundary (a := a) inner_digit hc hd]
    · simp [fractionReach, he]

theorem fractionReach_boundary_le (hc : isBoundary c) (x : Text) :
    fractionReach (x ++ c :: a) ≤ x.length := by
  have hc' := boundary_ne (e := '.') (by decide) hc
  cases x with
  | nil => simp [fractionReach, hc']
  | cons e x =>
    by_cases he : e = '.'
    · subst he
      simp only [List.cons_append, fractionReach]
      split
      · exact Nat.zero_le _
      · exact Nat.succ_le_succ (run_boundary_le inner_digit hc x)
    · simp [fractionReach, he]

theorem unsignedReach_boundary (hc : isBoundary c) (hd : isBoundary d) (x : Text) :
    unsignedReach (x ++ d :: b) = unsignedReach (x ++ c :: a) := by
  have hrun := run_boundary (a := a) (b := b) inner_digit hc hd x
  have hle := run_boundary_le (a := a) inner_digit hc x
  simp only [unsignedReach, hrun, drop_boundary hle]
  rw [fractionReach_boundary (a := a) hc hd]

theorem unsignedReach_boundary_le {n : Nat} (hc : isBoundary c) {x : Text}
    (h : unsignedReach (x ++ c :: a) = some n) : n ≤ x.length := by
  have hle := run_boundary_le (a := a) inner_digit hc x
  have hfrac := fractionReach_boundary_le (a := a) hc (x.drop (run Char.isDigit (x ++ c :: a)))
  rw [List.length_drop] at hfrac
  simp only [unsignedReach, drop_boundary hle] at h
  split at h
  · cases h
  · cases h
    omega

theorem numberReach_boundary (hc : isBoundary c) (hd : isBoundary d) (x : Text) :
    numberReach (x ++ d :: b) = numberReach (x ++ c :: a) := by
  have hc' := boundary_ne (e := '-') (by decide) hc
  have hd' := boundary_ne (e := '-') (by decide) hd
  have key := fun y => unsignedReach_boundary (a := a) (b := b) hc hd y
  cases x with
  | nil => simpa [numberReach, hc', hd'] using key []
  | cons e x =>
    by_cases he : e = '-'
    · subst he
      simp [numberReach, key x]
    · simpa [numberReach, he] using key (e :: x)

theorem numberReach_boundary_le {n : Nat} (hc : isBoundary c) {x : Text}
    (h : numberReach (x ++ c :: a) = some n) : n ≤ x.length := by
  have hc' := boundary_ne (e := '-') (by decide) hc
  cases x with
  | nil => exact unsignedReach_boundary_le hc (by simpa [numberReach, hc'] using h)
  | cons e x =>
    by_cases he : e = '-'
    · subst he
      obtain ⟨m, hm, rfl⟩ := Option.map_eq_some_iff.1 h
      exact Nat.succ_le_succ (unsignedReach_boundary_le hc hm)
    · exact unsignedReach_boundary_le (x := e :: x) hc (by simpa [numberReach, he] using h)

theorem dimensionReach_boundary (hc : isBoundary c) (hd : isBoundary d) (x : Text) :
    dimensionReach (x ++ d :: b) = dimensionReach (x ++ c :: a) := by
  have hc' := boundary_ne (e := '%') (by decide) hc
  have hd' := boundary_ne (e := '%') (by decide) hd
  rw [dimensionReach, dimensionReach, numberReach_boundary (a := a) hc hd]
  cases hn : numberReach (x ++ c :: a) with
  | none => rfl
  | some n =>
    have hle := numberReach_boundary_le hc hn
    simp only [drop_boundary hle]
    have hrun := fun y => run_boundary (a := a) (b := b) inner_alpha hc hd y
    cases x.drop n with
    | nil =>
      have := hrun []
      simp only [List.nil_append] at this
      simp [hc', hd', this]
    | cons e y =>
      by_cases he : e = '%'
      · simp [he]
      · have := hrun (e :: y)
        simp only [List.cons_append] at this
        simp [he, this]

theorem pseudoElementReach_boundary (hc : isBoundary c) (hd : isBoundary d) (x : Text)
    (hx : x ≠ []) : pseudoElementReach (x ++ d :: b) = pseudoElementReach (x ++ c :: a) := by
  have hc' := boundary_ne (e := ':') (by decide) hc
  have hd' := boundary_ne (e := ':') (by decide) hd
  match x, hx with
  | [e], _ => simp [pseudoElementReach, hc', hd']
  | e :: f :: x, _ =>
    by_cases he : e = ':' ∧ f = ':'
    · obtain ⟨rfl, rfl⟩ := he
      simp [pseudoElementReach, nameReach_boundary (a := a) inner_alpha hc hd x]
    · have hn : ∀ t, pseudoElementReach (e :: f :: t) = none := by
        intro t
        unfold pseudoElementReach
        split
        · rename_i heq
          cases heq
          exact absurd ⟨rfl, rfl⟩ he
        · rfl
      simp [hn]

theorem isPrefixOf_boundary {m : Text} (hm : ' ' ∉ m ∧ ';' ∉ m) (hc : isBoundary c) (x : Text) :
    m.isPrefixOf (x ++ c :: a) = m.isPrefixOf x := by
  induction m generalizing x with
  | nil => simp
  | cons e m ih =>
    have he : c ≠ e := by
      refine boundary_ne ⟨?_, ?_⟩ hc
      · rintro rfl
        exact hm.1 List.mem_cons_self
      · rintro rfl
        exact hm.2 List.mem_cons_self
    cases x with
    | nil => simp [List.isPrefixOf, Ne.symm he]
    | cons f x =>
      rw [List.cons_append, List.isPrefixOf_cons_cons, List.isPrefixOf_cons_cons,
        ih ⟨fun h => hm.1 (List.mem_cons_of_mem e h), fun h => hm.2 (List.mem_cons_of_mem e h)⟩]

theorem distance?_boundary {z : Char} {n : Nat} {y t : Text} (h : distance? z (y ++ t) = some n)
    (hn : n < y.length) (u : Text) : distance? z (y ++ u) = some n := by
  obtain ⟨before, after, ht, hz, rfl⟩ := eq_append_of_distance? h
  obtain ⟨y', rfl⟩ : ∃ y', y = before ++ z :: y' := by
    rcases List.append_eq_append_iff.1 ht with ⟨w, rfl, -⟩ | ⟨w, rfl, hw⟩
    · rw [List.length_append] at hn
      omega
    · cases w with
      | nil => simp at hn
      | cons e w =>
        cases hw
        exact ⟨w, rfl⟩
  rw [List.append_assoc, List.cons_append, distance?_append hz]

/-- The front of `x` is no opener whose closer lies behind the boundary. -/
structure Contained (x rest : Text) : Prop where
  nonempty : x ≠ []
  closed : runsAway (x ++ rest) = false
  within : ∀ (k : TokenKind) (n : Nat), k.reach (x ++ rest) = some n → n ≤ x.length

theorem distance?_of_mem {z : Char} {t : Text} (h : z ∈ t) : ∃ n, distance? z t = some n := by
  obtain ⟨before, after, rfl, hz⟩ := List.eq_append_cons_of_mem h
  exact ⟨before.length, distance?_append hz after⟩

theorem Contained.enclosed {k : TokenKind} {opener closer : Char} {y : Text}
    (h : Contained (opener :: y) (c :: a)) (hk : k.reach = enclosedReach opener closer)
    (hrun : ∀ t : Text, t ≠ [] → runsAway (opener :: t) = false → closer ∈ t) :
    ∃ n, distance? closer (y ++ c :: a) = some n ∧ n < y.length := by
  obtain ⟨n, hn⟩ := distance?_of_mem (hrun (y ++ c :: a) (by simp) h.closed)
  refine ⟨n, hn, ?_⟩
  have hle := h.within k (n + 2) (by rw [hk, List.cons_append, enclosedReach, if_pos rfl, hn]; rfl)
  rw [List.length_cons] at hle
  omega

theorem Contained.enclosedReach {k : TokenKind} {opener closer : Char} {x : Text}
    (h : Contained x (c :: a)) (hk : k.reach = enclosedReach opener closer)
    (hrun : ∀ t : Text, t ≠ [] → runsAway (opener :: t) = false → closer ∈ t) (t : Text) :
    enclosedReach opener closer (x ++ t) = enclosedReach opener closer (x ++ c :: a) := by
  obtain ⟨e, y, rfl⟩ := List.exists_cons_of_ne_nil h.nonempty
  rw [List.cons_append, List.cons_append, ScopedStyle.enclosedReach, ScopedStyle.enclosedReach]
  split
  · rename_i he
    subst he
    obtain ⟨n, hn, hlt⟩ := h.enclosed hk hrun
    rw [hn, distance?_boundary hn hlt]
  · rfl

theorem mem_of_runsAway_double {t : Text} (hne : t ≠ []) (h : runsAway ('"' :: t) = false) :
    '"' ∈ t := by
  simpa [runsAway, hne] using h

theorem mem_of_runsAway_single {t : Text} (hne : t ≠ []) (h : runsAway ('\'' :: t) = false) :
    '\'' ∈ t := by
  simpa [runsAway, hne] using h

theorem mem_of_runsAway_bracket {t : Text} (hne : t ≠ []) (h : runsAway ('[' :: t) = false) :
    ']' ∈ t := by
  simpa [runsAway, hne] using h

theorem Contained.argument {y z : Text} {n : Nat} (h : Contained (':' :: y) (c :: a))
    (hn : nameReach Char.isAlpha (y ++ c :: a) = some n) (hle : n ≤ y.length)
    (hz : y.drop n = '(' :: z) :
    ∃ m, distance? ')' (z ++ c :: a) = some m ∧ m < z.length := by
  have hdrop : (y ++ c :: a).drop n = '(' :: (z ++ c :: a) := by
    rw [drop_boundary hle, hz, List.cons_append]
  have hmem : ')' ∈ z ++ c :: a := by
    have hr := h.closed
    rw [List.cons_append] at hr
    simp only [runsAway, hn, hdrop, Bool.not_eq_false'] at hr
    exact List.contains_iff_mem.1 hr
  obtain ⟨m, hm⟩ := distance?_of_mem hmem
  have harg : argumentReach ('(' :: (z ++ c :: a)) = m + 2 := by rw [argumentReach, hm]
  have hreach : pseudoClassReach (':' :: (y ++ c :: a)) = some (n + (m + 2) + 1) := by
    rw [pseudoClassReach, hn, Option.map_some, hdrop, harg]
  have hwithin := h.within .pseudoClass _ hreach
  have hlen := congrArg List.length hz
  rw [List.length_drop, List.length_cons] at hlen
  rw [List.length_cons] at hwithin
  exact ⟨m, hm, by omega⟩

theorem Contained.pseudoClassReach {x : Text} (h : Contained x (c :: a)) (hc : isBoundary c)
    (hd : isBoundary d) :
    pseudoClassReach (x ++ d :: b) = pseudoClassReach (x ++ c :: a) := by
  obtain ⟨e, y, rfl⟩ := List.exists_cons_of_ne_nil h.nonempty
  -- the closer lies in `x`, so nothing behind the boundary is looked at
  by_cases he : e = ':'
  · subst he
    rw [List.cons_append, List.cons_append, ScopedStyle.pseudoClassReach,
      ScopedStyle.pseudoClassReach, nameReach_boundary (a := a) inner_alpha hc hd]
    cases hn : nameReach Char.isAlpha (y ++ c :: a) with
    | none => rfl
    | some n =>
      have hle := nameReach_boundary_le inner_alpha hc hn
      have hc' := boundary_ne (e := '(') (by decide) hc
      have hd' := boundary_ne (e := '(') (by decide) hd
      have harg : argumentReach ((y ++ d :: b).drop n) = argumentReach ((y ++ c :: a).drop n) := by
        rw [drop_boundary hle, drop_boundary hle]
        cases hz : y.drop n with
        | nil => simp [argumentReach, hc', hd']
        | cons f z =>
          by_cases hf : f = '('
          · subst hf
            obtain ⟨m, hm, hlt⟩ := h.argument hn hle hz
            rw [List.cons_append, List.cons_append, argumentReach, argumentReach, hm,
              distance?_boundary hm hlt]
          · simp [argumentReach, hf]
      rw [Option.map_some, Option.map_some, harg]
  · simp [ScopedStyle.pseudoClassReach, he]

theorem mem_of_distance? {z : Char} {y : Text}
    (h : ∃ n, distance? z (y ++ c :: a) = some n ∧ n < y.length) : z ∈ y ++ d :: b := by
  obtain ⟨n, hn, hlt⟩ := h
  obtain ⟨before, after, ht, -⟩ := eq_append_of_distance? (distance?_boundary hn hlt (d :: b))
  rw [ht]
  simp

theorem Contained.runsAway_colon {y : Text} (h : Contained (':' :: y) (c :: a))
    (hc : isBoundary c) (hd : isBoundary d) : runsAway (':' :: (y ++ d :: b)) = false := by
  have hname := nameReach_boundary (a := a) (b := b) inner_alpha hc hd y
  cases hn : nameReach Char.isAlpha (y ++ c :: a) with
  | none => simp only [ScopedStyle.runsAway, hname, hn]
  | some n =>
    have hle := nameReach_boundary_le inner_alpha hc hn
    simp only [ScopedStyle.runsAway, hname, hn, drop_boundary hle]
    cases hz : y.drop n with
    | nil => simp [boundary_ne (e := '(') (by decide) hd]
    | cons f z =>
      by_cases hf : f = '('
      · subst hf
        have hm : ')' ∈ z ++ d :: b := mem_of_distance? (h.argument hn hle hz)
        simp only [List.cons_append, List.contains_iff_mem.2 hm, Bool.not_true]
      · simp [hf]

theorem Contained.runsAway {x : Text} (h : Contained x (c :: a)) (hc : isBoundary c)
    (hd : isBoundary d) : runsAway (x ++ d :: b) = false := by
  obtain ⟨e, y, rfl⟩ := List.exists_cons_of_ne_nil h.nonempty
  rw [List.cons_append]
  by_cases h₁ : e = '"'
  · subst h₁
    have hm : '"' ∈ y ++ d :: b :=
      mem_of_distance? (h.enclosed (k := .stringLiteral) rfl fun _ => mem_of_runsAway_double)
    simp only [ScopedStyle.runsAway, List.contains_iff_mem.2 hm, Bool.not_true, Bool.and_false]
  · by_cases h₂ : e = '\''
    · subst h₂
      have hm : '\'' ∈ y ++ d :: b :=
        mem_of_distance?
          (h.enclosed (k := .stringLiteralSingle) rfl fun _ => mem_of_runsAway_single)
      simp only [ScopedStyle.runsAway, List.contains_iff_mem.2 hm, Bool.not_true, Bool.and_false]
    · by_cases h₃ : e = '['
      · subst h₃
        have hm : ']' ∈ y ++ d :: b :=
          mem_of_distance? (h.enclosed (k := .bracketed) rfl fun _ => mem_of_runsAway_bracket)
        simp only [ScopedStyle.runsAway, List.contains_iff_mem.2 hm, Bool.not_true, Bool.and_false]
      · by_cases h₄ : e = ':'
        · subst h₄
          exact h.runsAway_colon hc hd
        · simp [ScopedStyle.runsAway, h₁, h₂, h₃, h₄]

theorem Contained.reach {x : Text} (h : Contained x (c :: a)) (hc : isBoundary c)
    (hd : isBoundary d) (k : TokenKind) : k.reach (x ++ d :: b) = k.reach (x ++ c :: a) := by
  have hchar : ∀ p, charReach p (x ++ d :: b) = charReach p (x ++ c :: a) := by
    intro p
    obtain ⟨e, y, rfl⟩ := List.exists_cons_of_ne_nil h.nonempty
    rfl
  cases k
  case important =>
    have hm : ' ' ∉ importantMark ∧ ';' ∉ importantMark := by decide
    simp only [TokenKind.reach]
    rw [isPrefixOf_boundary hm hd, isPrefixOf_boundary hm hc]
  case atKeyword => exact atKeywordReach_boundary hc hd x h.nonempty
  case hash => exact hashReach_boundary hc hd x h.nonempty
  case dimension => exact dimensionReach_boundary hc hd x
  case pseudoElement => exact pseudoElementReach_boundary hc hd x h.nonempty
  case pseudoClass => exact h.pseudoClassReach hc hd
  case bracketed => exact h.enclosedReach (k := .bracketed) rfl (fun _ => mem_of_runsAway_bracket) _
  case stringLiteral =>
    exact h.enclosedReach (k := .stringLiteral) rfl (fun _ => mem_of_runsAway_double) _
  case stringLiteralSingle =>
    exact h.enclosedReach (k := .stringLiteralSingle) rfl (fun _ => mem_of_runsAway_single) _
  case number => exact numberReach_boundary hc hd x
  case ident => exact identReach_boundary hc hd x
  all_goals exact hchar _

theorem dimensionReach_boundary_le {n : Nat} (hc : isBoundary c) {x : Text}
    (h : dimensionReach (x ++ c :: a) = some n) : n ≤ x.length := by
  have hc' := boundary_ne (e := '%') (by decide) hc
  simp only [dimensionReach] at h
  split at h
  · cases h
  · rename_i m hm
    have hle := numberReach_boundary_le hc hm
    have hrun := run_boundary_le (a := a) inner_alpha hc (x.drop m)
    have hlen := List.length_drop (i := m) (l := x)
    rw [drop_boundary hle] at h
    split at h
    · rename_i more hd
      cases h
      rcases hx : x.drop m with - | ⟨e, y⟩
      · rw [hx] at hd
        cases hd
        exact absurd rfl hc'
      · rw [hx, List.length_cons] at hlen
        omega
    · split at h
      · cases h
      · cases h
        omega

theorem atKeywordReach_boundary_le {n : Nat} (hc : isBoundary c) {x : Text} (hx : x ≠ [])
    (h : atKeywordReach (x ++ c :: a) = some n) : n ≤ x.length := by
  have hc' := boundary_ne (e := '-') (by decide) hc
  match x, hx with
  | [e], _ =>
    by_cases he : e = '@'
    · subst he
      simp [atKeywordReach, hc', nameReach, inner_nameStart.apply hc] at h
    · simp [atKeywordReach, he] at h
  | e :: f :: x, _ =>
    by_cases he : e = '@'
    · subst he
      by_cases hf : f = '-'
      · subst hf
        obtain ⟨m, hm, rfl⟩ := Option.map_eq_some_iff.1 h
        exact Nat.add_le_add_right (nameReach_boundary_le inner_nameStart hc hm) 2
      · have hn : (nameReach isNameStart (f :: x ++ c :: a)).map (· + 1) = some n := by
          simpa [atKeywordReach, hf] using h
        obtain ⟨m, hm, rfl⟩ := Option.map_eq_some_iff.1 hn
        exact Nat.succ_le_succ (nameReach_boundary_le inner_nameStart hc hm)
    · simp [atKeywordReach, he] at h

theorem covered_space {s more x : Text} (h : x ++ ' ' :: a = s ++ more)
    (hl : s.length = x.length + 1) : s = x ++ [' '] := by
  rw [List.append_cons] at h
  exact (List.append_inj_left h (by simp [hl])).symm

theorem IsWord.no_space {start : Char → Bool} {w : Text} (hs : Inner start)
    (h : IsWord start w) : ' ' ∉ w := by
  obtain ⟨d, ds, rfl, hd, hds⟩ := h
  intro hm
  rcases List.mem_cons.1 hm with rfl | hm
  · rw [hs.1] at hd
    cases hd
  · exact absurd (hds _ hm) (by decide)

theorem enclosedReach_space {opener closer : Char} {x : Text} (hcl : closer ≠ ' ') :
    enclosedReach opener closer (x ++ ' ' :: a) ≠ some (x.length + 1) := by
  intro h
  obtain ⟨inside, more, he, -, hlen⟩ := closed_of_enclosedReach h
  rw [List.append_cons (opener :: inside)] at he
  have hs := covered_space he (by simp [hlen])
  exact hcl (List.cons.inj (List.append_inj_right' hs rfl)).1

theorem charReach_space {p : Char → Bool} {x : Text} (hp : p ' ' = false) :
    charReach p (x ++ ' ' :: a) ≠ some (x.length + 1) := by
  intro h
  cases x with
  | nil =>
    rw [((charReach_eq_some_iff (t := a)).1 h).1] at hp
    cases hp
  | cons e x =>
    have hone := ((charReach_eq_some_iff (t := x ++ ' ' :: a)).1 h).2
    simp at hone

theorem isPrefixOf_space {m x : Text} (hm : ' ' ∉ m) (hl : m.length = x.length + 1) :
    m.isPrefixOf (x ++ ' ' :: a) = false := by
  by_contra hp
  obtain ⟨more, he⟩ := List.isPrefixOf_iff_prefix.1 (Bool.of_not_eq_false hp)
  have hs := covered_space he.symm hl
  exact hm (by simp [hs])

theorem hashReach_space {x : Text} : hashReach (x ++ ' ' :: a) ≠ some (x.length + 1) := by
  intro h
  obtain ⟨w, more, he, hlen, hw⟩ := hashName_of_hashReach h
  have hs := covered_space he (by simp [hlen])
  have hmem : ' ' ∈ '#' :: w := by simp [hs]
  exact absurd (hw.2 ' ' (by simpa using hmem)) (by decide)

theorem pseudoElementReach_space {x : Text} :
    pseudoElementReach (x ++ ' ' :: a) ≠ some (x.length + 1) := by
  intro h
  obtain ⟨w, more, he, hlen, hw⟩ := pseudoElement_of_pseudoElementReach h
  have hs := covered_space he (by simp [hlen])
  have hmem : ' ' ∈ ':' :: ':' :: w := by simp [hs]
  exact hw.no_space inner_alpha (by simpa using hmem)

theorem pseudoClassReach_space {x : Text} :
    pseudoClassReach (x ++ ' ' :: a) ≠ some (x.length + 1) := by
  intro h
  obtain ⟨w, more, he, hlen, name, argument, rfl, hn, ha⟩ := pseudoClass_of_pseudoClassReach h
  have hs := covered_space he (by simp [hlen])
  cases ha with
  | none =>
    rw [List.append_nil] at hs
    have hmem : ' ' ∈ ':' :: name := by simp [hs]
    exact hn.no_space inner_alpha (by simpa using hmem)
  | some hi =>
    rw [← List.append_assoc, ← List.cons_append] at hs
    exact absurd (List.cons.inj (List.append_inj_right' hs rfl)).1 (by decide)

theorem identReach_space {x : Text} : identReach (x ++ ' ' :: a) ≠ some (x.length + 1) := by
  intro h
  obtain ⟨⟨dashes, w, he, hd, hw⟩, -⟩ := ident_of_identReach h
  rw [List.append_cons, List.take_left' (by simp)] at he
  have hmem : ' ' ∈ dashes ++ w := by simp [← he]
  rcases List.mem_append.1 hmem with hm | hm
  · rcases hd with rfl | rfl | rfl <;> simp at hm
  · exact hw.no_space inner_nameStart hm

theorem TokenKind.reach_space {k : TokenKind} {x : Text} :
    k.reach (x ++ ' ' :: a) ≠ some (x.length + 1) := by
  have hspace : isBoundary ' ' := by decide
  intro h
  cases k
  case important =>
    simp only [TokenKind.reach] at h
    split at h
    · rename_i hp
      rw [isPrefixOf_space (by decide) (Option.some.inj h)] at hp
      cases hp
    · cases h
  case atKeyword =>
    cases x with
    | nil => cases h
    | cons e x =>
      have := atKeywordReach_boundary_le hspace (by simp) h
      omega
  case hash => exact hashReach_space h
  case dimension =>
    have := dimensionReach_boundary_le hspace h
    omega
  case pseudoElement => exact pseudoElementReach_space h
  case pseudoClass => exact pseudoClassReach_space h
  case number =>
    have := numberReach_boundary_le hspace h
    omega
  case ident => exact identReach_space h
  case bracketed => exact enclosedReach_space (by decide) h
  case stringLiteral => exact enclosedReach_space (by decide) h
  case stringLiteralSingle => exact enclosedReach_space (by decide) h
  all_goals exact charReach_space (by decide) h

end ScopedStyle
