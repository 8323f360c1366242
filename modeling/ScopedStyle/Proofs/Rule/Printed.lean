import ScopedStyle.Proofs.Rule.WellFormed

/-!
# The tokens of canonical text

The canonical text of each part of a well-formed rule is spelled by tokens that
this part derives. So the canonical text of a well-formed rule is read as that
rule again.
-/

namespace ScopedStyle
open Text

/-- A row of tokens that spells a text in front of whatever cannot go on a name. -/
structure Printed (t : Text) (us : List Token) : Prop where
  source : sources us = t
  spells : ∀ rest, EndsName rest → Spells us rest

theorem endsName_nil : EndsName [] := ⟨stopped_nil _, stopped_nil _⟩

theorem endsName_cons {c : Char} {t : Text} (hc : isNameChar c = false) (hp : c ≠ '(') :
    EndsName (c :: t) :=
  ⟨stopped_cons.2 hc, stopped_cons.2 (by simpa using hp)⟩

theorem EndsName.append {a b : Text} (ha : EndsName a) (hb : EndsName b) : EndsName (a ++ b) :=
  ⟨ha.1.append hb.1, ha.2.append hb.2⟩

theorem endsName_flatMap {α : Type} {f : α → Text} {xs : List α} (h : ∀ x ∈ xs, EndsName (f x)) :
    EndsName (xs.flatMap f) := by
  induction xs with
  | nil => exact endsName_nil
  | cons x xs ih =>
    rw [List.flatMap_cons]
    exact (h x List.mem_cons_self).append (ih fun y hy => h y (List.mem_cons_of_mem x hy))

theorem printed_nil : Printed [] [] := ⟨rfl, fun _ _ => trivial⟩

theorem printed_token {k : TokenKind} {t gap : Text}
    (h : ∀ rest, EndsName rest → Lexes ⟨k, t, gap⟩ rest) : Printed (gap ++ t) [⟨k, t, gap⟩] := by
  refine ⟨?_, fun rest hr => ⟨h rest hr, trivial⟩⟩
  rw [sources_cons, sources_nil, List.append_nil]
  rfl

theorem Printed.append {a b : Text} {us vs : List Token} (ha : Printed a us) (hb : Printed b vs)
    (he : EndsName b) : Printed (a ++ b) (us ++ vs) := by
  refine ⟨?_, fun rest hr => spells_append.2 ⟨?_, hb.spells rest hr⟩⟩
  · rw [sources_append, ha.source, hb.source]
  · rw [hb.source]
    exact ha.spells _ (he.append hr)

theorem Test.endsName (t : Test) : EndsName t.render := by
  cases t with
  | hasClass name => exact endsName_cons (by decide) (by decide)
  | hasId name => exact endsName_cons (by decide) (by decide)
  | hasAttr raw => exact endsName_cons (by decide) (by decide)
  | pseudoClass name => exact endsName_cons (by decide) (by decide)
  | pseudoElement name => exact endsName_cons (by decide) (by decide)

theorem Combinator.endsName (k : Combinator) (t : Text) : EndsName (k.render ++ t) := by
  cases k with
  | descendant => exact endsName_cons (by decide) (by decide)
  | child => exact endsName_cons (by decide) (by decide)
  | nextSibling => exact endsName_cons (by decide) (by decide)
  | subsequentSibling => exact endsName_cons (by decide) (by decide)

theorem IsIdent.stopped_digit {w : Text} (h : IsIdent w) (rest : Text) :
    Stopped Char.isDigit (w ++ rest) := by
  obtain ⟨dashes, w, rfl, hd, c, cs, rfl, hc, -⟩ := h
  rcases hd with rfl | rfl | rfl
  · exact stopped_cons.2 (nameStart_not_digit hc)
  · exact stopped_cons.2 (by decide)
  · exact stopped_cons.2 (by decide)

theorem printed_ident {w gap : Text} (h : IsIdent w) (hg : IsGap gap) :
    Printed (gap ++ w) [⟨.ident, w, gap⟩] :=
  printed_token fun _ hr => lexes_ident h hg hr.1

theorem bracketInside_trimmed {raw : Text} (h : trim raw = raw) :
    bracketInside ('[' :: raw ++ [']']) = raw := by
  rw [bracketInside, List.cons_append, List.drop_one, List.tail_cons, List.dropLast_concat, h]

theorem printed_test {t : Test} {gap : Text} (h : t.WellFormed) (hg : IsGap gap) :
    ∃ tok us, tok.gap = gap ∧ DerivesTest t (tok :: us) ∧
      Printed (gap ++ t.render) (tok :: us) := by
  cases t with
  | hasClass name =>
    have hd := @DerivesTest.hasClass ⟨.dot, ['.'], gap⟩ ⟨.ident, name, []⟩ rfl rfl rfl
    have hname := printed_ident h isGap_nil
    refine ⟨_, _, rfl, hd, ?_, fun rest hr => ⟨lexes_dot hg ?_, hname.spells rest hr⟩⟩
    · rw [sources_cons, hname.source]
      simp [Token.source, Test.render]
    · rw [hname.source]
      exact IsIdent.stopped_digit h rest
  | hasId name =>
    have hd := @DerivesTest.hasId ⟨.hash, '#' :: name, gap⟩ rfl
    exact ⟨_, [], rfl, hd, printed_token fun _ hr => lexes_hash h hg hr.1⟩
  | hasAttr raw =>
    obtain ⟨hne, ht, hb, -⟩ := h
    have hi := bracketInside_trimmed ht
    have hd := @DerivesTest.hasAttr ⟨.bracketed, '[' :: raw ++ [']'], gap⟩ rfl (by rwa [hi])
    rw [hi] at hd
    exact ⟨_, [], rfl, hd, printed_token fun rest _ => lexes_bracketed hb hg rest⟩
  | pseudoClass name =>
    have hd := @DerivesTest.pseudoClass ⟨.pseudoClass, ':' :: name, gap⟩ rfl
    exact ⟨_, [], rfl, hd, printed_token fun _ hr => lexes_pseudoClass h.1 hg hr⟩
  | pseudoElement name =>
    have hd := @DerivesTest.pseudoElement ⟨.pseudoElement, ':' :: ':' :: name, gap⟩ rfl
    exact ⟨_, [], rfl, hd, printed_token fun _ hr => lexes_pseudoElement h hg hr.1⟩

theorem printed_tests {tests : List Test} (h : ∀ t ∈ tests, t.WellFormed) :
    ∃ us, DerivesTests tests us ∧ Printed (tests.flatMap Test.render) us := by
  induction tests with
  | nil => exact ⟨[], .nil, printed_nil⟩
  | cons t tests ih =>
    obtain ⟨tok, us, hgap, hd, hp⟩ := printed_test (h t List.mem_cons_self) isGap_nil
    obtain ⟨vs, hds, hps⟩ := ih fun u hu => h u (List.mem_cons_of_mem t hu)
    refine ⟨tok :: us ++ vs, .cons (by rw [Token.touches, hgap]; rfl) hd hds, ?_⟩
    rw [List.flatMap_cons]
    exact hp.append hps (endsName_flatMap fun u _ => u.endsName)

theorem printed_compound {c : Compound} {gap : Text} (h : c.WellFormed) (hg : IsGap gap) :
    ∃ tok us, tok.gap = gap ∧ DerivesCompound c (tok :: us) ∧
      Printed (gap ++ c.render) (tok :: us) := by
  have hends : ∀ tests : List Test, EndsName (tests.flatMap Test.render) :=
    fun tests => endsName_flatMap fun t _ => t.endsName
  cases c with
  | tagged tag tests =>
    obtain ⟨us, hds, hps⟩ := printed_tests h.tests
    cases tag with
    | named name =>
      have hd := @DerivesCompound.named ⟨.ident, name, gap⟩ tests us rfl hds
      refine ⟨_, us, rfl, hd, ?_⟩
      have hp := (printed_ident (h.tag name rfl) hg).append hps (hends tests)
      rwa [List.append_assoc] at hp
    | any =>
      refine ⟨⟨.star, ['*'], gap⟩, us, rfl, .any rfl hds, ?_⟩
      have hstar : Printed (gap ++ ['*']) [⟨.star, ['*'], gap⟩] :=
        printed_token fun rest _ => lexes_mark (by decide) hg rest
      have hp := hstar.append hps (hends tests)
      rwa [List.append_assoc] at hp
  | untagged first others =>
    obtain ⟨tok, us, hgap, hd, hp⟩ := printed_test (h.tests first List.mem_cons_self) hg
    obtain ⟨vs, hds, hps⟩ := printed_tests fun t ht => h.tests t (List.mem_cons_of_mem first ht)
    refine ⟨tok, us ++ vs, hgap, .untagged hd hds, ?_⟩
    have hp := hp.append hps (hends others)
    rwa [List.append_assoc] at hp

theorem printed_link {link : Combinator × Compound} (h : link.2.WellFormed) :
    ∃ us, DerivesLink link us ∧ Printed (link.1.render ++ link.2.render) us := by
  obtain ⟨k, c⟩ := link
  obtain ⟨tok, us, hgap, hd, hp⟩ := printed_compound h isGap_space
  have hsign : ∀ (kind : TokenKind) (sign : Char), (kind, sign) ∈ marks →
      kind.combinator? = some k → k.render = [' ', sign, ' '] →
      ∃ us, DerivesLink (k, c) us ∧ Printed (k.render ++ c.render) us := by
    intro kind sign hm hk hr
    have hmark : Printed ([' '] ++ [sign]) [⟨kind, [sign], [' ']⟩] :=
      printed_token fun rest _ => lexes_mark hm isGap_space rest
    have hends : EndsName ([' '] ++ c.render) := endsName_cons (by decide) (by decide)
    refine ⟨⟨kind, [sign], [' ']⟩ :: tok :: us, .sign hk hd, ?_⟩
    rw [hr]
    exact hmark.append hp hends
  cases k with
  | descendant =>
    refine ⟨tok :: us, .blank hd (endsTests_cons.2 fun ht => ?_), hp⟩
    rw [Token.touches, hgap] at ht
    cases ht
  | child => exact hsign .greaterThan '>' (by decide) rfl rfl
  | nextSibling => exact hsign .plus '+' (by decide) rfl rfl
  | subsequentSibling => exact hsign .tilde '~' (by decide) rfl rfl

theorem printed_links {links : List (Combinator × Compound)}
    (h : ∀ link ∈ links, link.2.WellFormed) :
    ∃ us, DerivesLinks links us ∧
      Printed (links.flatMap fun link => link.1.render ++ link.2.render) us := by
  induction links with
  | nil => exact ⟨[], .nil, printed_nil⟩
  | cons link links ih =>
    obtain ⟨us, hd, hp⟩ := printed_link (h link List.mem_cons_self)
    obtain ⟨vs, hds, hps⟩ := ih fun l hl => h l (List.mem_cons_of_mem link hl)
    refine ⟨us ++ vs, .cons hd hds, ?_⟩
    rw [List.flatMap_cons]
    exact hp.append hps (endsName_flatMap fun l _ => l.1.endsName _)

theorem printed_selector {s : Selector} {gap : Text} (h : s.WellFormed) (hg : IsGap gap) :
    ∃ us, DerivesSelector s us ∧ Printed (gap ++ s.render) us := by
  obtain ⟨tok, us, -, hd, hp⟩ := printed_compound (h s.head List.mem_cons_self) hg
  obtain ⟨vs, hds, hps⟩ := printed_links fun link hl =>
    h link.2 (List.mem_cons_of_mem _ (List.mem_map_of_mem hl))
  refine ⟨tok :: us ++ vs, .mk hd hds, ?_⟩
  have hp := hp.append hps (endsName_flatMap fun l _ => l.1.endsName _)
  rwa [List.append_assoc] at hp

theorem printed_more {more : List Selector} (h : ∀ s ∈ more, s.WellFormed) :
    ∃ us, DerivesMore more us ∧
      Printed (more.flatMap fun s => ',' :: ' ' :: s.render) us := by
  induction more with
  | nil => exact ⟨[], .nil, printed_nil⟩
  | cons s more ih =>
    obtain ⟨us, hd, hp⟩ := printed_selector (h s List.mem_cons_self) isGap_space
    obtain ⟨vs, hds, hps⟩ := ih fun u hu => h u (List.mem_cons_of_mem s hu)
    have hcomma : Printed ([] ++ [',']) [⟨.comma, [','], []⟩] :=
      printed_token fun rest _ => lexes_mark (by decide) isGap_nil rest
    have hfirst := hcomma.append hp (endsName_cons (by decide) (by decide))
    refine ⟨⟨.comma, [','], []⟩ :: us ++ vs, .cons rfl hd hds, ?_⟩
    rw [List.flatMap_cons]
    exact hfirst.append hps (endsName_flatMap fun u _ => endsName_cons (by decide) (by decide))

theorem printed_selectors {r : Rule} (h : r.Shaped) :
    ∃ us, DerivesSelectors r.selectors us ∧
      Printed (List.intercalate [',', ' '] (r.selectors.map Selector.render)) us := by
  obtain ⟨s, more, hs⟩ := List.exists_cons_of_ne_nil h.nonempty
  have hw : ∀ u ∈ s :: more, u.WellFormed := fun u hu => h.selectors u (by rw [hs]; exact hu)
  obtain ⟨us, hd, hp⟩ := printed_selector (hw s List.mem_cons_self) isGap_nil
  obtain ⟨vs, hds, hps⟩ := printed_more fun u hu => hw u (List.mem_cons_of_mem s hu)
  rw [hs, render_selectors]
  refine ⟨us ++ vs, .mk hd hds, ?_⟩
  exact hp.append hps (endsName_flatMap fun u _ => endsName_cons (by decide) (by decide))

theorem isBlank_of_isGap {c : Char} (h : isGap c) : isBlank c := by
  simp only [isGap, Bool.or_eq_true, beq_iff_eq] at h
  rcases h with (((rfl | rfl) | rfl) | rfl) | rfl <;> decide

theorem Lexes.gap_blank {t : Token} {rest : Text} (h : Lexes t rest) : Blank t.gap :=
  fun c hc => isBlank_of_isGap ((found_of_lexes h).gap c hc)

theorem Lexes.regap {t : Token} {gap rest : Text} (h : Lexes t rest) (hg : IsGap gap) :
    Lexes ⟨t.kind, t.text, gap⟩ rest := by
  have hf := found_of_lexes h
  exact lexes_of_found ⟨hg, hf.front, hf.closed, hf.longest⟩

theorem balanced_regap {depth : Nat} {t : Token} {ts : List Token} {gap : Text}
    (h : Balanced depth (t :: ts)) : Balanced depth (⟨t.kind, t.text, gap⟩ :: ts) := by
  obtain ⟨ha, hb⟩ := balanced_cons.1 h
  exact balanced_cons.2 ⟨⟨ha.braceless, ha.closing, ha.inside⟩, hb⟩

theorem gap_of_lexemes_nil {t : Text} (h : lexemes t = []) : IsGap t := by
  cases hn : nextLexeme? t with
  | some p => rw [lexemes_of_some hn] at h; cases h
  | none =>
    unfold nextLexeme? at hn
    split at hn
    · rename_i hd
      exact List.dropWhile_eq_nil_iff.1 hd
    · cases hn

theorem lexes_semicolon {t : Token} {rest : Text} (h : Lexes t rest) (hk : t.kind = .semicolon) :
    t.text = [';'] := by
  have hf := found_of_lexes h
  obtain ⟨c, text, htext, -⟩ := hf.front
  have hreach := reach_of_longest hf.longest
  rw [hk, htext, List.cons_append] at hreach
  obtain ⟨hc, hlen⟩ := (charReach_eq_some_iff (t := text ++ rest)).1 hreach
  rw [htext, beq_iff_eq.1 hc, List.eq_nil_of_length_eq_zero (Nat.succ.inj hlen)]

theorem gap_of_semicolon {t : Text} {gap rest : Text} (h : t ++ [';'] = gap ++ ';' :: rest)
    (hr : IsGap rest) : t = gap ∧ rest = [] := by
  rcases List.eq_nil_or_concat rest with rfl | ⟨more, c, rfl⟩
  · exact ⟨List.append_cancel_right h, rfl⟩
  · have hc := hr c (by simp)
    rw [List.concat_eq_append, ← List.cons_append, ← List.append_assoc] at h
    obtain rfl : ';' = c := (List.cons.inj (List.append_inj_right' h rfl)).1
    exact absurd hc (by decide)

theorem IsValue.spelled {v : Text} (h : IsValue v) :
    ∃ ts, sources ts = v ∧ Balanced 0 ts ∧ Spells ts [';'] := by
  obtain ⟨ts, last, hlex, hk, hb⟩ := h.lexes
  have hlex' : lexemes (v ++ [';']) = (ts ++ [last]).map .token ++ [] := by
    rw [hlex, List.append_nil]
  obtain ⟨rest, hv, hs, hrest⟩ := spells_of_lexemes hlex'
  obtain ⟨hts, hlast, -⟩ := spells_append.1 hs
  have htext := lexes_semicolon hlast hk
  have hend : v ++ [';'] = (sources ts ++ last.gap) ++ ';' :: rest := by
    rw [hv, sources_append, sources_cons, sources_nil, Token.source, htext]
    simp
  obtain ⟨hval, rfl⟩ := gap_of_semicolon hend (gap_of_lexemes_nil hrest)
  have hgap : last.gap = [] := back_of_trimmed (hval ▸ h.trimmed) hlast.gap_blank
  refine ⟨ts, by rw [hval, hgap, List.append_nil], hb, ?_⟩
  have hsource : sources [last] ++ [] = [';'] := by
    rw [sources_cons, sources_nil, Token.source, hgap, htext]
    rfl
  rwa [hsource] at hts

theorem IsValue.spelled_spaced {v : Text} (h : IsValue v) :
    ∃ vs, sources vs = ' ' :: v ∧ Balanced 0 vs ∧
      ∀ (c : Char) (rest : Text), isBoundary c → Spells vs (c :: rest) := by
  obtain ⟨ts, hsrc, hb, hs⟩ := h.spelled
  cases ts with
  | nil => exact absurd hsrc.symm h.nonempty
  | cons t ts =>
    have hgap : t.gap = [] := by
      have htrim := h.trimmed
      rw [← hsrc, sources_cons, Token.source, List.append_assoc] at htrim
      exact front_of_trimmed htrim hs.1.gap_blank
    refine ⟨⟨t.kind, t.text, [' ']⟩ :: ts, ?_, balanced_regap hb, ?_⟩
    · rw [← hsrc, sources_cons, sources_cons, Token.source, Token.source, hgap]
      rfl
    · intro c rest hc
      have hs : Spells (t :: ts) (c :: rest) := hs.boundary (by decide) hc
      exact ⟨hs.1.regap isGap_space, hs.2⟩

theorem spells_property {p : Text} (h : IsIdent p) (rest : Text) :
    Spells [⟨.ident, p, [' ']⟩, ⟨.colon, [':'], []⟩] (' ' :: rest) := by
  refine ⟨lexes_ident h isGap_space (stopped_cons.2 (by decide)), ?_, trivial⟩
  exact lexes_colon isGap_nil

def semicolonToken : Token := ⟨.semicolon, [';'], []⟩

def markTokens : Bool → List Token
  | true => [⟨.important, importantMark, [' ']⟩]
  | false => []

theorem derives_markTokens (important : Bool) : DerivesMark important (markTokens important) := by
  cases important with
  | true => exact .important rfl
  | false => exact .plain

theorem sources_end (important : Bool) :
    sources (markTokens important ++ [semicolonToken]) =
      (if important then importantSuffix else []) ++ [';'] := by
  cases important <;> rfl

theorem spells_end (important : Bool) (rest : Text) :
    Spells (markTokens important ++ [semicolonToken]) rest := by
  have hend : Lexes semicolonToken rest := lexes_mark (by decide) isGap_nil rest
  cases important with
  | true => exact ⟨lexes_important isGap_space _, hend, trivial⟩
  | false => exact ⟨hend, trivial⟩

theorem boundary_end (important : Bool) (rest : Text) :
    ∃ c more, isBoundary c ∧
      sources (markTokens important ++ [semicolonToken]) ++ rest = c :: more := by
  cases important with
  | true => exact ⟨' ', _, by decide, rfl⟩
  | false => exact ⟨';', _, by decide, rfl⟩

theorem printed_declaration {d : Declaration} (hp : IsIdent d.property) (hv : IsValue d.value) :
    ∃ us, DerivesDeclaration d us ∧ sources (us ++ [semicolonToken]) = ' ' :: d.render ∧
      ∀ rest, Spells (us ++ [semicolonToken]) rest := by
  obtain ⟨vs, hsrc, hb, hs⟩ := hv.spelled_spaced
  have hvalue : trim ([] ++ sources vs) = d.value := by
    rw [List.nil_append, hsrc]
    exact (trim_blank_append blank_space d.value).trans hv.trimmed
  have hne : trim ([] ++ sources vs) ≠ [] := by
    rw [hvalue]
    exact hv.nonempty
  have hd := @DerivesDeclaration.mk ⟨.ident, d.property, [' ']⟩ ⟨.colon, [':'], []⟩ [] vs
    (markTokens d.important) d.important rfl (.colon rfl) hb hne (derives_markTokens _)
  rw [hvalue] at hd
  refine ⟨_, hd, ?_, fun rest => ?_⟩
  · have hend := sources_end d.important
    simp only [List.cons_append, List.append_assoc, sources_cons, sources_append] at hend ⊢
    rw [hend, hsrc, Declaration.render]
    simp [Token.source]
  · obtain ⟨c, more, hc, hrest⟩ := boundary_end d.important rest
    have htail : Spells (vs ++ (markTokens d.important ++ [semicolonToken])) rest := by
      refine spells_append.2 ⟨?_, spells_end d.important rest⟩
      rw [hrest]
      exact hs c more hc
    have hspaced : sources (vs ++ (markTokens d.important ++ [semicolonToken])) ++ rest =
        ' ' :: (d.value ++ (c :: more)) := by
      rw [sources_append, List.append_assoc, hrest, hsrc]
      rfl
    have hfront := spells_property hp (d.value ++ c :: more)
    rw [← hspaced] at hfront
    have := spells_append.2 ⟨hfront, htail⟩
    simpa using this

theorem printed_declarations {ds : List Declaration} (hp : ∀ d ∈ ds, IsIdent d.property)
    (hv : ∀ d ∈ ds, IsValue d.value) :
    ∃ us, DerivesDeclarations ds us ∧ sources us = ds.flatMap (' ' :: Declaration.render ·) ∧
      ∀ rest, Spells us rest := by
  induction ds with
  | nil => exact ⟨[], .nil, rfl, fun _ => trivial⟩
  | cons d ds ih =>
    obtain ⟨us, hd, hsrc, hs⟩ :=
      printed_declaration (hp d List.mem_cons_self) (hv d List.mem_cons_self)
    obtain ⟨vs, hds, hsrcs, hss⟩ := ih (fun e he => hp e (List.mem_cons_of_mem d he))
      fun e he => hv e (List.mem_cons_of_mem d he)
    have happ : us ++ semicolonToken :: vs = us ++ [semicolonToken] ++ vs := by simp
    refine ⟨us ++ semicolonToken :: vs, .cons hd rfl hds, ?_, fun rest => ?_⟩
    · rw [happ, sources_append, hsrc, hsrcs, List.flatMap_cons]
    · rw [happ]
      exact spells_append.2 ⟨hs _, hss rest⟩

theorem spells_brace {k : TokenKind} {c : Char} (h : (k, c) ∈ marks) (rest : Text) :
    Spells [⟨k, [c], [' ']⟩] rest :=
  ⟨lexes_mark h isGap_space _, trivial⟩

theorem printed_rule {r : Rule} (h : r.WellFormed) :
    ∃ us, DerivesRule r us ∧ sources us = r.render ∧ Spells us [] := by
  obtain ⟨us, hsel, hp⟩ := printed_selectors h.toShaped
  obtain ⟨vs, hds, hsrc, hs⟩ := printed_declarations h.properties h.values
  have hd := @DerivesRule.mk _ _ ⟨.braceOpen, ['{'], [' ']⟩ ⟨.braceClose, ['}'], [' ']⟩ us vs
    hsel rfl hds rfl
  refine ⟨_, hd, ?_, ?_⟩
  · rw [sources_append, sources_cons, sources_append, hsrc, hp.source, Rule.render]
    simp [Token.source]
  · refine spells_append.2 ⟨hp.spells _ (endsName_cons (by decide) (by decide)), ?_⟩
    have hopen : (TokenKind.braceOpen, '{') ∈ marks := by decide
    have hclose : (TokenKind.braceClose, '}') ∈ marks := by decide
    have hblock := spells_append.2 ⟨hs _, spells_brace hclose []⟩
    exact spells_append.2 ⟨spells_brace hopen _, hblock⟩

theorem lexemes_render {r : Rule} (h : r.WellFormed) :
    ∃ us : List Token, lexemes r.render = us.map .token ∧ DerivesRule r us := by
  obtain ⟨us, hd, hsrc, hs⟩ := printed_rule h
  refine ⟨us, ?_, hd⟩
  rw [← hsrc, lexemes_sources hs]

theorem parse_render {r : Rule} (h : r.WellFormed) : Rule.parse r.render = .ok r := by
  obtain ⟨us, hlex, hd⟩ := lexemes_render h
  refine parse_eq_ok_iff.2 ⟨us, ?_, hd⟩
  rw [stripComments_clean h.clean_render, hlex]

theorem isIdent_of_reach {w : Text} (h : identReach w = some w.length) : IsIdent w := by
  have hw := (ident_of_identReach h).1
  rwa [List.take_length] at hw

def negatedElement : Compound :=
  .tagged (.named ['a']) [.hasClass ['x'], .pseudoClass "not(.b)".toList]

theorem wellFormed_negatedElement : negatedElement.WellFormed := by
  have hnot : IsPseudoClass "not(.b)".toList :=
    ⟨"not".toList, "(.b)".toList, rfl, ⟨'n', "ot".toList, rfl, rfl, List.all_eq_true.1 rfl⟩,
      @IsArgument.some ".b".toList (by decide)⟩
  refine ⟨fun name hname => ?_, fun t ht => ?_⟩
  · cases hname
    exact isIdent_of_reach rfl
  · rcases List.mem_cons.1 ht with rfl | ht
    · exact isIdent_of_reach rfl
    · rw [List.mem_singleton.1 ht]
      exact ⟨hnot, clean_of_not_mem (by decide)⟩

def numberedElement : Compound := .untagged (.hasId ['7']) [.hasAttr "k=v".toList]

theorem wellFormed_numberedElement : numberedElement.WellFormed := by
  refine ⟨by simp [Compound.tag?, numberedElement], fun t ht => ?_⟩
  rcases List.mem_cons.1 ht with rfl | ht
  · exact ⟨by decide, List.all_eq_true.1 rfl⟩
  · rw [List.mem_singleton.1 ht]
    exact ⟨by decide, by decide, by decide, clean_of_not_mem (by decide)⟩

def markedElement : Compound := .tagged .any [.pseudoElement "before".toList]

theorem wellFormed_markedElement : markedElement.WellFormed := by
  refine ⟨by simp [Compound.tag?, markedElement], fun t ht => ?_⟩
  rw [List.mem_singleton.1 ht]
  exact ⟨'b', "efore".toList, rfl, rfl, List.all_eq_true.1 rfl⟩

def groupedValue : Text := "f(a;b) 1px".toList

theorem isValue_groupedValue : IsValue groupedValue :=
  ⟨by decide, by decide +kernel,
    [⟨.ident, ['f'], []⟩, ⟨.parenOpen, ['('], []⟩, ⟨.ident, ['a'], []⟩, semicolonToken,
      ⟨.ident, ['b'], []⟩, ⟨.parenClose, [')'], []⟩, ⟨.dimension, "1px".toList, [' ']⟩],
    semicolonToken, by decide +kernel, rfl, by decide⟩

def groupedRule : Rule :=
  ⟨[⟨negatedElement, [(.child, numberedElement), (.descendant, markedElement)]⟩],
    [⟨"--w".toList, groupedValue, true⟩]⟩

theorem wellFormed_groupedRule : groupedRule.WellFormed := by
  refine ⟨⟨by simp [groupedRule], fun s hs => ?_, fun d hd => ?_, fun d hd => ?_⟩, fun d hd => ?_⟩
  · rw [List.mem_singleton.1 hs]
    intro c hc
    rcases List.mem_cons.1 hc with rfl | hc
    · exact wellFormed_negatedElement
    · rcases List.mem_cons.1 hc with rfl | hc
      · exact wellFormed_numberedElement
      · rw [List.mem_singleton.1 hc]
        exact wellFormed_markedElement
  · rw [List.mem_singleton.1 hd]
    exact isIdent_of_reach rfl
  · rw [List.mem_singleton.1 hd]
    exact clean_of_not_mem (by decide)
  · rw [List.mem_singleton.1 hd]
    exact isValue_groupedValue

theorem parse_render_grouped :
    groupedRule.WellFormed ∧
      groupedRule.render =
        "a.x:not(.b) > #7[k=v] *::before \x7b --w: f(a;b) 1px !important; \x7d".toList ∧
      Rule.parse groupedRule.render = .ok groupedRule :=
  ⟨wellFormed_groupedRule, by decide, parse_render wellFormed_groupedRule⟩

end ScopedStyle
