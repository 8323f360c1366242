import ScopedStyle.Proofs.Rule.Printed

/-!
# Reading the canonical text of a rule that was read

A colon that touches a property may come with a whole argument in parentheses,
which no reader looks into. The value is then kept as it stands, but its canonical
text has a space behind the colon, and there the same argument is a row of tokens
like any other. So a rule that was read is read again exactly if its values are.
-/

namespace ScopedStyle
open Text

theorem isValue_of_spelled {v : Text} {ts : List Token} (hne : v ≠ []) (ht : trim v = v)
    (hsrc : sources ts = v) (hb : Balanced 0 ts) (hs : Spells ts [';']) : IsValue v := by
  have hend : Spells [semicolonToken] [] := spells_end false []
  have hall : Spells (ts ++ [semicolonToken]) [] := spells_append.2 ⟨hs, hend⟩
  refine ⟨hne, ht, ts, semicolonToken, ?_, rfl, hb⟩
  rw [← lexemes_sources hall, sources_append, hsrc]
  rfl

theorem front_eq {p : Char → Bool} {a b s t : Text} {c d : Char} (ha : ∀ e ∈ a, p e)
    (hb : ∀ e ∈ b, p e) (hc : p c = false) (hd : p d = false) (h : a ++ c :: s = b ++ d :: t) :
    a = b := by
  have hfront : ∀ {a s : Text} {c : Char}, (∀ e ∈ a, p e) → p c = false →
      (a ++ c :: s).takeWhile p = a := by
    intro a s c ha hc
    rw [List.takeWhile_append_of_pos ha]
    simp [hc]
  rw [← hfront (s := s) ha hc, h, hfront hb hd]

theorem Spells.last {ts : List Token} {rest t : Text} (h : Spells ts rest) (hne : ts ≠ []) :
    sources ts ≠ t ++ [' '] := by
  intro hsrc
  obtain ⟨init, last, rfl⟩ := List.eq_nil_or_concat' ts |>.resolve_left hne
  have hl : Lexes last rest := (spells_append.1 h).2.1
  rcases List.eq_nil_or_concat' last.text with htext | ⟨x, e, htext⟩
  · obtain ⟨c, text, hf, -⟩ := (found_of_lexes hl).front
    rw [htext] at hf
    cases hf
  · rw [sources_append, sources_cons, sources_nil, List.append_nil, Token.source, htext,
      ← List.append_assoc, ← List.append_assoc] at hsrc
    have he : e = ' ' := (List.cons.inj (List.append_inj_right' hsrc rfl)).1
    have hr := hl.reach
    rw [htext, he, List.append_assoc, List.length_append] at hr
    exact TokenKind.reach_space hr

theorem sources_of_read {v rest more : Text} {c : Char} {vs : List Token} (hne : v ≠ [])
    (ht : trim (sources vs) = v) (hsrc : ' ' :: v ++ c :: more = sources vs ++ rest)
    (hc : isBoundary c) (hm : c = ' ' → Stopped isBlank more) (hs : Spells vs rest) :
    sources vs = ' ' :: v ∧ rest = c :: more := by
  obtain ⟨a, b, ha, hbl, hab⟩ := exists_trim (sources vs)
  rw [ht] at hab
  have hfront : a = [' '] := by
    obtain ⟨d, w, rfl⟩ := List.exists_cons_of_ne_nil hne
    have hd : isBlank d = false := head_of_trimmed (by rw [← ht, trim_idem])
    have heq : a ++ d :: (w ++ b ++ rest) = [' '] ++ d :: (w ++ c :: more) := by
      have := hsrc.symm
      rw [hab] at this
      simpa using this
    exact front_eq ha blank_space hd hd heq
  have hback : b ++ rest = c :: more := by
    rw [hab, hfront] at hsrc
    have : ' ' :: v ++ c :: more = ' ' :: v ++ (b ++ rest) := by simpa using hsrc
    exact (List.append_cancel_left this).symm
  have hvs : vs ≠ [] := by
    rintro rfl
    rw [hfront] at hab
    cases hab
  rcases b with - | ⟨e, b⟩
  · rw [List.append_nil, hfront] at hab
    exact ⟨hab, hback⟩
  · -- a blank behind the value is one space, and no token ends in that
    obtain ⟨rfl, hrest⟩ := List.cons.inj hback
    have he : e = ' ' := by
      rcases isBoundary_iff.1 hc with he | rfl
      · exact he
      · exact absurd (hbl _ List.mem_cons_self) (by decide)
    have hbn : b = [] := by
      rcases b with - | ⟨f, b⟩
      · rfl
      · have hf := hm he f (by rw [← hrest]; rfl)
        rw [hbl f (by simp)] at hf
        cases hf
    rw [hbn, he] at hab
    exact absurd hab (hs.last hvs)

theorem spells_ungap {v rest : Text} {vs : List Token} (hne : v ≠ []) (ht : trim v = v)
    (h : sources vs = ' ' :: v) (hs : Spells vs rest) {depth : Nat} (hb : Balanced depth vs) :
    ∃ ts, sources ts = v ∧ Spells ts rest ∧ Balanced depth ts := by
  rcases vs with - | ⟨t, ts⟩
  · cases h
  obtain ⟨d, w, rfl⟩ := List.exists_cons_of_ne_nil hne
  obtain ⟨e, text, htext, he⟩ := (found_of_lexes hs.1).front
  have hgap : t.gap = [' '] := by
    have heq : t.gap ++ e :: (text ++ sources ts) = [' '] ++ d :: w := by
      have := h
      rw [sources_cons, Token.source, htext] at this
      simpa using this
    have hd : isGap d = false := by
      have hblank := head_of_trimmed ht
      by_contra hg
      rw [isBlank_of_isGap (by simpa using hg)] at hblank
      cases hblank
    exact front_eq (found_of_lexes hs.1).gap isGap_space he hd heq
  refine ⟨⟨t.kind, t.text, []⟩ :: ts, ?_, ⟨hs.1.regap isGap_nil, hs.2⟩, balanced_regap hb⟩
  rw [sources_cons, Token.source, hgap, List.append_assoc] at h
  exact List.append_cancel_left h

theorem isValue_of_read {v rest more : Text} {c : Char} {vs : List Token} (hne : v ≠ [])
    (ht : trim (sources vs) = v) (hsrc : ' ' :: v ++ c :: more = sources vs ++ rest)
    (hc : isBoundary c) (hm : c = ' ' → Stopped isBlank more) (hb : Balanced 0 vs)
    (hs : Spells vs rest) : IsValue v ∧ rest = c :: more := by
  have htv : trim v = v := by rw [← ht, trim_idem]
  obtain ⟨hsources, rfl⟩ := sources_of_read hne ht hsrc hc hm hs
  obtain ⟨ts, hts, hspells, hbalanced⟩ := spells_ungap hne htv hsources hs hb
  exact ⟨isValue_of_spelled hne htv hts hbalanced (hspells.boundary hc (by decide)), rfl⟩

theorem tokens_split {us vs : List Token} {ls : List Lexeme}
    (h : us.map Lexeme.token = vs.map .token ++ ls) :
    ∃ ws, us = vs ++ ws ∧ ls = ws.map .token := by
  obtain ⟨a, ws, rfl, ha, rfl⟩ := List.map_eq_append_iff.1 h
  have hinj : Function.Injective Lexeme.token := fun t u h => Lexeme.token.inj h
  obtain rfl := List.map_injective_iff.2 hinj ha
  exact ⟨ws, rfl, rfl⟩

theorem DerivesMark.length {important : Bool} {ms : List Token} (h : DerivesMark important ms) :
    ms.length = (markTokens important).length := by
  cases h <;> rfl

theorem property_of_read {d : Declaration} {us : List Token} {rest : Text}
    (hp : IsIdent d.property) (hlex : lexemes (' ' :: d.render ++ rest) = us.map .token) :
    ∃ ws, us = ⟨.ident, d.property, [' ']⟩ :: ⟨.colon, [':'], []⟩ :: ws ∧
      lexemes (' ' :: d.value ++
        (sources (markTokens d.important ++ [semicolonToken]) ++ rest)) = ws.map .token := by
  have hfront := spells_property hp
    (d.value ++ (sources (markTokens d.important ++ [semicolonToken]) ++ rest))
  have htext : ' ' :: d.render ++ rest =
      sources [⟨.ident, d.property, [' ']⟩, ⟨.colon, [':'], []⟩] ++ ' ' :: (d.value ++
        (sources (markTokens d.important ++ [semicolonToken]) ++ rest)) := by
    rw [sources_end, Declaration.render]
    simp [Token.source]
  rw [htext, lexemes_of_spells hfront] at hlex
  exact tokens_split hlex.symm

theorem isValue_of_declaration {d : Declaration} {us more : List Token} {rest : Text}
    (hp : IsIdent d.property) (hd : DerivesDeclaration d us)
    (hlex : lexemes (' ' :: d.render ++ rest) = (us ++ more).map .token) :
    IsValue d.value ∧ ∃ ws, more = semicolonToken :: ws ∧ lexemes rest = ws.map .token := by
  obtain ⟨ws, hus, hlexv⟩ := property_of_read hp hlex
  obtain ⟨c, tail, hc, htail⟩ := boundary_end d.important rest
  cases hd with
  | @mk name colon start vs ms important hn hcol hb hne hm =>
    simp only [List.cons_append, List.cons.injEq] at hus
    obtain ⟨-, rfl, rfl⟩ := hus
    -- the colon stands by itself in canonical text
    have hstart : start = [] := by
      cases hcol with
      | colon _ => rfl
      | pseudoClass hk _ => cases hk
    subst hstart
    rw [List.append_assoc, List.map_append] at hlexv
    obtain ⟨after, hsrc, hs, hlexa⟩ := spells_of_lexemes hlexv
    have hspace : c = ' ' → Stopped isBlank tail := by
      rintro rfl
      cases important with
      | true =>
        cases htail
        exact stopped_cons.2 (by decide)
      | false => cases htail
    rw [htail] at hsrc
    obtain ⟨hv, rfl⟩ := isValue_of_read hne rfl hsrc hc hspace hb hs
    refine ⟨hv, ?_⟩
    rw [← htail, lexemes_of_spells (spells_end important rest)] at hlexa
    obtain ⟨ws, hws, hlexr⟩ := tokens_split hlexa.symm
    rw [List.append_assoc] at hws
    exact ⟨ws, (List.append_inj hws hm.length).2, hlexr⟩

theorem values_of_declarations {ds : List Declaration} {us : List Token} {closer : Token}
    {rest : Text} (hp : ∀ d ∈ ds, IsIdent d.property) (hc : closer.kind = .braceClose)
    (hd : DerivesDeclarations ds us)
    (hlex : lexemes (ds.flatMap (' ' :: Declaration.render ·) ++ rest) =
      (us ++ [closer]).map .token) : ∀ d ∈ ds, IsValue d.value := by
  -- the rule itself is followed, and the derivation has to keep step with it
  induction ds generalizing us with
  | nil => simp
  | cons d ds ih =>
    have hpd := hp d List.mem_cons_self
    rw [List.flatMap_cons, List.append_assoc] at hlex
    cases hd with
    | semicolon hk hr =>
      obtain ⟨ws, hws, -⟩ := property_of_read hpd hlex
      obtain ⟨rfl, -⟩ := List.cons.inj hws
      cases hk
    | last hd =>
      obtain ⟨-, ws, hws, -⟩ := isValue_of_declaration hpd hd hlex
      cases hws
      cases hc
    | @cons _ _ tok us vs hd hk hr =>
      rw [List.append_assoc] at hlex
      obtain ⟨hv, ws, hws, hlexr⟩ := isValue_of_declaration hpd hd hlex
      cases hws
      intro e he
      rcases List.mem_cons.1 he with rfl | he
      · exact hv
      · exact ih (fun e he => hp e (List.mem_cons_of_mem d he)) hr hlexr e he

theorem values_of_rule {r : Rule} {us : List Token} (h : r.Shaped) (hd : DerivesRule r us)
    (hlex : lexemes r.render = us.map .token) : ∀ d ∈ r.declarations, IsValue d.value := by
  obtain ⟨ps, hsel, hp⟩ := printed_selectors h
  have hopen : (TokenKind.braceOpen, '{') ∈ marks := by decide
  -- the tokens up to the brace are known from the selectors alone
  have hfront : Spells (ps ++ [⟨.braceOpen, ['{'], [' ']⟩])
      (r.declarations.flatMap (' ' :: Declaration.render ·) ++ [' ', '}']) :=
    spells_append.2 ⟨hp.spells _ (endsName_cons (by decide) (by decide)), spells_brace hopen _⟩
  have htext : r.render = sources (ps ++ [⟨.braceOpen, ['{'], [' ']⟩]) ++
      (r.declarations.flatMap (' ' :: Declaration.render ·) ++ [' ', '}']) := by
    rw [sources_append, hp.source, Rule.render]
    simp [Token.source]
  rw [htext, lexemes_of_spells hfront] at hlex
  obtain ⟨ws, hus, hlexd⟩ := tokens_split hlex.symm
  cases hd with
  | @mk _ _ opener closer us vs hsel' ho hds hc =>
    have hbrace : EndsSelectors (⟨.braceOpen, ['{'], [' ']⟩ :: ws) := endsSelectors_brace rfl ws
    have hread := readSelectors_of_derives hsel hbrace
    have hread' := readSelectors_of_derives hsel' (endsSelectors_brace ho (vs ++ [closer]))
    rw [hus, List.append_assoc, List.singleton_append, hread] at hread'
    cases hread'
    exact values_of_declarations h.properties hc hds hlexd

/-- A rule that was read is read again from its canonical text exactly if each of its values, with
a semicolon behind it, is a row of balanced tokens. -/
theorem parse_render_iff {t : Text} {r : Rule} (h : Rule.parse t = .ok r) :
    Rule.parse r.render = .ok r ↔ ∀ d ∈ r.declarations, IsValue d.value := by
  have hshape := shaped_of_parse h
  constructor
  · intro hr
    obtain ⟨us, hlex, hd⟩ := parse_eq_ok_iff.1 hr
    rw [stripComments_clean hshape.clean_render] at hlex
    exact values_of_rule hshape hd hlex
  · intro hv
    obtain ⟨us, hlex, hd⟩ := lexemes_render ⟨hshape, hv⟩
    refine parse_eq_ok_iff.2 ⟨us, ?_, hd⟩
    rw [stripComments_clean hshape.clean_render, hlex]

/-- Behind a colon that touches the property, a brace in parentheses goes unseen. -/
theorem parse_render_iff_brace :
    ∃ r : Rule, Rule.parse "a\x7bb:u(x\x7by)\x7d".toList = .ok r ∧
      r.render = "a \x7b b: u(x\x7by); \x7d".toList ∧
      ¬∀ d ∈ r.declarations, IsValue d.value := by
  have hread : Rule.parse "a\x7bb:u(x\x7by)\x7d".toList =
      .ok ⟨[⟨.tagged (.named ['a']) [], []⟩], [⟨['b'], "u(x\x7by)".toList, false⟩]⟩ := by
    decide +kernel
  refine ⟨_, hread, by decide, fun hv => ?_⟩
  exact absurd ((parse_render_iff hread).2 hv) (by decide +kernel)

theorem parse_render_refused :
    ¬∀ (t : Text) (r : Rule), Rule.parse t = .ok r → Rule.parse r.render = .ok r := by
  intro hall
  have hread : Rule.parse "a\x7bb:u(x\x7by)\x7d".toList =
      .ok ⟨[⟨.tagged (.named ['a']) [], []⟩], [⟨['b'], "u(x\x7by)".toList, false⟩]⟩ := by
    decide +kernel
  have hagain : Rule.parse "a \x7b b: u(x\x7by); \x7d".toList =
      .error (.unexpectedToken 7 (.braceInValue ['b'])) := by
    decide +kernel
  have h := hall _ _ hread
  have hrender : Rule.render ⟨[⟨.tagged (.named ['a']) [], []⟩],
      [⟨['b'], "u(x\x7by)".toList, false⟩]⟩ = "a \x7b b: u(x\x7by); \x7d".toList := by
    decide
  rw [hrender, hagain] at h
  cases h

end ScopedStyle
