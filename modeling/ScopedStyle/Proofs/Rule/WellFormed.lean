import ScopedStyle.Proofs.Rule.BlockGrammar
import ScopedStyle.Proofs.Rule.Comment
import ScopedStyle.Proofs.Text.Trim
import ScopedStyle.Rule.Printer

/-!
# Well-formed rules

What the names, tests and values of a rule have to look like for its canonical
text to be read again. Every rule that is read has the shape of a well-formed
one, all but its values.
-/

namespace ScopedStyle
open Text

def Test.WellFormed : Test → Prop
  | .hasClass name => IsIdent name
  | .hasId name => IsHashName name
  | .hasAttr raw => raw ≠ [] ∧ trim raw = raw ∧ ']' ∉ raw ∧ Clean raw
  | .pseudoClass name => IsPseudoClass name ∧ Clean name
  | .pseudoElement name => IsWord Char.isAlpha name

structure Compound.WellFormed (c : Compound) : Prop where
  tag : ∀ name, c.tag? = some (.named name) → IsIdent name
  tests : ∀ t ∈ c.tests, t.WellFormed

def Selector.WellFormed (s : Selector) : Prop := ∀ c ∈ s.compounds, c.WellFormed

/-- A trimmed text that, with a semicolon behind it, is a row of balanced tokens and that
semicolon. -/
structure IsValue (v : Text) : Prop where
  nonempty : v ≠ []
  trimmed : trim v = v
  lexes : ∃ (ts : List Token) (last : Token),
    lexemes (v ++ [';']) = (ts ++ [last]).map .token ∧ last.kind = .semicolon ∧ Balanced 0 ts

structure Rule.Shaped (r : Rule) : Prop where
  nonempty : r.selectors ≠ []
  selectors : ∀ s ∈ r.selectors, s.WellFormed
  properties : ∀ d ∈ r.declarations, IsIdent d.property
  clean : ∀ d ∈ r.declarations, Clean d.value

structure Rule.WellFormed (r : Rule) : Prop extends Rule.Shaped r where
  values : ∀ d ∈ r.declarations, IsValue d.value

/-- No comment opens in a text, nor with a slash in front of it. -/
structure Apart (t : Text) : Prop where
  clean : Clean t
  head : t.head? ≠ some '*'

theorem Clean.append {a b : Text} (ha : Clean a) (hb : Apart b) : Clean (a ++ b) :=
  clean_append ha hb.clean fun _ => hb.head

theorem apart_nil : Apart [] := ⟨clean_nil, by simp⟩

theorem Apart.append {a b : Text} (ha : Apart a) (hb : Apart b) : Apart (a ++ b) := by
  refine ⟨ha.clean.append hb, ?_⟩
  cases a with
  | nil => exact hb.head
  | cons c a => exact ha.head

theorem apart_flatMap {α : Type} {f : α → Text} {xs : List α} (h : ∀ x ∈ xs, Apart (f x)) :
    Apart (xs.flatMap f) := by
  induction xs with
  | nil => exact apart_nil
  | cons x xs ih =>
    rw [List.flatMap_cons]
    exact (h x List.mem_cons_self).append (ih fun y hy => h y (List.mem_cons_of_mem x hy))

theorem apart_cons {c : Char} {t : Text} (hc : c ≠ '*' ∧ c ≠ '/') (ht : Clean t) :
    Apart (c :: t) := by
  refine ⟨clean_cons.2 ⟨fun he => absurd he hc.2, ht⟩, ?_⟩
  rw [List.head?_cons]
  exact fun h => hc.1 (Option.some.inj h)

theorem IsWord.clean {start : Char → Bool} {w : Text} (hs : start '/' = false)
    (h : IsWord start w) : Clean w := by
  obtain ⟨c, cs, rfl, hc, hcs⟩ := h
  refine clean_of_not_mem fun hm => ?_
  rcases List.mem_cons.1 hm with rfl | hm
  · rw [hs] at hc
    cases hc
  · exact absurd (hcs _ hm) (by decide)

theorem IsIdent.no_slash {w : Text} (h : IsIdent w) : '/' ∉ w :=
  fun hm => absurd (h.nameChars _ hm) (by decide)

theorem IsIdent.clean {w : Text} (h : IsIdent w) : Clean w := clean_of_not_mem h.no_slash

theorem IsHashName.clean {w : Text} (h : IsHashName w) : Clean w :=
  clean_of_not_mem fun hm => absurd (h.2 _ hm) (by decide)

theorem Test.WellFormed.apart {t : Test} (h : t.WellFormed) : Apart t.render := by
  cases t with
  | hasClass name => exact apart_cons (by decide) (IsIdent.clean h)
  | hasId name => exact apart_cons (by decide) (IsHashName.clean h)
  | hasAttr raw =>
    obtain ⟨-, -, -, hc⟩ := h
    exact apart_cons (by decide) (hc.append (apart_cons (by decide) clean_nil))
  | pseudoClass name => exact apart_cons (by decide) h.2
  | pseudoElement name =>
    have hc : Clean name := IsWord.clean rfl h
    exact apart_cons (by decide) (apart_cons (by decide) hc).clean

theorem Compound.WellFormed.clean {c : Compound} (h : c.WellFormed) : Clean c.render := by
  have hts : ∀ ts : List Test, (∀ t ∈ ts, t ∈ c.tests) → Apart (ts.flatMap Test.render) :=
    fun ts hts => apart_flatMap fun t ht => (h.tests t (hts t ht)).apart
  cases c with
  | tagged tag tests =>
    have htag : Clean tag.render := by
      cases tag with
      | named name => exact (h.tag name rfl).clean
      | any => exact clean_of_not_mem (by decide)
    exact htag.append (hts tests fun t ht => ht)
  | untagged first others =>
    have hf := (h.tests first List.mem_cons_self).apart
    exact hf.clean.append (hts others fun t ht => List.mem_cons_of_mem first ht)

theorem Combinator.apart (k : Combinator) {t : Text} (h : Clean t) : Apart (k.render ++ t) := by
  have hspace : Clean (' ' :: t) := (apart_cons (by decide) h).clean
  cases k with
  | descendant => exact apart_cons (by decide) h
  | child => exact apart_cons (by decide) (apart_cons (by decide) hspace).clean
  | nextSibling => exact apart_cons (by decide) (apart_cons (by decide) hspace).clean
  | subsequentSibling => exact apart_cons (by decide) (apart_cons (by decide) hspace).clean

theorem Selector.WellFormed.clean {s : Selector} (h : s.WellFormed) : Clean s.render := by
  refine (h s.head List.mem_cons_self).clean.append (apart_flatMap fun link hl => ?_)
  exact link.1.apart (h link.2 (List.mem_cons_of_mem _ (List.mem_map_of_mem hl))).clean

theorem render_selectors (s : Selector) (more : List Selector) :
    List.intercalate [',', ' '] ((s :: more).map Selector.render) =
      s.render ++ more.flatMap fun s => ',' :: ' ' :: s.render := by
  induction more generalizing s with
  | nil => simp
  | cons u more ih =>
    rw [List.map_cons, List.map_cons, List.intercalate_cons_cons, ← List.map_cons, ih,
      List.flatMap_cons]
    simp

theorem Declaration.apart {d : Declaration} (hp : IsIdent d.property) (hv : Clean d.value) :
    Apart (' ' :: d.render) := by
  have hend : Apart ((if d.important then importantSuffix else []) ++ [';']) := by
    split
    · exact ⟨clean_of_not_mem (by decide), by decide⟩
    · exact apart_cons (by decide) clean_nil
  have hvalue :
      Clean (' ' :: (d.value ++ ((if d.important then importantSuffix else []) ++ [';']))) :=
    (apart_cons (by decide) (hv.append hend)).clean
  have hr := apart_cons (c := ' ') (by decide)
    (hp.clean.append (apart_cons (c := ':') (by decide) hvalue))
  rw [Declaration.render]
  simpa using hr

theorem Rule.Shaped.clean_render {r : Rule} (h : r.Shaped) : Clean r.render := by
  obtain ⟨s, more, hs⟩ := List.exists_cons_of_ne_nil h.nonempty
  have hsel : ∀ u ∈ s :: more, Clean u.render := fun u hu =>
    (h.selectors u (by rw [hs]; exact hu)).clean
  have hmore : Apart (more.flatMap fun s => ',' :: ' ' :: s.render) := by
    refine apart_flatMap fun u hu => apart_cons (by decide) (apart_cons (by decide) ?_).clean
    exact hsel u (List.mem_cons_of_mem s hu)
  have hdecl : Apart (r.declarations.flatMap (' ' :: Declaration.render ·)) :=
    apart_flatMap fun d hd => Declaration.apart (h.properties d hd) (h.clean d hd)
  have hopen : Apart [' ', '{'] := ⟨clean_of_not_mem (by decide), by decide⟩
  have hclose : Apart [' ', '}'] := ⟨clean_of_not_mem (by decide), by decide⟩
  rw [Rule.render, hs, render_selectors]
  exact ((((hsel s List.mem_cons_self).append hmore).append hopen).append hdecl).append hclose

structure Sound (us : List Token) : Prop where
  lexes : ∀ t ∈ us, ∃ rest, Lexes t rest
  clean : Clean (sources us)

theorem Sound.part {us vs : List Token} (h : Sound us) (hi : vs <:+: us) : Sound vs := by
  refine ⟨fun t ht => h.lexes t (hi.subset ht), ?_⟩
  obtain ⟨before, after, rfl⟩ := hi
  refine h.clean.part ⟨sources before, sources after, ?_⟩
  rw [sources_append, sources_append]

theorem Sound.left {us vs : List Token} (h : Sound (us ++ vs)) : Sound us :=
  h.part (List.prefix_append us vs).isInfix

theorem Sound.right {us vs : List Token} (h : Sound (us ++ vs)) : Sound vs :=
  h.part (List.suffix_append us vs).isInfix

theorem Sound.tail {t : Token} {us : List Token} (h : Sound (t :: us)) : Sound us :=
  h.part (List.suffix_cons t us).isInfix

theorem Spells.lexes {us : List Token} {rest : Text} (h : Spells us rest) :
    ∀ t ∈ us, ∃ more, Lexes t more := by
  induction us with
  | nil => simp
  | cons u us ih =>
    intro t ht
    rcases List.mem_cons.1 ht with rfl | ht
    · exact ⟨_, h.1⟩
    · exact ih h.2 t ht

theorem Lexes.reach {t : Token} {rest : Text} (h : Lexes t rest) :
    t.kind.reach (t.text ++ rest) = some t.text.length :=
  reach_of_longest (found_of_lexes h).longest

theorem Lexes.ident {t : Token} {rest : Text} (h : Lexes t rest) (hk : t.kind = .ident) :
    IsIdent t.text := by
  have hr := h.reach
  rw [hk] at hr
  have hi := (ident_of_identReach hr).1
  rwa [List.take_left] at hi

theorem Lexes.hash {t : Token} {rest : Text} (h : Lexes t rest) (hk : t.kind = .hash) :
    ∃ w, t.text = '#' :: w ∧ IsHashName w := by
  have hr := h.reach
  rw [hk] at hr
  obtain ⟨w, more, he, hlen, hw⟩ := hashName_of_hashReach hr
  exact ⟨w, List.append_inj_left he (by simp [hlen]), hw⟩

theorem Lexes.bracketed {t : Token} {rest : Text} (h : Lexes t rest) (hk : t.kind = .bracketed) :
    ∃ inside, t.text = '[' :: inside ++ [']'] ∧ ']' ∉ inside := by
  have hr := h.reach
  rw [hk] at hr
  obtain ⟨inside, more, he, hi, hlen⟩ := closed_of_enclosedReach hr
  rw [List.append_cons] at he
  exact ⟨inside, List.append_inj_left he (by simp [hlen]), hi⟩

theorem Lexes.pseudoClass {t : Token} {rest : Text} (h : Lexes t rest)
    (hk : t.kind = .pseudoClass) : ∃ w, t.text = ':' :: w ∧ IsPseudoClass w := by
  have hr := h.reach
  rw [hk] at hr
  obtain ⟨w, more, he, hlen, hw⟩ := pseudoClass_of_pseudoClassReach hr
  exact ⟨w, List.append_inj_left he (by simp [hlen]), hw⟩

theorem Lexes.pseudoElement {t : Token} {rest : Text} (h : Lexes t rest)
    (hk : t.kind = .pseudoElement) : ∃ w, t.text = ':' :: ':' :: w ∧ IsWord Char.isAlpha w := by
  have hr := h.reach
  rw [hk] at hr
  obtain ⟨w, more, he, hlen, hw⟩ := pseudoElement_of_pseudoElementReach hr
  exact ⟨w, List.append_inj_left he (by simp [hlen]), hw⟩

theorem Token.text_part (t : Token) (us : List Token) : t.text <:+: sources (t :: us) :=
  ⟨t.gap, sources us, rfl⟩

theorem DerivesTest.wellFormed {t : Test} {us : List Token} (h : DerivesTest t us)
    (hs : Sound us) : t.WellFormed := by
  obtain ⟨tok, vs, rfl, -⟩ := h.begins
  obtain ⟨rest, hl⟩ := hs.lexes tok List.mem_cons_self
  have hc : Clean tok.text := hs.clean.part (tok.text_part vs)
  cases h with
  | hasClass _ hn _ =>
    obtain ⟨more, hl'⟩ := hs.lexes _ (List.mem_cons_of_mem _ List.mem_cons_self)
    exact hl'.ident hn
  | hasId hk =>
    obtain ⟨w, htext, hw⟩ := hl.hash hk
    rw [htext]
    exact hw
  | hasAttr hk hi =>
    obtain ⟨inside, htext, hb⟩ := hl.bracketed hk
    have hinside : bracketInside tok.text = trim inside := by
      rw [htext, bracketInside, List.cons_append, List.drop_one, List.tail_cons,
        List.dropLast_concat]
    refine ⟨hi, ?_, ?_, ?_⟩
    · rw [hinside, trim_idem]
    · rw [hinside]
      exact fun hm => hb ((trim_part inside).subset hm)
    · rw [hinside]
      refine hc.part ((trim_part inside).trans ?_)
      rw [htext]
      exact ⟨['['], [']'], rfl⟩
  | pseudoClass hk =>
    obtain ⟨w, htext, hw⟩ := hl.pseudoClass hk
    rw [htext] at hc ⊢
    exact ⟨hw, (clean_cons.1 hc).2⟩
  | pseudoElement hk =>
    obtain ⟨w, htext, hw⟩ := hl.pseudoElement hk
    rw [htext]
    exact hw

theorem DerivesTests.wellFormed {tests : List Test} {us : List Token} (h : DerivesTests tests us)
    (hs : Sound us) : ∀ t ∈ tests, t.WellFormed := by
  induction h with
  | nil => simp
  | cons _ hd _ ih =>
    intro t ht
    rcases List.mem_cons.1 ht with rfl | ht
    · exact hd.wellFormed hs.left
    · exact ih hs.right t ht

theorem DerivesCompound.wellFormed {c : Compound} {us : List Token} (h : DerivesCompound c us)
    (hs : Sound us) : c.WellFormed := by
  cases h with
  | named hk ht =>
    refine ⟨fun name hn => ?_, ht.wellFormed hs.tail⟩
    obtain ⟨rest, hl⟩ := hs.lexes _ List.mem_cons_self
    cases hn
    exact hl.ident hk
  | any hk ht =>
    refine ⟨fun name hn => ?_, ht.wellFormed hs.tail⟩
    cases hn
  | untagged hf ho =>
    refine ⟨fun name hn => ?_, fun t ht => ?_⟩
    · cases hn
    · rcases List.mem_cons.1 ht with rfl | ht
      · exact hf.wellFormed hs.left
      · exact ho.wellFormed hs.right t ht

theorem DerivesLinks.wellFormed {links : List (Combinator × Compound)} {us : List Token}
    (h : DerivesLinks links us) (hs : Sound us) : ∀ link ∈ links, link.2.WellFormed := by
  induction h with
  | nil => simp
  | cons hl _ ih =>
    intro l hm
    rcases List.mem_cons.1 hm with rfl | hm
    · cases hl with
      | sign _ hc => exact hc.wellFormed hs.left.tail
      | blank hc _ => exact hc.wellFormed hs.left
    · exact ih hs.right l hm

theorem DerivesSelector.wellFormed {s : Selector} {us : List Token} (h : DerivesSelector s us)
    (hs : Sound us) : s.WellFormed := by
  cases h with
  | mk hh hl =>
    intro c hc
    rcases List.mem_cons.1 hc with rfl | hc
    · exact hh.wellFormed hs.left
    · obtain ⟨link, hm, rfl⟩ := List.mem_map.1 hc
      exact hl.wellFormed hs.right link hm

theorem DerivesMore.wellFormed {more : List Selector} {us : List Token} (h : DerivesMore more us)
    (hs : Sound us) : ∀ s ∈ more, s.WellFormed := by
  induction h with
  | nil => simp
  | cons _ hd _ ih =>
    intro s hm
    rcases List.mem_cons.1 hm with rfl | hm
    · exact hd.wellFormed hs.left.tail
    · exact ih hs.right s hm

theorem DerivesDeclaration.shaped {d : Declaration} {us : List Token}
    (h : DerivesDeclaration d us) (hs : Sound us) : IsIdent d.property ∧ Clean d.value := by
  cases h with
  | @mk name colon start vs ms _ hn hc _ _ _ =>
    obtain ⟨rest, hl⟩ := hs.lexes name List.mem_cons_self
    have hstart : start <:+ colon.text := by
      cases hc with
      | colon _ => exact List.nil_suffix
      | pseudoClass _ _ => exact List.drop_suffix 1 _
    have hvalue : start ++ sources vs <:+: sources (colon :: (vs ++ ms)) := by
      obtain ⟨before, hb⟩ := hstart
      refine ⟨colon.gap ++ before, sources ms, ?_⟩
      rw [sources_cons, sources_append, Token.source, ← hb]
      simp only [List.append_assoc]
    exact ⟨hl.ident hn, hs.tail.clean.part ((trim_part _).trans hvalue)⟩

theorem DerivesDeclarations.shaped {ds : List Declaration} {us : List Token}
    (h : DerivesDeclarations ds us) (hs : Sound us) :
    ∀ d ∈ ds, IsIdent d.property ∧ Clean d.value := by
  induction h with
  | nil => simp
  | semicolon _ _ ih => exact ih hs.tail
  | last hd =>
    intro e he
    rw [List.mem_singleton.1 he]
    exact hd.shaped hs
  | cons hd _ _ ih =>
    intro e he
    rcases List.mem_cons.1 he with rfl | he
    · exact hd.shaped hs.left
    · exact ih hs.right.tail e he

theorem DerivesRule.shaped {r : Rule} {us : List Token} (h : DerivesRule r us) (hs : Sound us) :
    r.Shaped := by
  cases h with
  | mk hsel _ hd _ =>
    have hds := hd.shaped hs.right.tail.left
    cases hsel with
    | mk hfirst hmore =>
      refine ⟨by simp, fun s hm => ?_, fun d hm => (hds d hm).1, fun d hm => (hds d hm).2⟩
      rcases List.mem_cons.1 hm with rfl | hm
      · exact hfirst.wellFormed hs.left.left
      · exact hmore.wellFormed hs.left.right s hm

theorem shaped_of_parse {t : Text} {r : Rule} (h : Rule.parse t = .ok r) : r.Shaped := by
  obtain ⟨us, hlex, hd⟩ := parse_eq_ok_iff.1 h
  rw [← List.append_nil (us.map _)] at hlex
  obtain ⟨rest, hsrc, hs, -⟩ := spells_of_lexemes hlex
  refine hd.shaped ⟨hs.lexes, ?_⟩
  have hc := clean_stripComments t
  rw [hsrc] at hc
  exact hc.part (List.prefix_append _ _).isInfix

end ScopedStyle
