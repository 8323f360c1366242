import Mathlib.Data.List.Chain
import Mathlib.Data.List.Forall2
import ScopedStyle.Proofs.Rule.Printed
import ScopedStyle.Proofs.Rule.Spans

/-!
# Descendant combinators and white space

The tokens of a selector list fall into rows, one for each compound. Where a row begins
with no sign, a descendant combinator stands in front of it. White space parts such a row
from the one in front of it, unless the row begins with a tag: a tag that touches goes on
no compound and is still read as the beginning of another one.
-/

namespace ScopedStyle
open Text

/-- The tokens of a selector, a row for each of its compounds. All rows but the first begin with the
sign in front of the compound, if there is one. -/
structure Rows where
  head : List Token
  links : List (List Token)

def Rows.tokens (p : Rows) : List Token := p.head ++ p.links.flatten

structure Rows.Of (p : Rows) (s : Selector) : Prop where
  head : DerivesCompound s.head p.head
  links : List.Forall₂ DerivesLink s.links p.links

inductive DerivesTable : List Selector → List Rows → List Token → Prop
  | last {s : Selector} {p : Rows} (hs : p.Of s) : DerivesTable [s] [p] p.tokens
  | cons {s : Selector} {p : Rows} {sels : List Selector} {table : List Rows} {comma : Token}
      {us : List Token} (hs : p.Of s) (hk : comma.kind = .comma)
      (hr : DerivesTable sels table us) :
      DerivesTable (s :: sels) (p :: table) (p.tokens ++ comma :: us)

theorem rows_of_links {links : List (Combinator × Compound)} {us : List Token}
    (h : DerivesLinks links us) :
    ∃ rows, List.Forall₂ DerivesLink links rows ∧ us = rows.flatten := by
  induction h with
  | nil => exact ⟨[], .nil, rfl⟩
  | @cons link links us vs hl _ ih =>
    obtain ⟨rows, hrows, rfl⟩ := ih
    exact ⟨us :: rows, .cons hl hrows, rfl⟩

theorem rows_of_selector {s : Selector} {us : List Token} (h : DerivesSelector s us) :
    ∃ p : Rows, p.Of s ∧ us = p.tokens := by
  cases h with
  | @mk head links us vs hh hl =>
    obtain ⟨rows, hrows, rfl⟩ := rows_of_links hl
    exact ⟨⟨us, rows⟩, ⟨hh, hrows⟩, rfl⟩

theorem table_of_selectors {sels : List Selector} {us : List Token}
    (h : DerivesSelectors sels us) : ∃ table, DerivesTable sels table us := by
  cases h with
  | @mk s more us vs hs hm =>
    induction hm generalizing s us with
    | nil =>
      obtain ⟨p, hp, rfl⟩ := rows_of_selector hs
      exact ⟨[p], by rw [List.append_nil]; exact .last hp⟩
    | @cons comma s' more vs ws hk hs' _ ih =>
      obtain ⟨p, hp, rfl⟩ := rows_of_selector hs
      obtain ⟨table, htable⟩ := ih hs'
      exact ⟨p :: table, .cons hp hk htable⟩

def TokenKind.beginsTag : TokenKind → Bool
  | .ident | .star => true
  | _ => false

def TokenKind.endsCompound : TokenKind → Bool
  | .ident | .star | .hash | .bracketed | .pseudoClass | .pseudoElement => true
  | _ => false

def Parted (a b : Token) : Prop := a.kind.endsCompound → b.kind.beginsTag → ¬b.touches

instance : DecidableRel Parted := fun a b =>
  inferInstanceAs (Decidable (a.kind.endsCompound → b.kind.beginsTag → ¬b.touches))

/-- What holds inside a compound: no tag touches the end of another compound, and the last token is
the end of one. -/
structure Closed (us : List Token) : Prop where
  chain : us.IsChain Parted
  last : ∀ tok ∈ us.getLast?, tok.kind.endsCompound

theorem parted_of_sign {a b : Token} (h : a.kind.endsCompound = false) : Parted a b := by
  intro ha
  rw [h] at ha
  cases ha

theorem parted_of_tagless {a b : Token} (h : b.kind.beginsTag = false) : Parted a b := by
  intro _ hb
  rw [h] at hb
  cases hb

theorem Closed.append {us vs : List Token} (hu : Closed us) (hv : Closed vs)
    (hvs : ∀ tok ∈ vs.head?, tok.kind.beginsTag = false) : Closed (us ++ vs) := by
  refine ⟨hu.chain.append hv.chain fun a _ b hb => parted_of_tagless (hvs b hb), fun tok htok => ?_⟩
  rcases List.eq_nil_or_concat' vs with rfl | ⟨vs, last, rfl⟩
  · rw [List.append_nil] at htok
    exact hu.last tok htok
  · rw [← List.append_assoc, List.getLast?_concat] at htok
    exact hv.last tok (by rwa [List.getLast?_concat])

theorem closed_singleton {tok : Token} (h : tok.kind.endsCompound) : Closed [tok] := by
  refine ⟨.singleton tok, fun tok' htok => ?_⟩
  cases htok
  exact h

theorem DerivesTest.closed {t : Test} {us : List Token} (h : DerivesTest t us) : Closed us := by
  cases h with
  | @hasClass dot name hd hn ht =>
    refine ⟨.cons_cons (parted_of_sign (by rw [hd]; rfl)) (.singleton name), fun tok htok => ?_⟩
    obtain rfl : name = tok := Option.some.inj htok
    rw [hn]
    rfl
  | hasId hk => exact closed_singleton (by rw [hk]; rfl)
  | hasAttr hk _ => exact closed_singleton (by rw [hk]; rfl)
  | pseudoClass hk => exact closed_singleton (by rw [hk]; rfl)
  | pseudoElement hk => exact closed_singleton (by rw [hk]; rfl)

theorem tagless_of_beginsTest {k : TokenKind} (h : k.beginsTest) : k.beginsTag = false := by
  revert h
  cases k <;> decide

theorem DerivesTests.closed {tests : List Test} {us : List Token} (h : DerivesTests tests us) :
    Closed us ∧ ∀ tok ∈ us.head?, tok.kind.beginsTag = false := by
  induction h with
  | nil => exact ⟨⟨.nil, by simp⟩, by simp⟩
  | @cons t tests tok us vs ht hd _ ih =>
    refine ⟨hd.closed.append ih.1 ih.2, fun tok' htok => ?_⟩
    cases htok
    obtain ⟨tok', ws, he, hb⟩ := hd.begins
    obtain ⟨rfl, -⟩ := List.cons.inj he
    exact tagless_of_beginsTest hb

theorem DerivesCompound.closed {c : Compound} {us : List Token} (h : DerivesCompound c us) :
    Closed us := by
  cases h with
  | named hk ht => exact (closed_singleton (by rw [hk]; rfl)).append ht.closed.1 ht.closed.2
  | any hk ht => exact (closed_singleton (by rw [hk]; rfl)).append ht.closed.1 ht.closed.2
  | untagged hf ho => exact hf.closed.append ho.closed.1 ho.closed.2

theorem endsCompound_combinator {k : TokenKind} {j : Combinator} (h : k.combinator? = some j) :
    k.endsCompound = false ∧ k.beginsTag = false ∧ j ≠ .descendant := by
  revert h
  cases k <;> cases j <;> decide

theorem DerivesLink.closed {link : Combinator × Compound} {row : List Token}
    (h : DerivesLink link row) : Closed row := by
  cases h with
  | @sign tok k c us hk hc =>
    have hends := (endsCompound_combinator hk).1
    refine ⟨hc.closed.chain.cons fun y _ => parted_of_sign hends, fun tok' htok => ?_⟩
    obtain ⟨first, vs, rfl, -⟩ := hc.begins
    rw [List.getLast?_cons_cons] at htok
    exact hc.closed.last tok' htok
  | blank hc _ => exact hc.closed

def Token.Spaced (t : Token) : Prop := ∃ c ∈ t.gap, isBlank c

theorem spaced_iff {tok : Token} (h : IsGap tok.gap) : tok.Spaced ↔ ¬tok.touches := by
  rw [Token.Spaced, Token.touches, List.isEmpty_iff]
  constructor
  · rintro ⟨c, hc, -⟩ hnil
    rw [hnil] at hc
    cases hc
  · intro hne
    obtain ⟨c, gap, hgap⟩ := List.exists_cons_of_ne_nil hne
    have hc : c ∈ tok.gap := by
      rw [hgap]
      exact List.mem_cons_self
    exact ⟨c, hc, isBlank_of_isGap (h c hc)⟩

/-- A descendant combinator in front of a row stands for white space. -/
def SpacedLink (link : Combinator × Compound) (row : List Token) : Prop :=
  link.1 = .descendant → ∀ tok ∈ row.head?, tok.Spaced

def Rows.Spaced (p : Rows) (s : Selector) : Prop := List.Forall₂ SpacedLink s.links p.links

theorem DerivesLink.parted_iff {link : Combinator × Compound} {row : List Token}
    (h : DerivesLink link row) (hgap : ∀ tok ∈ row, IsGap tok.gap) {a : Token}
    (ha : a.kind.endsCompound) : (∀ tok ∈ row.head?, Parted a tok) ↔ SpacedLink link row := by
  cases h with
  | @sign tok k c us hk hc =>
    obtain ⟨-, htagless, hne⟩ := endsCompound_combinator hk
    refine iff_of_true (fun tok' htok => ?_) fun he => absurd he hne
    cases htok
    exact parted_of_tagless htagless
  | @blank c us hc he =>
    obtain ⟨tok, us, rfl, hb⟩ := hc.begins
    have hspaced := spaced_iff (hgap tok List.mem_cons_self)
    simp only [SpacedLink, List.head?_cons, Option.mem_some_iff, forall_eq', hspaced]
    refine ⟨fun hp _ ht => ?_, fun hs _ _ => hs trivial⟩
    -- what touches and still begins a compound is a tag
    have htest := endsTests_cons.1 he ht
    have htag : tok.kind.beginsTag := by
      revert hb htest
      cases tok.kind <;> decide
    exact hp ha htag ht

theorem DerivesLink.ne_nil {link : Combinator × Compound} {row : List Token}
    (h : DerivesLink link row) : row ≠ [] := by
  cases h with
  | sign _ _ => exact List.cons_ne_nil _ _
  | blank hc _ =>
    obtain ⟨tok, us, rfl, -⟩ := hc.begins
    exact List.cons_ne_nil _ _

theorem chain_links {links : List (Combinator × Compound)} {rows : List (List Token)}
    (h : List.Forall₂ DerivesLink links rows) {row : List Token} (hr : Closed row)
    (hne : row ≠ []) (hgap : ∀ tok ∈ rows.flatten, IsGap tok.gap) :
    (row ++ rows.flatten).IsChain Parted ↔ List.Forall₂ SpacedLink links rows := by
  induction h generalizing row with
  | nil => simp [hr.chain]
  | @cons link next links rows hl _ ih =>
    rw [List.flatten_cons] at hgap ⊢
    obtain ⟨hnext, hrows⟩ := List.forall_mem_append.1 hgap
    have ha := List.getLast?_eq_some_getLast hne
    have hfront : (∀ x ∈ row.getLast?, ∀ y ∈ (next ++ rows.flatten).head?, Parted x y) ↔
        SpacedLink link next := by
      rw [ha, List.head?_append_of_ne_nil _ hl.ne_nil, ← hl.parted_iff hnext (hr.last _ ha)]
      simp
    rw [List.isChain_append, hfront, ih hl.closed hl.ne_nil hrows, List.forall₂_cons, and_comm]
    simp [hr.chain, and_comm]

theorem Rows.Of.chain {p : Rows} {s : Selector} (h : p.Of s)
    (hgap : ∀ tok ∈ p.tokens, IsGap tok.gap) : p.tokens.IsChain Parted ↔ p.Spaced s := by
  obtain ⟨tok, us, hhead, -⟩ := h.head.begins
  have hne : p.head ≠ [] := by
    rw [hhead]
    exact List.cons_ne_nil _ _
  exact chain_links h.links h.head.closed hne (List.forall_mem_append.1 hgap).2

theorem DerivesTable.chain {sels : List Selector} {table : List Rows} {us : List Token}
    (h : DerivesTable sels table us) (hgap : ∀ tok ∈ us, IsGap tok.gap) :
    us.IsChain Parted ↔ List.Forall₂ Rows.Spaced table sels := by
  induction h with
  | last hs =>
    rw [hs.chain hgap, List.forall₂_cons]
    simp
  | @cons s p sels table comma us hs hk _ ih =>
    obtain ⟨hp, hus⟩ := List.forall_mem_append.1 hgap
    have htail := List.forall_mem_cons.1 hus
    have hends : comma.kind.endsCompound = false ∧ comma.kind.beginsTag = false := by
      rw [hk]
      exact ⟨rfl, rfl⟩
    -- a comma parts the selectors beside it, whatever they are
    have hbehind : (comma :: us).IsChain Parted ↔ us.IsChain Parted := by
      rw [List.isChain_cons]
      exact and_iff_right fun y _ => parted_of_sign hends.1
    rw [List.isChain_append, hbehind, hs.chain hp, ih htail.2, List.forall₂_cons]
    refine and_congr_right fun _ => and_iff_left fun a _ b hb => ?_
    cases hb
    exact parted_of_tagless hends.2

theorem isGap_of_madeOf {source : Text} {us : List Token} (h : MadeOf source us) :
    ∀ tok ∈ us, IsGap tok.gap := by
  have hall : lexemes source = us.map .token ++ [] := h.lexed.trans (List.append_nil _).symm
  obtain ⟨rest, -, hs, -⟩ := spells_of_lexemes hall
  intro tok htok
  obtain ⟨before, after, rfl⟩ := List.append_of_mem htok
  exact (found_of_lexes (spells_append.1 hs).2.1).gap

/-- The tokens of a rule's selectors, up to its opening brace, fall into rows, and in these all
descendant combinators stand for white space exactly if no tag touches the compound in front of
it. -/
theorem descendants_spaced_iff {t : Text} {r : Rule} (h : Rule.parse t = .ok r) :
    ∃ us opener block, MadeOf (stripComments t) (us ++ opener :: block) ∧
      opener.kind = .braceOpen ∧ (∃ table, DerivesTable r.selectors table us) ∧
      ∀ table, DerivesTable r.selectors table us →
        (List.Forall₂ Rows.Spaced table r.selectors ↔ us.IsChain Parted) := by
  obtain ⟨ts, hmade, hd⟩ := (parse_accepts_grammar t r).1 h
  cases hd with
  | @mk sels ds opener closer us vs hs ho _ _ =>
    have hgap : ∀ tok ∈ us, IsGap tok.gap :=
      fun tok htok => isGap_of_madeOf hmade tok (List.mem_append_left _ htok)
    exact ⟨us, opener, _, hmade, ho, table_of_selectors hs, fun table ht => (ht.chain hgap).symm⟩

theorem descendants_spaced_comment :
    ∃ r us table, Rule.parse "a.b,:not(c)>[d]/**/*\x7b\x7d".toList = .ok r ∧
      DerivesTable r.selectors table us ∧ us.IsChain Parted ∧
      List.Forall₂ Rows.Spaced table r.selectors ∧
      ∃ s ∈ r.selectors, (.descendant, .tagged .any []) ∈ s.links := by
  have hread : Rule.parse "a.b,:not(c)>[d]/**/*\x7b\x7d".toList =
      .ok ⟨[⟨.tagged (.named ['a']) [.hasClass ['b']], []⟩,
        ⟨.untagged (.pseudoClass "not(c)".toList) [],
          [(.child, .untagged (.hasAttr ['d']) []), (.descendant, .tagged .any [])]⟩], []⟩ := by
    decide +kernel
  have hall : (tokens (stripComments "a.b,:not(c)>[d]/**/*\x7b\x7d".toList)).IsChain Parted := by
    decide +kernel
  obtain ⟨us, opener, block, hmade, -, ⟨table, htable⟩, hiff⟩ := descendants_spaced_iff hread
  rw [tokens_of_lexemes hmade.lexed] at hall
  have hchain : us.IsChain Parted := hall.left_of_append
  exact ⟨_, us, table, hread, htable, hchain, (hiff table htable).2 hchain, _,
    List.mem_cons_of_mem _ (List.mem_singleton_self _),
    List.mem_cons_of_mem _ (List.mem_singleton_self _)⟩

/-- A star that touches a class is neither part of its compound nor refused. -/
theorem descendant_unspaced :
    ¬∀ (t : Text) (r : Rule), Rule.parse t = .ok r →
      (∃ s ∈ r.selectors, ∃ c, (.descendant, c) ∈ s.links) → ∃ c ∈ stripComments t, isBlank c := by
  intro hall
  have hread : Rule.parse ".a*\x7b\x7d".toList =
      .ok ⟨[⟨.untagged (.hasClass ['a']) [], [(.descendant, .tagged .any [])]⟩], []⟩ := by
    decide +kernel
  have hunspaced : (stripComments ".a*\x7b\x7d".toList).any isBlank = false := by decide +kernel
  obtain ⟨c, hc, hblank⟩ := hall _ _ hread
    ⟨_, List.mem_singleton_self _, _, List.mem_singleton_self _⟩
  exact List.any_eq_false.1 hunspaced c hc hblank

end ScopedStyle
