import ScopedStyle.Proofs.Token.Spelling
import ScopedStyle.Rule.Parser

/-!
# The grammar of selectors

Which tokens a part of a selector derives. The readers are sound and complete for
this grammar: they take a derivation off the front of the tokens, and find every
derivation that the tokens behind it cannot prolong.
-/

namespace ScopedStyle
open Text

inductive DerivesTest : Test → List Token → Prop
  | hasClass {dot name : Token} (hd : dot.kind = .dot) (hn : name.kind = .ident)
      (ht : name.touches) : DerivesTest (.hasClass name.text) [dot, name]
  | hasId {tok : Token} (hk : tok.kind = .hash) : DerivesTest (.hasId (tok.text.drop 1)) [tok]
  | hasAttr {tok : Token} (hk : tok.kind = .bracketed) (hi : bracketInside tok.text ≠ []) :
      DerivesTest (.hasAttr (bracketInside tok.text)) [tok]
  | pseudoClass {tok : Token} (hk : tok.kind = .pseudoClass) :
      DerivesTest (.pseudoClass (tok.text.drop 1)) [tok]
  | pseudoElement {tok : Token} (hk : tok.kind = .pseudoElement) :
      DerivesTest (.pseudoElement (tok.text.drop 2)) [tok]

def TokenKind.beginsTest : TokenKind → Bool
  | .dot | .hash | .bracketed | .pseudoClass | .pseudoElement => true
  | _ => false

theorem DerivesTest.begins {t : Test} {us : List Token} (h : DerivesTest t us) :
    ∃ tok vs, us = tok :: vs ∧ tok.kind.beginsTest := by
  cases h with
  | hasClass hd _ _ => exact ⟨_, _, rfl, by rw [hd]; rfl⟩
  | hasId hk => exact ⟨_, _, rfl, by rw [hk]; rfl⟩
  | hasAttr hk _ => exact ⟨_, _, rfl, by rw [hk]; rfl⟩
  | pseudoClass hk => exact ⟨_, _, rfl, by rw [hk]; rfl⟩
  | pseudoElement hk => exact ⟨_, _, rfl, by rw [hk]; rfl⟩

theorem readTest_of_derives {t : Test} {us : List Token} (h : DerivesTest t us)
    (rest : List Token) : readTest (us ++ rest) = .ok (some (t, rest)) := by
  cases h with
  | hasClass hd hn ht => simp [readTest, hd, hn, ht]
  | hasId hk => simp [readTest, hk]
  | hasAttr hk hi => simp [readTest, hk, hi]
  | pseudoClass hk => simp [readTest, hk]
  | pseudoElement hk => simp [readTest, hk]

theorem derives_of_readTest {t : Test} {ts rest : List Token}
    (h : readTest ts = .ok (some (t, rest))) : ∃ us, ts = us ++ rest ∧ DerivesTest t us := by
  cases ts with
  | nil => cases h
  | cons tok ts =>
    simp only [readTest] at h
    split at h
    · rename_i hk
      split at h
      · cases h
      · rename_i name after
        split at h
        · rename_i hn
          cases h
          exact ⟨[tok, name], rfl, .hasClass hk hn.1 hn.2⟩
        · cases h
    · rename_i hk
      cases h
      exact ⟨[tok], rfl, .hasId hk⟩
    · rename_i hk
      split at h
      · cases h
      · rename_i hi
        cases h
        exact ⟨[tok], rfl, .hasAttr hk fun he => hi (by rw [he]; rfl)⟩
    · rename_i hk
      cases h
      exact ⟨[tok], rfl, .pseudoClass hk⟩
    · rename_i hk
      cases h
      exact ⟨[tok], rfl, .pseudoElement hk⟩
    · cases h

theorem TokenKind.beginsTest_iff {k : TokenKind} :
    k.beginsTest ↔ k = .dot ∨ k = .hash ∨ k = .bracketed ∨ k = .pseudoClass ∨
      k = .pseudoElement := by
  cases k <;> decide

theorem readTest_eq_none {tok : Token} {ts : List Token} :
    readTest (tok :: ts) = .ok none ↔ tok.kind.beginsTest = false := by
  constructor
  · intro h
    by_contra hb
    rw [Bool.not_eq_false, TokenKind.beginsTest_iff] at hb
    rcases hb with hk | hk | hk | hk | hk
    · simp only [readTest, hk] at h
      split at h
      · cases h
      · split at h <;> cases h
    · simp [readTest, hk] at h
    · simp only [readTest, hk] at h
      split at h <;> cases h
    · simp [readTest, hk] at h
    · simp [readTest, hk] at h
  · intro h
    simp only [readTest]
    split
    all_goals first
      | rfl
      | (rename_i hk; rw [hk] at h; cases h)

/-- No token at the front goes on the tests in front of it. -/
def EndsTests (ts : List Token) : Prop :=
  ∀ tok ∈ ts.head?, tok.touches → tok.kind.beginsTest = false

theorem endsTests_nil : EndsTests [] := fun _ h => by cases h

theorem endsTests_cons {tok : Token} {ts : List Token} :
    EndsTests (tok :: ts) ↔ (tok.touches → tok.kind.beginsTest = false) :=
  ⟨fun h => h tok rfl, fun h t ht => by cases ht; exact h⟩

inductive DerivesTests : List Test → List Token → Prop
  | nil : DerivesTests [] []
  | cons {t : Test} {tests : List Test} {tok : Token} {us vs : List Token} (ht : tok.touches)
      (hd : DerivesTest t (tok :: us)) (hr : DerivesTests tests vs) :
      DerivesTests (t :: tests) (tok :: us ++ vs)

theorem readTests_of_derives {tests : List Test} {us rest : List Token}
    (h : DerivesTests tests us) (hr : EndsTests rest) (done : List Test) :
    readTests done (us ++ rest) = .ok (done.reverse ++ tests, rest) := by
  -- the reader collects in reverse, so `done` is general in the induction
  induction h generalizing done with
  | nil =>
    rw [List.nil_append, List.append_nil]
    cases rest with
    | nil => rw [readTests]
    | cons tok rest =>
      rw [readTests]
      split
      · rename_i ht
        have hn := (@readTest_eq_none tok rest).2 (endsTests_cons.1 hr ht)
        split
        · rename_i he
          rw [hn] at he
          cases he
        · rfl
        · rename_i he
          rw [hn] at he
          cases he
      · rfl
  | @cons t tests tok us vs ht hd _ ih =>
    have hread := readTest_of_derives hd (vs ++ rest)
    rw [List.append_assoc, List.cons_append, readTests, if_pos ht]
    rw [List.cons_append] at hread
    split
    · rename_i he
      rw [hread] at he
      cases he
    · rename_i he
      rw [hread] at he
      cases he
    · rename_i he
      rw [hread] at he
      cases he
      rw [ih (t :: done), List.reverse_cons, List.append_assoc]
      rfl

theorem derives_of_readTests {done tests : List Test} {ts rest : List Token}
    (h : readTests done ts = .ok (tests, rest)) :
    ∃ new us, tests = done.reverse ++ new ∧ ts = us ++ rest ∧ DerivesTests new us ∧
      EndsTests rest := by
  fun_induction readTests done ts with
  | case1 done =>
    cases h
    exact ⟨[], [], (List.append_nil _).symm, rfl, .nil, endsTests_nil⟩
  | case2 => cases h
  | case3 done tok ts' ht hn =>
    cases h
    refine ⟨[], [], (List.append_nil _).symm, rfl, .nil, endsTests_cons.2 fun _ => ?_⟩
    exact readTest_eq_none.1 hn
  | case4 done tok ts' ht t after hread ih =>
    obtain ⟨us, hus, hd⟩ := derives_of_readTest hread
    obtain ⟨new, vs, rfl, rfl, hds, hend⟩ := ih h
    obtain ⟨tok', us, rfl, -⟩ := hd.begins
    cases hus
    refine ⟨t :: new, tok :: us ++ vs, ?_, ?_, .cons ht hd hds, hend⟩
    · rw [List.reverse_cons, List.append_assoc]
      rfl
    · rw [List.append_assoc]
      rfl
  | case5 done tok ts' ht =>
    cases h
    exact ⟨[], [], (List.append_nil _).symm, rfl, .nil, endsTests_cons.2 fun h => absurd h ht⟩

inductive DerivesCompound : Compound → List Token → Prop
  | named {tok : Token} {tests : List Test} {us : List Token} (hk : tok.kind = .ident)
      (ht : DerivesTests tests us) : DerivesCompound (.tagged (.named tok.text) tests) (tok :: us)
  | any {tok : Token} {tests : List Test} {us : List Token} (hk : tok.kind = .star)
      (ht : DerivesTests tests us) : DerivesCompound (.tagged .any tests) (tok :: us)
  | untagged {first : Test} {others : List Test} {us vs : List Token}
      (hf : DerivesTest first us) (ho : DerivesTests others vs) :
      DerivesCompound (.untagged first others) (us ++ vs)

theorem TokenKind.beginsCompound_iff {k : TokenKind} :
    k.beginsCompound ↔ k = .ident ∨ k = .star ∨ k.beginsTest := by
  cases k <;> decide

theorem DerivesCompound.begins {c : Compound} {us : List Token} (h : DerivesCompound c us) :
    ∃ tok vs, us = tok :: vs ∧ tok.kind.beginsCompound := by
  cases h with
  | named hk _ => exact ⟨_, _, rfl, TokenKind.beginsCompound_iff.2 (.inl hk)⟩
  | any hk _ => exact ⟨_, _, rfl, TokenKind.beginsCompound_iff.2 (.inr (.inl hk))⟩
  | untagged hf _ =>
    obtain ⟨tok, vs, rfl, hb⟩ := hf.begins
    exact ⟨tok, _, rfl, TokenKind.beginsCompound_iff.2 (.inr (.inr hb))⟩

theorem readCompound_untagged {tok : Token} {ts more rest : List Token} {first : Test}
    {others : List Test} (hb : tok.kind.beginsTest)
    (hf : readTest (tok :: ts) = .ok (some (first, more)))
    (ho : readTests [] more = .ok (others, rest)) :
    readCompound (tok :: ts) = .ok (.untagged first others, rest) := by
  rw [TokenKind.beginsTest_iff] at hb
  rcases hb with hk | hk | hk | hk | hk <;> simp only [readCompound, hk, hf, ho]

theorem readCompound_of_derives {c : Compound} {us rest : List Token}
    (h : DerivesCompound c us) (hr : EndsTests rest) :
    readCompound (us ++ rest) = .ok (c, rest) := by
  cases h with
  | named hk ht =>
    have hread := readTests_of_derives ht hr []
    simp only [List.cons_append, readCompound, hk]
    rw [hread]
    rfl
  | any hk ht =>
    have hread := readTests_of_derives ht hr []
    simp only [List.cons_append, readCompound, hk]
    rw [hread]
    rfl
  | @untagged _ _ us vs hf ho =>
    have hfirst := readTest_of_derives hf (vs ++ rest)
    have hread := readTests_of_derives ho hr []
    obtain ⟨tok, us, rfl, hb⟩ := hf.begins
    rw [List.cons_append] at hfirst
    rw [List.append_assoc, List.cons_append]
    exact readCompound_untagged hb hfirst hread

theorem derives_of_readCompound {c : Compound} {ts rest : List Token}
    (h : readCompound ts = .ok (c, rest)) :
    ∃ us, ts = us ++ rest ∧ DerivesCompound c us ∧ EndsTests rest := by
  cases ts with
  | nil => cases h
  | cons tok ts =>
    simp only [readCompound] at h
    split at h
    · rename_i hk
      split at h
      · cases h
      · rename_i hread
        cases h
        obtain ⟨new, us, rfl, rfl, ht, hend⟩ := derives_of_readTests hread
        exact ⟨tok :: us, rfl, .named hk ht, hend⟩
    · rename_i hk
      split at h
      · cases h
      · rename_i hread
        cases h
        obtain ⟨new, us, rfl, rfl, ht, hend⟩ := derives_of_readTests hread
        exact ⟨tok :: us, rfl, .any hk ht, hend⟩
    · split at h
      · cases h
      · cases h
      · rename_i hfirst
        split at h
        · cases h
        · rename_i hread
          cases h
          obtain ⟨us, hus, hf⟩ := derives_of_readTest hfirst
          obtain ⟨new, vs, rfl, rfl, ht, hend⟩ := derives_of_readTests hread
          refine ⟨us ++ vs, ?_, .untagged hf ht, hend⟩
          rw [hus, List.append_assoc]

def TokenKind.combinator? : TokenKind → Option Combinator
  | .greaterThan => some .child
  | .plus => some .nextSibling
  | .tilde => some .subsequentSibling
  | _ => none

/-- A combinator and the compound behind it. Without a sign between them, nothing at the front of
the compound may go on the one before it. -/
inductive DerivesLink : Combinator × Compound → List Token → Prop
  | sign {tok : Token} {k : Combinator} {c : Compound} {us : List Token}
      (hk : tok.kind.combinator? = some k) (hc : DerivesCompound c us) :
      DerivesLink (k, c) (tok :: us)
  | blank {c : Compound} {us : List Token} (hc : DerivesCompound c us) (he : EndsTests us) :
      DerivesLink (.descendant, c) us

inductive DerivesLinks : List (Combinator × Compound) → List Token → Prop
  | nil : DerivesLinks [] []
  | cons {link : Combinator × Compound} {links : List (Combinator × Compound)}
      {us vs : List Token} (hl : DerivesLink link us) (hr : DerivesLinks links vs) :
      DerivesLinks (link :: links) (us ++ vs)

def TokenKind.goesOnSelector (k : TokenKind) : Bool := k.combinator?.isSome || k.beginsCompound

def EndsSelector (ts : List Token) : Prop := ∀ tok ∈ ts.head?, tok.kind.goesOnSelector = false

theorem endsSelector_nil : EndsSelector [] := fun _ h => by cases h

theorem endsSelector_cons {tok : Token} {ts : List Token} :
    EndsSelector (tok :: ts) ↔ tok.kind.goesOnSelector = false :=
  ⟨fun h => h tok rfl, fun h t ht => by cases ht; exact h⟩

theorem EndsSelector.tests {ts : List Token} (h : EndsSelector ts) : EndsTests ts := by
  intro tok htok _
  have hk := h tok htok
  revert hk
  cases tok.kind <;> decide

theorem DerivesLink.ends {link : Combinator × Compound} {us : List Token}
    (h : DerivesLink link us) (rest : List Token) : EndsTests (us ++ rest) := by
  cases h with
  | @sign tok _ _ _ hk _ =>
    refine endsTests_cons.2 fun _ => ?_
    revert hk
    cases tok.kind <;> simp [TokenKind.combinator?, TokenKind.beginsTest]
  | blank hc he =>
    obtain ⟨tok, vs, rfl, -⟩ := hc.begins
    exact endsTests_cons.2 (endsTests_cons.1 he)

theorem DerivesLinks.ends {links : List (Combinator × Compound)} {us rest : List Token}
    (h : DerivesLinks links us) (hr : EndsTests rest) : EndsTests (us ++ rest) := by
  cases h with
  | nil => exact hr
  | cons hl _ =>
    rw [List.append_assoc]
    exact hl.ends _

theorem readCombinator?_eq (tok : Token) (ts : List Token) :
    readCombinator? (tok :: ts) =
      match tok.kind.combinator? with
      | some k => some (k, ts)
      | none => if tok.kind.beginsCompound then some (.descendant, tok :: ts) else none := by
  simp only [readCombinator?]
  cases tok.kind <;> rfl

theorem readCombinator?_eq_none {ts : List Token} :
    readCombinator? ts = none ↔ EndsSelector ts := by
  cases ts with
  | nil => exact ⟨fun _ => endsSelector_nil, fun _ => rfl⟩
  | cons tok ts =>
    rw [endsSelector_cons, readCombinator?_eq]
    cases tok.kind <;> simp [TokenKind.combinator?, TokenKind.beginsCompound,
      TokenKind.goesOnSelector]

theorem readLink_of_derives {link : Combinator × Compound} {us rest : List Token}
    (h : DerivesLink link us) (hr : EndsTests rest) :
    ∃ more, readCombinator? (us ++ rest) = some (link.1, more) ∧
      readCompound more = .ok (link.2, rest) := by
  cases h with
  | @sign tok _ _ us hk hc =>
    refine ⟨us ++ rest, ?_, readCompound_of_derives hc hr⟩
    rw [List.cons_append, readCombinator?_eq, hk]
  | blank hc he =>
    refine ⟨us ++ rest, ?_, readCompound_of_derives hc hr⟩
    obtain ⟨tok, vs, rfl, hb⟩ := hc.begins
    rw [List.cons_append, readCombinator?_eq]
    revert hb
    cases tok.kind <;> simp [TokenKind.combinator?, TokenKind.beginsCompound]

theorem derives_of_readLink {k : Combinator} {c : Compound} {ts more rest : List Token}
    (hk : readCombinator? ts = some (k, more)) (hc : readCompound more = .ok (c, rest))
    (he : EndsTests ts) : ∃ us, ts = us ++ rest ∧ DerivesLink (k, c) us ∧ EndsTests rest := by
  obtain ⟨us, rfl, hd, hend⟩ := derives_of_readCompound hc
  cases ts with
  | nil => cases hk
  | cons tok ts =>
    rw [readCombinator?_eq] at hk
    split at hk
    · rename_i j hj
      cases hk
      exact ⟨tok :: us, rfl, .sign hj hd, hend⟩
    · split at hk
      · simp only [Option.some.injEq, Prod.mk.injEq] at hk
        obtain ⟨rfl, hts⟩ := hk
        refine ⟨us, hts, .blank hd ?_, hend⟩
        obtain ⟨tok', vs, rfl, -⟩ := hd.begins
        cases hts
        exact endsTests_cons.2 (endsTests_cons.1 he)
      · cases hk

theorem readLinks_of_derives {links : List (Combinator × Compound)} {us rest : List Token}
    (h : DerivesLinks links us) (hr : EndsSelector rest)
    (done : List (Combinator × Compound)) :
    readLinks done (us ++ rest) = .ok (done.reverse ++ links, rest) := by
  induction h generalizing done with
  | nil =>
    have hnone := readCombinator?_eq_none.2 hr
    rw [List.nil_append, List.append_nil, readLinks]
    split
    · rfl
    · rename_i hsome
      rw [hnone] at hsome
      cases hsome
  | @cons link links us vs hl hd ih =>
    obtain ⟨more, hk, hc⟩ := readLink_of_derives hl (hd.ends hr.tests)
    rw [List.append_assoc, readLinks]
    split
    · rename_i hnone
      rw [hk] at hnone
      cases hnone
    · rename_i k more' hk'
      rw [hk] at hk'
      cases hk'
      split
      · rename_i he
        rw [hc] at he
        cases he
      · rename_i hc'
        rw [hc] at hc'
        cases hc'
        rw [ih (link :: done), List.reverse_cons, List.append_assoc]
        rfl

theorem derives_of_readLinks {done links : List (Combinator × Compound)} {ts rest : List Token}
    (h : readLinks done ts = .ok (links, rest)) (he : EndsTests ts) :
    ∃ new us, links = done.reverse ++ new ∧ ts = us ++ rest ∧ DerivesLinks new us ∧
      EndsSelector rest := by
  fun_induction readLinks done ts with
  | case1 done ts hnone =>
    cases h
    exact ⟨[], [], (List.append_nil _).symm, rfl, .nil, readCombinator?_eq_none.1 hnone⟩
  | case2 => cases h
  | case3 done ts k more hk c after hc ih =>
    obtain ⟨us, rfl, hl, hend⟩ := derives_of_readLink hk hc he
    obtain ⟨new, vs, rfl, rfl, hd, hsel⟩ := ih h hend
    refine ⟨(k, c) :: new, us ++ vs, ?_, ?_, .cons hl hd, hsel⟩
    · rw [List.reverse_cons, List.append_assoc]
      rfl
    · rw [List.append_assoc]

inductive DerivesSelector : Selector → List Token → Prop
  | mk {head : Compound} {links : List (Combinator × Compound)} {us vs : List Token}
      (hh : DerivesCompound head us) (hl : DerivesLinks links vs) :
      DerivesSelector ⟨head, links⟩ (us ++ vs)

theorem readSelector_of_derives {s : Selector} {us rest : List Token} (h : DerivesSelector s us)
    (hr : EndsSelector rest) : readSelector (us ++ rest) = .ok (s, rest) := by
  cases h with
  | mk hh hl =>
    rw [List.append_assoc, readSelector, readCompound_of_derives hh (hl.ends hr.tests)]
    simp only
    rw [readLinks_of_derives hl hr []]
    rfl

theorem derives_of_readSelector {s : Selector} {ts rest : List Token}
    (h : readSelector ts = .ok (s, rest)) :
    ∃ us, ts = us ++ rest ∧ DerivesSelector s us ∧ EndsSelector rest := by
  unfold readSelector at h
  split at h
  · cases h
  · rename_i hread
    split at h
    · cases h
    · rename_i hlinks
      cases h
      obtain ⟨us, rfl, hc, hend⟩ := derives_of_readCompound hread
      obtain ⟨new, vs, rfl, rfl, hl, hsel⟩ := derives_of_readLinks hlinks hend
      exact ⟨us ++ vs, (List.append_assoc ..).symm, .mk hc hl, hsel⟩

inductive DerivesMore : List Selector → List Token → Prop
  | nil : DerivesMore [] []
  | cons {tok : Token} {s : Selector} {more : List Selector} {us vs : List Token}
      (hk : tok.kind = .comma) (hs : DerivesSelector s us) (hm : DerivesMore more vs) :
      DerivesMore (s :: more) (tok :: us ++ vs)

def EndsSelectors (ts : List Token) : Prop :=
  EndsSelector ts ∧ ∀ tok ∈ ts.head?, tok.kind ≠ .comma

theorem DerivesMore.ends {more : List Selector} {us rest : List Token} (h : DerivesMore more us)
    (hr : EndsSelector rest) : EndsSelector (us ++ rest) := by
  cases h with
  | nil => exact hr
  | cons hk _ _ =>
    refine endsSelector_cons.2 ?_
    rw [hk]
    rfl

theorem readMoreSelectors_of_derives {more : List Selector} {us rest : List Token}
    (h : DerivesMore more us) (hr : EndsSelectors rest) (done : List Selector) :
    readMoreSelectors done (us ++ rest) = .ok (done.reverse ++ more, rest) := by
  induction h generalizing done with
  | nil =>
    rw [List.nil_append, List.append_nil]
    cases rest with
    | nil => rw [readMoreSelectors]
    | cons tok rest => rw [readMoreSelectors, if_neg (hr.2 tok rfl)]
  | @cons tok s more us vs hk hs hm ih =>
    have hread := readSelector_of_derives hs (hm.ends hr.1)
    rw [List.append_assoc, List.cons_append, readMoreSelectors, if_pos hk]
    split
    · rename_i he
      rw [hread] at he
      cases he
    · rename_i he
      rw [hread] at he
      cases he
      rw [ih (s :: done), List.reverse_cons, List.append_assoc]
      rfl

theorem derives_of_readMoreSelectors {done sels : List Selector} {ts rest : List Token}
    (h : readMoreSelectors done ts = .ok (sels, rest)) :
    ∃ more us, sels = done.reverse ++ more ∧ ts = us ++ rest ∧ DerivesMore more us := by
  fun_induction readMoreSelectors done ts with
  | case1 done =>
    cases h
    exact ⟨[], [], (List.append_nil _).symm, rfl, .nil⟩
  | case2 => cases h
  | case3 done tok ts' hk s after hread ih =>
    obtain ⟨us, rfl, hs, -⟩ := derives_of_readSelector hread
    obtain ⟨more, vs, rfl, rfl, hm⟩ := ih h
    refine ⟨s :: more, tok :: us ++ vs, ?_, ?_, .cons hk hs hm⟩
    · rw [List.reverse_cons, List.append_assoc]
      rfl
    · rw [List.append_assoc]
      rfl
  | case4 done tok ts' hk =>
    cases h
    exact ⟨[], [], (List.append_nil _).symm, rfl, .nil⟩

inductive DerivesSelectors : List Selector → List Token → Prop
  | mk {s : Selector} {more : List Selector} {us vs : List Token} (hs : DerivesSelector s us)
      (hm : DerivesMore more vs) : DerivesSelectors (s :: more) (us ++ vs)

theorem readSelectors_of_derives {sels : List Selector} {us rest : List Token}
    (h : DerivesSelectors sels us) (hr : EndsSelectors rest) :
    readSelectors (us ++ rest) = .ok (sels, rest) := by
  cases h with
  | mk hs hm =>
    rw [List.append_assoc, readSelectors, readSelector_of_derives hs (hm.ends hr.1)]
    simp only
    rw [readMoreSelectors_of_derives hm hr]
    rfl

theorem derives_of_readSelectors {sels : List Selector} {ts rest : List Token}
    (h : readSelectors ts = .ok (sels, rest)) :
    ∃ us, ts = us ++ rest ∧ DerivesSelectors sels us := by
  unfold readSelectors at h
  split at h
  · cases h
  · rename_i hread
    obtain ⟨us, rfl, hs, -⟩ := derives_of_readSelector hread
    obtain ⟨more, vs, rfl, rfl, hm⟩ := derives_of_readMoreSelectors h
    exact ⟨us ++ vs, (List.append_assoc ..).symm, .mk hs hm⟩

end ScopedStyle
