import ScopedStyle.Engine
import ScopedStyle.Proofs.Document.Selection
import ScopedStyle.Proofs.Nested.Root
import ScopedStyle.Proofs.Rule.Printed

/-!
# The scope of a generated class

Every flat rule of a style text begins with the class that the style text is
flattened under. As selectors are joined as text, only the first selector of a
rule is sure to be held by that class, and name characters right behind the
class become part of its name. What a selector held by a class selects is
reached from an element with the class.
-/

namespace ScopedStyle
open Text

theorem DerivesTest.goesOn {t : Test} {us : List Token} (h : DerivesTest t us) :
    ∀ tok ∈ us, tok.kind.goesOnSelector := by
  cases h with
  | hasClass hd hn _ => simp [hd, hn, TokenKind.goesOnSelector, TokenKind.beginsCompound]
  | hasId hk => simp [hk, TokenKind.goesOnSelector, TokenKind.beginsCompound]
  | hasAttr hk _ => simp [hk, TokenKind.goesOnSelector, TokenKind.beginsCompound]
  | pseudoClass hk => simp [hk, TokenKind.goesOnSelector, TokenKind.beginsCompound]
  | pseudoElement hk => simp [hk, TokenKind.goesOnSelector, TokenKind.beginsCompound]

theorem DerivesTests.goesOn {tests : List Test} {us : List Token} (h : DerivesTests tests us) :
    ∀ tok ∈ us, tok.kind.goesOnSelector := by
  induction h with
  | nil => simp
  | cons _ hd _ ih => exact List.forall_mem_append.2 ⟨hd.goesOn, ih⟩

theorem DerivesCompound.goesOn {c : Compound} {us : List Token} (h : DerivesCompound c us) :
    ∀ tok ∈ us, tok.kind.goesOnSelector := by
  cases h with
  | named hk ht => exact List.forall_mem_cons.2 ⟨by rw [hk]; rfl, ht.goesOn⟩
  | any hk ht => exact List.forall_mem_cons.2 ⟨by rw [hk]; rfl, ht.goesOn⟩
  | untagged hf ho => exact List.forall_mem_append.2 ⟨hf.goesOn, ho.goesOn⟩

theorem DerivesLinks.goesOn {links : List (Combinator × Compound)} {us : List Token}
    (h : DerivesLinks links us) : ∀ tok ∈ us, tok.kind.goesOnSelector := by
  induction h with
  | nil => simp
  | cons hl _ ih =>
    refine List.forall_mem_append.2 ⟨?_, ih⟩
    cases hl with
    | sign hk hc =>
      refine List.forall_mem_cons.2 ⟨?_, hc.goesOn⟩
      rw [TokenKind.goesOnSelector, hk]
      rfl
    | blank hc _ => exact hc.goesOn

theorem DerivesSelector.goesOn {s : Selector} {us : List Token} (h : DerivesSelector s us) :
    ∀ tok ∈ us, tok.kind.goesOnSelector := by
  cases h with
  | mk hh hl => exact List.forall_mem_append.2 ⟨hh.goesOn, hl.goesOn⟩

def listCommas (us : List Token) : Nat :=
  (us.takeWhile (·.kind ≠ .braceOpen)).countP (·.kind = .comma)

theorem goesOn_not_comma {us : List Token} (h : ∀ tok ∈ us, tok.kind.goesOnSelector) :
    us.countP (·.kind = .comma) = 0 ∧ ∀ tok ∈ us, tok.kind ≠ .braceOpen := by
  refine ⟨List.countP_eq_zero.2 fun tok htok hk => ?_, fun tok htok hk => ?_⟩
  · have hon := h tok htok
    rw [of_decide_eq_true hk] at hon
    cases hon
  · have hon := h tok htok
    rw [hk] at hon
    cases hon

theorem DerivesMore.commas {more : List Selector} {us : List Token} (h : DerivesMore more us) :
    us.countP (·.kind = .comma) = more.length ∧ ∀ tok ∈ us, tok.kind ≠ .braceOpen := by
  induction h with
  | nil => simp
  | @cons tok s more us vs hk hs _ ih =>
    obtain ⟨hnone, hopen⟩ := goesOn_not_comma hs.goesOn
    constructor
    · rw [List.cons_append, List.countP_cons_of_pos (by simp [hk]), List.countP_append, hnone,
        ih.1, Nat.zero_add, List.length_cons]
    · refine List.forall_mem_cons.2 ⟨by simp [hk], List.forall_mem_append.2 ⟨hopen, ih.2⟩⟩

theorem DerivesRule.commas {r : Rule} {us : List Token} (h : DerivesRule r us) :
    r.selectors.length = listCommas us + 1 := by
  cases h with
  | @mk _ _ opener closer us vs hs ho hd hc =>
    cases hs with
    | @mk s more us vs hs hm =>
      obtain ⟨hnone, hopen⟩ := goesOn_not_comma hs.goesOn
      have hall : ∀ tok ∈ us ++ vs, decide (tok.kind ≠ .braceOpen) = true :=
        fun tok htok => decide_eq_true (List.forall_mem_append.2 ⟨hopen, hm.commas.2⟩ tok htok)
      rw [listCommas, List.takeWhile_append_of_pos hall,
        List.takeWhile_cons_of_neg (by simp [ho]), List.append_nil, List.countP_append, hnone,
        hm.commas.1, Nat.zero_add, List.length_cons]

theorem DerivesCompound.leadingClass {c : Compound} {us rest ts : List Token} {dot name : Token}
    (h : DerivesCompound c us) (hd : dot.kind = .dot) (heq : us ++ rest = dot :: name :: ts) :
    .hasClass name.text ∈ c.tests := by
  have hdot {tok : Token} {more : List Token} (hk : tok.kind ≠ .dot) :
      tok :: more ≠ dot :: name :: ts := fun he => hk ((List.cons.inj he).1 ▸ hd)
  cases h with
  | named hk _ => exact absurd heq (hdot (by simp [hk]))
  | any hk _ => exact absurd heq (hdot (by simp [hk]))
  | untagged hf _ =>
    cases hf with
    | hasClass _ _ _ =>
      obtain ⟨-, heq⟩ := List.cons.inj heq
      rw [(List.cons.inj heq).1]
      exact List.mem_cons_self
    | hasId hk => exact absurd heq (hdot (by simp [hk]))
    | hasAttr hk _ => exact absurd heq (hdot (by simp [hk]))
    | pseudoClass hk => exact absurd heq (hdot (by simp [hk]))
    | pseudoElement hk => exact absurd heq (hdot (by simp [hk]))

theorem DerivesRule.leadingClass {r : Rule} {dot name : Token} {ts : List Token}
    (h : DerivesRule r (dot :: name :: ts)) (hd : dot.kind = .dot) :
    ∃ s more, r.selectors = s :: more ∧ .hasClass name.text ∈ s.head.tests := by
  generalize hts : dot :: name :: ts = us at h
  cases h with
  | mk hs _ _ _ =>
    cases hs with
    | mk hs _ =>
      cases hs with
      | mk hh _ =>
        simp only [List.append_assoc] at hts
        exact ⟨_, _, rfl, hh.leadingClass hd hts.symm⟩

theorem nameChar_of_mem_ofNat {c : Char} {n : Nat} (h : c ∈ ofNat n) : isNameChar c := by
  have hdigit : c.isDigit := Nat.isDigit_of_mem_toDigits (by decide) (by decide) h
  simp [isNameChar, Char.isAlphanum, hdigit]

theorem isIdent_className {stem : Text} (h : IsIdent stem) (n : Nat) :
    IsIdent (ClassSupply.className stem n) :=
  h.append (List.forall_mem_cons.2 ⟨rfl, fun _ => nameChar_of_mem_ofNat⟩)

theorem lexemes_class {w rest : Text} (hw : IsIdent w) (hr : Stopped isNameChar rest) :
    lexemes ('.' :: w ++ rest) =
      .token ⟨.dot, ['.'], []⟩ :: .token ⟨.ident, w, []⟩ :: lexemes rest := by
  have hspells : Spells [⟨.dot, ['.'], []⟩, ⟨.ident, w, []⟩] rest := by
    refine ⟨lexes_dot isGap_nil ?_, lexes_ident hw isGap_nil hr, trivial⟩
    simpa [Token.source] using hw.stopped_digit rest
  have hlex := lexemes_of_spells hspells
  simpa [Token.source] using hlex

namespace Document
variable {d : Document} {s : Selector} {n : NodeId} {name : Text}

def ReachedFrom (d : Document) (name : Text) (n : NodeId) : Prop :=
  ∃ top node, d.node? top = some node ∧ node.hasClass name ∧
    Relation.ReflTransGen (fun m n => ∃ k, d.Related k m n) top n

theorem Assigns.reached {node : Nat → NodeId} (h : d.Assigns s n node)
    (hc : .hasClass name ∈ s.head.tests) : d.ReachedFrom name n := by
  obtain ⟨data, hdata, hfits⟩ := h.fits 0 s.head rfl
  refine ⟨node 0, data, hdata, Test.holds_iff.2 (hfits.tests _ hc), ?_⟩
  have hwalk : ∀ i ≤ s.links.length,
      Relation.ReflTransGen (fun m n => ∃ k, d.Related k m n) (node 0) (node i) := by
    intro i
    induction i with
    | zero => exact fun _ => .refl
    | succ i ih =>
      intro hi
      have hlink := List.getElem?_eq_getElem hi
      exact (ih (Nat.le_of_lt hi)).tail ⟨_, h.related i _ _ hlink⟩
  exact h.last ▸ hwalk s.links.length (le_refl _)

end Document

/-- The front of the selector asks for the class, so all that it selects is reached from an element
with the class. -/
structure Selector.HeldBy (s : Selector) (name : Text) : Prop where
  head : .hasClass name ∈ s.head.tests
  reached : ∀ d n, Document.Reachable d → d.selects s n → d.ReachedFrom name n

theorem Selector.heldBy_of_head {s : Selector} {name : Text}
    (h : .hasClass name ∈ s.head.tests) : s.HeldBy name := by
  refine ⟨h, fun d n hd hs => ?_⟩
  obtain ⟨node, hnode⟩ := (hd.selects_iff s n).2.1 hs
  exact hnode.reached h

/-- The name characters right behind the class at the front of a rule. -/
def glued (name t : Text) : Text :=
  ((stripComments t).drop (Engine.classSelector name).length).takeWhile isNameChar

theorem stripComments_class {name : Text} (hname : IsIdent name) (u : Text) :
    stripComments (Engine.classSelector name ++ u) =
      Engine.classSelector name ++ stripComments u := by
  refine stripComments_append (fun hm => ?_) u
  rcases List.mem_cons.1 hm with he | hm
  · exact absurd he (by decide)
  · exact hname.no_slash hm

theorem glued_class {name : Text} (hname : IsIdent name) (u : Text) :
    glued name (Engine.classSelector name ++ u) = (stripComments u).takeWhile isNameChar := by
  rw [glued, stripComments_class hname, List.drop_left]

theorem heldBy_of_parse {name u : Text} {r : Rule} (hname : IsIdent name)
    (hr : Rule.parse (Engine.classSelector name ++ u) = .ok r) :
    ∃ s more, r.selectors = s :: more ∧
      s.HeldBy (name ++ (stripComments u).takeWhile isNameChar) ∧
      more.length =
        listCommas (tokens (stripComments (Engine.classSelector name ++ u))) := by
  obtain ⟨us, hus, hd⟩ := parse_eq_ok_iff.1 hr
  have htokens := tokens_of_lexemes hus
  have hfull : IsIdent (name ++ (stripComments u).takeWhile isNameChar) :=
    hname.append fun c hc => List.mem_takeWhile_imp hc
  have hstop : Stopped isNameChar ((stripComments u).dropWhile isNameChar) := by
    rw [← drop_run]
    exact stopped_drop_run isNameChar (stripComments u)
  -- the name token takes the name characters behind the class
  have hlex := lexemes_class hfull hstop
  rw [List.cons_append, List.append_assoc, List.takeWhile_append_dropWhile, ← List.cons_append]
    at hlex
  rw [stripComments_class hname, Engine.classSelector, hlex] at hus
  obtain ⟨dot, us, rfl, hdot, hus⟩ := List.map_eq_cons_iff.1 hus.symm
  obtain ⟨ident, us, rfl, hident, -⟩ := List.map_eq_cons_iff.1 hus
  cases hdot
  cases hident
  obtain ⟨s, more, hs, hhead⟩ := hd.leadingClass rfl
  have hcommas := hd.commas
  rw [hs, List.length_cons, ← htokens] at hcommas
  exact ⟨s, more, hs, Selector.heldBy_of_head hhead, Nat.succ.inj hcommas⟩

/-- An accepted rule of a style text begins with its class, to whose name the name characters behind
it belong. The class holds the first selector, and each comma begins another one. -/
theorem flatten_held {stem : Text} (hstem : IsIdent stem) (n : Nat) (style : Text) {t : Text}
    {r : Rule} (ht : t ∈ flatten style (Engine.classSelector (ClassSupply.className stem n)))
    (hr : Rule.parse t = .ok r) :
    Engine.classSelector (ClassSupply.className stem n) <+: stripComments t ∧
      (∃ s more, r.selectors = s :: more ∧
        s.HeldBy (ClassSupply.className stem n ++ glued (ClassSupply.className stem n) t) ∧
        more.length = listCommas (tokens (stripComments t))) ∧
      (glued (ClassSupply.className stem n) t = [] → listCommas (tokens (stripComments t)) = 0 →
        ∀ s ∈ r.selectors, s.HeldBy (ClassSupply.className stem n)) := by
  have hname := isIdent_className hstem n
  generalize ClassSupply.className stem n = name at ht hname ⊢
  rw [flatten_under] at ht
  obtain ⟨u, -, rfl⟩ := List.mem_map.1 ht
  obtain ⟨s, more, hs, hheld, hcommas⟩ := heldBy_of_parse hname hr
  rw [← glued_class hname u] at hheld
  refine ⟨?_, ⟨s, more, hs, hheld, hcommas⟩, fun hglued hnone s' hs' => ?_⟩
  · rw [stripComments_class hname]
    exact List.prefix_append ..
  · rw [hnone] at hcommas
    rw [hs, List.length_eq_zero_iff.1 hcommas, List.mem_singleton] at hs'
    rw [hglued, List.append_nil] at hheld
    exact hs' ▸ hheld

theorem flatten_held_hover :
    IsIdent "styled".toList ∧
      ".styled-1:hover > a \x7b color: blue; \x7d".toList ∈
        flatten "color: red;\n&:hover > a \x7b\n  color: blue;\n\x7d".toList
          (Engine.classSelector (ClassSupply.className "styled".toList 1)) ∧
      ∃ r, Rule.parse ".styled-1:hover > a \x7b color: blue; \x7d".toList = .ok r ∧
        r.selectors.length = 1 ∧
        ∀ s ∈ r.selectors, s.HeldBy (ClassSupply.className "styled".toList 1) := by
  have hstem : IsIdent "styled".toList :=
    ⟨[], "styled".toList, rfl, .inl rfl, 's', "tyled".toList, rfl, rfl,
      List.all_eq_true.1 (by decide)⟩
  have hmem : ".styled-1:hover > a \x7b color: blue; \x7d".toList ∈
      flatten "color: red;\n&:hover > a \x7b\n  color: blue;\n\x7d".toList
        (Engine.classSelector (ClassSupply.className "styled".toList 1)) := by
    decide +kernel
  have hread : Rule.parse ".styled-1:hover > a \x7b color: blue; \x7d".toList =
      .ok ⟨[⟨.untagged (.hasClass "styled-1".toList) [.pseudoClass "hover".toList],
        [(.child, .tagged (.named ['a']) [])]⟩],
        [⟨"color".toList, "blue".toList, false⟩]⟩ := by
    decide +kernel
  have h := flatten_held hstem 1 _ hmem hread
  exact ⟨hstem, hmem, _, hread, rfl, h.2.2 (by decide +kernel) (by decide +kernel)⟩

/-- The second selector of a list is held by no class, and a digit right behind the class turns it
into another one. -/
theorem flatten_escapes :
    (∃ r, ".styled-1 .a, .b \x7b color: red; \x7d".toList ∈
        flatten ".a, .b \x7b\n  color: red;\n\x7d".toList
          (Engine.classSelector (ClassSupply.className "styled".toList 1)) ∧
      Rule.parse ".styled-1 .a, .b \x7b color: red; \x7d".toList = .ok r ∧
      ¬∀ s ∈ r.selectors, .hasClass (ClassSupply.className "styled".toList 1) ∈ s.head.tests) ∧
    ∃ r, ".styled-10 \x7b color: red; \x7d".toList ∈
        flatten "&0 \x7b\n  color: red;\n\x7d".toList
          (Engine.classSelector (ClassSupply.className "styled".toList 1)) ∧
      Rule.parse ".styled-10 \x7b color: red; \x7d".toList = .ok r ∧
      ∀ s ∈ r.selectors, .hasClass (ClassSupply.className "styled".toList 1) ∉ s.head.tests := by
  have hlist : Rule.parse ".styled-1 .a, .b \x7b color: red; \x7d".toList =
      .ok ⟨[⟨.untagged (.hasClass "styled-1".toList) [],
          [(.descendant, .untagged (.hasClass ['a']) [])]⟩,
        ⟨.untagged (.hasClass ['b']) [], []⟩],
        [⟨"color".toList, "red".toList, false⟩]⟩ := by
    decide +kernel
  have hdigit : Rule.parse ".styled-10 \x7b color: red; \x7d".toList =
      .ok ⟨[⟨.untagged (.hasClass "styled-10".toList) [], []⟩],
        [⟨"color".toList, "red".toList, false⟩]⟩ := by
    decide +kernel
  exact ⟨⟨_, by decide +kernel, hlist, by decide +kernel⟩,
    _, by decide +kernel, hdigit, by decide +kernel⟩

end ScopedStyle
