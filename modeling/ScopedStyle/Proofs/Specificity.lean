import Mathlib.Data.Prod.Lex
import ScopedStyle.Specificity

/-!
# What a specificity counts

Every test of a selector, and every named tag, raises one of three counts.
Listed one after the other they are the whole of what the counting reads: it
faults exactly if one of them occurs more often than a count can tell, and
else each count is a number of occurrences. So a row of two selectors counts
what both count, and specificities compare like the true numbers.
-/

namespace ScopedStyle

inductive Count
  | id
  | ofClass
  | ofType
  deriving DecidableEq

def Test.count : Test → Count
  | hasId _ => .id
  | hasClass _ | hasAttr _ | pseudoClass _ => .ofClass
  | pseudoElement _ => .ofType

def TagTest.counts : TagTest → List Count
  | named _ => [.ofType]
  | any => []

def Compound.counts : Compound → List Count
  | tagged tag tests => tag.counts ++ tests.map Test.count
  | untagged first others => (first :: others).map Test.count

namespace Selector

def counts (s : Selector) : List Count := s.compounds.flatMap Compound.counts

def ids (s : Selector) : Nat := s.counts.count .id

def classes (s : Selector) : Nat := s.counts.count .ofClass

def types (s : Selector) : Nat := s.counts.count .ofType

def weight (s : Selector) : List Nat := [s.ids, s.classes, s.types]

def Countable (s : Selector) : Prop :=
  s.ids ≤ Specificity.limit ∧ s.classes ≤ Specificity.limit ∧ s.types ≤ Specificity.limit

instance (s : Selector) : Decidable s.Countable := inferInstanceAs (Decidable (_ ∧ _ ∧ _))

end Selector

namespace Specificity

variable {s : Specificity}

def raise (s : Specificity) : Count → Except Fault Specificity
  | .id => s.countId
  | .ofClass => s.countClass
  | .ofType => s.countType

def raiseAll (s : Specificity) : List Count → Except Fault Specificity
  | [] => .ok s
  | k :: ks =>
      match s.raise k with
      | .error e => .error e
      | .ok s' => s'.raiseAll ks

theorem raiseAll_append (ks ls : List Count) :
    s.raiseAll (ks ++ ls) =
      match s.raiseAll ks with
      | .error e => .error e
      | .ok s' => s'.raiseAll ls := by
  induction ks generalizing s with
  | nil => rfl
  | cons k ks ih =>
    simp only [List.cons_append, raiseAll]
    cases s.raise k with
    | error e => rfl
    | ok s' => exact ih

theorem countTest_eq (t : Test) : s.countTest t = s.raise t.count := by
  cases t <;> rfl

theorem countTests_eq (ts : List Test) : s.countTests ts = s.raiseAll (ts.map Test.count) := by
  induction ts generalizing s with
  | nil => rfl
  | cons t ts ih =>
    simp only [countTests, List.map_cons, raiseAll, countTest_eq]
    cases s.raise t.count with
    | error e => rfl
    | ok s' => exact ih

theorem countTag_eq (t : TagTest) : s.countTag t = s.raiseAll t.counts := by
  cases t with
  | named name =>
    simp only [countTag, TagTest.counts, raiseAll, raise]
    cases s.countType with
    | error e => rfl
    | ok s' => rfl
  | any => rfl

theorem countCompound_eq (c : Compound) : s.countCompound c = s.raiseAll c.counts := by
  cases c with
  | tagged tag tests =>
    simp only [countCompound, Compound.counts, raiseAll_append, countTag_eq]
    cases s.raiseAll tag.counts with
    | error e => rfl
    | ok s' => exact countTests_eq tests
  | untagged first others => exact countTests_eq (first :: others)

theorem countCompounds_eq (cs : List Compound) :
    s.countCompounds cs = s.raiseAll (cs.flatMap Compound.counts) := by
  induction cs generalizing s with
  | nil => rfl
  | cons c cs ih =>
    simp only [countCompounds, List.flatMap_cons, raiseAll_append, countCompound_eq]
    cases s.raiseAll c.counts with
    | error e => rfl
    | ok s' => exact ih

def plus (s : Specificity) (ks : List Count) : Specificity :=
  { s with
    ids := s.ids + ks.count .id
    classes := s.classes + ks.count .ofClass
    types := s.types + ks.count .ofType }

def Fits (s : Specificity) : Prop := s.ids ≤ limit ∧ s.classes ≤ limit ∧ s.types ≤ limit

instance (s : Specificity) : Decidable s.Fits := inferInstanceAs (Decidable (_ ∧ _ ∧ _))

theorem raise_eq (h : s.Fits) (k : Count) :
    s.raise k = if (s.plus [k]).Fits then .ok (s.plus [k]) else .error .overflow := by
  obtain ⟨hi, hc, ht⟩ := h
  cases k with
  | id =>
    have hfits : (s.plus [.id]).Fits ↔ s.ids < limit := ⟨fun h => h.1, fun h => ⟨h, hc, ht⟩⟩
    rw [raise, countId, successor]
    by_cases hlt : s.ids < limit
    · rw [if_pos hlt, if_pos (hfits.2 hlt)]
      rfl
    · rw [if_neg hlt, if_neg (hlt ∘ hfits.1)]
      rfl
  | ofClass =>
    have hfits : (s.plus [.ofClass]).Fits ↔ s.classes < limit :=
      ⟨fun h => h.2.1, fun h => ⟨hi, h, ht⟩⟩
    rw [raise, countClass, successor]
    by_cases hlt : s.classes < limit
    · rw [if_pos hlt, if_pos (hfits.2 hlt)]
      rfl
    · rw [if_neg hlt, if_neg (hlt ∘ hfits.1)]
      rfl
  | ofType =>
    have hfits : (s.plus [.ofType]).Fits ↔ s.types < limit :=
      ⟨fun h => h.2.2, fun h => ⟨hi, hc, h⟩⟩
    rw [raise, countType, successor]
    by_cases hlt : s.types < limit
    · rw [if_pos hlt, if_pos (hfits.2 hlt)]
      rfl
    · rw [if_neg hlt, if_neg (hlt ∘ hfits.1)]
      rfl

theorem plus_cons (k : Count) (ks : List Count) : s.plus (k :: ks) = (s.plus [k]).plus ks := by
  have hcount (j : Count) : (k :: ks).count j = [k].count j + ks.count j := by
    rw [← List.count_append, List.singleton_append]
  simp only [plus, hcount, Nat.add_assoc]

theorem Fits.of_plus {ks : List Count} (h : (s.plus ks).Fits) : s.Fits :=
  ⟨Nat.le_of_add_right_le h.1, Nat.le_of_add_right_le h.2.1, Nat.le_of_add_right_le h.2.2⟩

theorem raiseAll_eq (h : s.Fits) (ks : List Count) :
    s.raiseAll ks = if (s.plus ks).Fits then .ok (s.plus ks) else .error .overflow := by
  induction ks generalizing s with
  | nil => exact (if_pos h).symm
  | cons k ks ih =>
    rw [raiseAll, raise_eq h, plus_cons k ks]
    by_cases hk : (s.plus [k]).Fits
    · rw [if_pos hk]
      exact ih hk
    · rw [if_neg hk, if_neg fun hall => hk hall.of_plus]

theorem ofSelector_eq (selector : Selector) (order : Nat) (important : Bool) :
    ofSelector selector order important =
      if selector.Countable then
        .ok ⟨important, selector.ids, selector.classes, selector.types, order⟩
      else .error .overflow := by
  have hzero : Fits ⟨important, 0, 0, 0, order⟩ := ⟨Nat.zero_le _, Nat.zero_le _, Nat.zero_le _⟩
  rw [ofSelector, countCompounds_eq, raiseAll_eq hzero]
  simp only [plus, Nat.zero_add]
  rfl

end Specificity

inductive SimpleSelector
  | tag (test : TagTest)
  | test (test : Test)

def SimpleSelector.counts : SimpleSelector → List Count
  | tag t => t.counts
  | test t => [t.count]

inductive RowPart
  | compound (simples : List SimpleSelector)
  | combinator (c : Combinator)

def RowPart.simples : RowPart → List SimpleSelector
  | compound simples => simples
  | combinator _ => []

/-- A selector as a row of parts. Here a compound may be empty or hold its tags at any place, and
compounds and combinators need not alternate. -/
abbrev SelectorRow := List RowPart

namespace SelectorRow

def simples (r : SelectorRow) : List SimpleSelector := r.flatMap RowPart.simples

def counts (r : SelectorRow) : List Count := r.simples.flatMap SimpleSelector.counts

def ids (r : SelectorRow) : Nat := r.counts.count .id

def classes (r : SelectorRow) : Nat := r.counts.count .ofClass

def types (r : SelectorRow) : Nat := r.counts.count .ofType

def join (r : SelectorRow) (c : Combinator) (t : SelectorRow) : SelectorRow :=
  r ++ .combinator c :: t

def numbers (r : SelectorRow) (order : Nat) (important : Bool) : Bool ×ₗ Nat ×ₗ Nat ×ₗ Nat ×ₗ Nat :=
  toLex (important, toLex (r.ids, toLex (r.classes, toLex (r.types, order))))

theorem counts_join (r : SelectorRow) (c : Combinator) (t : SelectorRow) :
    (r.join c t).counts = r.counts ++ t.counts := by
  simp [join, counts, simples, RowPart.simples]

theorem ids_join (r : SelectorRow) (c : Combinator) (t : SelectorRow) :
    (r.join c t).ids = r.ids + t.ids := by
  rw [ids, counts_join, List.count_append]
  rfl

theorem classes_join (r : SelectorRow) (c : Combinator) (t : SelectorRow) :
    (r.join c t).classes = r.classes + t.classes := by
  rw [classes, counts_join, List.count_append]
  rfl

theorem types_join (r : SelectorRow) (c : Combinator) (t : SelectorRow) :
    (r.join c t).types = r.types + t.types := by
  rw [types, counts_join, List.count_append]
  rfl

end SelectorRow

def Compound.simples : Compound → List SimpleSelector
  | tagged tag tests => .tag tag :: tests.map .test
  | untagged first others => (first :: others).map .test

def Selector.row (s : Selector) : SelectorRow :=
  .compound s.head.simples ::
    s.links.flatMap fun link => [.combinator link.1, .compound link.2.simples]

theorem Compound.counts_simples (c : Compound) :
    c.simples.flatMap SimpleSelector.counts = c.counts := by
  have htests : ∀ ts : List Test, (ts.map SimpleSelector.test).flatMap SimpleSelector.counts =
      ts.map Test.count := by
    intro ts
    rw [List.flatMap_map, List.map_eq_flatMap]
    rfl
  cases c with
  | tagged tag tests =>
    rw [simples, List.flatMap_cons, htests, counts]
    rfl
  | untagged first others => rw [simples, htests, counts]

theorem Selector.counts_row (s : Selector) : s.row.counts = s.counts := by
  have hlinks : ∀ links : List (Combinator × Compound),
      SelectorRow.counts (links.flatMap fun link =>
          [.combinator link.1, .compound link.2.simples]) =
        (links.map Prod.snd).flatMap Compound.counts := by
    intro links
    induction links with
    | nil => rfl
    | cons link links ih =>
      rw [List.map_cons, List.flatMap_cons (f := Compound.counts), ← ih, ← link.2.counts_simples]
      simp [SelectorRow.counts, SelectorRow.simples, RowPart.simples]
  rw [counts, compounds, List.flatMap_cons, ← hlinks, ← s.head.counts_simples]
  simp [row, SelectorRow.counts, SelectorRow.simples, RowPart.simples]

namespace Specificity

def countSimple (s : Specificity) : SimpleSelector → Except Fault Specificity
  | .tag t => s.countTag t
  | .test t => s.countTest t

/-- The specificity of a row whose rule has the position `order`: the simple selectors are counted
one after the other. -/
def ofRow (r : SelectorRow) (order : Nat) (important : Bool) : Except Fault Specificity :=
  r.simples.foldlM countSimple ⟨important, 0, 0, 0, order⟩

theorem countSimple_eq (s : Specificity) (x : SimpleSelector) :
    s.countSimple x = s.raiseAll x.counts := by
  cases x with
  | tag t => exact countTag_eq t
  | test t =>
    rw [countSimple, countTest_eq, SimpleSelector.counts, raiseAll]
    cases s.raise t.count with
    | error e => rfl
    | ok s' => rfl

theorem foldlM_countSimple (s : Specificity) (xs : List SimpleSelector) :
    xs.foldlM countSimple s = s.raiseAll (xs.flatMap SimpleSelector.counts) := by
  induction xs generalizing s with
  | nil => rfl
  | cons x xs ih =>
    rw [List.foldlM_cons, List.flatMap_cons, raiseAll_append, countSimple_eq]
    cases s.raiseAll x.counts with
    | error e => rfl
    | ok s' => exact ih s'

theorem ofRow_eq (r : SelectorRow) (order : Nat) (important : Bool) :
    ofRow r order important =
      if r.ids ≤ limit ∧ r.classes ≤ limit ∧ r.types ≤ limit then
        .ok ⟨important, r.ids, r.classes, r.types, order⟩
      else .error .overflow := by
  have hzero : Fits ⟨important, 0, 0, 0, order⟩ := ⟨Nat.zero_le _, Nat.zero_le _, Nat.zero_le _⟩
  rw [ofRow, foldlM_countSimple, raiseAll_eq hzero]
  simp only [plus, Nat.zero_add]
  rfl

theorem ofSelector_eq_ofRow (s : Selector) (order : Nat) (important : Bool) :
    ofSelector s order important = ofRow s.row order important := by
  rw [ofSelector, countCompounds_eq, ofRow, foldlM_countSimple]
  exact congrArg _ s.counts_row.symm

section Row

variable {r t : SelectorRow} {order order' : Nat} {important important' : Bool} {x y : Specificity}

theorem ofRow_eq_error_iff :
    ofRow r order important = .error .overflow ↔
      limit < r.ids ∨ limit < r.classes ∨ limit < r.types := by
  rw [ofRow_eq]
  split
  · rename_i hfits
    simp only [reduceCtorEq, false_iff]
    omega
  · rename_i hfits
    simp only [true_iff]
    omega

theorem ofRow_eq_ok_iff :
    ofRow r order important = .ok x ↔
      (r.ids ≤ limit ∧ r.classes ≤ limit ∧ r.types ≤ limit) ∧
        x = ⟨important, r.ids, r.classes, r.types, order⟩ := by
  rw [ofRow_eq]
  split
  · rename_i hfits
    rw [Except.ok.injEq, and_iff_right hfits, eq_comm]
  · rename_i hfits
    exact iff_of_false nofun fun h => hfits h.1

theorem key_lt_key_iff_numbers :
    key ⟨important, r.ids, r.classes, r.types, order⟩ <
        key ⟨important', t.ids, t.classes, t.types, order'⟩ ↔
      r.numbers order important < t.numbers order' important' := by
  simp only [key_lt_key_iff, SelectorRow.numbers, Prod.Lex.toLex_lt_toLex]

theorem le_iff_numbers_le (hx : ofRow r order important = .ok x)
    (hy : ofRow t order' important' = .ok y) :
    x ≤ y ↔ r.numbers order important ≤ t.numbers order' important' := by
  obtain ⟨-, rfl⟩ := ofRow_eq_ok_iff.1 hx
  obtain ⟨-, rfl⟩ := ofRow_eq_ok_iff.1 hy
  exact (not_congr key_lt_key_iff_numbers).trans not_lt

theorem map_withImportant_ofRow (r : SelectorRow) (order : Nat) (important important' : Bool) :
    (ofRow r order important).map (·.withImportant important') = ofRow r order important' := by
  rw [ofRow_eq, ofRow_eq]
  split
  · rfl
  · rfl

end Row

/-- Counting a row faults exactly if one of its numbers is too large, and else gives the numbers.
They add up where a combinator joins two rows, and they decide which of two specificities is the
greater one. What is counted of a selector is its row. -/
theorem ofRow_exact (r t : SelectorRow) (c : Combinator) (order order' : Nat)
    (important important' : Bool) :
    (ofRow r order important = .error .overflow ↔
      limit < r.ids ∨ limit < r.classes ∨ limit < r.types) ∧
    (∀ x, ofRow r order important = .ok x ↔
      (r.ids ≤ limit ∧ r.classes ≤ limit ∧ r.types ≤ limit) ∧
        x = ⟨important, r.ids, r.classes, r.types, order⟩) ∧
    ofRow (r.join c t) order important =
      (if r.ids + t.ids ≤ limit ∧ r.classes + t.classes ≤ limit ∧ r.types + t.types ≤ limit then
        .ok ⟨important, r.ids + t.ids, r.classes + t.classes, r.types + t.types, order⟩
      else .error .overflow) ∧
    (∀ x y, ofRow r order important = .ok x → ofRow t order' important' = .ok y →
      (x ≤ y ↔ r.numbers order important ≤ t.numbers order' important')) ∧
    (ofRow r order important).map (·.withImportant important') = ofRow r order important' ∧
    ∀ s : Selector, ofSelector s order important = ofRow s.row order important := by
  refine ⟨ofRow_eq_error_iff, fun x => ofRow_eq_ok_iff, ?_, fun x y => le_iff_numbers_le,
    map_withImportant_ofRow r order important important',
    fun s => ofSelector_eq_ofRow s order important⟩
  rw [ofRow_eq, SelectorRow.ids_join, SelectorRow.classes_join, SelectorRow.types_join]

theorem ofRow_exact_id :
    ∃ x y,
      ofRow [.compound [.test (.hasClass "a".toList), .test (.hasAttr "b".toList)],
        .combinator .child, .compound [.tag (.named "p".toList)]] 7 false = .ok x ∧
      ofRow [.compound [.tag .any, .test (.hasId "c".toList)]] 3 false = .ok y ∧
      x.classes = 2 ∧ x.types = 1 ∧ y.ids = 1 ∧ x ≤ y ∧ ¬y ≤ x := by
  obtain ⟨-, hx, -, hxy, -⟩ := ofRow_exact
    [.compound [.test (.hasClass "a".toList), .test (.hasAttr "b".toList)],
      .combinator .child, .compound [.tag (.named "p".toList)]]
    [.compound [.tag .any, .test (.hasId "c".toList)]] .descendant 7 3 false false
  obtain ⟨-, hy, -, hyx, -⟩ := ofRow_exact
    [.compound [.tag .any, .test (.hasId "c".toList)]]
    [.compound [.test (.hasClass "a".toList), .test (.hasAttr "b".toList)],
      .combinator .child, .compound [.tag (.named "p".toList)]] .descendant 3 7 false false
  have hx := (hx _).2 ⟨by decide, rfl⟩
  have hy := (hy _).2 ⟨by decide, rfl⟩
  exact ⟨_, _, hx, hy, rfl, rfl, rfl, (hxy _ _ hx hy).2 (by decide),
    fun hle => absurd ((hyx _ _ hy hx).1 hle) (by decide)⟩

end Specificity
end ScopedStyle
