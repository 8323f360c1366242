import ScopedStyle.Proofs.Rule.BlockGrammar

/-!
# Rules and the bytes of their tokens

The tokens of a text without strays make it up from its first byte on. So each of
them has a start and a stop, two neighbours touch if one starts where the other
stops, and a value is what stands between two stops. With tokens so placed, the
texts of a rule are those whose tokens it derives.
-/

namespace ScopedStyle
open Text

namespace Text

/-- What stands in a text from one byte up to another. -/
def Slice (t : Text) (start stop : Nat) (piece : Text) : Prop :=
  ∃ before after, t = before ++ piece ++ after ∧ byteSize before = start ∧
    byteSize (before ++ piece) = stop

end Text

def stopOf (us : List Token) : Nat := byteSize (sources us)

def startOf (before : List Token) (t : Token) : Nat := byteSize (sources before ++ t.gap)

theorem touches_iff (before : List Token) (t : Token) :
    t.touches ↔ startOf before t = stopOf before := by
  rw [Token.touches, List.isEmpty_iff, startOf, stopOf, byteSize_append, ← byteSize_eq_zero]
  omega

structure MadeOf (source : Text) (us : List Token) : Prop where
  lexed : lexemes source = us.map .token
  texts : ∀ before t after, us = before ++ t :: after →
    Slice source (startOf before t) (stopOf (before ++ [t])) t.text
  touching : ∀ before t after, us = before ++ t :: after →
    (t.touches ↔ startOf before t = stopOf before)
  rows : ∀ before vs after, us = before ++ vs ++ after →
    Slice source (stopOf before) (stopOf (before ++ vs)) (sources vs)

theorem madeOf_iff {source : Text} {us : List Token} :
    MadeOf source us ↔ lexemes source = us.map .token := by
  refine ⟨fun h => h.lexed, fun h => ?_⟩
  have hall : lexemes source = us.map .token ++ [] := h.trans (List.append_nil _).symm
  obtain ⟨rest, rfl, -, -⟩ := spells_of_lexemes hall
  refine ⟨h, ?_, fun before t _ _ => touches_iff before t, ?_⟩
  · rintro before t after rfl
    refine ⟨sources before ++ t.gap, sources after ++ rest, ?_, rfl, ?_⟩
    · simp [Token.source]
    · simp [stopOf, Token.source]
  · rintro before vs after rfl
    refine ⟨sources before, sources after ++ rest, ?_, rfl, ?_⟩
    · simp
    · simp [stopOf]

/-- A text is accepted as a rule exactly if it is made of tokens that the rule derives. -/
theorem parse_accepts_grammar (t : Text) (r : Rule) :
    Rule.parse t = .ok r ↔
      ∃ us : List Token, MadeOf (stripComments t) us ∧ DerivesRule r us := by
  rw [parse_eq_ok_iff]
  simp only [madeOf_iff]

end ScopedStyle
