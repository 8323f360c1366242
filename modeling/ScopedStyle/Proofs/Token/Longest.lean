import Mathlib.Data.List.Basic
import ScopedStyle.Token.Lexer

/-!
# The longest token

`longest` finds the kind that reaches furthest, and of those that reach equally
far the one that stands first in the table. Which kinds reach into a text at all
is settled by its first character.
-/

namespace ScopedStyle
open Text

namespace TokenKind

def rank (k : TokenKind) : Nat := table.idxOf k

theorem rank_injective {j k : TokenKind} (h : j.rank = k.rank) : j = k :=
  (List.idxOf_inj (mem_table j)).1 h

theorem table_sorted : table.Pairwise fun j k => j.rank < k.rank := by decide

end TokenKind

/-- Further, or as far and earlier in the table. -/
def Beats (a b : TokenKind × Nat) : Prop := b.2 < a.2 ∨ a.2 = b.2 ∧ a.1.rank ≤ b.1.rank

theorem Beats.refl (a : TokenKind × Nat) : Beats a a := .inr ⟨rfl, Nat.le_refl _⟩

theorem Beats.trans {a b c : TokenKind × Nat} (h : Beats a b) (h' : Beats b c) : Beats a c := by
  unfold Beats at *
  omega

theorem Beats.antisymm {a b : TokenKind × Nat} (h : Beats a b) (h' : Beats b a) : a = b := by
  have hn : a.2 = b.2 := by
    unfold Beats at *
    omega
  have hk : a.1.rank = b.1.rank := by
    unfold Beats at *
    omega
  exact Prod.ext (TokenKind.rank_injective hk) hn

theorem further_attempt (t : Text) (k : TokenKind) (best : Option (TokenKind × Nat))
    (hb : ∀ b ∈ best, b.1.rank < k.rank) :
    (∀ b ∈ best, ∃ r ∈ further best (k.attempt t), Beats r b) ∧
    (∀ n, k.reach t = some n → ∃ r ∈ further best (k.attempt t), Beats r (k, n)) ∧
    ∀ r ∈ further best (k.attempt t), r.1.rank ≤ k.rank := by
  cases ha : k.reach t with
  | none =>
    have hf : further best (k.attempt t) = best := by
      cases best <;> simp [TokenKind.attempt, ha, further]
    rw [hf]
    refine ⟨fun b hb => ⟨b, hb, .refl b⟩, fun n hn => by simp at hn, fun r hr => ?_⟩
    exact Nat.le_of_lt (hb r hr)
  | some m =>
    have hat : k.attempt t = some (k, m) := by simp [TokenKind.attempt, ha]
    rw [hat]
    cases best with
    | none =>
      refine ⟨fun b hb => absurd hb (by simp), fun n hn => ?_, fun r hr => ?_⟩
      · cases hn
        exact ⟨_, rfl, .refl _⟩
      · cases hr
        exact Nat.le_refl _
    | some b =>
      obtain ⟨j, l⟩ := b
      have hjk : j.rank < k.rank := hb (j, l) rfl
      -- of two attempts with one length the earlier one stays, and it has the smaller rank
      by_cases hlt : l < m
      · have hf : further (some (j, l)) (some (k, m)) = some (k, m) := by simp [further, hlt]
        rw [hf]
        refine ⟨fun b hb => ?_, fun n hn => ?_, fun r hr => ?_⟩
        · cases hb
          exact ⟨_, rfl, .inl hlt⟩
        · cases hn
          exact ⟨_, rfl, .refl _⟩
        · cases hr
          exact Nat.le_refl _
      · have hf : further (some (j, l)) (some (k, m)) = some (j, l) := by simp [further, hlt]
        rw [hf]
        refine ⟨fun b hb => ?_, fun n hn => ?_, fun r hr => ?_⟩
        · cases hb
          exact ⟨_, rfl, .refl _⟩
        · cases hn
          refine ⟨_, rfl, ?_⟩
          show m < l ∨ l = m ∧ j.rank ≤ k.rank
          omega
        · cases hr
          exact Nat.le_of_lt hjk

theorem foldl_further (t : Text) (ks : List TokenKind) (best : Option (TokenKind × Nat))
    (hs : ks.Pairwise fun j k => j.rank < k.rank)
    (hb : ∀ b ∈ best, ∀ k ∈ ks, b.1.rank < k.rank) :
    (∀ b ∈ best, ∃ r ∈ ks.foldl (fun best k => further best (k.attempt t)) best, Beats r b) ∧
    ∀ k ∈ ks, ∀ n, k.reach t = some n →
      ∃ r ∈ ks.foldl (fun best k => further best (k.attempt t)) best, Beats r (k, n) := by
  -- a find made later may take the place of the best, but only one that beats it
  induction ks generalizing best with
  | nil => exact ⟨fun b hb => ⟨b, hb, .refl b⟩, fun k hk => absurd hk (by simp)⟩
  | cons k ks ih =>
    obtain ⟨hk, hks⟩ := List.pairwise_cons.1 hs
    obtain ⟨hold, hreach, hrank⟩ :=
      further_attempt t k best fun b hb' => hb b hb' k List.mem_cons_self
    obtain ⟨ih₁, ih₂⟩ := ih (further best (k.attempt t)) hks
      fun r hr j hj => Nat.lt_of_le_of_lt (hrank r hr) (hk j hj)
    have hkeep : ∀ b, (∃ r ∈ further best (k.attempt t), Beats r b) →
        ∃ r ∈ ks.foldl (fun best k => further best (k.attempt t)) (further best (k.attempt t)),
          Beats r b := by
      rintro b ⟨r, hr, hrb⟩
      obtain ⟨r', hr', hrr⟩ := ih₁ r hr
      exact ⟨r', hr', hrr.trans hrb⟩
    refine ⟨fun b hb => hkeep b (hold b hb), fun j hj n hn => ?_⟩
    rcases List.mem_cons.1 hj with rfl | hj
    · exact hkeep _ (hreach n hn)
    · exact ih₂ j hj n hn

theorem longest_beats {t : Text} {k : TokenKind} {n : Nat} (h : k.reach t = some n) :
    ∃ r ∈ longest t, Beats r (k, n) :=
  (foldl_further t TokenKind.table none TokenKind.table_sorted (by simp)).2 k
    (TokenKind.mem_table k) n h

theorem longest_eq_some_iff {t : Text} {k : TokenKind} {n : Nat} :
    longest t = some (k, n) ↔
      k.reach t = some n ∧ ∀ j m, j.reach t = some m → Beats (k, n) (j, m) := by
  constructor
  · intro h
    refine ⟨reach_of_longest h, fun j m hj => ?_⟩
    obtain ⟨r, hr, hb⟩ := longest_beats hj
    rw [h] at hr
    cases hr
    exact hb
  · rintro ⟨h, hmax⟩
    obtain ⟨⟨j, m⟩, hr, hb⟩ := longest_beats h
    rw [Option.mem_def] at hr
    rw [hr, hb.antisymm (hmax j m (reach_of_longest hr))]

def TokenKind.opens : TokenKind → Char → Bool
  | .important, c => c == '!'
  | .atKeyword, c => c == '@'
  | .hash, c => c == '#'
  | .dimension, c => c.isDigit || c == '.' || c == '-'
  | .pseudoElement, c => c == ':'
  | .pseudoClass, c => c == ':'
  | .bracketed, c => c == '['
  | .stringLiteral, c => c == '"'
  | .stringLiteralSingle, c => c == '\''
  | .number, c => c.isDigit || c == '.' || c == '-'
  | .ident, c => isNameStart c || c == '-'
  | .braceOpen, c => c == '{'
  | .braceClose, c => c == '}'
  | .parenOpen, c => c == '('
  | .parenClose, c => c == ')'
  | .colon, c => c == ':'
  | .semicolon, c => c == ';'
  | .comma, c => c == ','
  | .dot, c => c == '.'
  | .star, c => c == '*'
  | .greaterThan, c => c == '>'
  | .plus, c => c == '+'
  | .tilde, c => c == '~'
  | .slash, c => c == '/'
  | .equals, c => c == '='
  | .delim, c => isDelim c

theorem charReach_eq_some_iff {p : Char → Bool} {c : Char} {t : Text} {n : Nat} :
    charReach p (c :: t) = some n ↔ p c ∧ n = 1 := by
  simp only [charReach]
  split
  · rename_i hp
    simp [hp, eq_comm]
  · rename_i hp
    simp [hp]

theorem opens_of_unsignedReach {c : Char} {t : Text} {n : Nat}
    (h : unsignedReach (c :: t) = some n) : c.isDigit || c == '.' := by
  by_contra hc
  simp only [Bool.or_eq_true, beq_iff_eq, not_or, Bool.not_eq_true] at hc
  have hrun : run Char.isDigit (c :: t) = 0 := by simp [run, hc.1]
  have hfrac : fractionReach (c :: t) = 0 := by simp [fractionReach, hc.2]
  simp [unsignedReach, hrun, hfrac] at h

theorem opens_of_numberReach {c : Char} {t : Text} {n : Nat}
    (h : numberReach (c :: t) = some n) : c.isDigit || c == '.' || c == '-' := by
  by_cases hc : c = '-'
  · simp [hc]
  · have hu : unsignedReach (c :: t) = some n := by simpa [numberReach, hc] using h
    simp only [opens_of_unsignedReach hu, Bool.true_or]

theorem opens_of_identReach {c : Char} {t : Text} {n : Nat}
    (h : identReach (c :: t) = some n) : isNameStart c || c == '-' := by
  by_cases hc : c = '-'
  · simp [hc]
  · have hn : nameReach isNameStart (c :: t) = some n := by simpa [identReach, hc] using h
    simp only [nameReach] at hn
    split at hn
    · rename_i hs
      simp [hs]
    · cases hn

theorem TokenKind.opens_of_reach {k : TokenKind} {c : Char} {t : Text} {n : Nat}
    (h : k.reach (c :: t) = some n) : k.opens c := by
  cases k
  case important =>
    simp only [TokenKind.reach, importantMark, List.isPrefixOf, Bool.and_eq_true, beq_iff_eq] at h
    split at h
    · rename_i hp
      simp [TokenKind.opens, ← hp.1]
    · cases h
  case atKeyword =>
    by_contra hc
    simp_all [TokenKind.reach, atKeywordReach, TokenKind.opens]
  case hash =>
    by_contra hc
    simp_all [TokenKind.reach, hashReach, TokenKind.opens]
  case dimension =>
    simp only [TokenKind.reach, dimensionReach] at h
    split at h
    · cases h
    · rename_i hn
      exact opens_of_numberReach hn
  case pseudoElement =>
    by_contra hc
    simp_all [TokenKind.reach, pseudoElementReach, TokenKind.opens]
  case pseudoClass =>
    by_contra hc
    simp_all [TokenKind.reach, pseudoClassReach, TokenKind.opens]
  case number => exact opens_of_numberReach h
  case ident => exact opens_of_identReach h
  case bracketed =>
    by_contra hc
    simp_all [TokenKind.reach, enclosedReach, TokenKind.opens]
  case stringLiteral =>
    by_contra hc
    simp_all [TokenKind.reach, enclosedReach, TokenKind.opens]
  case stringLiteralSingle =>
    by_contra hc
    simp_all [TokenKind.reach, enclosedReach, TokenKind.opens]
  all_goals exact ((charReach_eq_some_iff (t := t)).1 h).1

theorem beats_delim {k : TokenKind} {c : Char} {t : Text} {n m : Nat} (hn : 0 < n)
    (h : TokenKind.delim.reach (c :: t) = some m) : Beats (k, n) (.delim, m) := by
  have hm : m = 1 := ((charReach_eq_some_iff (t := t)).1 h).2
  have hrank : k.rank ≤ TokenKind.delim.rank := by cases k <;> decide
  unfold Beats
  simp only
  omega

theorem longest_of_rivals {k : TokenKind} {c : Char} {t : Text} {n : Nat}
    (h : k.reach (c :: t) = some n)
    (hrivals : ∀ j m, j.reach (c :: t) = some m → j ≠ k → j ≠ .delim → Beats (k, n) (j, m)) :
    longest (c :: t) = some (k, n) := by
  refine longest_eq_some_iff.2 ⟨h, fun j m hj => ?_⟩
  by_cases hk : j = k
  · subst hk
    rw [h] at hj
    cases hj
    exact .refl _
  · by_cases hd : j = .delim
    · subst hd
      exact beats_delim (TokenKind.reach_pos h) hj
    · exact hrivals j m hj hk hd

theorem longest_of_opens {k : TokenKind} {c : Char} {t : Text} {n : Nat}
    (h : k.reach (c :: t) = some n) (hopens : ∀ j : TokenKind, j.opens c → j = k ∨ j = .delim) :
    longest (c :: t) = some (k, n) := by
  refine longest_of_rivals h fun j m hj hk hd => ?_
  rcases hopens j (TokenKind.opens_of_reach hj) with he | he
  · exact absurd he hk
  · exact absurd he hd

theorem longest_congr {t u : Text} (h : ∀ k : TokenKind, k.reach t = k.reach u) :
    longest t = longest u := by
  have ha : ∀ k : TokenKind, k.attempt t = k.attempt u := fun k => by
    rw [TokenKind.attempt, TokenKind.attempt, h]
  simp only [longest, ha]

end ScopedStyle
