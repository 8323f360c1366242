import Mathlib.Data.List.InsertIdx
import ScopedStyle.RuleList

/-!
# Runs of insertions

A call leaves a list of rules as it was or with one rule more, so a run of calls leaves
the rules of the calls that were answered with a place. Each of them stands beside the
text that it was read from, which no later call changes.
-/

namespace ScopedStyle
namespace RuleList

variable {l l' : RuleList} {text : Text} {index : Nat} {entry : SheetRule} {rule : Rule}

/-- `l'` is `l` with an entry at `index`, from where on all others stand one place later. -/
structure Placed (l' l : RuleList) (index : Nat) (entry : SheetRule) : Prop where
  size : l'.size = l.size + 1
  front : ∀ i < index, l'.rules[i]? = l.rules[i]?
  placed : l'.rules[index]? = some entry
  shifted : ∀ i, index ≤ i → l'.rules[i + 1]? = l.rules[i]?

theorem placed_insertIdx (h : index ≤ l.size) :
    Placed ⟨l.rules.insertIdx index entry⟩ l index entry := by
  have hlen : index ≤ l.rules.length := h
  refine ⟨List.length_insertIdx_of_le_length hlen entry, fun i hi => ?_, ?_, fun i hi => ?_⟩
  · exact List.getElem?_insertIdx_of_lt hi
  · rw [List.getElem?_insertIdx_self, if_pos hlen]
  · rw [List.getElem?_insertIdx_of_gt (by omega)]
    rfl

theorem take_append_cons_drop {α : Type} {xs : List α} {i : Nat} (h : i ≤ xs.length) (x : α) :
    xs.take i ++ x :: xs.drop i = xs.insertIdx i x := by
  induction i generalizing xs with
  | zero => rfl
  | succ i ih =>
    cases xs with
    | nil => cases h
    | cons y ys =>
      rw [List.take_succ_cons, List.drop_succ_cons, List.cons_append, List.insertIdx_succ_cons,
        ih (Nat.le_of_succ_le_succ h)]

theorem offer_of_size_lt (h : l.size < index) :
    l.offer text index = (l, .error (.outOfRange index l.size)) := by
  rw [offer, if_pos h]

theorem offer_of_parse_error {e : ParseError} (h : index ≤ l.size)
    (he : Rule.parse text = .error e) : l.offer text index = (l, .error (.noRule e)) := by
  rw [offer, if_neg (Nat.not_lt.2 h), he]

theorem offer_of_parse_ok (h : index ≤ l.size) (hrule : Rule.parse text = .ok rule) :
    l.offer text index = (⟨l.rules.insertIdx index ⟨text, rule⟩⟩, .ok index) := by
  rw [offer, if_neg (Nat.not_lt.2 h), hrule, ← take_append_cons_drop h]

/-- What a call leaves and answers. The index is looked at before the text. -/
inductive Offered (l : RuleList) (text : Text) (index : Nat) :
    RuleList × Except InsertError Nat → Prop
  | outOfRange (h : l.size < index) : Offered l text index (l, .error (.outOfRange index l.size))
  | noRule {e : ParseError} (h : index ≤ l.size) (he : Rule.parse text = .error e) :
      Offered l text index (l, .error (.noRule e))
  | placed {rule : Rule} (h : index ≤ l.size) (hrule : Rule.parse text = .ok rule) :
      Offered l text index (⟨l.rules.insertIdx index ⟨text, rule⟩⟩, .ok index)

theorem offer_offered (l : RuleList) (text : Text) (index : Nat) :
    l.Offered text index (l.offer text index) := by
  rcases Nat.lt_or_ge l.size index with h | h
  · exact offer_of_size_lt h ▸ .outOfRange h
  · cases hparse : Rule.parse text with
    | error e => exact offer_of_parse_error h hparse ▸ .noRule h hparse
    | ok rule => exact offer_of_parse_ok h hparse ▸ .placed h hparse

theorem offer_of_error {e : InsertError} (h : (l.offer text index).2 = .error e) :
    (l.offer text index).1 = l := by
  have ho := l.offer_offered text index
  generalize l.offer text index = r at ho h
  cases ho with
  | outOfRange _ => rfl
  | noRule _ _ => rfl
  | placed _ _ => cases h

def offerAll (l : RuleList) : List (Text × Nat) → RuleList × List (Except InsertError Nat)
  | [] => (l, [])
  | (text, index) :: rest =>
      (((l.offer text index).1.offerAll rest).1,
        (l.offer text index).2 :: ((l.offer text index).1.offerAll rest).2)

def acceptedTexts (calls : List (Text × Nat)) (answers : List (Except InsertError Nat)) :
    List Text :=
  ((calls.zip answers).filter (·.2.isOk)).map (·.1.1)

def Verbatim (l : RuleList) : Prop := ∀ entry ∈ l.rules, Rule.parse entry.text = .ok entry.rule

theorem offerAll_concat (l : RuleList) (calls : List (Text × Nat)) (text : Text) (index : Nat) :
    l.offerAll (calls ++ [(text, index)]) =
      (((l.offerAll calls).1.offer text index).1,
        (l.offerAll calls).2 ++ [((l.offerAll calls).1.offer text index).2]) := by
  induction calls generalizing l with
  | nil => rfl
  | cons call calls ih => rw [List.cons_append, offerAll, ih, offerAll, List.cons_append]

theorem Verbatim.offer (h : l.Verbatim) (text : Text) (index : Nat) :
    (l.offer text index).1.Verbatim := by
  have ho := l.offer_offered text index
  generalize l.offer text index = r at ho
  cases ho with
  | outOfRange _ => exact h
  | noRule _ _ => exact h
  | placed _ hrule =>
    intro entry hentry
    rcases List.eq_or_mem_of_mem_insertIdx hentry with rfl | hmem
    · exact hrule
    · exact h entry hmem

theorem Verbatim.offerAll (h : l.Verbatim) (calls : List (Text × Nat)) :
    (l.offerAll calls).1.Verbatim := by
  induction calls generalizing l with
  | nil => exact h
  | cons call calls ih => exact ih (h.offer call.1 call.2)

theorem texts_offer (l : RuleList) (text : Text) (index : Nat) :
    (l.offer text index).1.texts.Perm
      (if (l.offer text index).2.isOk then text :: l.texts else l.texts) := by
  have ho := l.offer_offered text index
  generalize l.offer text index = r at ho
  cases ho with
  | outOfRange _ => exact .refl _
  | noRule _ _ => exact .refl _
  | placed h _ => exact (List.perm_insertIdx _ l.rules h).map SheetRule.text

theorem texts_offerAll (l : RuleList) (calls : List (Text × Nat)) :
    (l.offerAll calls).1.texts.Perm
      (acceptedTexts calls (l.offerAll calls).2 ++ l.texts) := by
  induction calls generalizing l with
  | nil => exact .refl _
  | cons call calls ih =>
    obtain ⟨text, index⟩ := call
    refine (ih _).trans (((texts_offer l text index).append_left _).trans ?_)
    rw [offerAll, acceptedTexts, acceptedTexts, List.zip_cons_cons, List.filter_cons]
    split
    · exact List.perm_middle
    · exact .refl _

/-- Behind a run of calls on a new list stand the texts of the accepted calls and no others, each
with the rule that it spells. One more call is refused for its index first, then for its text, and
changes nothing then; any other call puts the text at its index. -/
theorem offerAll_accepted {calls : List (Text × Nat)} {l : RuleList}
    {answers : List (Except InsertError Nat)} (hrun : empty.offerAll calls = (l, answers)) :
    l.Verbatim ∧ l.texts.Perm (acceptedTexts calls answers) ∧
      ∀ text index,
        empty.offerAll (calls ++ [(text, index)]) =
            ((l.offer text index).1, answers ++ [(l.offer text index).2]) ∧
          (l.size < index → l.offer text index = (l, .error (.outOfRange index l.size))) ∧
          (∀ e, index ≤ l.size → Rule.parse text = .error e →
            l.offer text index = (l, .error (.noRule e))) ∧
          ∀ rule, index ≤ l.size → Rule.parse text = .ok rule →
            ∃ l', l.offer text index = (l', .ok index) ∧ l'.Placed l index ⟨text, rule⟩ := by
  have hempty : empty.Verbatim := fun entry hentry => by cases hentry
  have hverbatim := hempty.offerAll calls
  have htexts := texts_offerAll empty calls
  rw [hrun] at hverbatim htexts
  have happend : acceptedTexts calls answers ++ empty.texts = acceptedTexts calls answers :=
    List.append_nil _
  refine ⟨hverbatim, happend ▸ htexts, fun text index => ⟨?_, offer_of_size_lt,
    fun e h he => offer_of_parse_error h he, fun rule h hrule => ?_⟩⟩
  · rw [offerAll_concat, hrun]
  · exact ⟨_, offer_of_parse_ok h hrule, placed_insertIdx h⟩

def mixedCalls : List (Text × Nat) :=
  [(".b { x: 1 }".toList, 0), ("a{}".toList, 0), ("&".toList, 3), ("a".toList, 2),
    ("p { y: 2 }".toList, 1)]

theorem offerAll_accepted_mixed :
    ∃ l answers, empty.offerAll mixedCalls = (l, answers) ∧
      answers.map Except.toOption = [some 0, some 0, none, none, some 1] ∧
      l.texts = ["a{}".toList, "p { y: 2 }".toList, ".b { x: 1 }".toList] ∧ l.Verbatim ∧
      l.offer "a{}".toList 4 = (l, .error (.outOfRange 4 3)) ∧
      ∃ l', l.offer "i{}".toList 1 = (l', .ok 1) ∧ l'.rules[2]? = l.rules[1]? := by
  obtain ⟨l, answers, hrun⟩ : ∃ l answers, empty.offerAll mixedCalls = (l, answers) := ⟨_, _, rfl⟩
  obtain ⟨hverbatim, -, hcalls⟩ := offerAll_accepted hrun
  have htexts : (empty.offerAll mixedCalls).1.texts =
      ["a{}".toList, "p { y: 2 }".toList, ".b { x: 1 }".toList] := by decide +kernel
  have hanswers : (empty.offerAll mixedCalls).2.map Except.toOption =
      [some 0, some 0, none, none, some 1] := by decide +kernel
  rw [hrun] at htexts hanswers
  have hsize : l.size = 3 := by
    rw [size, ← List.length_map (f := SheetRule.text)]
    exact congrArg List.length htexts
  have hrule : Rule.parse "i{}".toList =
      .ok ⟨[⟨.tagged (.named "i".toList) [], []⟩], []⟩ := by decide +kernel
  obtain ⟨-, houtside, -, -⟩ := hcalls "a{}".toList 4
  obtain ⟨l', hl', hplaced⟩ := (hcalls "i{}".toList 1).2.2.2 _ (by omega) hrule
  refine ⟨l, answers, hrun, hanswers, htexts, hverbatim, ?_, l', hl', hplaced.shifted 1 (by omega)⟩
  rw [houtside (by omega), hsize]

end RuleList
end ScopedStyle
