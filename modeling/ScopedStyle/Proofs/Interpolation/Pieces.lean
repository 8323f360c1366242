import ScopedStyle.Proofs.Interpolation.SlotBody
import ScopedStyle.Proofs.Text.Trim

/-!
# The pieces of a source text

A source text is the row of its pieces, so a split loses nothing. It stops at the first slot
that has a blank body or no end, and what stands in front of this slot is a row of pieces.
-/

namespace ScopedStyle
open Text

def HasSlot (t : Text) : Prop := ['$', '{'] <:+: t

/-- The pieces that a text consists of where `rest` follows it. The end of a slot can depend on all
that is behind the slot. -/
inductive Reads (rest : Text) : Text → List Piece → Prop
  | done : Reads rest [] []
  | text {t s : Text} {pieces : List Piece} : t ≠ [] → ¬HasSlot t →
      (∀ u, pieces.head? ≠ some (.text u)) → Reads rest s pieces →
      Reads rest (t ++ s) (.text t :: pieces)
  | slot {before body behind s : Text} {pieces : List Piece} : Blank before → Blank behind →
      body ≠ [] → trim body = body → ClosesFirst 0 (before ++ body ++ behind) (s ++ rest) →
      Reads rest s pieces →
      Reads rest ('$' :: '{' :: (before ++ body ++ behind ++ '}' :: s)) (.slot body :: pieces)

/-- What a source text gives. Where it is an error, a row of pieces comes first, and behind it the
slot that is to blame; its position is the size of what stands in front of it. -/
def Splits (source : Text) : Except SplitError (List Piece) → Prop
  | .ok pieces => Reads [] source pieces
  | .error .empty => ∃ read pieces blank rest,
      source = read ++ '$' :: '{' :: (blank ++ '}' :: rest) ∧ Blank blank ∧
        Reads ('$' :: '{' :: (blank ++ '}' :: rest)) read pieces
  | .error (.unterminated offset) => ∃ read pieces inner,
      source = read ++ '$' :: '{' :: inner ∧ byteSize read = offset ∧
        Reads ('$' :: '{' :: inner) read pieces ∧
        ∀ body after, inner = body ++ '}' :: after → ¬ClosesFirst 0 body after

section Split

variable {t s rest read : Text} {offset : Nat} {pending : Text} {pieces : List Piece}

def SlotOrEnd (t : Text) : Prop := t = [] ∨ ∃ rest, t = '$' :: '{' :: rest

theorem slotOrEnd_slot (t : Text) : SlotOrEnd ('$' :: '{' :: t) := .inr ⟨t, rfl⟩

def prepend (front : List Piece) (result : Except SplitError (List Piece)) :
    Except SplitError (List Piece) := result.map (front ++ ·)

theorem prepend_nil (result : Except SplitError (List Piece)) : prepend [] result = result := by
  cases result with
  | error e => rfl
  | ok pieces => rfl

theorem prepend_prepend (front back : List Piece) (result : Except SplitError (List Piece)) :
    prepend front (prepend back result) = prepend (front ++ back) result := by
  cases result with
  | error e => rfl
  | ok pieces => exact congrArg Except.ok (List.append_assoc front back pieces).symm

theorem splitFrom_slot (offset : Nat) (pending rest : Text) :
    splitFrom offset pending ('$' :: '{' :: rest) =
      match slotBody? (.code 0) [] rest with
      | none => .error (.unterminated offset)
      | some (body, after) =>
          if (trim body).isEmpty then .error .empty
          else prepend (textPiece pending ++ [.slot (trim body)])
            (splitFrom (offset + 3 + byteSize body) [] after) := by
  rw [splitFrom]
  split
  · rename_i hbody
    rw [hbody]
  · rename_i body after hbody
    rw [hbody]
    dsimp only
    split
    · rfl
    · cases splitFrom (offset + 3 + byteSize body) [] after with
      | error e => rfl
      | ok pieces => exact congrArg Except.ok (List.append_assoc _ [_] pieces).symm

theorem hasSlot_cons {c : Char} : HasSlot (c :: t) ↔ (c = '$' ∧ ['{'] <+: t) ∨ HasSlot t := by
  rw [HasSlot, List.infix_cons_iff, List.cons_prefix_cons, HasSlot, eq_comm]

theorem splitFrom_text (ht : ¬HasSlot t) (hs : SlotOrEnd s) :
    splitFrom offset pending (t ++ s) =
      splitFrom (offset + byteSize t) (t.reverse ++ pending) s := by
  induction t generalizing offset pending with
  | nil => rfl
  | cons c t ih =>
    rw [hasSlot_cons, not_or, not_and] at ht
    have hplain : ∀ r, c = '$' → t ++ s = '{' :: r → False := by
      intro r hc htext
      cases t with
      | nil => obtain rfl | ⟨u, rfl⟩ := hs <;> cases htext
      | cons b t => exact ht.1 hc ⟨t, by rw [← (List.cons.inj htext).1]; rfl⟩
    rw [List.cons_append, splitFrom.eq_3 _ _ _ _ hplain, ih ht.2, byteSize_cons, Nat.add_assoc,
      List.reverse_cons, List.append_assoc, List.singleton_append]

theorem splitFrom_pending (hs : SlotOrEnd s) :
    splitFrom offset pending s = prepend (textPiece pending) (splitFrom offset [] s) := by
  obtain rfl | ⟨rest, rfl⟩ := hs
  · rw [splitFrom, splitFrom]
    exact congrArg Except.ok (List.append_nil _).symm
  · rw [splitFrom_slot, splitFrom_slot]
    cases slotBody? (.code 0) [] rest with
    | none => rfl
    | some bodyAndAfter =>
      dsimp only
      split
      · rfl
      · rw [prepend_prepend]
        rfl

theorem Reads.slotOrEnd (h : Reads rest s pieces) (hrest : SlotOrEnd rest)
    (hhead : ∀ u, pieces.head? ≠ some (.text u)) : SlotOrEnd (s ++ rest) := by
  cases h with
  | done => exact hrest
  | text _ _ _ _ => exact absurd rfl (hhead _)
  | slot _ _ _ _ _ _ => exact slotOrEnd_slot _

theorem Reads.splitFrom_eq (h : Reads rest read pieces) (hrest : SlotOrEnd rest) (offset : Nat) :
    splitFrom offset [] (read ++ rest) =
      prepend pieces (splitFrom (offset + byteSize read) [] rest) := by
  induction h generalizing offset with
  | done => exact (prepend_nil _).symm
  | @text t s pieces hne ht hhead h ih =>
    have hpiece : textPiece (t.reverse ++ []) = [.text t] := by
      simp [textPiece, hne]
    rw [List.append_assoc, splitFrom_text ht (h.slotOrEnd hrest hhead),
      splitFrom_pending (h.slotOrEnd hrest hhead), ih, byteSize_append, Nat.add_assoc, hpiece,
      prepend_prepend, List.singleton_append]
  | @slot before body behind s pieces hbefore hbehind hne htrim hcloses h ih =>
    have hbody : slotBody? (.code 0) [] (before ++ body ++ behind ++ '}' :: s ++ rest) =
        some (before ++ body ++ behind, s ++ rest) :=
      slotBody?_iff.2 ⟨by rw [List.append_assoc _ ('}' :: s), List.cons_append], hcloses⟩
    have hsize : offset + byteSize ('$' :: '{' :: (before ++ body ++ behind ++ '}' :: s)) =
        offset + 3 + byteSize (before ++ body ++ behind) + byteSize s := by
      have hdelimiters : '$'.utf8Size = 1 ∧ '{'.utf8Size = 1 ∧ '}'.utf8Size = 1 := by decide
      rw [byteSize_cons, byteSize_cons, byteSize_append, byteSize_cons, hdelimiters.1,
        hdelimiters.2.1, hdelimiters.2.2]
      omega
    rw [List.cons_append, List.cons_append, splitFrom_slot, hbody]
    dsimp only
    rw [trim_append_blank hbehind, trim_blank_append hbefore, htrim, if_neg (by simpa using hne),
      ih, hsize, prepend_prepend]
    rfl

theorem blank_closesFirst {blank : Text} (h : Blank blank) (after : Text) :
    ClosesFirst 0 blank after := by
  induction blank with
  | nil => exact closesFirst_nil.2 rfl
  | cons c t ih =>
    have hc : isBlank c := h c List.mem_cons_self
    have hplain : ∀ c', isBlank c' = false → c ≠ c' := by
      rintro c' hc' rfl
      rw [hc] at hc'
      cases hc'
    refine closesFirst_cons.2 (.inr (.inr (.inr ⟨hplain _ (by decide), hplain _ (by decide), ?_,
      ih fun c hc => h c (List.mem_cons_of_mem _ hc)⟩)))
    rintro (hquote | ⟨hquote, -⟩)
    · exact hplain _ (by decide) hquote
    · exact hplain _ (by decide) hquote

theorem Splits.sound {source : Text} {result : Except SplitError (List Piece)}
    (h : Splits source result) : splitPieces source = result := by
  match result, h with
  | .ok pieces, h =>
    have hsplit := h.splitFrom_eq (.inl rfl) 0
    rw [List.append_nil] at hsplit
    rw [splitPieces, hsplit, splitFrom]
    exact congrArg Except.ok (List.append_nil _)
  | .error .empty, ⟨read, pieces, blank, rest, hsource, hblank, h⟩ =>
    have hbody := slotBody?_iff.2 ⟨rfl, blank_closesFirst hblank rest⟩
    rw [splitPieces, hsource, h.splitFrom_eq (slotOrEnd_slot _), splitFrom_slot, hbody]
    dsimp only
    rw [trim_blank hblank]
    rfl
  | .error (.unterminated offset), ⟨read, pieces, inner, hsource, hoffset, h, hinner⟩ =>
    have hbody : slotBody? (.code 0) [] inner = none := by
      rw [Option.eq_none_iff_forall_ne_some]
      rintro ⟨body, after⟩ hbody
      obtain ⟨htext, hcloses⟩ := slotBody?_iff.1 hbody
      exact hinner body after htext hcloses
    rw [splitPieces, hsource, h.splitFrom_eq (slotOrEnd_slot _), splitFrom_slot, hbody, ← hoffset,
      Nat.zero_add]
    rfl

inductive Stops : Text → Prop
  | finished : Stops []
  | blank {t : Text} (rest : Text) : Blank t → Stops ('$' :: '{' :: (t ++ '}' :: rest))
  | unclosed {t : Text} : (∀ body after, t = body ++ '}' :: after → ¬ClosesFirst 0 body after) →
      Stops ('$' :: '{' :: t)

theorem exists_text (t : Text) : ∃ front s, t = front ++ s ∧ ¬HasSlot front ∧ SlotOrEnd s := by
  induction t with
  | nil => exact ⟨[], [], rfl, by simp [HasSlot], .inl rfl⟩
  | cons c t ih =>
    by_cases hslot : SlotOrEnd (c :: t)
    · exact ⟨[], c :: t, rfl, by simp [HasSlot], hslot⟩
    · obtain ⟨front, s, rfl, hfront, hs⟩ := ih
      refine ⟨c :: front, s, rfl, ?_, hs⟩
      rw [hasSlot_cons, not_or, not_and]
      refine ⟨?_, hfront⟩
      rintro rfl ⟨rest, rfl⟩
      exact hslot (slotOrEnd_slot _)

theorem Reads.behind_text (ht : ¬HasSlot t) (h : Reads rest s pieces)
    (hhead : ∀ u, pieces.head? ≠ some (.text u)) :
    ∃ all, Reads rest (t ++ s) all := by
  by_cases hempty : t = []
  · exact ⟨pieces, by rwa [hempty]⟩
  · exact ⟨.text t :: pieces, .text hempty ht hhead h⟩

theorem Reads.behind_slot {body : Text} (hne : trim body ≠ [])
    (hcloses : ClosesFirst 0 body (s ++ rest)) (h : Reads rest s pieces) :
    Reads rest ('$' :: '{' :: (body ++ '}' :: s)) (.slot (trim body) :: pieces) := by
  obtain ⟨before, behind, hbefore, hbehind, hbody⟩ := exists_trim body
  have hslot := Reads.slot hbefore hbehind hne (trim_idem body) (hbody ▸ hcloses) h
  rwa [← hbody] at hslot

theorem exists_reads (source : Text) :
    ∃ read pieces rest, source = read ++ rest ∧ Reads rest read pieces ∧ Stops rest := by
  induction hn : source.length using Nat.strong_induction_on generalizing source with
  | _ n ih =>
    obtain ⟨front, s, rfl, hfront, hs⟩ := exists_text source
    obtain ⟨read, pieces, rest, rfl, h, hhead, hstops⟩ : ∃ read pieces rest, s = read ++ rest ∧
        Reads rest read pieces ∧ (∀ u, pieces.head? ≠ some (.text u)) ∧ Stops rest := by
      obtain rfl | ⟨t, rfl⟩ := hs
      · exact ⟨[], [], [], rfl, .done, nofun, .finished⟩
      · cases hbody : slotBody? (.code 0) [] t with
        | none =>
          refine ⟨[], [], _, rfl, .done, nofun, .unclosed fun body after htext hcloses => ?_⟩
          rw [slotBody?_iff.2 ⟨htext, hcloses⟩] at hbody
          cases hbody
        | some bodyAndAfter =>
          obtain ⟨body, after⟩ := bodyAndAfter
          obtain ⟨rfl, hcloses⟩ := slotBody?_iff.1 hbody
          by_cases hne : trim body = []
          · exact ⟨[], [], _, rfl, .done, nofun, .blank after (trim_eq_nil_iff.1 hne)⟩
          · have hshorter : after.length < n := by
              rw [← hn]
              simp only [List.length_append, List.length_cons]
              omega
            obtain ⟨read, pieces, rest, rfl, h, hstops⟩ := ih _ hshorter after rfl
            exact ⟨_, _, rest, by simp, h.behind_slot hne hcloses, nofun, hstops⟩
    obtain ⟨all, hall⟩ := h.behind_text hfront hhead
    exact ⟨front ++ read, all, rest, (List.append_assoc _ _ _).symm, hall, hstops⟩

theorem exists_splits (source : Text) : ∃ result, Splits source result := by
  obtain ⟨read, pieces, rest, rfl, h, hstops⟩ := exists_reads source
  cases hstops with
  | finished => exact ⟨.ok pieces, by rwa [Splits, List.append_nil]⟩
  | blank rest hblank => exact ⟨.error .empty, read, pieces, _, rest, rfl, hblank, h⟩
  | unclosed hinner => exact ⟨.error (.unterminated _), read, pieces, _, rfl, rfl, h, hinner⟩

/-- A split gives the pieces that the source text consists of, and it fails exactly where a row of
pieces is followed by a slot that is blank or not closed. -/
theorem splitPieces_eq_iff (source : Text) (result : Except SplitError (List Piece)) :
    splitPieces source = result ↔ Splits source result := by
  refine ⟨?_, Splits.sound⟩
  rintro rfl
  obtain ⟨result, h⟩ := exists_splits source
  rwa [h.sound]

example : splitPieces "c: $\x7b '\x7d' \x7d;".toList =
    .ok [.text "c: ".toList, .slot "'\x7d'".toList, .text ";".toList] := by decide +kernel

end Split

end ScopedStyle
