import Mathlib.Data.List.Forall2
import ScopedStyle.Proofs.Rule.Comment
import ScopedStyle.Proofs.Rule.Spans
import ScopedStyle.Proofs.Text.Trim

/-!
# Where values come from

The values of a rule stand in its text without comments, one behind the other. What stands
there comes from pieces of the text itself, in the same order. A value is its piece, unless
the text has a comment opener in it: stripping does not look at quotes, and so takes parts out
of a string as well.
-/

namespace ScopedStyle
open Text

inductive InSequence : List Text → Text → Prop
  | nil (t : Text) : InSequence [] t
  | cons (before piece : Text) {pieces : List Text} {rest : Text} (h : InSequence pieces rest) :
      InSequence (piece :: pieces) (before ++ piece ++ rest)

theorem InSequence.behind {pieces : List Text} {t : Text} (h : InSequence pieces t) (front : Text) :
    InSequence pieces (front ++ t) := by
  cases h with
  | nil => exact .nil _
  | cons before piece h =>
    rw [← List.append_assoc, ← List.append_assoc]
    exact .cons (front ++ before) piece h

theorem InSequence.append {pieces others : List Text} {t u : Text} (h : InSequence pieces t)
    (h' : InSequence others u) : InSequence (pieces ++ others) (t ++ u) := by
  induction h with
  | nil t => exact h'.behind t
  | cons before piece _ ih =>
    rw [List.append_assoc]
    exact .cons before piece ih

theorem InSequence.front {pieces : List Text} {t : Text} (h : InSequence pieces t) (back : Text) :
    InSequence pieces (t ++ back) := by
  have hall := h.append (.nil back)
  rwa [List.append_nil] at hall

theorem inSequence_singleton {piece t : Text} (h : piece <:+: t) : InSequence [piece] t := by
  obtain ⟨before, after, rfl⟩ := h
  exact .cons before piece (.nil after)

theorem InSequence.part {pieces : List Text} {t : Text} (h : InSequence pieces t) :
    ∀ piece ∈ pieces, piece <:+: t := by
  induction h with
  | nil t => simp
  | cons before piece _ ih =>
    refine List.forall_mem_cons.2 ⟨⟨before, _, rfl⟩, fun p hp => ?_⟩
    exact (ih p hp).trans (List.suffix_append _ _).isInfix

theorem DerivesColon.start_part {start : Text} {tok : Token} (h : DerivesColon start tok) :
    ∃ front, tok.source = front ++ start := by
  cases h with
  | colon _ => exact ⟨_, (List.append_nil _).symm⟩
  | pseudoClass _ _ =>
    refine ⟨tok.gap ++ tok.text.take 1, ?_⟩
    rw [List.append_assoc, List.take_append_drop]
    rfl

theorem DerivesDeclaration.value_part {d : Declaration} {us : List Token}
    (h : DerivesDeclaration d us) : d.value <:+: sources us := by
  cases h with
  | @mk name colon start vs ms important hn hc hv he hm =>
    obtain ⟨front, hfront⟩ := hc.start_part
    refine (trim_part _).trans ⟨name.source ++ front, sources ms, ?_⟩
    simp [hfront]

theorem DerivesDeclaration.value_trimmed {d : Declaration} {us : List Token}
    (h : DerivesDeclaration d us) : d.value ≠ [] ∧ trim d.value = d.value := by
  cases h with
  | mk _ _ _ he _ => exact ⟨he, trim_idem _⟩

theorem DerivesDeclarations.values_inSequence {ds : List Declaration} {us : List Token}
    (h : DerivesDeclarations ds us) : InSequence (ds.map Declaration.value) (sources us) := by
  induction h with
  | nil => exact .nil _
  | semicolon _ _ ih =>
    rw [sources_cons]
    exact ih.behind _
  | last hd => exact inSequence_singleton hd.value_part
  | cons hd _ _ ih =>
    rw [sources_append, sources_cons]
    exact (inSequence_singleton hd.value_part).append (ih.behind _)

theorem DerivesDeclarations.values_trimmed {ds : List Declaration} {us : List Token}
    (h : DerivesDeclarations ds us) : ∀ d ∈ ds, d.value ≠ [] ∧ trim d.value = d.value := by
  induction h with
  | nil => simp
  | semicolon _ _ ih => exact ih
  | last hd => exact List.forall_mem_singleton.2 hd.value_trimmed
  | cons hd _ _ ih => exact List.forall_mem_cons.2 ⟨hd.value_trimmed, ih⟩

theorem head_of_end {a b w : Text} {c d : Char} (hw : ∀ e ∈ w.head?, e = c)
    (h : (a ++ c :: b).head? ≠ some d) : (a ++ w).head? ≠ some d := by
  cases a with
  | cons e a => exact h
  | nil =>
    intro hd
    obtain rfl := hw d hd
    exact h rfl

theorem stripAfter_split {c : Char} (hc : c ≠ ' ') {inside : Bool} {t x y : Text}
    (h : stripAfter [] inside t = x ++ c :: y) :
    ∃ a b, t = a ++ c :: b ∧ (c = '/' → b.head? ≠ some '*') ∧ stripAfter [] false b = y ∧
      ∀ w, (∀ e ∈ w.head?, e = c) → stripAfter [] inside (a ++ w) = x ++ stripAfter [] false w := by
  -- along the scan: `a` is what it has read before it gives out `c`
  induction inside, t using strip_induction generalizing x with
  | nil inside => cases inside <;> simp [stripAfter] at h
  | opened t ih =>
    rw [stripAfter_opened] at h
    cases x with
    | nil => exact absurd (List.cons.inj h).1.symm hc
    | cons d x =>
      obtain ⟨rfl, hrest⟩ := List.cons.inj h
      obtain ⟨a, b, rfl, hopen, hy, hfront⟩ := ih hrest
      refine ⟨'/' :: '*' :: a, b, rfl, hopen, hy, fun w hw => ?_⟩
      rw [List.cons_append, List.cons_append, stripAfter_opened, hfront w hw, List.cons_append]
  | kept d t hd ih =>
    rw [stripAfter_kept hd] at h
    cases x with
    | nil =>
      obtain ⟨rfl, hy⟩ := List.cons.inj h
      exact ⟨[], t, rfl, hd, hy, fun w _ => rfl⟩
    | cons d' x =>
      obtain ⟨rfl, hrest⟩ := List.cons.inj h
      obtain ⟨a, b, rfl, hopen, hy, hfront⟩ := ih hrest
      refine ⟨d :: a, b, rfl, hopen, hy, fun w hw => ?_⟩
      rw [List.cons_append, stripAfter_kept fun he => head_of_end hw (hd he), hfront w hw,
        List.cons_append]
  | closed t ih =>
    rw [stripAfter_closed] at h
    obtain ⟨a, b, rfl, hopen, hy, hfront⟩ := ih h
    refine ⟨'*' :: '/' :: a, b, rfl, hopen, hy, fun w hw => ?_⟩
    rw [List.cons_append, List.cons_append, stripAfter_closed, hfront w hw]
  | skipped d t hd ih =>
    rw [stripAfter_skipped hd] at h
    obtain ⟨a, b, rfl, hopen, hy, hfront⟩ := ih h
    refine ⟨d :: a, b, rfl, hopen, hy, fun w hw => ?_⟩
    rw [List.cons_append, stripAfter_skipped fun he => head_of_end hw (hd he), hfront w hw]

theorem ne_space_of_not_blank {c : Char} (h : isBlank c = false) : c ≠ ' ' := by
  rintro rfl
  exact absurd h (by decide)

theorem exists_piece {t before v after : Text} (hne : v ≠ []) (ht : trim v = v)
    (h : stripComments t = before ++ v ++ after) :
    ∃ front piece back, t = front ++ piece ++ back ∧ stripComments front = before ∧
      stripComments piece = v ∧ stripComments back = after := by
  obtain ⟨c, m, hv⟩ := List.exists_cons_of_ne_nil hne
  obtain ⟨m', e, hv'⟩ := (List.eq_nil_or_concat' v).resolve_left hne
  have hc := ne_space_of_not_blank (head_of_trimmed (hv ▸ ht))
  have he := ne_space_of_not_blank (last_of_trimmed (hv' ▸ ht))
  have hstart : stripAfter [] false t = before ++ c :: (m ++ after) := by
    rw [← List.cons_append, ← hv, ← List.append_assoc]
    exact h
  obtain ⟨front, u, rfl, hopen, hu, hfront⟩ := stripAfter_split hc hstart
  have hstop : stripAfter [] false (c :: u) = m' ++ e :: after := by
    rw [stripAfter_kept hopen, hu, ← List.cons_append, ← hv, hv', List.append_assoc]
    rfl
  obtain ⟨body, back, hbody, -, hback, hcut⟩ := stripAfter_split he hstop
  refine ⟨front, body ++ [e], back, ?_, ?_, ?_, hback⟩
  · rw [hbody, List.append_assoc, List.append_assoc]
    rfl
  · simpa [stripComments, stripAfter] using hfront [] (by simp)
  · have hend : stripAfter [] false [e] = [e] := stripAfter_kept fun _ => by simp
    rw [stripComments, hcut [e] (by simp), hend]
    exact hv'.symm

theorem exists_pieces {values : List Text} {s t : Text} (h : InSequence values s)
    (hv : ∀ v ∈ values, v ≠ [] ∧ trim v = v) (hs : stripComments t = s) :
    ∃ pieces, InSequence pieces t ∧ pieces.map stripComments = values := by
  induction h generalizing t with
  | nil s => exact ⟨[], .nil t, rfl⟩
  | cons before v _ ih =>
    obtain ⟨⟨hne, ht⟩, hrest⟩ := List.forall_mem_cons.1 hv
    obtain ⟨front, piece, back, rfl, -, hpiece, hback⟩ := exists_piece hne ht hs
    obtain ⟨pieces, hpieces, hmap⟩ := ih hrest hback
    exact ⟨piece :: pieces, .cons front piece hpieces, by rw [List.map_cons, hpiece, hmap]⟩

theorem DerivesRule.values_inSequence {r : Rule} {us : List Token} (h : DerivesRule r us) :
    InSequence (r.declarations.map Declaration.value) (sources us) ∧
      ∀ v ∈ r.declarations.map Declaration.value, v ≠ [] ∧ trim v = v := by
  cases h with
  | mk _ _ hd _ =>
    rw [sources_append, sources_cons, sources_append]
    exact ⟨((hd.values_inSequence.front _).behind _).behind _,
      List.forall_mem_map.2 hd.values_trimmed⟩

/-- The values of an accepted rule are left from pieces of its text, in the order of the
declarations. A value stands in the text as it is exactly if no comment opens in its piece. -/
theorem values_from_text {t : Text} {r : Rule} (h : Rule.parse t = .ok r) :
    ∃ pieces, InSequence pieces t ∧
      List.Forall₂ (fun piece (d : Declaration) => piece <:+: t ∧ stripComments piece = d.value ∧
        (piece = d.value ↔ Clean piece)) pieces r.declarations := by
  obtain ⟨us, hmade, hd⟩ := (parse_accepts_grammar t r).1 h
  obtain ⟨hvalues, htrimmed⟩ := hd.values_inSequence
  obtain ⟨rest, hsource, -⟩ := spells_of_lexemes (hmade.lexed.trans (List.append_nil _).symm)
  obtain ⟨pieces, hpieces, hmap⟩ := exists_pieces (hvalues.front rest) htrimmed hsource
  have hleft : List.Forall₂ (fun piece (d : Declaration) => stripComments piece = d.value)
      pieces r.declarations := by
    refine List.forall₂_map_left_iff.1 (List.forall₂_map_right_iff.1 ?_)
    rw [hmap, List.forall₂_same]
    exact fun _ _ => rfl
  refine ⟨pieces, hpieces, (List.forall₂_and_left _ _).2 ⟨hpieces.part, hleft.imp ?_⟩⟩
  intro piece d hvalue
  refine ⟨hvalue, ?_⟩
  rw [← hvalue, eq_comm]
  exact stripComments_eq_self_iff

theorem values_from_text_commented :
    ∃ r pieces, Rule.parse "a\x7bb:c/*d*/ \"/*e*/f\";g:\"h\"\x7d".toList = .ok r ∧
      InSequence pieces "a\x7bb:c/*d*/ \"/*e*/f\";g:\"h\"\x7d".toList ∧
      pieces.map stripComments = ["c  \" f\"".toList, "\"h\"".toList] := by
  have hread : Rule.parse "a\x7bb:c/*d*/ \"/*e*/f\";g:\"h\"\x7d".toList =
      .ok ⟨[⟨.tagged (.named ['a']) [], []⟩],
        [⟨['b'], "c  \" f\"".toList, false⟩, ⟨['g'], "\"h\"".toList, false⟩]⟩ := by
    decide +kernel
  obtain ⟨pieces, hpieces, hleft⟩ := values_from_text hread
  refine ⟨_, pieces, hread, hpieces, ?_⟩
  rw [← List.forall₂_eq_eq_eq]
  exact List.forall₂_map_left_iff.2
    (List.forall₂_map_right_iff.2 (hleft.imp fun _ _ hp => hp.2.1))

/-- No comment opener stands outside quoted strings, where `quote?` closes the string that the scan
is in. -/
def commentsQuoted (quote? : Option Char) : Text → Bool
  | [] => true
  | c :: rest =>
      match quote? with
      | some q => commentsQuoted (if c = q then none else some q) rest
      | none =>
          !(c == '/' && rest.head? == some '*') &&
            commentsQuoted (if c = '"' || c = '\'' then some c else none) rest

/-- A value of which a part in a string is gone is not in its text. -/
theorem value_cut :
    ¬∀ (t : Text) (r : Rule), commentsQuoted none t → Rule.parse t = .ok r →
      ∀ d ∈ r.declarations, d.value <:+: t := by
  intro hall
  have hread : Rule.parse "a\x7bb:\"/*c*/d\"\x7d".toList =
      .ok ⟨[⟨.tagged (.named ['a']) [], []⟩], [⟨['b'], "\" d\"".toList, false⟩]⟩ := by
    decide +kernel
  have hmissing : ¬"\" d\"".toList <:+: "a\x7bb:\"/*c*/d\"\x7d".toList := by decide +kernel
  exact hmissing (hall _ _ (by decide +kernel) hread _ (List.mem_singleton_self _))

end ScopedStyle
