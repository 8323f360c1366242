import ScopedStyle.Proofs.Rule.SelectorGrammar

/-!
# The grammar of rules

Which tokens a value, a declaration and a rule derive. A value is a row of tokens
with balanced parentheses; what would end it may stand inside parentheses only.
-/

namespace ScopedStyle
open Text

def opens (ts : List Token) : Nat := ts.countP (·.kind = .parenOpen)

def closes (ts : List Token) : Nat := ts.countP (·.kind = .parenClose)

def TokenKind.endsValue : TokenKind → Bool
  | .semicolon | .braceClose | .important => true
  | _ => false

/-- What a value is made of behind `depth` open parentheses: no opening brace, never more closed
than open, in the end none open, and outside parentheses nothing that ends it. -/
structure Balanced (depth : Nat) (ts : List Token) : Prop where
  braceless : ∀ t ∈ ts, t.kind ≠ .braceOpen
  never_under : ∀ before after, ts = before ++ after → closes before ≤ depth + opens before
  all_closed : closes ts = depth + opens ts
  outside : ∀ before t after, ts = before ++ t :: after →
    closes before = depth + opens before → t.kind.endsValue = false

def depthAfter (depth : Nat) (t : Token) : Nat :=
  match t.kind with
  | .parenOpen => depth + 1
  | .parenClose => depth - 1
  | _ => depth

structure Allowed (depth : Nat) (t : Token) : Prop where
  braceless : t.kind ≠ .braceOpen
  closing : t.kind = .parenClose → 0 < depth
  inside : t.kind.endsValue → 0 < depth

theorem TokenKind.endsValue_iff {k : TokenKind} :
    k.endsValue ↔ k = .semicolon ∨ k = .braceClose ∨ k = .important := by
  cases k <;> decide

theorem refused_of_not_allowed {depth : Nat} {t : Token} (h : ¬Allowed depth t) :
    t.kind = .braceOpen ∨ depth = 0 ∧ (t.kind = .parenClose ∨ t.kind.endsValue) := by
  by_contra hn
  push Not at hn
  obtain ⟨hb, hn⟩ := hn
  refine h ⟨hb, fun hk => ?_, fun hk => ?_⟩
  · exact Nat.pos_of_ne_zero fun hd => (hn hd).1 hk
  · exact Nat.pos_of_ne_zero fun hd => (hn hd).2 hk

theorem balanced_nil {depth : Nat} : Balanced depth [] ↔ depth = 0 := by
  constructor
  · intro h
    have hc : 0 = depth + 0 := h.all_closed
    omega
  · rintro rfl
    refine ⟨by simp, fun before after h => ?_, rfl, fun before t after h => ?_⟩
    · obtain ⟨rfl, -⟩ := List.append_eq_nil_iff.1 h.symm
      exact Nat.zero_le _
    · simp at h

theorem depthAfter_count {depth : Nat} {t : Token} (h : Allowed depth t) (ts : List Token) :
    depthAfter depth t + opens ts + closes (t :: ts) = depth + opens (t :: ts) + closes ts := by
  have hclosing := h.closing
  unfold depthAfter opens closes
  rw [List.countP_cons, List.countP_cons]
  cases hk : t.kind
  case parenClose =>
    have := hclosing hk
    simp
    omega
  case parenOpen =>
    simp
    omega
  all_goals simp

theorem Balanced.allowed {depth : Nat} {t : Token} {ts : List Token}
    (h : Balanced depth (t :: ts)) : Allowed depth t := by
  refine ⟨h.braceless t List.mem_cons_self, fun hk => ?_, fun hk => ?_⟩
  · have hu := h.never_under [t] ts rfl
    simp [opens, closes, hk] at hu
    omega
  · by_contra hd
    have ho := h.outside [] t ts rfl (by simp [opens, closes]; omega)
    rw [ho] at hk
    cases hk

theorem Balanced.tail {depth : Nat} {t : Token} {ts : List Token}
    (h : Balanced depth (t :: ts)) : Balanced (depthAfter depth t) ts := by
  have hcount := depthAfter_count h.allowed
  refine ⟨fun u hu => h.braceless u (List.mem_cons_of_mem _ hu), ?_, ?_, ?_⟩
  · rintro before after rfl
    have hu := h.never_under (t :: before) after rfl
    have := hcount before
    omega
  · have hc := h.all_closed
    have := hcount ts
    omega
  · rintro before u after rfl hc
    refine h.outside (t :: before) u after rfl ?_
    have := hcount before
    omega

theorem Balanced.cons {depth : Nat} {t : Token} {ts : List Token} (ha : Allowed depth t)
    (h : Balanced (depthAfter depth t) ts) : Balanced depth (t :: ts) := by
  have hcount := depthAfter_count ha
  refine ⟨fun u hu => ?_, fun before after hs => ?_, ?_, fun before u after hs hc => ?_⟩
  · rcases List.mem_cons.1 hu with rfl | hu
    · exact ha.braceless
    · exact h.braceless u hu
  · cases before with
    | nil => exact Nat.zero_le _
    | cons u before =>
      cases hs
      have hu := h.never_under before after rfl
      have := hcount before
      omega
  · have hc := h.all_closed
    have := hcount ts
    omega
  · cases before with
    | nil =>
      cases hs
      by_contra he
      have hd := ha.inside (by simpa using he)
      simp [opens, closes] at hc
      omega
    | cons v before =>
      cases hs
      refine h.outside before u after rfl ?_
      have := hcount before
      omega

theorem balanced_cons {depth : Nat} {t : Token} {ts : List Token} :
    Balanced depth (t :: ts) ↔ Allowed depth t ∧ Balanced (depthAfter depth t) ts :=
  ⟨fun h => ⟨h.allowed, h.tail⟩, fun h => .cons h.1 h.2⟩

instance (depth : Nat) (t : Token) : Decidable (Allowed depth t) :=
  decidable_of_iff (t.kind ≠ .braceOpen ∧ (t.kind = .parenClose → 0 < depth) ∧
      (t.kind.endsValue → 0 < depth))
    ⟨fun h => ⟨h.1, h.2.1, h.2.2⟩, fun h => ⟨h.braceless, h.closing, h.inside⟩⟩

instance decidableBalanced : (depth : Nat) → (ts : List Token) → Decidable (Balanced depth ts)
  | depth, [] => decidable_of_iff (depth = 0) balanced_nil.symm
  | depth, t :: ts =>
      have := decidableBalanced (depthAfter depth t) ts
      decidable_of_iff (Allowed depth t ∧ Balanced (depthAfter depth t) ts) balanced_cons.symm

def EndsDeclaration (ts : List Token) : Prop :=
  ∀ tok ∈ ts.head?, tok.kind = .semicolon ∨ tok.kind = .braceClose

theorem endsDeclaration_nil : EndsDeclaration [] := fun _ h => by cases h

theorem endsDeclaration_cons {tok : Token} {ts : List Token} :
    EndsDeclaration (tok :: ts) ↔ tok.kind = .semicolon ∨ tok.kind = .braceClose :=
  ⟨fun h => h tok rfl, fun h t ht => by cases ht; exact h⟩

theorem readRawValue_allowed {depth : Nat} {t : Token} (h : Allowed depth t) (property : Text)
    (done : List Text) (ts : List Token) :
    readRawValue property depth done (t :: ts) =
      readRawValue property (depthAfter depth t) (t.source :: done) ts := by
  have hclosing := h.closing
  have hinside := h.inside
  have hbrace := h.braceless
  unfold depthAfter Token.source
  cases depth with
  | zero =>
    cases hk : t.kind <;> simp_all [TokenKind.endsValue, readRawValue]
  | succ depth =>
    cases hk : t.kind <;> simp_all [readRawValue]

theorem readRawValue_of_balanced {depth : Nat} {vs : List Token} (h : Balanced depth vs)
    (property : Text) (done : List Text) (rest : List Token) :
    readRawValue property depth done (vs ++ rest) =
      readRawValue property 0 ((vs.map Token.source).reverse ++ done) rest := by
  induction vs generalizing depth done with
  | nil =>
    obtain rfl := balanced_nil.1 h
    rfl
  | cons t vs ih =>
    obtain ⟨ha, h⟩ := balanced_cons.1 h
    rw [List.cons_append, readRawValue_allowed ha, ih h, List.map_cons, List.reverse_cons,
      List.append_assoc]
    rfl

def StopsAt (important : Bool) (ts rest : List Token) : Prop :=
  (important = false ∧ ts = rest ∧ EndsDeclaration rest) ∨
    (important = true ∧ ∃ mark, mark.kind = .important ∧ ts = mark :: rest)

theorem stopsAt_of_readRawValue {property : Text} {depth : Nat} {done : List Text}
    {raw : RawValue} {t : Token} {ts rest : List Token} (ha : ¬Allowed depth t)
    (h : readRawValue property depth done (t :: ts) = .ok (raw, rest)) :
    depth = 0 ∧ raw.pieces = done.reverse ∧ StopsAt raw.important (t :: ts) rest := by
  rcases refused_of_not_allowed ha with hk | ⟨rfl, hk | hk⟩
  · simp [readRawValue, hk] at h
  · simp [readRawValue, hk] at h
  · rcases TokenKind.endsValue_iff.1 hk with hk | hk | hk
    · simp only [readRawValue, hk] at h
      cases h
      exact ⟨rfl, rfl, .inl ⟨rfl, rfl, endsDeclaration_cons.2 (.inl hk)⟩⟩
    · simp only [readRawValue, hk] at h
      cases h
      exact ⟨rfl, rfl, .inl ⟨rfl, rfl, endsDeclaration_cons.2 (.inr hk)⟩⟩
    · simp only [readRawValue, hk] at h
      cases h
      exact ⟨rfl, rfl, .inr ⟨rfl, t, hk, rfl⟩⟩

theorem balanced_of_readRawValue {property : Text} {depth : Nat} {done : List Text}
    {raw : RawValue} {ts rest : List Token}
    (h : readRawValue property depth done ts = .ok (raw, rest)) :
    ∃ vs more, ts = vs ++ more ∧ Balanced depth vs ∧
      raw.pieces = done.reverse ++ vs.map Token.source ∧ StopsAt raw.important more rest := by
  -- the depth changes with each token taken, so it is general in the induction
  induction ts generalizing depth done with
  | nil =>
    simp only [readRawValue] at h
    split at h
    · rename_i hd
      cases h
      exact ⟨[], [], rfl, balanced_nil.2 hd, by simp, .inl ⟨rfl, rfl, endsDeclaration_nil⟩⟩
    · cases h
  | cons t ts ih =>
    by_cases ha : Allowed depth t
    · rw [readRawValue_allowed ha] at h
      obtain ⟨vs, more, rfl, hb, hp, hstop⟩ := ih h
      refine ⟨t :: vs, more, rfl, .cons ha hb, ?_, hstop⟩
      rw [hp, List.reverse_cons, List.append_assoc]
      rfl
    · obtain ⟨hd, hp, hstop⟩ := stopsAt_of_readRawValue ha h
      exact ⟨[], t :: ts, rfl, balanced_nil.2 hd, by rw [hp]; simp, hstop⟩

/-- The token behind a property, and what it already gives to the value: a colon nothing, a
pseudo-class that touches the property all behind its own colon. -/
inductive DerivesColon : Text → Token → Prop
  | colon {tok : Token} (hk : tok.kind = .colon) : DerivesColon [] tok
  | pseudoClass {tok : Token} (hk : tok.kind = .pseudoClass) (ht : tok.touches) :
      DerivesColon (tok.text.drop 1) tok

inductive DerivesMark : Bool → List Token → Prop
  | plain : DerivesMark false []
  | important {tok : Token} (hk : tok.kind = .important) : DerivesMark true [tok]

inductive DerivesDeclaration : Declaration → List Token → Prop
  | mk {name colon : Token} {start : Text} {vs ms : List Token} {important : Bool}
      (hn : name.kind = .ident) (hc : DerivesColon start colon) (hv : Balanced 0 vs)
      (he : trim (start ++ sources vs) ≠ []) (hm : DerivesMark important ms) :
      DerivesDeclaration ⟨name.text, trim (start ++ sources vs), important⟩
        (name :: colon :: (vs ++ ms))

def passSemicolon : List Token → List Token
  | [] => []
  | tok :: rest => if tok.kind = .semicolon then rest else tok :: rest

theorem readEnd_of_ends {ts : List Token} (h : EndsDeclaration ts) (important : Bool) :
    readEnd important ts = .ok (passSemicolon ts) := by
  cases ts with
  | nil => rfl
  | cons tok rest =>
    rcases endsDeclaration_cons.1 h with hk | hk
    · simp [readEnd, passSemicolon, hk]
    · simp [readEnd, passSemicolon, hk]

theorem ends_of_readEnd {ts rest : List Token} (h : readEnd true ts = .ok rest) :
    EndsDeclaration ts := by
  cases ts with
  | nil => exact endsDeclaration_nil
  | cons tok ts =>
    simp only [readEnd] at h
    split at h
    · rename_i hk
      exact endsDeclaration_cons.2 (.inl hk)
    · rename_i hk
      exact endsDeclaration_cons.2 (.inr hk)
    · cases h

theorem readRawValue_end {property : Text} {done : List Text} {important : Bool}
    {ms ts : List Token} (hm : DerivesMark important ms) (h : EndsDeclaration ts) :
    readRawValue property 0 done (ms ++ ts) = .ok (⟨done.reverse, important⟩, ts) := by
  cases hm with
  | plain =>
    cases ts with
    | nil => rfl
    | cons tok rest =>
      rcases endsDeclaration_cons.1 h with hk | hk
      · simp [readRawValue, hk]
      · simp [readRawValue, hk]
  | important hk => simp [readRawValue, hk]

theorem readValue_of_derives {property start : Text} {important : Bool} {vs ms rest : List Token}
    {startPieces : List Text} (hs : startPieces.reverse.flatten = start) (hv : Balanced 0 vs)
    (he : trim (start ++ sources vs) ≠ []) (hm : DerivesMark important ms)
    (hr : EndsDeclaration rest) :
    readValue property startPieces (vs ++ ms ++ rest) =
      .ok (⟨property, trim (start ++ sources vs), important⟩, passSemicolon rest) := by
  have hpieces : ((vs.map Token.source).reverse ++ startPieces).reverse.flatten =
      start ++ sources vs := by
    rw [List.reverse_append, List.reverse_reverse, List.flatten_append, hs]
    rfl
  rw [List.append_assoc, readValue, readRawValue_of_balanced hv, readRawValue_end hm hr]
  simp only [hpieces]
  rw [if_neg fun h => he (List.isEmpty_iff.1 h), readEnd_of_ends hr]

theorem readDeclaration_of_derives {d : Declaration} {us rest : List Token}
    (h : DerivesDeclaration d us) (hr : EndsDeclaration rest) :
    ∃ name vs, us = name :: vs ∧ name.kind = .ident ∧
      readDeclaration name (vs ++ rest) = .ok (d, passSemicolon rest) := by
  cases h with
  | @mk name colon start vs ms important hn hc hv he hm =>
    refine ⟨name, _, rfl, hn, ?_⟩
    simp only [readDeclaration, if_pos hn, List.cons_append]
    cases hc with
    | colon hk =>
      rw [if_pos hk]
      exact readValue_of_derives rfl hv he hm hr
    | pseudoClass hk ht =>
      have hne : colon.kind ≠ .colon := by rw [hk]; decide
      rw [if_neg hne, if_pos ⟨hk, ht⟩]
      exact readValue_of_derives (by simp) hv he hm hr

theorem mark_of_stopsAt {important : Bool} {ts more rest : List Token}
    (hs : StopsAt important ts more) (h : readEnd important more = .ok rest) :
    ∃ ms after, ts = ms ++ after ∧ DerivesMark important ms ∧ EndsDeclaration after ∧
      rest = passSemicolon after := by
  rcases hs with ⟨rfl, rfl, he⟩ | ⟨rfl, mark, hm, rfl⟩
  · rw [readEnd_of_ends he] at h
    cases h
    exact ⟨[], ts, rfl, .plain, he, rfl⟩
  · have he := ends_of_readEnd h
    rw [readEnd_of_ends he] at h
    cases h
    exact ⟨[mark], more, rfl, .important hm, he, rfl⟩

theorem derives_of_readValue {property : Text} {startPieces : List Text} {d : Declaration}
    {ts rest : List Token} (h : readValue property startPieces ts = .ok (d, rest)) :
    ∃ important vs ms more, Balanced 0 vs ∧ DerivesMark important ms ∧
      trim (startPieces.reverse.flatten ++ sources vs) ≠ [] ∧
      d = ⟨property, trim (startPieces.reverse.flatten ++ sources vs), important⟩ ∧
      ts = vs ++ ms ++ more ∧ EndsDeclaration more ∧ rest = passSemicolon more := by
  unfold readValue at h
  split at h
  · cases h
  · rename_i raw more hraw
    obtain ⟨vs, more, rfl, hv, hp, hstop⟩ := balanced_of_readRawValue hraw
    have hvalue : raw.pieces.flatten = startPieces.reverse.flatten ++ sources vs := by
      rw [hp, List.flatten_append]
      rfl
    simp only [hvalue] at h
    split at h
    · cases h
    · rename_i hne
      split at h
      · cases h
      · rename_i rest' hread
        cases h
        obtain ⟨ms, after, rfl, hm, he, rfl⟩ := mark_of_stopsAt hstop hread
        refine ⟨raw.important, vs, ms, after, hv, hm, fun he => hne ?_, rfl, ?_, he, rfl⟩
        · rw [he]
          rfl
        · rw [List.append_assoc]

theorem derives_of_readDeclaration {name : Token} {d : Declaration} {ts rest : List Token}
    (h : readDeclaration name ts = .ok (d, rest)) :
    ∃ us more, ts = us ++ more ∧ DerivesDeclaration d (name :: us) ∧ EndsDeclaration more ∧
      rest = passSemicolon more := by
  unfold readDeclaration at h
  split at h
  · rename_i hn
    split at h
    · cases h
    · rename_i tok ts'
      split at h
      · rename_i hk
        obtain ⟨important, vs, ms, more, hv, hm, hne, rfl, rfl, he, rfl⟩ := derives_of_readValue h
        exact ⟨tok :: (vs ++ ms), more, rfl, .mk hn (.colon hk) hv hne hm, he, rfl⟩
      · split at h
        · rename_i hk
          obtain ⟨important, vs, ms, more, hv, hm, hne, rfl, rfl, he, rfl⟩ :=
            derives_of_readValue h
          have hstart : [tok.text.drop 1].reverse.flatten = tok.text.drop 1 := by simp
          rw [hstart] at hne ⊢
          exact ⟨tok :: (vs ++ ms), more, rfl, .mk hn (.pseudoClass hk.1 hk.2) hv hne hm, he, rfl⟩
        · cases h
  · cases h

/-- Declarations, each but the last ended by a semicolon, and more semicolons between them. -/
inductive DerivesDeclarations : List Declaration → List Token → Prop
  | nil : DerivesDeclarations [] []
  | semicolon {tok : Token} {ds : List Declaration} {us : List Token} (hk : tok.kind = .semicolon)
      (hr : DerivesDeclarations ds us) : DerivesDeclarations ds (tok :: us)
  | last {d : Declaration} {us : List Token} (hd : DerivesDeclaration d us) :
      DerivesDeclarations [d] us
  | cons {d : Declaration} {ds : List Declaration} {tok : Token} {us vs : List Token}
      (hd : DerivesDeclaration d us) (hk : tok.kind = .semicolon)
      (hr : DerivesDeclarations ds vs) : DerivesDeclarations (d :: ds) (us ++ tok :: vs)

theorem DerivesDeclarations.begins {ds : List Declaration} {us : List Token}
    (h : DerivesDeclarations ds us) : (ds = [] ∧ us = []) ∨
      ∃ tok vs, us = tok :: vs ∧ (tok.kind = .semicolon ∨ tok.kind = .ident) := by
  cases h with
  | nil => exact .inl ⟨rfl, rfl⟩
  | semicolon hk _ => exact .inr ⟨_, _, rfl, .inl hk⟩
  | last hd =>
    cases hd with
    | mk hn _ _ _ _ => exact .inr ⟨_, _, rfl, .inr hn⟩
  | cons hd _ _ =>
    cases hd with
    | mk hn _ _ _ _ => exact .inr ⟨_, _, rfl, .inr hn⟩

theorem readDeclarations_close {tok : Token} (h : tok.kind = .braceClose)
    (done : List Declaration) (ts : List Token) :
    readDeclarations done (tok :: ts) = .ok (done.reverse, tok :: ts) := by
  rw [readDeclarations, if_pos h]

theorem readDeclarations_declaration {d : Declaration} {us rest : List Token}
    (h : DerivesDeclaration d us) (hr : EndsDeclaration rest) (done : List Declaration) :
    readDeclarations done (us ++ rest) = readDeclarations (d :: done) (passSemicolon rest) := by
  obtain ⟨name, vs, rfl, hn, hread⟩ := readDeclaration_of_derives h hr
  rw [List.cons_append, readDeclarations, if_neg (by rw [hn]; decide),
    if_neg (by rw [hn]; decide)]
  split
  · rename_i he
    rw [hread] at he
    cases he
  · rename_i he
    rw [hread] at he
    cases he
    rfl

theorem readDeclarations_of_derives {ds : List Declaration} {us rest : List Token}
    {closer : Token} (h : DerivesDeclarations ds us) (hc : closer.kind = .braceClose)
    (done : List Declaration) :
    readDeclarations done (us ++ closer :: rest) =
      .ok (done.reverse ++ ds, closer :: rest) := by
  induction h generalizing done with
  | nil =>
    rw [List.append_nil]
    exact readDeclarations_close hc done rest
  | semicolon hk _ ih =>
    rw [List.cons_append, readDeclarations, if_neg (by rw [hk]; decide), if_pos hk]
    exact ih done
  | @last d us hd =>
    have hpass : passSemicolon (closer :: rest) = closer :: rest := by simp [passSemicolon, hc]
    rw [readDeclarations_declaration hd (endsDeclaration_cons.2 (.inr hc)), hpass,
      readDeclarations_close hc, List.reverse_cons]
  | @cons d ds tok us vs hd hk _ ih =>
    have hpass : passSemicolon (tok :: (vs ++ closer :: rest)) = vs ++ closer :: rest := by
      simp [passSemicolon, hk]
    rw [List.append_assoc, List.cons_append,
      readDeclarations_declaration hd (endsDeclaration_cons.2 (.inl hk)), hpass, ih,
      List.reverse_cons, List.append_assoc]
    rfl

theorem derives_before {d : Declaration} {ds : List Declaration} {us more vs rest : List Token}
    (hd : DerivesDeclaration d us) (hend : EndsDeclaration more)
    (hp : passSemicolon more = vs ++ rest) (hds : DerivesDeclarations ds vs) :
    ∃ ws, us ++ more = ws ++ rest ∧ DerivesDeclarations (d :: ds) ws := by
  rcases more with - | ⟨next, more⟩
  · -- the tokens ended with the declaration
    obtain ⟨rfl, rfl⟩ := List.append_eq_nil_iff.1 hp.symm
    obtain ⟨rfl, -⟩ | ⟨_, _, he, -⟩ := hds.begins
    · exact ⟨us, rfl, .last hd⟩
    · cases he
  · rcases endsDeclaration_cons.1 hend with hk | hk
    · have hpass : passSemicolon (next :: more) = more := by simp [passSemicolon, hk]
      rw [hpass] at hp
      subst hp
      refine ⟨us ++ next :: vs, ?_, .cons hd hk hds⟩
      rw [List.append_assoc]
      rfl
    · have hpass : passSemicolon (next :: more) = next :: more := by simp [passSemicolon, hk]
      rw [hpass] at hp
      obtain ⟨rfl, rfl⟩ | ⟨first, ws, rfl, hf⟩ := hds.begins
      · refine ⟨us, ?_, .last hd⟩
        rw [hp]
        rfl
      · cases hp
        rw [hk] at hf
        rcases hf with hf | hf <;> cases hf

theorem derives_of_readDeclarations {done ds : List Declaration} {ts rest : List Token}
    (h : readDeclarations done ts = .ok (ds, rest)) :
    ∃ new us, ds = done.reverse ++ new ∧ ts = us ++ rest ∧ DerivesDeclarations new us := by
  fun_induction readDeclarations done ts with
  | case1 done =>
    cases h
    exact ⟨[], [], (List.append_nil _).symm, rfl, .nil⟩
  | case2 done tok ts' hk =>
    cases h
    exact ⟨[], [], (List.append_nil _).symm, rfl, .nil⟩
  | case3 done tok ts' _ hk ih =>
    obtain ⟨new, us, rfl, rfl, hd⟩ := ih h
    exact ⟨new, tok :: us, rfl, rfl, .semicolon hk hd⟩
  | case4 => cases h
  | case5 done tok ts' _ _ d after hread ih =>
    obtain ⟨us, more, rfl, hd, hend, rfl⟩ := derives_of_readDeclaration hread
    obtain ⟨new, vs, rfl, hvs, hds⟩ := ih h
    obtain ⟨ws, hws, hd'⟩ := derives_before hd hend hvs hds
    refine ⟨d :: new, ws, ?_, hws, hd'⟩
    rw [List.reverse_cons, List.append_assoc]
    rfl

inductive DerivesRule : Rule → List Token → Prop
  | mk {selectors : List Selector} {declarations : List Declaration} {opener closer : Token}
      {us vs : List Token} (hs : DerivesSelectors selectors us) (ho : opener.kind = .braceOpen)
      (hd : DerivesDeclarations declarations vs) (hc : closer.kind = .braceClose) :
      DerivesRule ⟨selectors, declarations⟩ (us ++ opener :: (vs ++ [closer]))

theorem readKind_eq_ok_iff {wanted : TokenKind} {ts rest : List Token} :
    readKind wanted ts = .ok rest ↔ ∃ tok, tok.kind = wanted ∧ ts = tok :: rest := by
  cases ts with
  | nil => simp [readKind]
  | cons tok ts =>
    simp only [readKind]
    split
    · rename_i hk
      simp [hk]
    · rename_i hk
      simp [hk]

theorem endsSelectors_brace {opener : Token} (ho : opener.kind = .braceOpen) (ts : List Token) :
    EndsSelectors (opener :: ts) := by
  refine ⟨endsSelector_cons.2 (by rw [ho]; rfl), fun tok htok => ?_⟩
  cases htok
  rw [ho]
  decide

theorem readWholeRule_of_derives {r : Rule} {us : List Token} (h : DerivesRule r us) :
    readWholeRule us = .ok r := by
  cases h with
  | @mk _ _ opener closer us vs hs ho hd hc =>
    have hsel := readSelectors_of_derives hs (endsSelectors_brace ho (vs ++ [closer]))
    have hopen : readKind .braceOpen (opener :: (vs ++ [closer])) = .ok (vs ++ [closer]) :=
      readKind_eq_ok_iff.2 ⟨opener, ho, rfl⟩
    have hclose : readKind .braceClose [closer] = .ok [] :=
      readKind_eq_ok_iff.2 ⟨closer, hc, rfl⟩
    have hds : readDeclarations [] (vs ++ [closer]) = .ok (_, [closer]) :=
      readDeclarations_of_derives hd hc []
    simp [readWholeRule, readRule, hsel, readBlock, hopen, hds, hclose]

theorem derives_of_readBlock {ds : List Declaration} {ts rest : List Token}
    (h : readBlock ts = .ok (ds, rest)) :
    ∃ opener vs closer, opener.kind = .braceOpen ∧ DerivesDeclarations ds vs ∧
      closer.kind = .braceClose ∧ ts = opener :: (vs ++ closer :: rest) := by
  unfold readBlock at h
  split at h
  · cases h
  · rename_i hopen
    split at h
    · cases h
    · rename_i hdecl
      split at h
      · cases h
      · rename_i hclose
        cases h
        obtain ⟨opener, ho, rfl⟩ := readKind_eq_ok_iff.1 hopen
        obtain ⟨new, vs, rfl, rfl, hd⟩ := derives_of_readDeclarations hdecl
        obtain ⟨closer, hc, rfl⟩ := readKind_eq_ok_iff.1 hclose
        exact ⟨opener, vs, closer, ho, hd, hc, rfl⟩

theorem derives_of_readRule {r : Rule} {ts rest : List Token} (h : readRule ts = .ok (r, rest)) :
    ∃ us, ts = us ++ rest ∧ DerivesRule r us := by
  unfold readRule at h
  split at h
  · cases h
  · rename_i hsel
    split at h
    · cases h
    · rename_i hblock
      cases h
      obtain ⟨us, rfl, hs⟩ := derives_of_readSelectors hsel
      obtain ⟨opener, vs, closer, ho, hd, hc, rfl⟩ := derives_of_readBlock hblock
      exact ⟨us ++ opener :: (vs ++ [closer]), by simp, .mk hs ho hd hc⟩

theorem derives_of_readWholeRule {r : Rule} {us : List Token} (h : readWholeRule us = .ok r) :
    DerivesRule r us := by
  unfold readWholeRule at h
  split at h
  · cases h
  · rename_i hrule
    cases h
    obtain ⟨us, rfl, hd⟩ := derives_of_readRule hrule
    rwa [List.append_nil]
  · cases h

theorem DerivesRule.begins {r : Rule} {us : List Token} (h : DerivesRule r us) :
    ∃ tok vs, us = tok :: vs ∧ tok.kind.beginsCompound := by
  cases h with
  | mk hs _ _ _ =>
    cases hs with
    | mk hs _ =>
      cases hs with
      | mk hh _ =>
        obtain ⟨tok, vs, rfl, hb⟩ := hh.begins
        exact ⟨tok, _, rfl, hb⟩

theorem ofTokens_eq_ok_iff {r : Rule} {us : List Token} :
    Rule.ofTokens us = .ok r ↔ DerivesRule r us := by
  constructor
  · intro h
    cases us with
    | nil => cases h
    | cons tok us =>
      simp only [Rule.ofTokens] at h
      split at h
      · cases h
      · cases hread : readWholeRule (tok :: us) with
        | error e => rw [hread] at h; cases h
        | ok r' =>
          rw [hread] at h
          cases h
          exact derives_of_readWholeRule hread
  · intro h
    have hread := readWholeRule_of_derives h
    obtain ⟨tok, us, rfl, hb⟩ := h.begins
    have hk : tok.kind ≠ .atKeyword := by
      intro hk
      rw [hk] at hb
      cases hb
    rw [Rule.ofTokens, if_neg hk, hread]
    rfl

theorem firstStray?_eq_none {offset : Nat} {ls : List Lexeme} :
    firstStray? offset ls = none ↔ ∃ us : List Token, ls = us.map .token := by
  induction ls generalizing offset with
  | nil => exact ⟨fun _ => ⟨[], rfl⟩, fun _ => rfl⟩
  | cons l ls ih =>
    cases l with
    | token t =>
      rw [firstStray?, ih]
      constructor
      · rintro ⟨us, rfl⟩
        exact ⟨t :: us, rfl⟩
      · rintro ⟨us, hus⟩
        cases us with
        | nil => cases hus
        | cons u us =>
          cases hus
          exact ⟨us, rfl⟩
    | stray gap text =>
      constructor
      · intro h
        cases h
      · rintro ⟨us, hus⟩
        cases us <;> cases hus

theorem tokens_of_lexemes {t : Text} {us : List Token} (h : lexemes t = us.map .token) :
    tokens t = us := by
  rw [tokens, h, List.filterMap_map]
  exact List.filterMap_some

theorem parse_eq_ok_iff {r : Rule} {t : Text} :
    Rule.parse t = .ok r ↔
      ∃ us : List Token, lexemes (stripComments t) = us.map .token ∧ DerivesRule r us := by
  constructor
  · intro h
    simp only [Rule.parse] at h
    split at h
    · cases h
    · rename_i hnone
      obtain ⟨us, hus⟩ := firstStray?_eq_none.1 hnone
      rw [tokens_of_lexemes hus] at h
      exact ⟨us, hus, ofTokens_eq_ok_iff.1 h⟩
  · rintro ⟨us, hus, hd⟩
    have hnone : firstStray? 0 (lexemes (stripComments t)) = none :=
      firstStray?_eq_none.2 ⟨us, hus⟩
    simp only [Rule.parse, hnone, tokens_of_lexemes hus]
    exact ofTokens_eq_ok_iff.2 hd

end ScopedStyle
