import Mathlib.Data.List.Induction

/-!
# Matching braces

Two braces match if the first opens, the second closes, and all braces between them match
among each other. A scan with a stack is left with exactly the braces that match no other:
the closing ones that it met with an empty stack, and the open ones that the stack still holds.
-/

namespace ScopedStyle

structure Brace where
  line : Nat
  opens : Bool
  deriving DecidableEq

inductive Nested : List Brace → Prop
  | nil : Nested []
  | block {o c : Brace} {inner rest : List Brace} : o.opens = true → c.opens = false →
      Nested inner → Nested rest → Nested (o :: (inner ++ c :: rest))

theorem Nested.append {a b : List Brace} (ha : Nested a) (hb : Nested b) : Nested (a ++ b) := by
  induction ha with
  | nil => exact hb
  | @block o c inner rest ho hc hinner hrest _ ih =>
    rw [List.cons_append, List.append_assoc, List.cons_append]
    exact .block ho hc hinner ih

/-- What has found no partner yet, the innermost of the open braces first. -/
structure Unmatched where
  closes : List Brace
  opens : List Brace
  deriving DecidableEq

def Unmatched.meet (u : Unmatched) (b : Brace) : Unmatched :=
  match b.opens, u.opens with
  | true, opens => ⟨u.closes, b :: opens⟩
  | false, _ :: outer => ⟨u.closes, outer⟩
  | false, [] => ⟨u.closes ++ [b], []⟩

def unmatched (bs : List Brace) : Unmatched := bs.foldl Unmatched.meet ⟨[], []⟩

section Scan

variable {bs front behind os : List Brace} {o : Brace}

theorem meet_cases (u : Unmatched) (b : Brace) :
    (b.opens = true ∧ u.meet b = ⟨u.closes, b :: u.opens⟩) ∨
    (b.opens = false ∧ ∃ o os, u.opens = o :: os ∧ u.meet b = ⟨u.closes, os⟩) ∨
    (b.opens = false ∧ u.opens = [] ∧ u.meet b = ⟨u.closes ++ [b], []⟩) := by
  obtain ⟨closes, opens⟩ := u
  cases hb : b.opens with
  | true => exact .inl ⟨rfl, by rw [Unmatched.meet, hb]⟩
  | false =>
    cases opens with
    | nil => exact .inr (.inr ⟨rfl, rfl, by rw [Unmatched.meet, hb]⟩)
    | cons o os => exact .inr (.inl ⟨rfl, o, os, rfl, by rw [Unmatched.meet, hb]⟩)

theorem unmatched_concat (bs : List Brace) (b : Brace) :
    unmatched (bs ++ [b]) = (unmatched bs).meet b := List.foldl_append

theorem Nested.foldl_meet (h : Nested bs) (u : Unmatched) : bs.foldl Unmatched.meet u = u := by
  induction h generalizing u with
  | nil => rfl
  | @block o c inner rest ho hc _ _ ihInner ihRest =>
    have hopen : u.meet o = ⟨u.closes, o :: u.opens⟩ := by rw [Unmatched.meet, ho]
    have hclose : Unmatched.meet ⟨u.closes, o :: u.opens⟩ c = u := by rw [Unmatched.meet, hc]
    rw [List.foldl_cons, List.foldl_append, ihInner, List.foldl_cons, hopen, hclose, ihRest]

theorem exists_opener (h : (unmatched bs).opens = o :: os) :
    ∃ outer inner, bs = outer ++ o :: inner ∧ o.opens = true ∧ Nested inner ∧
      (unmatched outer).closes = (unmatched bs).closes ∧ (unmatched outer).opens = os := by
  induction hn : bs.length using Nat.strongRecOn generalizing bs o os with
  | ind n ih =>
    rcases List.eq_nil_or_concat bs with rfl | ⟨init, b, rfl⟩
    · cases h
    · rw [List.concat_eq_append] at h hn ⊢
      rw [List.length_append, List.length_singleton] at hn
      rw [unmatched_concat] at h ⊢
      rcases meet_cases (unmatched init) b with ⟨hb, hmeet⟩ | ⟨hb, p, ps, hp, hmeet⟩ | ⟨-, -, hmeet⟩
      · rw [hmeet] at h ⊢
        obtain ⟨rfl, rfl⟩ := List.cons.inj h
        exact ⟨init, [], rfl, hb, .nil, rfl, rfl⟩
      · -- the brace closes `p`, so `o` is the innermost one in front of `p`
        rw [hmeet] at h ⊢
        obtain ⟨front, inner, rfl, hopens, hinner, hcloses, hfront⟩ := ih _ (by omega) hp rfl
        have hshorter : front.length < n := by
          rw [List.length_append] at hn
          omega
        obtain ⟨outer, before, rfl, ho, hbefore, houter, hos⟩ :=
          ih _ hshorter (hfront.trans h) rfl
        exact ⟨outer, before ++ p :: (inner ++ [b]), by simp, ho,
          hbefore.append (.block hopens hb hinner .nil), houter.trans hcloses, hos⟩
      · rw [hmeet] at h
        cases h

theorem nested_of_unmatched (hcloses : (unmatched bs).closes = [])
    (hopens : (unmatched bs).opens = []) : Nested bs := by
  induction hn : bs.length using Nat.strongRecOn generalizing bs with
  | ind n ih =>
    rcases List.eq_nil_or_concat bs with rfl | ⟨init, b, rfl⟩
    · exact .nil
    · rw [List.concat_eq_append] at hcloses hopens hn ⊢
      rw [unmatched_concat] at hcloses hopens
      rcases meet_cases (unmatched init) b with ⟨-, hmeet⟩ | ⟨hb, o, os, ho, hmeet⟩ | ⟨-, -, hmeet⟩
      · rw [hmeet] at hopens
        cases hopens
      · rw [hmeet] at hcloses hopens
        obtain ⟨outer, inner, rfl, hopen, hinner, houter, hos⟩ := exists_opener ho
        have hshorter : outer.length < n := by
          simp only [List.length_append, List.length_cons] at hn
          omega
        rw [List.append_assoc, List.cons_append]
        exact (ih _ hshorter (houter.trans hcloses) (hos.trans hopens) rfl).append
          (.block hopen hb hinner .nil)
      · rw [hmeet] at hcloses
        exact absurd hcloses (by simp)

theorem nested_iff : Nested bs ↔ (unmatched bs).closes = [] ∧ (unmatched bs).opens = [] := by
  refine ⟨fun h => ?_, fun h => nested_of_unmatched h.1 h.2⟩
  rw [unmatched, h.foldl_meet]
  exact ⟨rfl, rfl⟩

instance : DecidablePred Nested := fun _ => decidable_of_iff _ nested_iff.symm

def HasOpener (front : List Brace) : Prop :=
  ∃ outer o inner, front = outer ++ o :: inner ∧ o.opens = true ∧ Nested inner

def HasCloser (behind : List Brace) : Prop :=
  ∃ inner c outer, behind = inner ++ c :: outer ∧ c.opens = false ∧ Nested inner

theorem not_hasOpener_iff : ¬HasOpener front ↔ (unmatched front).opens = [] := by
  refine ⟨fun h => ?_, ?_⟩
  · by_contra hopens
    obtain ⟨o, os, hos⟩ := List.exists_cons_of_ne_nil hopens
    obtain ⟨outer, inner, hfront, ho, hinner, -⟩ := exists_opener hos
    exact h ⟨outer, o, inner, hfront, ho, hinner⟩
  · rintro h ⟨outer, o, inner, rfl, ho, hinner⟩
    rw [unmatched, List.foldl_append, List.foldl_cons, hinner.foldl_meet, Unmatched.meet, ho] at h
    cases h

theorem closes_meet (u : Unmatched) (b : Brace) : u.closes <+: (u.meet b).closes := by
  rcases meet_cases u b with ⟨-, hmeet⟩ | ⟨-, _, _, -, hmeet⟩ | ⟨-, -, hmeet⟩
  · exact ⟨[], by rw [hmeet, List.append_nil]⟩
  · exact ⟨[], by rw [hmeet, List.append_nil]⟩
  · exact ⟨[b], by rw [hmeet]⟩

theorem closes_foldl (bs : List Brace) (u : Unmatched) :
    u.closes <+: (bs.foldl Unmatched.meet u).closes := by
  induction bs generalizing u with
  | nil => exact List.prefix_rfl
  | cons b bs ih => exact (closes_meet u b).trans (ih (u.meet b))

theorem not_hasCloser_iff : ¬HasCloser behind ↔ (unmatched behind).closes = [] := by
  refine ⟨fun h => ?_, ?_⟩
  · induction behind using List.reverseRecOn with
    | nil => rfl
    | append_singleton init b ih =>
      have hinit : ¬HasCloser init := by
        rintro ⟨inner, c, outer, rfl, hc, hinner⟩
        exact h ⟨inner, c, outer ++ [b], by simp, hc, hinner⟩
      rw [unmatched_concat]
      rcases meet_cases (unmatched init) b with ⟨-, hmeet⟩ | ⟨-, _, _, -, hmeet⟩ | ⟨hb, hopens, -⟩
      · rw [hmeet, ih hinit]
      · rw [hmeet, ih hinit]
      · exact absurd ⟨init, b, [], rfl, hb, nested_of_unmatched (ih hinit) hopens⟩ h
  · rintro h ⟨inner, c, outer, rfl, hc, hinner⟩
    have hprefix := closes_foldl outer ⟨[c], []⟩
    rw [unmatched, List.foldl_append, List.foldl_cons, hinner.foldl_meet, Unmatched.meet, hc] at h
    rw [List.nil_append] at h
    rw [h] at hprefix
    exact List.cons_ne_nil c [] (List.prefix_nil.1 hprefix)

end Scan

def between (bs : List Brace) (i j : Nat) : List Brace := (bs.take j).drop (i + 1)

def Matches (bs : List Brace) (i j : Nat) : Prop :=
  i < j ∧ (bs[i]?.any fun o => o.opens) ∧ (bs[j]?.any fun c => !c.opens) ∧
    Nested (between bs i j)

instance (bs : List Brace) (i j : Nat) : Decidable (Matches bs i j) :=
  inferInstanceAs (Decidable (_ ∧ _ ∧ _ ∧ _))

def ClosesNone (bs : List Brace) (e : Brace × Nat) : Prop :=
  e.1.opens = false ∧ ∀ i < e.2, ¬Matches bs i e.2

def ClosedByNone (bs : List Brace) (e : Brace × Nat) : Prop :=
  e.1.opens = true ∧ ∀ j < bs.length, ¬Matches bs e.2 j

instance (bs : List Brace) : DecidablePred (ClosesNone bs) :=
  fun _ => inferInstanceAs (Decidable (_ ∧ _))

instance (bs : List Brace) : DecidablePred (ClosedByNone bs) :=
  fun _ => inferInstanceAs (Decidable (_ ∧ _))

def unopened (bs : List Brace) : List Brace := (bs.zipIdx.filter (ClosesNone bs ·)).map Prod.fst

def unclosed (bs : List Brace) : List Brace := (bs.zipIdx.filter (ClosedByNone bs ·)).map Prod.fst

section Partners

variable {bs : List Brace} {b : Brace} {i j k l : Nat}

theorem unopened_sublist (bs : List Brace) : (unopened bs).Sublist bs := by
  have hplaces : (unopened bs).Sublist (bs.zipIdx.map Prod.fst) := List.filter_sublist.map _
  rwa [List.zipIdx_map_fst] at hplaces

theorem unclosed_sublist (bs : List Brace) : (unclosed bs).Sublist bs := by
  have hplaces : (unclosed bs).Sublist (bs.zipIdx.map Prod.fst) := List.filter_sublist.map _
  rwa [List.zipIdx_map_fst] at hplaces

theorem split_at {p : Brace → Bool} (h : bs[i]?.any p) :
    ∃ b, bs = bs.take i ++ b :: bs.drop (i + 1) ∧ p b := by
  obtain ⟨b, hb, hp⟩ := (Option.any_eq_true _ _).1 h
  obtain ⟨hi, rfl⟩ := List.getElem?_eq_some_iff.1 hb
  exact ⟨bs[i], by rw [← List.drop_eq_getElem_cons hi, List.take_append_drop], hp⟩

theorem hasOpener_iff :
    HasOpener bs ↔ ∃ i < bs.length, (bs[i]?.any fun o => o.opens) ∧ Nested (bs.drop (i + 1)) := by
  constructor
  · rintro ⟨outer, o, inner, rfl, ho, hinner⟩
    exact ⟨outer.length, by simp, by simp [ho], by simpa using hinner⟩
  · rintro ⟨i, -, hopen, hinner⟩
    obtain ⟨o, hsplit, ho⟩ := split_at hopen
    exact ⟨_, o, _, hsplit, ho, hinner⟩

theorem hasCloser_iff :
    HasCloser bs ↔ ∃ j < bs.length, (bs[j]?.any fun c => !c.opens) ∧ Nested (bs.take j) := by
  constructor
  · rintro ⟨inner, c, outer, rfl, hc, hinner⟩
    exact ⟨inner.length, by simp, by simp [hc], by simpa using hinner⟩
  · rintro ⟨j, -, hclose, hinner⟩
    obtain ⟨c, hsplit, hc⟩ := split_at hclose
    exact ⟨_, c, _, hsplit, by simpa using hc, hinner⟩

theorem matches_concat (hj : j < bs.length) : Matches (bs ++ [b]) i j ↔ Matches bs i j := by
  rw [Matches, Matches, between, List.take_append_of_le_length (Nat.le_of_lt hj),
    List.getElem?_append_left hj, ← between]
  refine and_congr_right fun hi => ?_
  rw [List.getElem?_append_left (Nat.lt_trans hi hj)]

theorem matches_last (hb : b.opens = false) (hi : i < bs.length) :
    Matches (bs ++ [b]) i bs.length ↔
      (bs[i]?.any fun o => o.opens) ∧ Nested (bs.drop (i + 1)) := by
  rw [Matches, List.getElem?_append_left hi, between, List.take_left,
    List.getElem?_concat_length]
  simp [hi, hb]

theorem matches_cons : Matches (b :: bs) (i + 1) (j + 1) ↔ Matches bs i j := by
  simp [Matches, between]

theorem matches_first (hb : b.opens = true) :
    Matches (b :: bs) 0 (j + 1) ↔ (bs[j]?.any fun c => !c.opens) ∧ Nested (bs.take j) := by
  simp [Matches, between, hb]

theorem closesNone_concat {e : Brace × Nat} (h : e.2 < bs.length) :
    ClosesNone (bs ++ [b]) e ↔ ClosesNone bs e := by
  simp only [ClosesNone, matches_concat h]

theorem closesNone_last :
    ClosesNone (bs ++ [b]) (b, bs.length) ↔ b.opens = false ∧ (unmatched bs).opens = [] := by
  refine and_congr_right fun hb => ?_
  rw [← not_hasOpener_iff, hasOpener_iff]
  push Not
  refine forall₂_congr fun i hi => ?_
  rw [matches_last hb hi, not_and]

theorem closedByNone_cons {c : Brace} :
    ClosedByNone (b :: bs) (c, i + 1) ↔ ClosedByNone bs (c, i) := by
  refine and_congr_right fun _ => ⟨fun h j hj hm => ?_, fun h j hj hm => ?_⟩
  · exact h (j + 1) (Nat.succ_lt_succ hj) (matches_cons.2 hm)
  · cases j with
    | zero => exact Nat.not_lt_zero _ hm.1
    | succ j => exact h j (Nat.lt_of_succ_lt_succ hj) (matches_cons.1 hm)

theorem closedByNone_first :
    ClosedByNone (b :: bs) (b, 0) ↔ b.opens = true ∧ (unmatched bs).closes = [] := by
  refine and_congr_right fun hb => ?_
  rw [← not_hasCloser_iff, hasCloser_iff]
  constructor
  · rintro h ⟨j, hj, hclose⟩
    exact h (j + 1) (Nat.succ_lt_succ hj) ((matches_first hb).2 hclose)
  · intro h j hj hm
    cases j with
    | zero => exact Nat.lt_irrefl _ hm.1
    | succ j => exact h ⟨j, Nat.lt_of_succ_lt_succ hj, (matches_first hb).1 hm⟩

theorem unopened_concat (bs : List Brace) (b : Brace) :
    unopened (bs ++ [b]) =
      unopened bs ++ if b.opens = false ∧ (unmatched bs).opens = [] then [b] else [] := by
  have hinit : bs.zipIdx.filter (ClosesNone (bs ++ [b]) ·) =
      bs.zipIdx.filter (ClosesNone bs ·) := by
    refine List.filter_congr fun e he => ?_
    have hplace : e.2 < bs.length := by simpa using (List.mem_zipIdx he).2.1
    exact decide_eq_decide.2 (closesNone_concat hplace)
  rw [unopened, List.zipIdx_append, List.filter_append, hinit, List.map_append, Nat.zero_add,
    List.zipIdx_singleton, List.filter_cons, List.filter_nil, unopened]
  simp only [decide_eq_true_eq, closesNone_last]
  split
  · rfl
  · rfl

theorem unclosed_cons (b : Brace) (bs : List Brace) :
    unclosed (b :: bs) =
      (if b.opens = true ∧ (unmatched bs).closes = [] then [b] else []) ++ unclosed bs := by
  have hrest : (bs.zipIdx 1).filter (ClosedByNone (b :: bs) ·) =
      (bs.zipIdx.filter (ClosedByNone bs ·)).map fun e => (e.1, e.2 + 1) := by
    rw [List.zipIdx_succ, List.filter_map]
    refine congrArg _ (List.filter_congr fun e _ => ?_)
    exact decide_eq_decide.2 closedByNone_cons
  rw [unclosed, List.zipIdx_cons, List.filter_cons, hrest, unclosed]
  simp only [decide_eq_true_eq, closedByNone_first]
  split
  · simp
  · simp

theorem unopened_eq (bs : List Brace) : unopened bs = (unmatched bs).closes := by
  induction bs using List.reverseRecOn with
  | nil => rfl
  | append_singleton bs b ih =>
    rw [unopened_concat, unmatched_concat, ih]
    rcases meet_cases (unmatched bs) b with ⟨hb, hmeet⟩ | ⟨-, o, os, ho, hmeet⟩ | ⟨hb, ho, hmeet⟩
    · rw [hmeet, if_neg (by simp [hb]), List.append_nil]
    · rw [hmeet, if_neg (by simp [ho]), List.append_nil]
    · rw [hmeet, if_pos ⟨hb, ho⟩]

/-- Behind open braces the scan does what it does alone, and the closing braces that it then has no
partner for close them. -/
theorem foldl_meet (bs : List Brace) (u : Unmatched) :
    bs.foldl Unmatched.meet u =
      ⟨u.closes ++ (unmatched bs).closes.drop u.opens.length,
        (unmatched bs).opens ++ u.opens.drop (unmatched bs).closes.length⟩ := by
  -- from the end, since `unmatched` of all but the last brace is what the last one meets
  induction bs using List.reverseRecOn with
  | nil => simp [unmatched]
  | append_singleton bs b ih =>
    rw [List.foldl_append, ih, unmatched_concat, List.foldl_cons, List.foldl_nil]
    rcases meet_cases (unmatched bs) b with ⟨hb, hmeet⟩ | ⟨hb, o, os, ho, hmeet⟩ | ⟨hb, ho, hmeet⟩
    · rw [hmeet, Unmatched.meet, hb]
      rfl
    · rw [hmeet, ho, Unmatched.meet, hb]
      rfl
    · rw [hmeet, ho, List.nil_append, List.nil_append, List.length_append, List.length_singleton]
      cases hleft : u.opens.drop (unmatched bs).closes.length with
      | nil =>
        have hle := List.drop_eq_nil_iff.1 hleft
        rw [Unmatched.meet, hb, List.drop_append_of_le_length hle, List.append_assoc,
          List.drop_eq_nil_iff.2 (Nat.le_succ_of_le hle)]
      | cons o os =>
        have hlt : (unmatched bs).closes.length < u.opens.length := by
          by_contra hle
          rw [List.drop_eq_nil_iff.2 (Nat.not_lt.1 hle)] at hleft
          cases hleft
        have hall : ((unmatched bs).closes ++ [b]).drop u.opens.length = [] := by
          rw [List.drop_eq_nil_iff, List.length_append]
          exact hlt
        rw [Unmatched.meet, hb, hall, List.drop_eq_nil_iff.2 (Nat.le_of_lt hlt), ← List.drop_drop,
          hleft]
        rfl

theorem unclosed_eq (bs : List Brace) : unclosed bs = (unmatched bs).opens.reverse := by
  induction bs with
  | nil => rfl
  | cons b bs ih =>
    have hrun : unmatched (b :: bs) = bs.foldl Unmatched.meet (Unmatched.meet ⟨[], []⟩ b) := rfl
    rw [unclosed_cons, ih, hrun, foldl_meet, List.reverse_append]
    cases hb : b.opens with
    | true =>
      rw [Unmatched.meet, hb]
      cases (unmatched bs).closes with
      | nil => simp
      | cons c cs => simp
    | false =>
      rw [Unmatched.meet, hb]
      simp

theorem unclosed_eq_nil_iff :
    unclosed bs = [] ↔ ∀ i, (bs[i]?.any fun o => o.opens) → ∃ j < bs.length, Matches bs i j := by
  rw [unclosed, List.map_eq_nil_iff, List.filter_eq_nil_iff]
  constructor
  · intro h i hopen
    obtain ⟨o, ho, hopens⟩ := (Option.any_eq_true _ _).1 hopen
    by_contra hnone
    refine h (o, i) (List.mk_mem_zipIdx_iff_getElem?.2 ho) (decide_eq_true ⟨hopens, ?_⟩)
    exact fun j hj hm => hnone ⟨j, hj, hm⟩
  · rintro h ⟨o, i⟩ hmem hnone
    obtain ⟨hopens, hnone⟩ := of_decide_eq_true hnone
    rw [List.mk_mem_zipIdx_iff_getElem?] at hmem
    obtain ⟨j, hj, hm⟩ := h i (by rw [hmem]; exact hopens)
    exact hnone j hj hm

theorem length_between (hj : j < bs.length) : (between bs i j).length = j - (i + 1) := by
  rw [between, List.length_drop, List.length_take, Nat.min_eq_left (Nat.le_of_lt hj)]

theorem getElem?_between (h : i + 1 + k < j) : (between bs i j)[k]? = bs[i + 1 + k]? := by
  rw [between, List.getElem?_drop, List.getElem?_take_of_lt h]

theorem take_between (h : i + 1 + k < j) : (between bs i j).take k = between bs i (i + 1 + k) := by
  rw [between, List.take_drop, List.take_take, Nat.min_eq_left (Nat.le_of_lt h), between]

theorem between_between (h : i + 1 + l < j) :
    between (between bs i j) k l = between bs (i + 1 + k) (i + 1 + l) := by
  rw [between, take_between h, between, List.drop_drop, between, Nat.add_assoc (i + 1) k 1]

theorem matches_between (h : i + 1 + l < j) :
    Matches (between bs i j) k l ↔ Matches bs (i + 1 + k) (i + 1 + l) := by
  rw [Matches, Matches, between_between h, getElem?_between h, Nat.add_lt_add_iff_left]
  refine and_congr_right fun hk => ?_
  rw [getElem?_between (by omega)]

theorem closes_between (hopen : bs[i]?.any fun o => o.opens) (hj : j < bs.length) :
    (unmatched (between bs i j)).closes = [] ↔ ∀ l < j, ¬Matches bs i l := by
  rw [← not_hasCloser_iff, hasCloser_iff, length_between hj]
  constructor
  · rintro h l hl ⟨hil, -, hclose, hinner⟩
    obtain ⟨d, rfl⟩ := Nat.exists_eq_add_of_le hil
    exact h ⟨d, by omega, by rwa [getElem?_between hl], by rwa [take_between hl]⟩
  · rintro h ⟨d, hd, hclose, hinner⟩
    have hl : i + 1 + d < j := by omega
    rw [getElem?_between hl] at hclose
    rw [take_between hl] at hinner
    exact h (i + 1 + d) hl ⟨by omega, hopen, hclose, hinner⟩

theorem opens_between (hj : j < bs.length) :
    (unmatched (between bs i j)).opens = [] ↔
      ∀ k < j, i < k → (bs[k]?.any fun o => o.opens) → ∃ l < j, Matches bs k l := by
  rw [← List.reverse_eq_nil_iff, ← unclosed_eq, unclosed_eq_nil_iff, length_between hj]
  constructor
  · intro h k hk hik hopen
    obtain ⟨d, rfl⟩ := Nat.exists_eq_add_of_le hik
    obtain ⟨l, hl, hm⟩ := h d (by rwa [getElem?_between hk])
    exact ⟨i + 1 + l, by omega, (matches_between (by omega)).1 hm⟩
  · intro h d hopen
    obtain ⟨o, ho, -⟩ := (Option.any_eq_true _ _).1 hopen
    obtain ⟨hd, -⟩ := List.getElem?_eq_some_iff.1 ho
    rw [length_between hj] at hd
    have hk : i + 1 + d < j := by omega
    rw [getElem?_between hk] at hopen
    obtain ⟨l, hl, hm⟩ := h (i + 1 + d) hk (by omega) hopen
    have hil : i + 1 ≤ l := Nat.le_of_lt (Nat.lt_of_le_of_lt (Nat.le_add_right _ d) hm.1)
    obtain ⟨e, rfl⟩ := Nat.exists_eq_add_of_le hil
    exact ⟨e, by omega, (matches_between hl).2 hm⟩

/-- A closing brace matches the nearest open brace in front that no brace between them closes. -/
theorem matches_iff_nearest :
    Matches bs i j ↔ i < j ∧ (bs[i]?.any fun o => o.opens) ∧ (bs[j]?.any fun c => !c.opens) ∧
      (∀ l < j, ¬Matches bs i l) ∧
      ∀ k < j, i < k → (bs[k]?.any fun o => o.opens) → ∃ l < j, Matches bs k l := by
  refine and_congr_right fun _ => and_congr_right fun hopen => and_congr_right fun hclose => ?_
  obtain ⟨c, hc, -⟩ := (Option.any_eq_true _ _).1 hclose
  obtain ⟨hj, -⟩ := List.getElem?_eq_some_iff.1 hc
  rw [nested_iff, closes_between hopen hj, opens_between hj]

end Partners
end ScopedStyle
