import ScopedStyle.Proofs.Text.Trim

/-!
# Words

A blank parts the words in front of it from those behind it; everything else
about words follows from that.
-/

namespace ScopedStyle.Text

theorem words_trimLeft (t : Text) : words (trimLeft t) = words t := by
  have hdrop : (trimLeft t).dropWhile isBlank = t.dropWhile isBlank := trimLeft_idem t
  rw [words, words, hdrop]

theorem words_blank_append {a : Text} (h : Blank a) (t : Text) : words (a ++ t) = words t := by
  rw [← words_trimLeft, trimLeft_blank_append h, words_trimLeft]

theorem words_blank {a : Text} (h : Blank a) : words a = [] := by
  rw [← List.append_nil a, words_blank_append h]
  rw [words]
  rfl

theorem words_eq_nil_iff {t : Text} : words t = [] ↔ Blank t := by
  refine ⟨fun h => ?_, words_blank⟩
  rw [words] at h
  split at h
  · rename_i hdrop
    exact List.dropWhile_eq_nil_iff.1 hdrop
  · cases h

theorem words_word {w rest : Text} (hne : w ≠ []) (hw : ∀ c ∈ w, isBlank c = false)
    (hr : ∀ c ∈ rest.head?, isBlank c) : words (w ++ rest) = w :: words rest := by
  obtain ⟨c, w, rfl⟩ := List.exists_cons_of_ne_nil hne
  have hfront : (c :: w ++ rest).dropWhile isBlank = c :: (w ++ rest) := by
    rw [List.cons_append, List.dropWhile_cons_of_neg]
    simp [hw c List.mem_cons_self]
  have hrest : rest.takeWhile (!isBlank ·) = [] ∧ rest.dropWhile (!isBlank ·) = rest := by
    cases rest with
    | nil => exact ⟨rfl, rfl⟩
    | cons d rest => simp [hr d rfl]
  have hletters : ∀ d ∈ w, (!isBlank d) = true := by
    intro d hd
    simp [hw d (List.mem_cons_of_mem c hd)]
  rw [words]
  split
  · rename_i he
    rw [hfront] at he
    cases he
  · rename_i d more he
    rw [hfront] at he
    cases he
    rw [List.takeWhile_append_of_pos hletters, List.dropWhile_append_of_pos hletters, hrest.1,
      hrest.2, List.append_nil]

theorem words_append (s : Text) {c : Char} (hc : isBlank c) (t : Text) :
    words (s ++ c :: t) = words s ++ words t := by
  have hfront : words (c :: t) = words t :=
    words_blank_append (a := [c]) (by simpa [Blank] using hc) t
  -- by the first word of `s`
  induction hn : s.length using Nat.strongRecOn generalizing s with
  | ind n ih =>
    obtain ⟨a, ha, hs⟩ := exists_trimLeft s
    rw [hs, List.append_assoc, words_blank_append ha, words_blank_append ha]
    cases hl : trimLeft s with
    | nil =>
      rw [words_blank blank_nil]
      exact hfront
    | cons d more =>
      have hd : isBlank d = false := by
        have hhead := List.head?_dropWhile_not isBlank s
        rw [← trimLeft, hl] at hhead
        simpa using hhead
      have hletters : ∀ e ∈ d :: more.takeWhile (!isBlank ·), isBlank e = false := by
        intro e he
        rcases List.mem_cons.1 he with rfl | he
        · exact hd
        · simpa using List.mem_takeWhile_imp he
      have hsplit : d :: more =
          d :: more.takeWhile (!isBlank ·) ++ more.dropWhile (!isBlank ·) := by
        rw [List.cons_append, List.takeWhile_append_dropWhile]
      have hrest : ∀ e ∈ (more.dropWhile (!isBlank ·)).head?, isBlank e := by
        intro e he
        have hhead := List.head?_dropWhile_not (!isBlank ·) more
        rw [he] at hhead
        simpa using hhead
      have hshort : (more.dropWhile (!isBlank ·)).length < n := by
        have h₁ := length_dropWhile_le (!isBlank ·) more
        have h₂ := length_dropWhile_le isBlank s
        rw [← trimLeft, hl, List.length_cons] at h₂
        omega
      rw [hsplit, List.append_assoc, words_word (List.cons_ne_nil _ _) hletters,
        words_word (List.cons_ne_nil _ _) hletters hrest, ih _ hshort _ rfl, List.cons_append]
      · intro e he
        cases hm : more.dropWhile (!isBlank ·) with
        | nil =>
          rw [hm] at he
          cases he
          exact hc
        | cons f after =>
          rw [hm] at he
          exact hrest e (by rw [hm]; exact he)

theorem words_single {w : Text} (hne : w ≠ []) (hw : ∀ c ∈ w, isBlank c = false) :
    words w = [w] := by
  have h : words (w ++ []) = w :: words [] := words_word hne hw (by simp)
  rwa [List.append_nil, words_blank blank_nil] at h

theorem words_append_blank {b : Text} (h : Blank b) (t : Text) : words (t ++ b) = words t := by
  cases b with
  | nil => rw [List.append_nil]
  | cons c b =>
    have hb : Blank b := fun d hd => h d (List.mem_cons_of_mem c hd)
    rw [words_append t (h c List.mem_cons_self), words_blank hb, List.append_nil]

theorem words_trim (t : Text) : words (trim t) = words t := by
  obtain ⟨a, b, ha, hb, ht⟩ := exists_trim t
  conv => rhs; rw [ht, words_append_blank hb, words_blank_append ha]

end ScopedStyle.Text
