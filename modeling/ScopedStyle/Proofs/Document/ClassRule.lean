import ScopedStyle.Proofs.Document.Cascade
import ScopedStyle.Proofs.Nested.Declarations

/-!
# The cascade of one class rule

Where the only attached rule is one for a class, its declarations weigh on a node
with the class by their importance and then by their place. So the last
important declaration of a property wins, and if there is none, the last one.
-/

namespace ScopedStyle

theorem find?_reverse_eq_some {α : Type} {p : α → Bool} {l : List α} {a : α}
    (h : l.reverse.find? p = some a) :
    ∃ i : Nat, l[i]? = some a ∧ p a ∧ ∀ (j : Nat) b, l[j]? = some b → p b → j ≤ i := by
  obtain ⟨hp, later, earlier, hsplit, hlater⟩ := List.find?_eq_some_iff_append.1 h
  have hl : l = earlier.reverse ++ a :: later.reverse := by
    rw [← List.reverse_reverse l, hsplit]
    simp
  refine ⟨earlier.length, by simp [hl], hp, fun j b hj hb => ?_⟩
  by_contra hlt
  rw [hl, List.getElem?_append_right (by simp; omega), List.length_reverse] at hj
  obtain ⟨k, hk⟩ : ∃ k, j - earlier.length = k + 1 := ⟨j - earlier.length - 1, by omega⟩
  rw [hk, List.getElem?_cons_succ] at hj
  have hno := hlater b (List.mem_reverse.1 (List.mem_of_getElem? hj))
  simp [hb] at hno

/-- The value of the last important declaration of a property, or else of the last one. -/
def lastDeclared (ds : List Declaration) (p : Text) : Option Text :=
  ((ds.reverse.find? fun d => d.property = p && d.important).or
    (ds.reverse.find? fun d => d.property = p)).map Declaration.value

variable {ds : List Declaration} {p v : Text}

theorem lastDeclared_eq_none (h : lastDeclared ds p = none) : ∀ d ∈ ds, d.property ≠ p := by
  rw [lastDeclared, Option.map_eq_none_iff, Option.or_eq_none_iff] at h
  intro d hd
  simpa using List.find?_eq_none.1 h.2 d (List.mem_reverse.2 hd)

theorem lastDeclared_eq_some (h : lastDeclared ds p = some v) :
    ∃ (i : Nat) (d : Declaration), ds[i]? = some d ∧ d.property = p ∧ d.value = v ∧
      ∀ (j : Nat) (e : Declaration), ds[j]? = some e → e.property = p → j ≠ i →
        e.important < d.important ∨ e.important = d.important ∧ j < i := by
  rw [lastDeclared, Option.map_eq_some_iff] at h
  obtain ⟨d, hd, rfl⟩ := h
  rcases Option.or_eq_some_iff.1 hd with hd | ⟨hnone, hd⟩
  · obtain ⟨i, hi, hp, hlast⟩ := find?_reverse_eq_some hd
    rw [Bool.and_eq_true, decide_eq_true_eq] at hp
    refine ⟨i, d, hi, hp.1, rfl, fun j e hj he hne => ?_⟩
    cases hm : e.important with
    | false => exact .inl (by rw [hp.2]; decide)
    | true =>
      have hle := hlast j e hj (by simp [he, hm])
      exact .inr ⟨hp.2.symm, by omega⟩
  · obtain ⟨i, hi, hp, hlast⟩ := find?_reverse_eq_some hd
    have hplain (e : Declaration) (he : e ∈ ds) (hep : e.property = p) : e.important = false := by
      have hno := List.find?_eq_none.1 hnone e (List.mem_reverse.2 he)
      simpa [hep] using hno
    rw [decide_eq_true_eq] at hp
    refine ⟨i, d, hi, hp, rfl, fun j e hj he hne => .inr ⟨?_, ?_⟩⟩
    · rw [hplain e (List.mem_of_getElem? hj) he, hplain d (List.mem_of_getElem? hi) hp]
    · have hle := hlast j e hj (by simp [he])
      omega

namespace Document
variable {d : Document} {n : NodeId} {name : Text}

theorem selects_class {node : Node} (hnode : d.node? n = some node) (htext : node.text = none)
    (hclass : node.hasClass name) : d.selects ⟨.untagged (.hasClass name) [], []⟩ n := by
  simp [selects, Selector.leftward, satisfies, hnode, Compound.holds, Node.isText, htext,
    Test.holds, hclass, matchesLeft]

section
variable (hrules : d.attachedRules = [classRule name ds])
  (hsel : d.selects ⟨.untagged (.hasClass name) [], []⟩ n)
include hrules hsel

theorem contends_classRule_iff {c : Candidate} :
    d.Contends n c ↔ ∃ (i : Nat) (decl : Declaration), ds[i]? = some decl ∧
      c = ⟨⟨decl.important, 0, 1, 0, 0⟩, i, decl⟩ := by
  have hweight : (Selector.mk (.untagged (.hasClass name) []) []).weight = [0, 1, 0] := rfl
  have hmost : d.MostSpecific n (classRule name ds) [0, 1, 0] := by
    refine ⟨⟨_, List.mem_singleton_self _, hsel, hweight⟩, fun s hs _ => ?_⟩
    rw [List.mem_singleton.1 hs, hweight]
  constructor
  · rintro ⟨r, hr, hoffer, himportant, hdecl⟩
    obtain ⟨⟨important, ids, classes, types, order⟩, i, decl⟩ := c
    rw [hrules, List.getElem?_singleton] at hr
    split at hr
    · rename_i horder
      cases hr
      cases hoffer.unique hmost
      obtain rfl : important = decl.important := himportant
      obtain rfl : order = 0 := horder
      exact ⟨i, decl, hdecl, rfl⟩
    · cases hr
  · rintro ⟨i, decl, hi, rfl⟩
    exact ⟨classRule name ds, by rw [hrules]; rfl, hmost, rfl, hi⟩

theorem wins_classRule (h : lastDeclared ds p = some v) :
    ∃ c, d.Wins n p c ∧ c.declaration.value = v := by
  obtain ⟨i, decl, hi, hp, hv, hbeats⟩ := lastDeclared_eq_some h
  have hcontends := (contends_classRule_iff hrules hsel).2 ⟨i, decl, hi, rfl⟩
  refine ⟨⟨⟨decl.important, 0, 1, 0, 0⟩, i, decl⟩, ⟨hcontends, hp, fun c hc hcp hne => ?_⟩, hv⟩
  obtain ⟨j, e, hj, rfl⟩ := (contends_classRule_iff hrules hsel).1 hc
  have hji : j ≠ i := by
    rintro rfl
    rw [hj] at hi
    cases hi
    exact hne rfl
  -- all between the importance and the place is the same
  rw [Candidate.weight_lt_weight_iff, Specificity.key_lt_key_iff]
  rcases hbeats j e hj hcp hji with hlt | ⟨heq, hlt⟩
  · exact .inl (.inl hlt)
  · exact .inr ⟨by rw [heq], hlt⟩

theorem computed?_classRule (p : Text) : d.computed? n p = .ok (lastDeclared ds p) := by
  have hcounts : ∀ r ∈ d.attachedRules, ∀ s ∈ r.selectors, d.selects s n → s.Countable := by
    intro r hr s hs _
    rw [hrules] at hr
    obtain rfl := List.mem_singleton.1 hr
    obtain rfl := List.mem_singleton.1 hs
    exact ⟨Nat.zero_le _, Nat.le_of_ble_eq_true rfl, Nat.zero_le _⟩
  have hone : d.attachedRules.length < Nat.pow 2 32 := by
    rw [hrules]
    exact Nat.one_lt_two_pow (by decide)
  obtain ⟨cs, hcs, hmem⟩ := candidatesFrom_attached hcounts hone
  have hvalue : (resolve cs).get? p = lastDeclared ds p := by
    cases hlast : lastDeclared ds p with
    | none =>
      refine Option.eq_none_iff_forall_ne_some.2 fun v hv => ?_
      obtain ⟨c, ⟨hc, hp, -⟩, -⟩ := (get?_resolve_iff hmem).1 hv
      obtain ⟨i, decl, hi, rfl⟩ := (contends_classRule_iff hrules hsel).1 hc
      exact lastDeclared_eq_none hlast decl (List.mem_of_getElem? hi) hp
    | some v => exact (get?_resolve_iff hmem).2 (wins_classRule hrules hsel hlast)
  rw [computed?, declared, hcs]
  exact congrArg Except.ok hvalue

end

end Document
end ScopedStyle
