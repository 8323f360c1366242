import ScopedStyle.Proofs.Document.Reachable
import ScopedStyle.Proofs.Engine.Call

/-!
# Classes tell style texts apart

A run is a list of calls, each on a document of its own, some of which may fault
on the way. What a run answers stays in the table, and the numbers of the classes
in the table lie below the next one. So no two texts ever get the same class, and
no number is handed out twice, not even one whose call faulted.
-/

namespace ScopedStyle.Engine
open Text

variable {e f g : Engine} {d : Document} {style name : Text}

structure Extends (f e : Engine) : Prop where
  stem : f.supply.stem = e.supply.stem
  next : e.supply.next ≤ f.supply.next
  known : ∀ style name, e.table.lookup? style = some name → f.table.lookup? style = some name

theorem Extends.refl (e : Engine) : e.Extends e := ⟨rfl, Nat.le_refl _, fun _ _ h => h⟩

theorem Extends.trans (hg : g.Extends f) (hf : f.Extends e) : g.Extends e :=
  ⟨hg.stem.trans hf.stem, Nat.le_trans hf.next hg.next,
    fun style name h => hg.known style name (hf.known style name h)⟩

theorem lookup?_record_of_some {t : ClassTable} {other found : Text} (h : t.lookup? style = none)
    (ho : t.lookup? other = some found) : (t.record style name).lookup? other = some found := by
  have hne : style ≠ other := by
    intro he
    rw [he, ho] at h
    cases h
  rw [ClassTable.lookup?_record h, if_neg hne, ho]

theorem classFor_extends (e : Engine) (d : Document) (style : Text) :
    (e.classFor d style).owner.Extends e := by
  have hcall := e.classFor_answers d style
  generalize e.classFor d style = out at hcall
  cases hcall with
  | known h => exact .refl e
  | exhausted h hfull => exact .refl e
  | unwritten h hroom hw ha => exact ⟨rfl, Nat.le_succ _, fun _ _ hk => hk⟩
  | returned h hroom hw ha =>
    exact ⟨rfl, Nat.le_succ _, fun _ _ hk => lookup?_record_of_some h hk⟩

theorem known_of_answer (h : (e.classFor d style).answer = .ok name) :
    (e.classFor d style).owner.table.lookup? style = some name := by
  have hcall := e.classFor_answers d style
  generalize e.classFor d style = out at hcall h
  cases hcall with
  | known hk =>
    cases h
    exact hk
  | exhausted hk hfull => cases h
  | unwritten hk hroom hw ha => cases h
  | returned hk hroom hw ha =>
    cases h
    rw [ClassTable.lookup?_record hk, if_pos rfl]

/-- Every known text has a class of its own, with a number that was handed out. -/
structure Numbered (e : Engine) : Prop where
  below : ∀ style name, e.table.lookup? style = some name →
    ∃ n < e.supply.next, name = ClassSupply.className e.supply.stem n
  injective : ∀ s t name, e.table.lookup? s = some name → e.table.lookup? t = some name → s = t

theorem numbered_start (config : EngineConfig) : (start config).Numbered := by
  constructor
  · intro style name h
    cases h
  · intro s t name h
    cases h

theorem Numbered.nextClass_new (h : e.Numbered) : e.table.lookup? style ≠ some e.nextClass := by
  intro hk
  obtain ⟨n, hlt, hn⟩ := h.below style _ hk
  have he := ClassSupply.className_injective e.supply.stem hn
  omega

theorem Numbered.record (h : e.Numbered) (hnew : e.table.lookup? style = none)
    (writer : SheetWriter) :
    Numbered { e with
      supply := e.supply.past
      writer := writer
      table := e.table.record style e.nextClass } := by
  have hlookup := fun other => ClassTable.lookup?_record hnew e.nextClass other
  refine ⟨fun other name hk => ?_, fun s t name hs ht => ?_⟩
  · rw [hlookup] at hk
    split at hk
    · cases hk
      exact ⟨e.supply.next, Nat.lt_succ_self _, rfl⟩
    · obtain ⟨n, hlt, hn⟩ := h.below other name hk
      exact ⟨n, Nat.lt_succ_of_lt hlt, hn⟩
  · rw [hlookup] at hs ht
    split at hs
    · rename_i hes
      cases hs
      split at ht
      · rename_i het
        exact hes.symm.trans het
      · exact absurd ht h.nextClass_new
    · split at ht
      · cases ht
        exact absurd hs h.nextClass_new
      · exact h.injective s t name hs ht

theorem Numbered.classFor (h : e.Numbered) (d : Document) (style : Text) :
    (e.classFor d style).owner.Numbered := by
  have hcall := e.classFor_answers d style
  generalize e.classFor d style = out at hcall
  cases hcall with
  | known hk => exact h
  | exhausted hk hfull => exact h
  | unwritten hk hroom hw ha =>
    refine ⟨fun other name hk => ?_, h.injective⟩
    obtain ⟨n, hlt, hn⟩ := h.below other name hk
    exact ⟨n, Nat.lt_succ_of_lt hlt, hn⟩
  | returned hk hroom hw ha => exact h.record hk _

structure Visit where
  engine : Engine
  document : Document
  style : Text

namespace Visit

def outcome (v : Visit) : Outcome Engine (Except Fault Text) := v.engine.classFor v.document v.style

def number? (v : Visit) : Option Nat :=
  if v.outcome.owner.supply.next = v.engine.supply.next then none else some v.engine.supply.next

theorem lt_of_number? {v : Visit} {n : Nat} (h : v.number? = some n) :
    v.engine.supply.next = n ∧ n < v.outcome.owner.supply.next := by
  have hle := (v.engine.classFor_extends v.document v.style).next
  unfold number? at h
  split at h
  · cases h
  · rename_i hne
    cases h
    exact ⟨rfl, Nat.lt_of_le_of_ne hle fun he => hne he.symm⟩

end Visit

/-- The calls of a run. Documents come from outside: the same one may come again as it was left, or
changed by others, or another one. -/
def visits (e : Engine) : List (Document × Text) → List Visit
  | [] => []
  | (d, style) :: calls => ⟨e, d, style⟩ :: (e.classFor d style).owner.visits calls

def settle (e : Engine) : List (Document × Text) → Engine
  | [] => e
  | (d, style) :: calls => (e.classFor d style).owner.settle calls

theorem settle_extends (e : Engine) (calls : List (Document × Text)) :
    (e.settle calls).Extends e := by
  induction calls generalizing e with
  | nil => exact .refl e
  | cons call calls ih => exact (ih _).trans (e.classFor_extends call.1 call.2)

theorem Numbered.settle (h : e.Numbered) (calls : List (Document × Text)) :
    (e.settle calls).Numbered := by
  induction calls generalizing e with
  | nil => exact h
  | cons call calls ih => exact ih (h.classFor call.1 call.2)

theorem visits_extends {calls : List (Document × Text)} {v : Visit} (hv : v ∈ e.visits calls) :
    v.engine.Extends e := by
  induction calls generalizing e with
  | nil => cases hv
  | cons call calls ih =>
    rcases List.mem_cons.1 hv with rfl | hv
    · exact .refl e
    · exact (ih hv).trans (e.classFor_extends call.1 call.2)

theorem known_of_visit {calls : List (Document × Text)} {v : Visit} (hv : v ∈ e.visits calls)
    (h : v.outcome.answer = .ok name) : (e.settle calls).table.lookup? v.style = some name := by
  induction calls generalizing e with
  | nil => cases hv
  | cons call calls ih =>
    rcases List.mem_cons.1 hv with rfl | hv
    · exact (settle_extends _ calls).known _ _ (known_of_answer h)
    · exact ih hv

theorem numbers_increase (e : Engine) (calls : List (Document × Text)) :
    ((e.visits calls).filterMap Visit.number?).Pairwise (· < ·) := by
  induction calls generalizing e with
  | nil => exact .nil
  | cons call calls ih =>
    rw [visits, List.filterMap_cons]
    split
    · exact ih _
    · rename_i n hn
      refine List.pairwise_cons.2 ⟨fun m hm => ?_, ih _⟩
      obtain ⟨v, hv, hvm⟩ := List.mem_filterMap.1 hm
      have hlater := (visits_extends hv).next
      have hfirst : n < (e.classFor call.1 call.2).owner.supply.next :=
        (Visit.lt_of_number? hn).2
      have hm' := (Visit.lt_of_number? hvm).1
      omega

theorem visit_known {v : Visit} (h : v.engine.table.lookup? v.style = some name) :
    v.outcome = ⟨v.engine, v.document, [], .ok name⟩ := by
  have hcall := v.engine.classFor_answers v.document v.style
  unfold Visit.outcome
  generalize v.engine.classFor v.document v.style = out at hcall
  cases hcall with
  | known hk =>
    rw [h] at hk
    cases hk
    rfl
  | exhausted hk _ => rw [h] at hk; cases hk
  | unwritten hk _ _ _ => rw [h] at hk; cases hk
  | returned hk _ _ _ => rw [h] at hk; cases hk

theorem visit_exhausted {v : Visit} (h : v.engine.table.lookup? v.style = none)
    (hfull : ClassSupply.limit ≤ v.engine.supply.next) :
    v.outcome = ⟨v.engine, v.document, [], .error .overflow⟩ := by
  have hcall := v.engine.classFor_answers v.document v.style
  unfold Visit.outcome
  generalize v.engine.classFor v.document v.style = out at hcall
  cases hcall with
  | known hk => rw [h] at hk; cases hk
  | exhausted _ _ => rfl
  | unwritten _ hroom _ _ => omega
  | returned _ hroom _ _ => omega

theorem visit_new {v : Visit} (h : v.engine.table.lookup? v.style = none)
    (hroom : v.engine.supply.next < ClassSupply.limit) :
    v.number? = some v.engine.supply.next ∧
      ∀ name, v.outcome.answer = .ok name → name = v.engine.nextClass := by
  have hcall := v.engine.classFor_answers v.document v.style
  unfold Visit.number? Visit.outcome
  generalize v.engine.classFor v.document v.style = out at hcall
  cases hcall with
  | known hk => rw [h] at hk; cases hk
  | exhausted _ hfull => omega
  | unwritten _ _ _ _ => exact ⟨if_neg (Nat.succ_ne_self _), fun _ ha => by cases ha⟩
  | returned _ _ _ _ =>
    refine ⟨if_neg (Nat.succ_ne_self _), fun _ ha => ?_⟩
    cases ha
    rfl

/-- In every run, faults included, two calls that return give the same class exactly for the same
text; a known text changes nothing; each new text takes a number, larger than all before it, as long
as there is one, and else faults and changes nothing. -/
theorem classes_identify_styles (config : EngineConfig) (calls : List (Document × Text)) :
    (∀ v ∈ (start config).visits calls, ∀ w ∈ (start config).visits calls, ∀ a b,
        v.outcome.answer = .ok a → w.outcome.answer = .ok b → (a = b ↔ v.style = w.style)) ∧
      ((start config).visits calls |>.filterMap Visit.number?).Pairwise (· < ·) ∧
      ∀ v ∈ (start config).visits calls,
        (∀ name, v.engine.table.lookup? v.style = some name →
          v.outcome = ⟨v.engine, v.document, [], .ok name⟩) ∧
        (v.engine.table.lookup? v.style = none → v.engine.supply.next < ClassSupply.limit →
          v.number? = some v.engine.supply.next ∧
            ∀ name, v.outcome.answer = .ok name →
              name = ClassSupply.className config.classStem v.engine.supply.next) ∧
        (v.engine.table.lookup? v.style = none → ClassSupply.limit ≤ v.engine.supply.next →
          v.outcome = ⟨v.engine, v.document, [], .error .overflow⟩) := by
  have hend := (numbered_start config).settle calls
  refine ⟨fun v hv w hw a b ha hb => ?_, numbers_increase _ calls, fun v hv => ?_⟩
  · have hva := known_of_visit hv ha
    have hwb := known_of_visit hw hb
    constructor
    · rintro rfl
      exact hend.injective _ _ _ hva hwb
    · intro hs
      rw [hs, hwb] at hva
      exact (Option.some.inj hva).symm
  · have hstem : v.engine.supply.stem = config.classStem := (visits_extends hv).stem
    refine ⟨fun name h => visit_known h, fun h hroom => ?_, fun h hfull => visit_exhausted h hfull⟩
    rw [← hstem]
    exact visit_new h hroom

def headless : Document :=
  { nodes := [some (Node.element "html".toList), none, some (Node.element "body".toList), none]
    childLists := [(Document.root, [Document.body]), (Document.body, [])]
    parents := [(Document.body, Document.root)]
    sheets := []
    attached := [] }

theorem reachable_headless : Document.Reachable headless := by
  have hrun : Document.start.editAll
      [.insert (Node.element "div".toList), .append ⟨3⟩ Document.head, .remove ⟨3⟩] = headless := by
    decide +kernel
  rw [← hrun]
  exact Document.Reachable.start.editAll _

def lastNumbers : List (Document × Text) :=
  [(headless, "a: 1;".toList), (Document.start, "b: 2;".toList), (headless, "b: 2;".toList),
    (Document.start, "a: 1;".toList)]

theorem classes_identify_styles_lastNumbers :
    let visits := (start ⟨['s'], ClassSupply.limit - 2, false⟩).visits lastNumbers
    Document.Reachable headless ∧ visits.map (fun v => (v.number?, v.outcome.answer)) =
        [(some (ClassSupply.limit - 2), .error .missingParent),
          (some (ClassSupply.limit - 1), .ok "s-18446744073709551614".toList),
          (none, .ok "s-18446744073709551614".toList), (none, .error .overflow)] ∧
      (visits.filterMap Visit.number?).Pairwise (· < ·) ∧
      ∀ v ∈ visits, ∀ w ∈ visits, ∀ a b,
        v.outcome.answer = .ok a → w.outcome.answer = .ok b → (a = b ↔ v.style = w.style) := by
  have h := classes_identify_styles ⟨['s'], ClassSupply.limit - 2, false⟩ lastNumbers
  exact ⟨reachable_headless, by decide +kernel, h.2.1, h.1⟩

end ScopedStyle.Engine
