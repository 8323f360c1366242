import ScopedStyle.Proofs.Document.Sheets
import ScopedStyle.SheetWriter

/-!
# The store of sheets

Sheets are numbered in the order of their making and stay in the store when the
node that carries them goes. An edit changes no sheet but the one that it puts a
rule into, and a batch goes to the end of its sheet.
-/

namespace ScopedStyle

def accepted (text : Text) : Bool := (Rule.parse text).isOk

namespace Document
variable {d : Document} {id : SheetId}

theorem sheets_insertChild (d : Document) (p : NodeId) (node : Node) :
    (d.insertChild p node).1.sheets = d.sheets := (sameNodes_insertChild p node).sheets

theorem sheets_attachSheet (d : Document) :
    d.attachSheet.1.sheets = d.sheets ++ [RuleList.empty] := by
  have hcarrier : d.withCarrier.sheets = d.sheets ++ [RuleList.empty] := sheets_insertChild _ _ _
  rcases attachSheet_eq (d := d) with he | he
  · rw [he, hcarrier]
  · rw [he]
    exact hcarrier

theorem attachSheet_eq_ok {d' : Document} (h : d.attachSheet = (d', .ok id)) :
    id = ⟨d.sheets.length⟩ ∧ d'.sheets = d.sheets ++ [RuleList.empty] := by
  refine ⟨?_, ?_⟩
  · unfold attachSheet at h
    dsimp only at h
    split at h
    · cases h
    · cases h
      rfl
  · rw [← sheets_attachSheet, h]

theorem sheets_remove (d : Document) (n : NodeId) : (d.remove n).1.sheets = d.sheets := by
  unfold remove
  split
  · rfl
  · exact (clear_without n (d.detach n) [n] none).sheets.trans (sameNodes_detach n).sheets

inductive Stores (d : Document) : Edit → List RuleList → Prop
  | same {e : Edit} : Stores d e d.sheets
  | attached : Stores d .attachSheet (d.sheets ++ [RuleList.empty])
  | filled (id : SheetId) (text : Text) (index : Nat) (rules : RuleList) :
      Stores d (.insertRule id text index) (d.sheets.set id.index rules)

theorem edit_stores (d : Document) (e : Edit) : d.Stores e (d.edit e).sheets := by
  have same {f : Document} (h : f.sheets = d.sheets) : d.Stores e f.sheets := h ▸ .same
  cases e with
  | insert node => exact .same
  | createText text => exact .same
  | insertChild parent node => exact same (sheets_insertChild d parent node)
  | append parent n => exact same (sameNodes_append d parent n).sheets
  | mount n => exact same (sameNodes_append d body n).sheets
  | createElement tag attributes children =>
    exact same (sameNodes_createElement tag attributes children).sheets
  | attachSheet => exact (sheets_attachSheet d).symm ▸ .attached
  | insertRule id text index => exact .filled id text index _
  | remove n => exact same (sheets_remove d n)

theorem length_sheets_edit (d : Document) (e : Edit) :
    d.sheets.length ≤ (d.edit e).sheets.length := by
  have h := d.edit_stores e
  generalize (d.edit e).sheets = sheets at h
  cases h with
  | same => exact Nat.le_refl _
  | attached => simp
  | filled id text index rules => simp

theorem sheet_edit {e : Edit} (he : ∀ text index, e ≠ .insertRule id text index) :
    (d.edit e).sheet id = d.sheet id := by
  have h := d.edit_stores e
  unfold sheet
  generalize (d.edit e).sheets = sheets at h
  cases h with
  | same => rfl
  | attached =>
    rw [List.getElem?_append]
    split
    · rfl
    · rename_i hlen
      rw [List.getElem?_eq_none (Nat.not_lt.1 hlen), List.getElem?_singleton]
      split
      · rfl
      · rfl
  | filled other text index rules =>
    have hne : other.index ≠ id.index := fun hi =>
      he text index (congrArg (Edit.insertRule · text index) (congrArg SheetId.mk hi))
    rw [List.getElem?_set_ne hne]

end Document

theorem RuleList.offer_size (l : RuleList) (text : Text) :
    (l.offer text l.size).2.isOk = accepted text ∧
      (l.offer text l.size).1.texts = l.texts ++ [text].filter accepted := by
  rw [offer, if_neg (Nat.lt_irrefl _)]
  split
  · rename_i e he
    have hrefused : accepted text = false := by
      rw [accepted, he]
      rfl
    rw [hrefused, List.filter_singleton, hrefused]
    exact ⟨rfl, (List.append_nil _).symm⟩
  · rename_i rule hrule
    have haccepted : accepted text = true := by
      rw [accepted, hrule]
      rfl
    rw [haccepted, List.filter_singleton, haccepted]
    refine ⟨rfl, ?_⟩
    simp [texts, size]

namespace SheetWriter
variable {d : Document} {id : SheetId}

theorem writeRules_cons (d : Document) (id : SheetId) (text : Text) (rest : List Text) :
    (writeRules d id (text :: rest)).1 =
      (writeRules (d.insertRule id text (d.sheet id).size).1 id rest).1 := by
  rw [writeRules]
  split
  · rename_i d' answer he
    rw [he]
  · rename_i d' e he
    rw [he]

theorem writeRules_texts (h : id.index < d.sheets.length) (rules : List Text) :
    (writeRules d id rules).1.sheets.length = d.sheets.length ∧
      ((writeRules d id rules).1.sheet id).texts = (d.sheet id).texts ++ rules.filter accepted := by
  induction rules generalizing d with
  | nil => simp [writeRules]
  | cons text rest ih =>
    have hlen : (d.insertRule id text (d.sheet id).size).1.sheets.length = d.sheets.length :=
      List.length_set
    have htexts : ((d.insertRule id text (d.sheet id).size).1.sheet id).texts =
        (d.sheet id).texts ++ [text].filter accepted := by
      rw [← (RuleList.offer_size (d.sheet id) text).2, Document.insertRule, Document.sheet]
      simp [h]
    obtain ⟨ihlen, ihtexts⟩ := ih (d := (d.insertRule id text (d.sheet id).size).1) (hlen ▸ h)
    rw [writeRules_cons]
    refine ⟨ihlen.trans hlen, ihtexts.trans ?_⟩
    rw [htexts, List.append_assoc, ← List.filter_append, List.singleton_append]

end SheetWriter
end ScopedStyle
