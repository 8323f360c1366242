import ScopedStyle.Component
import ScopedStyle.Proofs.Document.ClassRule
import ScopedStyle.Proofs.Document.Sheets
import ScopedStyle.Proofs.Engine.Call
import ScopedStyle.Proofs.Scope
import ScopedStyle.Proofs.Text.Words

/-!
# From a template to computed values

A component whose style text is a row of declarations is rendered with a fresh
engine into a fresh document. The engine writes one rule for a class of its own,
the element gets that class behind those of the caller, and what the cascade
computes for the element is what the declarations say.
-/

namespace ScopedStyle
open Text

theorem words_mergeClasses {generated : Text} (hne : generated ≠ [])
    (hg : ∀ c ∈ generated, isBlank c = false) (caller : Option Text) :
    words (mergeClasses caller generated) = words (caller.getD []) ++ [generated] := by
  have hnil : words [] = [] := words_blank blank_nil
  have hsingle := words_single hne hg
  cases caller with
  | none => rw [mergeClasses, Option.map_none, Option.getD_none, hnil, hsingle, List.nil_append]
  | some names =>
    have htrim := words_trim names
    simp only [mergeClasses, Option.map_some, Option.getD_some]
    split
    · rename_i he
      cases he
    · rename_i he
      rw [← htrim, Option.some.inj he, hnil, hsingle, List.nil_append]
    · rename_i he
      rw [← htrim, Option.some.inj he, words_append _ (by decide), words_single hne hg]

namespace Document

def withSheet : Document := start.attachSheet.1

theorem attachSheet_start : start.attachSheet = (withSheet, .ok ⟨0⟩) := by decide

def withRule (text : Text) (rule : Rule) : Document :=
  { withSheet with sheets := [⟨[⟨text, rule⟩]⟩] }

end Document

theorem SheetWriter.write_start {text : Text} {rule : Rule} (h : Rule.parse text = .ok rule) :
    SheetWriter.start.write Document.start [text] =
      ⟨⟨some ⟨0⟩, [text]⟩, Document.withRule text rule, [], .ok (.written 1 0)⟩ := by
  have hinsert : Document.withSheet.insertRule ⟨0⟩ text (Document.withSheet.sheet ⟨0⟩).size =
      (Document.withRule text rule, .ok 0) := by
    have hempty : Document.withSheet.sheet ⟨0⟩ = RuleList.empty := rfl
    have hlist : RuleList.empty.offer text RuleList.empty.size = (⟨[⟨text, rule⟩]⟩, .ok 0) := by
      simp [RuleList.offer, h, RuleList.empty, RuleList.size]
    rw [Document.insertRule, hempty, hlist]
    rfl
  have hrules : writeRules Document.withSheet ⟨0⟩ [text] =
      (Document.withRule text rule, 1, []) := by
    rw [writeRules, hinsert]
    rfl
  have hin : SheetWriter.start.sheetIn Document.start = (Document.withSheet, .ok ⟨0⟩) :=
    Document.attachSheet_start
  rw [write, if_neg (by simp [hasWritten, start]), if_neg (by simp), hin]
  dsimp only
  rw [hrules]
  simp [remember, start, batchText]

theorem Engine.classFor_start {config : EngineConfig} (hroom : config.firstId < ClassSupply.limit)
    {style text : Text} {rule : Rule}
    (hbatch : (start config).nextBatch style = [text]) (hread : Rule.parse text = .ok rule) :
    ((start config).classFor Document.start style).document = Document.withRule text rule ∧
      ((start config).classFor Document.start style).answer = .ok (start config).nextClass := by
  have hnew : (start config).table.lookup? style = none := rfl
  have htake : (start config).supply.take = .ok ((start config).nextClass,
      (start config).supply.past) := ClassSupply.take_of_lt hroom
  have hwrite : (start config).writer.write Document.start
      (flatten style (classSelector (start config).nextClass)) = _ :=
    (congrArg _ hbatch).trans (SheetWriter.write_start hread)
  rw [classFor, hnew, htake]
  dsimp only
  rw [hwrite]
  exact ⟨rfl, rfl⟩

namespace Document

theorem computed?_insert_withRule (text : Text) {name : Text} {ds : List Declaration} {node : Node}
    (htext : node.text = none) (hclass : node.hasClass name) (q : Text) :
    ((withRule text (classRule name ds)).insert node).1.computed?
        ⟨(withRule text (classRule name ds)).nodes.length⟩ q = .ok (lastDeclared ds q) := by
  have hrules : ((withRule text (classRule name ds)).insert node).1.attachedRules =
      [classRule name ds] := rfl
  have hnode : ((withRule text (classRule name ds)).insert node).1.node?
      ⟨(withRule text (classRule name ds)).nodes.length⟩ = some node := by
    rw [node?_insert, if_pos rfl]
  exact computed?_classRule hrules (selects_class hnode htext hclass) q

end Document

namespace Component
variable {c : Component} {config : EngineConfig} {props : Props NodeId} {ds : List Declaration}

def element (c : Component) (props : Props NodeId) (generated : Text) : Node :=
  (attributes props generated).foldl (fun n entry => n.setAttribute entry.1 entry.2)
    (Node.element c.tag)

theorem text_element (c : Component) (props : Props NodeId) (generated : Text) :
    (c.element props generated).text = none :=
  congrArg Node.text (Node.setAttributes_eq (attributes props generated) (Node.element c.tag))

theorem classes_element (c : Component) (props : Props NodeId) {generated : Text}
    (hne : generated ≠ []) (hg : ∀ d ∈ generated, isBlank d = false) :
    (c.element props generated).classes =
      words (props.callerClass.getD []) ++ [generated] := by
  have hlast (n : Node) (value : Text) :
      (n.setAttribute Props.classKey value).classes = words value :=
    (Node.classes_setAttribute n Props.classKey value).trans (if_pos rfl)
  rw [element, attributes, List.foldl_append, ← words_mergeClasses hne hg]
  exact hlast _ _

theorem render_ok {e : Engine} {d : Document} {style generated : Text}
    (hstyle : c.template.evaluate props = .ok style)
    (hanswer : (e.classFor d style).answer = .ok generated) :
    let found := e.classFor d style
    let made := found.document.createElement c.tag (attributes props generated) props.children
    c.render e d props = ⟨found.owner, made.1, found.warnings, made.2.mapError .document⟩ := by
  intro found made
  rw [render, className, hstyle]
  dsimp only
  rw [hanswer]
  rfl

theorem render_of_slot {failure : SlotError} (h : c.template.evaluate props = .error failure)
    (e : Engine) (d : Document) :
    c.render e d props = ⟨e, d, [], .error (.slot failure)⟩ := by
  rw [render, className, h]

theorem render_childless (hchildren : props.children = []) {style text : Text} {rule : Rule}
    (hstyle : c.template.evaluate props = .ok style) {generated : Text}
    (hfor : ((Engine.start config).classFor Document.start style).answer = .ok generated)
    (hdoc : ((Engine.start config).classFor Document.start style).document =
      Document.withRule text rule) :
    (c.render (Engine.start config) Document.start props).document =
        ((Document.withRule text rule).insert (c.element props generated)).1 ∧
      (c.render (Engine.start config) Document.start props).answer =
        .ok ⟨(Document.withRule text rule).nodes.length⟩ := by
  rw [render_ok hstyle hfor]
  dsimp only
  rw [hdoc, hchildren]
  exact ⟨rfl, rfl⟩

theorem evaluate_ofText (t : Text) : (Template.ofText t).evaluate props = .ok t := by
  simp [Template.ofText, Template.empty, Template.addText, Template.evaluate, Template.evaluateFrom]

/-- What is computed for the element of a component is what its style text declares last. -/
theorem render_computes (hstem : IsIdent config.classStem)
    (hroom : config.firstId < ClassSupply.limit) (hne : ds ≠ []) (hplain : ∀ d ∈ ds, d.Plain)
    (hstyle : c.template.evaluate props = .ok (declarationLines ds))
    (hchildren : props.children = []) :
    ∃ n, (c.render (Engine.start config) Document.start props).answer = .ok n ∧
      ∀ q, (c.render (Engine.start config) Document.start props).document.computed? n q =
        .ok (lastDeclared ds q) := by
  have hname : IsIdent (Engine.start config).nextClass := isIdent_className hstem config.firstId
  have hletters : ∀ d ∈ (Engine.start config).nextClass, isBlank d = false :=
    fun d hd => not_blank_of_nameChar (hname.nameChars d hd)
  have hbatch : (Engine.start config).nextBatch (declarationLines ds) = _ :=
    flatten_declarationLines hplain hne (Engine.start config).nextClass
  have hread := parse_classRule hname hplain
  obtain ⟨hwritten, hfor⟩ := Engine.classFor_start hroom hbatch hread
  obtain ⟨hdoc, hanswer⟩ := render_childless hchildren hstyle hfor hwritten
  have hclass : (c.element props (Engine.start config).nextClass).hasClass
      (Engine.start config).nextClass := by
    rw [Node.hasClass, classes_element c props hname.ne_nil hletters]
    simp
  refine ⟨_, hanswer, fun q => ?_⟩
  rw [hdoc]
  exact Document.computed?_insert_withRule _ (text_element c props _) hclass q

def cardDeclarations : List Declaration :=
  [⟨"color".toList, "red".toList, true⟩, ⟨"width".toList, "min(1px; 2px)".toList, false⟩,
    ⟨"color".toList, "blue".toList, false⟩]

theorem plain_cardDeclarations : ∀ d ∈ cardDeclarations, d.Plain := by
  have hplain {p v : Text} {important : Bool} (ts : List Token) (hp : IsWord isNameStart p)
      (hlex : lexemes (v ++ [';']) = (ts ++ [semicolonToken]).map .token) (hts : Balanced 0 ts)
      (hv : v ≠ [] ∧ trim v = v ∧ '/' ∉ v ∧ '\n' ∉ v ∧ '{' ∉ v ∧ '}' ∉ v) :
      (Declaration.mk p v important).Plain := by
    obtain ⟨hne, htrim, hslash, hbreak, hopen, hclose⟩ := hv
    exact ⟨⟨[], p, rfl, .inl rfl, hp⟩, ⟨hne, htrim, ts, semicolonToken, hlex, rfl, hts⟩,
      clean_of_not_mem hslash, hbreak, hopen, hclose⟩
  have hcolor : IsWord isNameStart "color".toList :=
    ⟨'c', "olor".toList, rfl, rfl, List.all_eq_true.1 rfl⟩
  have hwidth : IsWord isNameStart "width".toList :=
    ⟨'w', "idth".toList, rfl, rfl, List.all_eq_true.1 rfl⟩
  refine List.forall_mem_cons.2 ⟨?_, List.forall_mem_cons.2 ⟨?_, List.forall_mem_singleton.2 ?_⟩⟩
  · exact hplain [⟨.ident, "red".toList, []⟩] hcolor (by decide +kernel) (by decide)
      (by decide +kernel)
  · exact hplain [⟨.ident, "min".toList, []⟩, ⟨.parenOpen, ['('], []⟩,
      ⟨.dimension, "1px".toList, []⟩, semicolonToken, ⟨.dimension, "2px".toList, [' ']⟩,
      ⟨.parenClose, [')'], []⟩] hwidth (by decide +kernel) (by decide) (by decide +kernel)
  · exact hplain [⟨.ident, "blue".toList, []⟩] hcolor (by decide +kernel) (by decide)
      (by decide +kernel)

def plainCard : Outcome Engine (Except RenderError NodeId) :=
  (Component.mk "DIV".toList (.ofText
      "color: red !important;\nwidth: min(1px; 2px);\ncolor: blue;".toList)).render
    (Engine.start ⟨"-x".toList, 7, true⟩) Document.start (Props.empty.withClass " card ".toList)

theorem render_computes_card :
    ∃ n, plainCard.answer = .ok n ∧
      plainCard.document.computed? n "color".toList = .ok (some "red".toList) ∧
      plainCard.document.computed? n "width".toList = .ok (some "min(1px; 2px)".toList) ∧
      plainCard.document.computed? n "height".toList = .ok none := by
  have hlines : "color: red !important;\nwidth: min(1px; 2px);\ncolor: blue;".toList =
      declarationLines cardDeclarations := by decide
  have hstem : IsIdent (EngineConfig.mk "-x".toList 7 true).classStem :=
    ⟨['-'], ['x'], rfl, .inr (.inl rfl), 'x', [], rfl, rfl, by simp⟩
  have htext : (Template.ofText (declarationLines cardDeclarations)).evaluate
      (Props.empty.withClass " card ".toList : Props NodeId) = _ := evaluate_ofText _
  obtain ⟨n, hanswer, hvalue⟩ :=
    render_computes (c := ⟨"DIV".toList, .ofText (declarationLines cardDeclarations)⟩) hstem
      (by decide) (by decide) plain_cardDeclarations htext rfl
  rw [← hlines] at hanswer hvalue
  refine ⟨n, hanswer, ?_, ?_, ?_⟩
  · exact (hvalue _).trans (congrArg _ (by decide))
  · exact (hvalue _).trans (congrArg _ (by decide))
  · exact (hvalue _).trans (congrArg _ (by decide))

end Component
end ScopedStyle
