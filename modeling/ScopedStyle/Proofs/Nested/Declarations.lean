import ScopedStyle.Proofs.Nested.Layout
import ScopedStyle.Proofs.Rule.Printed
import ScopedStyle.Engine

/-!
# Declarations on lines of their own

A style text that is nothing but declarations, one on each line, has one flat
rule. Under a class the rule is the canonical text of a rule for the class
with these declarations, and is read as that.
-/

namespace ScopedStyle
open Text

/-- A declaration whose canonical text is a line that is read as a declaration. -/
structure Declaration.Plain (d : Declaration) : Prop where
  property : IsIdent d.property
  value : IsValue d.value
  clean : Clean d.value
  unbroken : '\n' ∉ d.value
  no_open : '{' ∉ d.value
  no_close : '}' ∉ d.value

def declarationLines (ds : List Declaration) : Text :=
  List.intercalate ['\n'] (ds.map Declaration.render)

def classRule (name : Text) (ds : List Declaration) : Rule :=
  ⟨[⟨.untagged (.hasClass name) [], []⟩], ds⟩

namespace Declaration.Plain
variable {d : Declaration}

theorem property_free (h : d.Plain) {c : Char} (hc : isNameChar c = false) : c ∉ d.property := by
  intro hm
  rw [h.property.nameChars c hm] at hc
  cases hc

theorem render_free (h : d.Plain) {c : Char} (hc : isNameChar c = false) (hv : c ∉ d.value)
    (hs : c ∉ ':' :: ' ' :: ';' :: importantSuffix) : c ∉ d.render := by
  simp only [List.mem_cons, not_or] at hs
  obtain ⟨hcolon, hspace, hsemicolon, hmark⟩ := hs
  have hsuffix : c ∉ if d.important then importantSuffix else [] := by
    split
    · exact hmark
    · exact List.not_mem_nil
  simp only [render, List.mem_append, List.mem_cons, List.not_mem_nil, or_false, not_or]
  exact ⟨⟨⟨⟨h.property_free hc, hcolon, hspace⟩, hv⟩, hsuffix⟩, hsemicolon⟩

theorem exists_render (h : d.Plain) :
    ∃ c t, d.render = c :: t ++ [';'] ∧ isNameChar c ∧ ':' ∈ t := by
  have hchars := h.property.nameChars
  obtain ⟨c, rest, hp⟩ := List.exists_cons_of_ne_nil h.property.ne_nil
  refine ⟨c, rest ++ [':', ' '] ++ d.value ++ if d.important then importantSuffix else [],
    ?_, ?_, ?_⟩
  · rw [render, hp]
    simp
  · exact hchars c (hp ▸ List.mem_cons_self)
  · simp

theorem isLine (h : d.Plain) : IsLine d.render := by
  have hbreak : '\n' ∉ d.render := h.render_free (by decide) h.unbroken (by decide)
  obtain ⟨c, t, hr, hc, -⟩ := h.exists_render
  rw [hr] at hbreak ⊢
  exact ⟨trim_between (not_blank_of_nameChar hc) (by decide) t, by simp, hbreak⟩

theorem declares (h : d.Plain) : isDeclaration d.render := by
  have hopen : '{' ∉ d.render := h.render_free (by decide) h.no_open (by decide)
  have hclose : '}' ∉ d.render := h.render_free (by decide) h.no_close (by decide)
  obtain ⟨c, t, hr, hc, hcolon⟩ := h.exists_render
  have hfront : c ≠ '.' ∧ c ≠ '&' := by
    constructor
    · rintro rfl
      exact absurd hc (by decide)
    · rintro rfl
      exact absurd hc (by decide)
  rw [hr] at hopen hclose ⊢
  simp only [isDeclaration, Bool.and_eq_true, Bool.not_eq_true', List.contains_eq_mem,
    decide_eq_true_eq, decide_eq_false_iff_not, List.head?_append, List.head?_cons, Option.some_or,
    bne_iff_ne, ne_eq, Option.some.injEq]
  exact ⟨⟨⟨⟨by simp [hcolon], hfront.1⟩, hfront.2⟩, hopen⟩, hclose⟩

theorem ends (h : d.Plain) : endsWith ';' d.render := by
  obtain ⟨c, t, hr, -, -⟩ := h.exists_render
  rw [hr, endsWith, List.getLast?_concat]
  rfl

end Declaration.Plain

namespace Flattener

theorem feedAll_plain {s : Flattener} (hw : s.waiting = none) {ds : List Declaration}
    (h : ∀ d ∈ ds, d.Plain) :
    s.feedAll (ds.map Declaration.render) =
      { s with pending := s.pending ++ ds.map Declaration.render } := by
  induction ds generalizing s with
  | nil => simp [feedAll]
  | cons d ds ih =>
    have hd := h d List.mem_cons_self
    have hline := hd.isLine
    have hfeed := feed_declaration hw hline.trimmed hline.nonempty hd.declares hd.ends
    have hrest := ih (s := s.declare d.render) hw fun e he => h e (List.mem_cons_of_mem d he)
    show (s.feed d.render).feedAll (ds.map Declaration.render) = _
    rw [hfeed, hrest]
    simp [declare]

end Flattener

theorem ruleText_render (selector : Text) {ds : List Declaration} (hne : ds ≠ []) :
    Flattener.ruleText selector (ds.map Declaration.render) =
      selector ++ [' ', '{'] ++ ds.flatMap (' ' :: Declaration.render ·) ++ [' ', '}'] := by
  obtain ⟨d, ds, rfl⟩ := List.exists_cons_of_ne_nil hne
  rw [List.map_cons, Flattener.ruleText_cons, List.flatMap_map]
  simp

theorem flatten_declarationLines {ds : List Declaration} (h : ∀ d ∈ ds, d.Plain) (hne : ds ≠ [])
    (name : Text) :
    flatten (declarationLines ds) (Engine.classSelector name) = [(classRule name ds).render] := by
  have hlines : Unbroken (ds.map Declaration.render) := by
    intro l hl
    obtain ⟨d, hd, rfl⟩ := List.mem_map.1 hl
    exact (h d hd).isLine.unbroken
  have hrule : (classRule name ds).render =
      Flattener.ruleText (Engine.classSelector name) (ds.map Declaration.render) := by
    rw [ruleText_render _ hne]
    simp [classRule, Rule.render, Selector.render, Compound.render, Test.render,
      Engine.classSelector]
  rw [flatten, Flattener.ofStyle, declarationLines, feedAll_lines hlines,
    Flattener.feedAll_plain rfl h, hrule]
  simp [Flattener.finish, Flattener.flush, Flattener.start, Flattener.current, hne]

theorem parse_classRule {name : Text} {ds : List Declaration} (hname : IsIdent name)
    (h : ∀ d ∈ ds, d.Plain) : Rule.parse (classRule name ds).render = .ok (classRule name ds) := by
  have hselectors : ∀ s ∈ (classRule name ds).selectors, s.WellFormed := by
    intro s hs c hc
    obtain rfl := List.mem_singleton.1 hs
    obtain rfl := List.mem_singleton.1 hc
    constructor
    · intro tag ht
      cases ht
    · intro t ht
      obtain rfl := List.mem_singleton.1 ht
      exact hname
  have hw : (classRule name ds).WellFormed :=
    ⟨⟨List.cons_ne_nil _ _, hselectors, fun d hd => (h d hd).property, fun d hd => (h d hd).clean⟩,
      fun d hd => (h d hd).value⟩
  obtain ⟨us, hlex, hd⟩ := lexemes_render hw
  exact parse_eq_ok_iff.2 ⟨us, by rw [stripComments_clean hw.clean_render, hlex], hd⟩

end ScopedStyle
