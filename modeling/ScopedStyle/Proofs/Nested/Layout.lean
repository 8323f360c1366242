import ScopedStyle.Proofs.Nested.Feed

/-!
# Nested style as a tree, and its layouts

A nested style is a list of items: declarations and blocks of items. `flatRules`
says which flat rules it stands for, by recursion on the tree. `Prints` says
which lines it may be printed as, and `Spaced` which texts these lines may be
written as. The main statement is that flattening any such text gives the rules
of the tree.
-/

namespace ScopedStyle
open Text

structure IsLine (t : Text) : Prop where
  trimmed : trim t = t
  nonempty : t ≠ []
  unbroken : '\n' ∉ t

instance (t : Text) : Decidable (IsLine t) :=
  decidable_of_iff (trim t = t ∧ t ≠ [] ∧ '\n' ∉ t)
    ⟨fun h => ⟨h.1, h.2.1, h.2.2⟩, fun h => ⟨h.trimmed, h.nonempty, h.unbroken⟩⟩

/-- The lines of a declaration: the first of them looks like a declaration, and only the last ends
with a semicolon. -/
structure DeclarationLines where
  first : Text
  others : List Text
  isLine : ∀ l ∈ first :: others, IsLine l
  declares : isDeclaration first
  ends : endsWith ';' ((first :: others).getLast (List.cons_ne_nil _ _))
  continues : ∀ l ∈ (first :: others).dropLast, endsWith ';' l = false

namespace DeclarationLines

def lines (d : DeclarationLines) : List Text := d.first :: d.others

def text (d : DeclarationLines) : Text := List.intercalate [' '] d.lines

end DeclarationLines

structure BlockSelector where
  text : Text
  isLine : IsLine text
  no_open : '{' ∉ text
  no_close : '}' ∉ text
  selects : classify text = .selector

inductive Item
  | declaration (d : DeclarationLines)
  | block (selector : BlockSelector) (items : List Item)

def gathered (selector : Text) (declarations : List Text) : List Text :=
  if declarations.isEmpty then [] else [Flattener.ruleText selector declarations]

mutual

def Item.innerRules (selector : Text) : Item → List Text
  | .declaration _ => []
  | .block s items => flatRules (compose selector s.text) [] items

/-- The flat rules of items under a selector: one for each run of declarations, `before` being the
declarations in front of the items that no block parts from them. -/
def flatRules (selector : Text) (before : List Text) : List Item → List Text
  | [] => gathered selector before
  | item :: rest =>
      match item with
      | .declaration d => flatRules selector (before ++ [d.text]) rest
      | .block .. =>
          gathered selector before ++ item.innerRules selector ++ flatRules selector [] rest

end

theorem flatRules_block (selector : Text) (before : List Text) (s : BlockSelector)
    (items rest : List Item) :
    flatRules selector before (.block s items :: rest) =
      gathered selector before ++ flatRules (compose selector s.text) [] items ++
        flatRules selector [] rest := rfl

/-- A printed line, and whether a closing brace may be put behind it. -/
structure PrintedLine where
  text : Text
  closable : Bool

def DeclarationLines.printed (d : DeclarationLines) : List PrintedLine :=
  d.lines.map fun l => ⟨l, d.others.isEmpty⟩

def IsGapLine (t : Text) : Prop := Blank t ∧ '\n' ∉ t

instance (t : Text) : Decidable (IsGapLine t) :=
  decidable_of_iff (t.all isBlank ∧ '\n' ∉ t) (and_congr_left fun _ => List.all_eq_true)

inductive Opening (selector : Text) : List PrintedLine → Prop
  | together (gap : Text) : IsGapLine gap → Opening selector [⟨selector ++ gap ++ ['{'], true⟩]
  | apart : Opening selector [⟨selector, false⟩, ⟨['{'], true⟩]

inductive Closing : List PrintedLine → List PrintedLine → Prop
  | own (lines : List PrintedLine) : Closing lines (lines ++ [⟨['}'], true⟩])
  | behind (lines : List PrintedLine) (last gap : Text) : IsGapLine gap →
      Closing (lines ++ [⟨last, true⟩]) (lines ++ [⟨last ++ gap ++ ['}'], true⟩])

inductive Prints : List PrintedLine → List Item → List PrintedLine → Prop
  | nil (lines : List PrintedLine) : Prints lines [] lines
  | declaration {lines printed : List PrintedLine} {rest : List Item} (d : DeclarationLines) :
      Prints (lines ++ d.printed) rest printed → Prints lines (.declaration d :: rest) printed
  | block {lines opening body closed printed : List PrintedLine} {items rest : List Item}
      (s : BlockSelector) :
      Opening s.text opening → Prints (lines ++ opening) items body → Closing body closed →
      Prints closed rest printed → Prints lines (.block s items :: rest) printed

inductive Spaced : List Text → List Text → Prop
  | nil : Spaced [] []
  | blank {lines spaced : List Text} (gap : Text) : IsGapLine gap → Spaced lines spaced →
      Spaced lines (gap :: spaced)
  | line {lines spaced : List Text} (line indent trail : Text) : IsGapLine indent →
      IsGapLine trail → Spaced lines spaced →
      Spaced (line :: lines) ((indent ++ line ++ trail) :: spaced)

inductive Closers : Text → Prop
  | blank {gap : Text} : Blank gap → Closers gap
  | brace {gap rest : Text} : Blank gap → Closers rest → Closers (gap ++ '}' :: rest)

inductive Closable : Text → Prop
  | empty : Closable []
  | declaration {line : Text} : IsLine line → isDeclaration line → endsWith ';' line →
      Closable line
  | opened {before : Text} : '{' ∉ before → Closable (before ++ ['{'])
  | closed {line gap : Text} : Closable line → Blank gap → Closable (line ++ gap ++ ['}'])

theorem blank_no_open {t : Text} (h : Blank t) : '{' ∉ t := fun hm => absurd (h _ hm) (by decide)

theorem blank_no_close {t : Text} (h : Blank t) : '}' ∉ t := fun hm => absurd (h _ hm) (by decide)

theorem Closers.no_open {t : Text} (h : Closers t) : '{' ∉ t := by
  induction h with
  | blank hb => exact blank_no_open hb
  | brace hb _ ih =>
    exact List.not_mem_append (blank_no_open hb)
      (List.not_mem_cons_of_ne_of_not_mem (by decide) ih)

theorem Closers.blank_or_close {t : Text} (h : Closers t) : Blank t ∨ '}' ∈ t := by
  cases h with
  | blank hb => exact .inl hb
  | brace hb _ => exact .inr (by simp)

namespace Flattener

theorem feed_closers {s : Flattener} {gap rest : Text} (hw : s.waiting = none) (hg : Blank gap)
    (hr : Closers rest) : s.feed (gap ++ '}' :: rest) = (s.leave []).feed rest := by
  rw [feed_close hw (blank_no_open hg) (blank_no_close hg) hr.no_open,
    leave_congr s ((trim_blank hg).trans (trim_blank blank_nil).symm)]

theorem leave_declaration (s : Flattener) {line gap : Text} (hl : IsLine line)
    (hd : isDeclaration line) (hg : Blank gap) :
    s.leave (line ++ gap) = (s.declare line).leave [] := by
  have ht : trim (line ++ gap) = line := (trim_append_blank hg line).trans hl.trimmed
  rw [leave, ht, if_pos hd]
  rfl

theorem feed_nil (s : Flattener) : s.feed [] = s := feed_blank s rfl

theorem feed_opened {s : Flattener} {before : Text} (hw : s.waiting = none) (hb : '{' ∉ before) :
    s.feed (before ++ ['{']) = s.enter (trim before) := by
  rw [feed_open hw hb (by simp) (.inl blank_nil), feed_nil]

theorem feed_declaration_closers {s : Flattener} {line rest : Text} (hw : s.waiting = none)
    (hl : IsLine line) (hd : isDeclaration line) (he : endsWith ';' line) (hr : Closers rest) :
    s.feed (line ++ rest) = (s.declare line).feed rest := by
  cases hr with
  | blank hb =>
    rw [feed_congr s (trim_append_blank hb line),
      feed_declaration hw hl.trimmed hl.nonempty hd he, feed_blank _ (trim_blank hb)]
  | @brace gap rest hg hr =>
    have ho : '{' ∉ line ++ gap := List.not_mem_append (isDeclaration_no_open hd) (blank_no_open hg)
    have hc : '}' ∉ line ++ gap :=
      List.not_mem_append (isDeclaration_no_close hd) (blank_no_close hg)
    have hd' : (s.declare line).waiting = none := hw
    rw [feed_closers hd' hg hr, ← List.append_assoc, feed_close hw ho hc hr.no_open,
      leave_declaration s hl hd hg]

theorem feed_closable {line : Text} (h : Closable line) {s : Flattener} (hw : s.waiting = none) :
    (s.feed line).waiting = none ∧
      ∀ rest, Closers rest → s.feed (line ++ rest) = (s.feed line).feed rest := by
  -- the brace that makes a line longer belongs to `rest` in the hypothesis on the shorter line
  induction h generalizing s with
  | empty =>
    rw [feed_nil]
    exact ⟨hw, fun rest _ => rfl⟩
  | @declaration line hl hd he =>
    rw [feed_declaration hw hl.trimmed hl.nonempty hd he]
    exact ⟨hw, fun rest hr => feed_declaration_closers hw hl hd he hr⟩
  | @opened before hb =>
    rw [feed_opened hw hb]
    refine ⟨by rw [enter_waiting, hw], fun rest hr => ?_⟩
    rw [List.append_assoc, List.singleton_append, feed_open hw hb hr.no_open hr.blank_or_close]
  | @closed line gap hl hg ih =>
    obtain ⟨hw', hf⟩ := ih hw
    have key : ∀ rest, Closers rest →
        s.feed (line ++ gap ++ ['}'] ++ rest) = ((s.feed line).leave []).feed rest := by
      intro rest hr
      have ha : line ++ gap ++ ['}'] ++ rest = line ++ (gap ++ '}' :: rest) := by simp
      rw [ha, hf _ (.brace hg hr), feed_closers hw' hg hr]
    have hend := key [] (.blank blank_nil)
    rw [List.append_nil, feed_nil] at hend
    rw [hend]
    exact ⟨by rw [leave_waiting, hw'], key⟩

theorem feed_closed {line gap : Text} (h : Closable line) (hg : Blank gap) {s : Flattener}
    (hw : s.waiting = none) : s.feed (line ++ gap ++ ['}']) = (s.feed line).leave [] := by
  obtain ⟨hw', hf⟩ := feed_closable h hw
  rw [List.append_assoc, hf _ (.brace hg (.blank blank_nil)),
    feed_closers hw' hg (.blank blank_nil), feed_nil]

theorem flush_rules (s : Flattener) : s.flush.rules = s.rules ++ gathered s.current s.pending := by
  unfold flush gathered
  split
  · rw [List.append_nil]
  · rfl

theorem enter_selector (s : Flattener) (t : BlockSelector) :
    s.enter t.text = { s.select t.text with depth := s.depth + 1 } := by
  have ht : t.text.isEmpty = false := by simpa using t.isLine.nonempty
  have hf : ({ s with depth := s.depth + 1 } : Flattener).flush =
      { s.flush with depth := s.depth + 1 } := by
    unfold flush
    split <;> rfl
  simp only [enter, ht, t.selects, Bool.not_false, Bool.true_and, decide_true, if_true, select, hf]
  rfl

theorem leave_nil (s : Flattener) :
    s.leave [] = { ({ s with depth := s.depth - 1 } : Flattener).flush with
      blocks := s.blocks.tail } := by
  rw [leave, trim_blank blank_nil, show isDeclaration [] = false from rfl]
  simp

/-- From one state to a later one, the rules written and those still to come are the rules of
`items`, whatever follows them. -/
structure Advances (s t : Flattener) (items : List Item) : Prop where
  waiting : t.waiting = none
  root : t.root = s.root
  blocks : t.blocks = s.blocks
  rules : ∀ rest, t.rules ++ flatRules t.current t.pending rest =
    s.rules ++ flatRules s.current s.pending (items ++ rest)

theorem advances_nil {s : Flattener} (hw : s.waiting = none) : s.Advances s [] :=
  ⟨hw, rfl, rfl, fun _ => rfl⟩

theorem Advances.trans {s t u : Flattener} {items more : List Item} (h : s.Advances t items)
    (h' : t.Advances u more) : s.Advances u (items ++ more) := by
  refine ⟨h'.waiting, h'.root.trans h.root, h'.blocks.trans h.blocks, fun rest => ?_⟩
  rw [h'.rules, h.rules, List.append_assoc]

theorem advances_declare {s : Flattener} (hw : s.waiting = none) (d : DeclarationLines) :
    s.Advances (s.declare d.text) [.declaration d] :=
  ⟨hw, rfl, rfl, fun _ => rfl⟩

theorem advances_block {s t : Flattener} {b : BlockSelector} {items : List Item}
    (h : (s.enter b.text).Advances t items) : s.Advances (t.leave []) [.block b items] := by
  rw [enter_selector] at h
  -- leaving the block flushes what is pending in it and uncovers the blocks of `s`
  have hroot : t.root = s.root := h.root.trans (flush_root s)
  have hblocks : t.blocks = compose s.current b.text :: s.blocks := by
    have := h.blocks
    simpa [select, push, current] using this
  have hrules := h.rules []
  simp only [select, push, List.append_nil, flush_rules, flush_pending, flatRules,
    List.append_assoc] at hrules
  have hcurrent : (s.select b.text).current = compose s.current b.text := by
    simp [select, push, current]
  have hleft : (t.leave []).rules = s.rules ++ gathered s.current s.pending ++
      flatRules (compose s.current b.text) [] items := by
    rw [leave_nil]
    simp only [flush_rules]
    rw [List.append_assoc, ← show (s.select b.text).current = _ from hcurrent]
    exact hrules
  have hpending : (t.leave []).pending = [] := by
    rw [leave_nil]
    exact flush_pending _
  have hb : (t.leave []).blocks = s.blocks := by
    rw [leave_nil, hblocks]
    rfl
  have hr : (t.leave []).root = s.root := by
    rw [leave_nil, ← hroot]
    exact flush_root _
  refine ⟨by rw [leave_waiting, h.waiting], hr, hb, fun rest => ?_⟩
  have hc : (t.leave []).current = s.current := by rw [current, hb, hr, current]
  rw [hleft, hpending, hc, List.singleton_append, flatRules_block]
  simp only [List.append_assoc]

def read (s : Flattener) (lines : List PrintedLine) : Flattener :=
  s.feedAll (lines.map PrintedLine.text)

theorem feedAll_append (s : Flattener) (a b : List Text) :
    s.feedAll (a ++ b) = (s.feedAll a).feedAll b := List.foldl_append

theorem read_append (s : Flattener) (a b : List PrintedLine) :
    s.read (a ++ b) = (s.read a).read b := by
  rw [read, List.map_append, feedAll_append]
  rfl

theorem read_last (s : Flattener) (a : List PrintedLine) (l : PrintedLine) :
    s.read (a ++ [l]) = (s.read a).feed l.text := read_append s a [l]

theorem feedAll_resume {others : List Text} (hne : others ≠ [])
    (hl : ∀ l ∈ others, IsLine l) (hend : endsWith ';' (others.getLast hne))
    (hmid : ∀ l ∈ others.dropLast, endsWith ';' l = false) (s : Flattener) (started : Text)
    (hw : s.waiting = some started) :
    s.feedAll others =
      ({ s with waiting := none } : Flattener).declare
        (List.intercalate [' '] (started :: others)) := by
  -- each line goes to the end of what has been started
  induction others generalizing s started with
  | nil => exact absurd rfl hne
  | cons l rest ih =>
    have hline := hl l List.mem_cons_self
    have hf := feed_resume hw hline.trimmed hline.nonempty
    have hj : endsWith ';' (started ++ ' ' :: l) = endsWith ';' l := by
      obtain ⟨c, l', rfl⟩ := List.exists_cons_of_ne_nil hline.nonempty
      simp [endsWith]
    show (s.feed l).feedAll rest = _
    cases rest with
    | nil =>
      have he : endsWith ';' l := hend
      rw [hf, resume, hj, if_pos he]
      simp [feedAll]
    | cons m more =>
      have he : endsWith ';' l = false := hmid l List.mem_cons_self
      have hstep : s.feed l = { s with waiting := some (started ++ ' ' :: l) } := by
        rw [hf, resume, hj, if_neg (by simp [he])]
      rw [hstep, ih (List.cons_ne_nil _ _) (fun x hx => hl x (List.mem_cons_of_mem l hx))
        (by simpa using hend) (fun x hx => hmid x (List.mem_cons_of_mem l hx)) _ _ rfl]
      simp [List.intercalate_cons_cons, List.append_assoc]

theorem feedAll_declaration {s : Flattener} (hw : s.waiting = none) (d : DeclarationLines) :
    s.feedAll d.lines = s.declare d.text := by
  obtain ⟨first, others, hl, hd, hend, hmid⟩ := d
  have hline := hl first List.mem_cons_self
  show (s.feed first).feedAll others = _
  cases others with
  | nil =>
    rw [feed_declaration hw hline.trimmed hline.nonempty hd hend]
    simp [feedAll, DeclarationLines.text, DeclarationLines.lines]
  | cons m more =>
    have he : endsWith ';' first = false := hmid first List.mem_cons_self
    rw [feed_begin hw hline.trimmed hline.nonempty hd he,
      feedAll_resume (List.cons_ne_nil _ _) (fun x hx => hl x (List.mem_cons_of_mem first hx))
        (by simpa using hend) (fun x hx => hmid x (List.mem_cons_of_mem first hx)) _ _ rfl]
    show ({ s with waiting := none } : Flattener).declare _ = s.declare _
    rw [← hw]
    rfl

/-- No declaration is open behind the lines, nor in front of the last one if a closing brace may
be put there. -/
structure Steady (s : Flattener) (lines : List PrintedLine) : Prop where
  waiting : (s.read lines).waiting = none
  last : ∀ init l, lines = init ++ [⟨l, true⟩] → (s.read init).waiting = none ∧ Closable l

theorem steady_line {s : Flattener} {lines : List PrintedLine} {l : Text}
    (h : (s.read lines).waiting = none) (hc : Closable l) :
    s.Steady (lines ++ [⟨l, true⟩]) := by
  refine ⟨?_, ?_⟩
  · rw [read_last]
    exact (feed_closable hc h).1
  · intro init l' he
    obtain ⟨rfl, h'⟩ := List.append_inj' he rfl
    cases h'
    exact ⟨h, hc⟩

theorem read_printed {s : Flattener} {lines : List PrintedLine} (h : s.Steady lines)
    (d : DeclarationLines) : s.read (lines ++ d.printed) = (s.read lines).declare d.text := by
  rw [read_append, read, DeclarationLines.printed, List.map_map]
  exact (congrArg _ (List.map_id' _)).trans (feedAll_declaration h.waiting d)

theorem steady_declaration {s : Flattener} {lines : List PrintedLine} (h : s.Steady lines)
    (d : DeclarationLines) : s.Steady (lines ++ d.printed) := by
  have hw : (s.read (lines ++ d.printed)).waiting = none := by
    rw [read_printed h, declare_waiting, h.waiting]
  by_cases hd : d.others = []
  · have hp : d.printed = [⟨d.first, true⟩] := by
      simp [DeclarationLines.printed, DeclarationLines.lines, hd]
    have hend := d.ends
    simp only [hd, List.getLast_singleton] at hend
    rw [hp]
    exact steady_line h.waiting
      (.declaration (d.isLine _ List.mem_cons_self) d.declares hend)
  · refine ⟨hw, ?_⟩
    -- no line of a broken declaration takes a brace
    intro init l he
    have hlast : (lines ++ d.printed).getLast? = some ⟨l, true⟩ := by simp [he]
    have hne : d.printed ≠ [] := by simp [DeclarationLines.printed, DeclarationLines.lines]
    rw [List.getLast?_append_of_ne_nil _ hne] at hlast
    obtain ⟨x, -, hx⟩ := List.mem_map.1 (List.mem_of_getLast? hlast)
    simp [hd] at hx

theorem trim_gap {t : BlockSelector} {gap : Text} (hg : Blank gap) :
    trim (t.text ++ gap) = t.text :=
  (trim_append_blank hg _).trans t.isLine.trimmed

theorem steady_opening {s : Flattener} {lines opening : List PrintedLine} {b : BlockSelector}
    (h : s.Steady lines) (ho : Opening b.text opening) :
    s.Steady (lines ++ opening) ∧ s.read (lines ++ opening) = (s.read lines).enter b.text := by
  cases ho with
  | together gap hg =>
    have hb : '{' ∉ b.text ++ gap := List.not_mem_append b.no_open (blank_no_open hg.1)
    refine ⟨steady_line h.waiting (.opened hb), ?_⟩
    rw [read_last, feed_opened h.waiting hb, trim_gap hg.1]
  | apart =>
    have hsel : s.read (lines ++ [⟨b.text, false⟩]) = (s.read lines).select b.text := by
      rw [read_last]
      exact feed_selector h.waiting b.isLine.trimmed b.isLine.nonempty b.no_open b.no_close
        b.selects
    have hw : (s.read (lines ++ [⟨b.text, false⟩])).waiting = none := by
      rw [hsel, select_waiting, h.waiting]
    have hsplit : lines ++ [⟨b.text, false⟩, ⟨['{'], true⟩] =
        lines ++ [⟨b.text, false⟩] ++ [⟨['{'], true⟩] := by simp
    rw [hsplit]
    have hempty : '{' ∉ ([] : Text) := List.not_mem_nil
    refine ⟨steady_line hw (.opened hempty), ?_⟩
    rw [read_last, enter_selector]
    have hf := feed_opened hw hempty
    rw [List.nil_append] at hf
    rw [hf, hsel]
    simp only [enter, trim_blank blank_nil, List.isEmpty_nil, Bool.not_true, Bool.false_and,
      Bool.false_eq_true, if_false, select, push, flush_depth]

theorem steady_closing {s : Flattener} {lines closed : List PrintedLine} (h : s.Steady lines)
    (hc : Closing lines closed) :
    s.Steady closed ∧ s.read closed = (s.read lines).leave [] := by
  cases hc with
  | own =>
    have hb : Closable ([] ++ [] ++ ['}']) := .closed .empty blank_nil
    refine ⟨steady_line h.waiting hb, ?_⟩
    have hf := feed_closed .empty blank_nil h.waiting
    rw [feed_nil] at hf
    rw [read_last]
    exact hf
  | behind lines last gap hg =>
    obtain ⟨hw, hl⟩ := h.last lines last rfl
    refine ⟨steady_line hw (.closed hl hg.1), ?_⟩
    rw [read_last, read_last, feed_closed hl hg.1 hw]

theorem advances_of_prints {before after : List PrintedLine} {items : List Item}
    (h : Prints before items after) {s : Flattener} (hs : s.Steady before) :
    s.Steady after ∧ (s.read before).Advances (s.read after) items := by
  -- the lines in front stay a variable, so that a brace may be put behind the last of them
  induction h with
  | nil => exact ⟨hs, advances_nil hs.waiting⟩
  | declaration d _ ih =>
    obtain ⟨hs', ha⟩ := ih (steady_declaration hs d)
    rw [read_printed hs] at ha
    exact ⟨hs', (advances_declare hs.waiting d).trans ha⟩
  | block b ho _ hc _ ihbody ihrest =>
    obtain ⟨hopened, hro⟩ := steady_opening hs ho
    obtain ⟨hbody, ha⟩ := ihbody hopened
    obtain ⟨hclosed, hrc⟩ := steady_closing hbody hc
    obtain ⟨hs', ha'⟩ := ihrest hclosed
    rw [hro] at ha
    rw [hrc] at ha'
    exact ⟨hs', (advances_block ha).trans ha'⟩

theorem feedAll_spaced {lines spaced : List Text} (h : Spaced lines spaced) (s : Flattener) :
    s.feedAll spaced = s.feedAll lines := by
  induction h generalizing s with
  | nil => rfl
  | blank gap hg _ ih =>
    show (s.feed gap).feedAll _ = _
    rw [feed_blank s (trim_blank hg.1), ih]
  | line line indent trail hi ht _ ih =>
    show (s.feed (indent ++ line ++ trail)).feedAll _ = (s.feed line).feedAll _
    rw [feed_congr s (trim_append_blank ht.1 _), feed_congr s (trim_blank_append hi.1 _), ih]

end Flattener

def Unbroken (lines : List Text) : Prop := ∀ l ∈ lines, '\n' ∉ l

theorem Unbroken.append {a b : List Text} (ha : Unbroken a) (hb : Unbroken b) :
    Unbroken (a ++ b) := by
  intro l hl
  rcases List.mem_append.1 hl with h | h
  · exact ha l h
  · exact hb l h

theorem unbroken_closing {lines closed : List PrintedLine} (hc : Closing lines closed)
    (h : Unbroken (lines.map PrintedLine.text)) : Unbroken (closed.map PrintedLine.text) := by
  cases hc with
  | own =>
    rw [List.map_append]
    exact h.append (by simp [Unbroken])
  | behind lines last gap hg =>
    rw [List.map_append] at h ⊢
    refine Unbroken.append (fun l hl => h l (List.mem_append_left _ hl)) ?_
    have hlast : '\n' ∉ last := h last (by simp)
    simp [Unbroken, hlast, hg.2]

theorem unbroken_prints {before after : List PrintedLine} {items : List Item}
    (h : Prints before items after) (hb : Unbroken (before.map PrintedLine.text)) :
    Unbroken (after.map PrintedLine.text) := by
  induction h with
  | nil => exact hb
  | declaration d _ ih =>
    refine ih ?_
    rw [List.map_append]
    refine hb.append fun l hl => ?_
    rw [DeclarationLines.printed, List.map_map] at hl
    obtain ⟨x, hx, rfl⟩ := List.mem_map.1 hl
    exact (d.isLine x hx).unbroken
  | block b ho _ hc _ ihbody ihrest =>
    refine ihrest (unbroken_closing hc (ihbody ?_))
    rw [List.map_append]
    refine hb.append ?_
    have := b.isLine.unbroken
    cases ho with
    | together gap hg => simp [Unbroken, this, hg.2]
    | apart => simp [Unbroken, this]

theorem unbroken_spaced {lines spaced : List Text} (h : Spaced lines spaced)
    (hb : Unbroken lines) : Unbroken spaced := by
  induction h with
  | nil => exact hb
  | blank gap hg _ ih =>
    intro l hl
    rcases List.mem_cons.1 hl with rfl | hl
    · exact hg.2
    · exact ih hb l hl
  | line line indent trail hi ht _ ih =>
    intro l hl
    rcases List.mem_cons.1 hl with rfl | hl
    · have := hb line List.mem_cons_self
      simp [hi.2, ht.2, this]
    · exact ih (fun l hl => hb l (List.mem_cons_of_mem _ hl)) l hl

theorem feedAll_lines {raws : List Text} (h : Unbroken raws) (s : Flattener) :
    s.feedAll (lines (List.intercalate ['\n'] raws)) = s.feedAll raws := by
  induction raws generalizing s with
  | nil => rfl
  | cons r more ih =>
    have hr := h r List.mem_cons_self
    cases more with
    | nil =>
      rw [List.intercalate_singleton, lines_last r hr]
      split
      · rename_i he
        rw [List.isEmpty_iff.1 he]
        exact s.feed_nil.symm
      · rfl
    | cons r' more =>
      rw [List.intercalate_cons_cons, List.append_assoc, List.singleton_append, lines_feed r _ hr]
      show (s.feed (dropReturn r)).feedAll _ = (s.feed r).feedAll _
      rw [s.feed_congr (trim_dropReturn r)]
      exact ih (fun l hl => h l (List.mem_cons_of_mem r hl)) _

/-- Flattening recovers the tree from any of its layouts. -/
theorem flatten_eq_flatRules {items : List Item} {printed : List PrintedLine}
    {spaced : List Text} (hp : Prints [] items printed)
    (hs : Spaced (printed.map PrintedLine.text) spaced) (root : Text) :
    flatten (List.intercalate ['\n'] spaced) root = flatRules root [] items := by
  have hsteady : (Flattener.start root).Steady [] :=
    ⟨rfl, fun init l he => absurd he (by simp)⟩
  obtain ⟨-, ha⟩ := Flattener.advances_of_prints hp hsteady
  have hu : Unbroken (printed.map PrintedLine.text) := unbroken_prints hp (by simp [Unbroken])
  have hr : (Flattener.ofStyle (List.intercalate ['\n'] spaced) root) =
      (Flattener.start root).read printed := by
    rw [Flattener.ofStyle, feedAll_lines (unbroken_spaced hs hu), Flattener.feedAll_spaced hs]
    rfl
  have hrules := ha.rules []
  rw [List.append_nil] at hrules
  rw [flatten, hr, Flattener.finish, Flattener.flush_rules]
  exact hrules

def firstDeclaration : DeclarationLines :=
  ⟨"a:b;".toList, [], by decide, by decide, by decide, by decide⟩

def brokenDeclaration : DeclarationLines :=
  ⟨"d:e,".toList, ["f;".toList], by decide, by decide, by decide, by decide⟩

def innerDeclaration : DeclarationLines :=
  ⟨"h:i;".toList, [], by decide, by decide, by decide, by decide⟩

def outerSelector : BlockSelector := ⟨".c".toList, by decide, by decide, by decide, by decide⟩

def innerSelector : BlockSelector := ⟨"&:g".toList, by decide, by decide, by decide, by decide⟩

def nestedBlocks : List Item :=
  [.declaration firstDeclaration,
    .block outerSelector [.declaration brokenDeclaration,
      .block innerSelector [.declaration innerDeclaration]]]

def nestedLines : List PrintedLine :=
  [⟨"a:b;".toList, true⟩, ⟨".c".toList, false⟩, ⟨['{'], true⟩, ⟨"d:e,".toList, false⟩,
    ⟨"f;".toList, false⟩, ⟨"&:g \x7b".toList, true⟩, ⟨"h:i; \x7d \x7d".toList, true⟩]

theorem isGapLine_nil : IsGapLine [] := by decide

theorem isGapLine_space : IsGapLine [' '] := by decide

theorem prints_nestedBlocks : Prints [] nestedBlocks nestedLines :=
  .declaration firstDeclaration <| .block outerSelector .apart
    (.declaration brokenDeclaration <| .block innerSelector (.together [' '] isGapLine_space)
      (.declaration innerDeclaration (.nil _)) (.behind _ "h:i;".toList [' '] isGapLine_space)
      (.nil _))
    (.behind _ "h:i; \x7d".toList [' '] isGapLine_space) (.nil _)

def nestedSpaced : List Text :=
  ["a:b;".toList, [], ".c".toList, ['{'], "d:e,".toList, "\tf;".toList, "&:g \x7b".toList,
    "h:i; \x7d \x7d ".toList]

theorem spaced_nestedLines : Spaced (nestedLines.map PrintedLine.text) nestedSpaced :=
  .line _ [] [] isGapLine_nil isGapLine_nil <| .blank [] isGapLine_nil <|
    .line _ [] [] isGapLine_nil isGapLine_nil <| .line _ [] [] isGapLine_nil isGapLine_nil <|
    .line _ [] [] isGapLine_nil isGapLine_nil <| .line _ ['\t'] [] (by decide) isGapLine_nil <|
    .line _ [] [] isGapLine_nil isGapLine_nil <| .line _ [] [' '] isGapLine_nil isGapLine_space .nil

theorem flatten_nested_blocks :
    Prints [] nestedBlocks nestedLines ∧
      Spaced (nestedLines.map PrintedLine.text) nestedSpaced ∧
      List.intercalate ['\n'] nestedSpaced =
        "a:b;\n\n.c\n\x7b\nd:e,\n\tf;\n&:g \x7b\nh:i; \x7d \x7d ".toList ∧
      flatten (List.intercalate ['\n'] nestedSpaced) ".r".toList =
        [".r \x7b a:b; \x7d".toList, ".r .c \x7b d:e, f; \x7d".toList,
          ".r .c:g \x7b h:i; \x7d".toList] :=
  ⟨prints_nestedBlocks, spaced_nestedLines, by decide,
    (flatten_eq_flatRules prints_nestedBlocks spaced_nestedLines _).trans (by decide)⟩

end ScopedStyle
