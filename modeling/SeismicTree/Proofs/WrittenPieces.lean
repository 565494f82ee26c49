import Mathlib.Data.List.TakeWhile
import SeismicTree.Markup.Reader
import SeismicTree.Proofs.Tokens
import SeismicTree.Proofs.WriterCalls

/-!
# Reading the pieces that a writer writes

A writer writes a document in pieces: the start of a tag, an attribute, the end of a start tag, a
text, an end tag. Each piece takes a reader from one spot to another, and adds to the elements that
it knows what the piece stands for. Lines are counted on the way; nothing is said of them.
-/

namespace SeismicTree

namespace Reader
open Markup

variable {es : List PendingElement} {root : Option Node}

section Chaining
variable {r r₁ r₂ : Reader} {c : Char} {cs ds : List Char}

theorem readChars_cons_of_step (h : r.step c = .ok r₁) (hrest : r₁.readChars cs = .ok r₂) :
    r.readChars (c :: cs) = .ok r₂ := by
  rw [readChars, h]
  exact hrest

theorem readChars_append_of_ok (h : r.readChars cs = .ok r₁) (hrest : r₁.readChars ds = .ok r₂) :
    r.readChars (cs ++ ds) = .ok r₂ := by
  rw [readChars_append, h]
  exact hrest

end Chaining

section Collecting

/-- Characters that are collected one after the other, each of them written in some way. -/
theorem readChars_collect {spot : List Char → Spot} {written : Char → List Char} {cs : List Char}
    (h : ∀ c ∈ cs, ∀ line run, ∃ line', readChars ⟨line, spot run, es, root⟩ (written c) =
      .ok ⟨line', spot (c :: run), es, root⟩) (line : Nat) (run : List Char) :
    ∃ line', readChars ⟨line, spot run, es, root⟩ (cs.flatMap written) =
      .ok ⟨line', spot (cs.reverse ++ run), es, root⟩ := by
  induction cs generalizing line run with
  | nil => exact ⟨line, rfl⟩
  | cons c cs ih =>
    obtain ⟨hc, hcs⟩ := List.forall_mem_cons.mp h
    obtain ⟨line₁, hfirst⟩ := hc line run
    obtain ⟨line₂, hrest⟩ := ih hcs line₁ (c :: run)
    refine ⟨line₂, ?_⟩
    rw [List.flatMap_cons, List.reverse_cons, List.append_assoc]
    exact readChars_append_of_ok hfirst hrest

theorem isNameChar_ne {c : Char} (h : isNameChar c = true) :
    c ≠ '\n' ∧ c ≠ '/' ∧ c ≠ '?' ∧ c ≠ '!' ∧ c ≠ '>' ∧ Text.isBlank c = false := by
  simp only [isNameChar, Bool.not_eq_true', Bool.or_eq_false_iff] at h
  obtain ⟨hblank, hmarkup⟩ := h
  refine ⟨?_, ?_, ?_, ?_, ?_, hblank⟩
  · rintro rfl
    cases hblank
  all_goals
    rintro rfl
    revert hmarkup
    decide

/-- A name is collected wherever each of its characters is. -/
theorem readChars_name {spot : List Char → Spot}
    (h : ∀ c line run, isNameChar c = true →
      step ⟨line, spot run, es, root⟩ c = .ok ⟨line, spot (c :: run), es, root⟩)
    {name : List Char} (named : ∀ c ∈ name, isNameChar c = true) (line : Nat) (run : List Char) :
    readChars ⟨line, spot run, es, root⟩ name =
      .ok ⟨line, spot (name.reverse ++ run), es, root⟩ := by
  induction name generalizing run with
  | nil => rfl
  | cons c name ih =>
    obtain ⟨hc, hrest⟩ := List.forall_mem_cons.mp named
    rw [List.reverse_cons, List.append_assoc]
    exact readChars_cons_of_step (h c line run hc) (ih hrest (c :: run))

theorem step_startName (c : Char) (line : Nat) (run : List Char) (h : isNameChar c = true) :
    step ⟨line, .startName run, es, root⟩ c = .ok ⟨line, .startName (c :: run), es, root⟩ := by
  simp [step, moved, h, (isNameChar_ne h).1]

theorem step_attributeName (tag : StartTag) (c : Char) (line : Nat) (run : List Char)
    (h : isNameChar c = true) :
    step ⟨line, .attributeName tag run, es, root⟩ c =
      .ok ⟨line, .attributeName tag (c :: run), es, root⟩ := by
  simp [step, moved, h, (isNameChar_ne h).1]

theorem step_endName (c : Char) (line : Nat) (run : List Char) (h : isNameChar c = true) :
    step ⟨line, .endName run, es, root⟩ c = .ok ⟨line, .endName (c :: run), es, root⟩ := by
  simp [step, moved, h, (isNameChar_ne h).1]

/-- A character of a text that stands for itself. -/
theorem readChars_text_char {c : Char} (hamp : c ≠ '&') (hlt : c ≠ '<') (line : Nat)
    (run : List Char) :
    ∃ line', readChars ⟨line, .text run, es, root⟩ [c] =
      .ok ⟨line', .text (c :: run), es, root⟩ := by
  by_cases hline : c = '\n'
  · exact ⟨line + 1, by simp [readChars, step, moved, hline]⟩
  · exact ⟨line, by simp [readChars, step, moved, hline, hamp, hlt]⟩

theorem readChars_value_char {c : Char} (hamp : c ≠ '&') (hlt : c ≠ '<') (hquote : c ≠ '"')
    (tag : StartTag) (name : List Char) (line : Nat) (run : List Char) :
    ∃ line', readChars ⟨line, .value tag name '"' run, es, root⟩ [c] =
      .ok ⟨line', .value tag name '"' (c :: run), es, root⟩ := by
  by_cases hline : c = '\n'
  · exact ⟨line + 1, by simp [readChars, step, moved, hline]⟩
  · exact ⟨line, by simp [readChars, step, moved, hline, hamp, hlt, hquote]⟩

/-- Blanks between tags are kept for the time being. -/
theorem readChars_blanks {cs : List Char} (blank : Text.Blank cs) (line : Nat)
    (run : List Char) (es : List PendingElement) (root : Option Node) :
    ∃ line', readChars ⟨line, .text run, es, root⟩ cs =
      .ok ⟨line', .text (cs.reverse ++ run), es, root⟩ := by
  have hstep : ∀ c ∈ cs, ∀ line run, ∃ line', readChars ⟨line, .text run, es, root⟩ [c] =
      .ok ⟨line', .text (c :: run), es, root⟩ := by
    intro c hc
    have hblank := blank c hc
    exact readChars_text_char (by rintro rfl; cases hblank) (by rintro rfl; cases hblank)
  have hall := readChars_collect hstep line run
  rwa [List.flatMap_singleton'] at hall

theorem isBlank_newline : Text.Blank ['\n'] := List.forall_mem_singleton.mpr rfl

/-- An indentation behind blanks. -/
theorem readChars_indentation (w : Writer) (depth line : Nat) {run : List Char}
    (blank : Text.Blank run) (es : List PendingElement) (root : Option Node) :
    ∃ line' run', Text.Blank run' ∧
      readChars ⟨line, .text run, es, root⟩ (w.indentation depth) =
        .ok ⟨line', .text run', es, root⟩ := by
  have hindent : Text.Blank (w.indentation depth) := by
    intro c hc
    unfold Writer.indentation at hc
    split at hc
    · rw [List.eq_of_mem_replicate hc]
      rfl
    · cases hc
  obtain ⟨line', hread⟩ := readChars_blanks hindent line run es root
  refine ⟨line', _, fun c hc => ?_, hread⟩
  rcases List.mem_append.mp hc with hc | hc
  · exact hindent c (List.mem_reverse.mp hc)
  · exact blank c hc

theorem readChars_escapeChar_text (c : Char) (line : Nat) (run : List Char) :
    ∃ line', readChars ⟨line, .text run, es, root⟩ (escapeChar c) =
      .ok ⟨line', .text (c :: run), es, root⟩ := by
  unfold escapeChar
  split
  · subst c
    exact ⟨line, rfl⟩
  · split
    · subst c
      exact ⟨line, rfl⟩
    · split
      · subst c
        exact ⟨line, rfl⟩
      · exact readChars_text_char ‹_› ‹_› line run

theorem readChars_escapeChar_value (tag : StartTag) (name : List Char) (c : Char) (line : Nat)
    (run : List Char) :
    ∃ line', readChars ⟨line, .value tag name '"' run, es, root⟩ (escapeChar c) =
      .ok ⟨line', .value tag name '"' (c :: run), es, root⟩ := by
  unfold escapeChar
  split
  · subst c
    exact ⟨line, rfl⟩
  · split
    · subst c
      exact ⟨line, rfl⟩
    · split
      · subst c
        exact ⟨line, rfl⟩
      · exact readChars_value_char ‹_› ‹_› ‹_› tag name line run

/-- An escaped text is read as what it was before. -/
theorem readChars_escape_text (cs : List Char) (line : Nat) (run : List Char)
    (es : List PendingElement) (root : Option Node) :
    ∃ line', readChars ⟨line, .text run, es, root⟩ (escape cs) =
      .ok ⟨line', .text (cs.reverse ++ run), es, root⟩ :=
  readChars_collect (fun c _ => readChars_escapeChar_text c) line run

theorem readChars_escape_value (tag : StartTag) (name cs : List Char) (line : Nat)
    (run : List Char) (es : List PendingElement) (root : Option Node) :
    ∃ line', readChars ⟨line, .value tag name '"' run, es, root⟩ (escape cs) =
      .ok ⟨line', .value tag name '"' (cs.reverse ++ run), es, root⟩ :=
  readChars_collect (fun c _ => readChars_escapeChar_value tag name c) line run

end Collecting

section Tags

/-- The spot is inside of a start tag, behind the name or behind an attribute. -/
inductive InTag : Spot → StartTag → Prop where
  | named (name : List Char) : InTag (.startName name) ⟨name, []⟩
  | tagged (tag : StartTag) : InTag (.startTag tag) tag

variable {spot : Spot} {tag : StartTag} {line : Nat}

/-- What ends a name or an attribute is read in the same way behind both. -/
theorem InTag.step_eq (h : InTag spot tag) {c : Char} (hline : c ≠ '\n')
    (hname : isNameChar c = false) :
    step ⟨line, spot, es, root⟩ c = inStartTag ⟨line, spot, es, root⟩ tag c := by
  cases h with
  | named name => simp [step, hline, hname]
  | tagged tag => simp [step, hline]

def opened (tag : StartTag) (line : Nat) : PendingElement :=
  ⟨String.ofList tag.name.reverse, line, tag.attributes.reverse, []⟩

theorem readChars_tagEnd (h : InTag spot tag) :
    readChars ⟨line, spot, es, root⟩ [ '>'] =
      .ok ⟨line, .text [], opened tag line :: es, root⟩ := by
  rw [readChars, h.step_eq (by decide) (by decide)]
  rfl

theorem readChars_emptyTagEnd (h : InTag spot tag) {r : Reader}
    (hfinish : finishElement ⟨line, .text [], opened tag line :: es, root⟩ = .ok r) :
    readChars ⟨line, spot, es, root⟩ ['/', '>'] = .ok r := by
  have hslash : step ⟨line, spot, es, root⟩ '/' = .ok ⟨line, .emptyTag tag, es, root⟩ := by
    rw [h.step_eq (by decide) (by decide)]
    rfl
  exact readChars_cons_of_step hslash (readChars_cons_of_step hfinish rfl)

/-- An attribute is added behind those of the tag, with the value that was escaped. -/
theorem readChars_attribute (h : InTag spot tag) {name : List Char} (nonempty : name ≠ [])
    (named : ∀ c ∈ name, isNameChar c = true) (value : List Char) (line : Nat)
    (es : List PendingElement) (root : Option Node) :
    ∃ line', readChars ⟨line, spot, es, root⟩ (Writer.attributeChars name value) =
      .ok ⟨line', .startTag { tag with
        attributes := (String.ofList name, String.ofList value) :: tag.attributes }, es, root⟩ := by
  obtain ⟨c, rest, rfl⟩ := List.exists_cons_of_ne_nil nonempty
  obtain ⟨hc, hrest⟩ := List.forall_mem_cons.mp named
  have hblank : step ⟨line, spot, es, root⟩ ' ' = .ok ⟨line, .startTag tag, es, root⟩ := by
    rw [h.step_eq (by decide) (by decide)]
    rfl
  have hfirst : step ⟨line, .startTag tag, es, root⟩ c =
      .ok ⟨line, .attributeName tag [c], es, root⟩ := by
    obtain ⟨hline, hslash, _, _, hgt, hnot⟩ := isNameChar_ne hc
    simp [step, inStartTag, moved, hline, hslash, hgt, hnot, hc]
  have hname : readChars ⟨line, .attributeName tag [c], es, root⟩ rest =
      .ok ⟨line, .attributeName tag (c :: rest).reverse, es, root⟩ := by
    rw [List.reverse_cons]
    exact readChars_name (step_attributeName tag) hrest line [c]
  have hequals : readChars ⟨line, .attributeName tag (c :: rest).reverse, es, root⟩
      "=\"".toList = .ok ⟨line, .value tag (c :: rest).reverse '"' [], es, root⟩ := rfl
  obtain ⟨line', hvalue⟩ :=
    readChars_escape_value tag (c :: rest).reverse value line [] es root
  refine ⟨line', ?_⟩
  have hquote : readChars
      ⟨line', .value tag (c :: rest).reverse '"' (value.reverse ++ []), es, root⟩ ['"'] =
        .ok ⟨line', .startTag { tag with
          attributes := (String.ofList (c :: rest), String.ofList value) :: tag.attributes },
          es, root⟩ := by
    rw [List.append_nil]
    show Except.ok _ = _
    simp only [List.reverse_reverse]
    rfl
  have hstart := readChars_cons_of_step hblank (readChars_cons_of_step hfirst hname)
  exact readChars_append_of_ok
    (readChars_append_of_ok (readChars_append_of_ok hstart hequals) hvalue) hquote

/-- The start of an element behind a text, which is added to the elements first. -/
theorem readChars_tagStart {run : List Char} {es' : List PendingElement}
    (hrun : addText ⟨line, .text run, es, root⟩ run = .ok ⟨line, .text run, es', root⟩)
    {name : List Char} (nonempty : name ≠ []) (named : ∀ c ∈ name, isNameChar c = true) :
    readChars ⟨line, .text run, es, root⟩ ('<' :: name) =
      .ok ⟨line, .startName name.reverse, es', root⟩ := by
  obtain ⟨c, rest, rfl⟩ := List.exists_cons_of_ne_nil nonempty
  obtain ⟨hc, hrest⟩ := List.forall_mem_cons.mp named
  have hopen : step ⟨line, .text run, es, root⟩ '<' = .ok ⟨line, .tag, es', root⟩ := by
    show (·.moved .tag) <$> addText ⟨line, .text run, es, root⟩ run = _
    rw [hrun]
    rfl
  have hfirst : step ⟨line, .tag, es', root⟩ c = .ok ⟨line, .startName [c], es', root⟩ := by
    obtain ⟨hline, hslash, hquestion, hbang, _, _⟩ := isNameChar_ne hc
    simp [step, moved, hline, hslash, hquestion, hbang, hc]
  rw [List.reverse_cons]
  exact readChars_cons_of_step hopen
    (readChars_cons_of_step hfirst (readChars_name step_startName hrest line [c]))

/-- An end tag behind a text, which is added to the elements first. -/
theorem readChars_endTag {run : List Char} {p : PendingElement} {outer : List PendingElement}
    (hrun : addText ⟨line, .text run, es, root⟩ run = .ok ⟨line, .text run, p :: outer, root⟩)
    {name : List Char} (named : ∀ c ∈ name, isNameChar c = true)
    (same : p.name = String.ofList name) {r : Reader}
    (hfinish : finishElement ⟨line, .text [], p :: outer, root⟩ = .ok r) :
    readChars ⟨line, .text run, es, root⟩ ("</".toList ++ name ++ ">".toList) = .ok r := by
  have hopen : step ⟨line, .text run, es, root⟩ '<' = .ok ⟨line, .tag, p :: outer, root⟩ := by
    show (·.moved .tag) <$> addText ⟨line, .text run, es, root⟩ run = _
    rw [hrun]
    rfl
  have hslash : step ⟨line, .tag, p :: outer, root⟩ '/' =
      .ok ⟨line, .endName [], p :: outer, root⟩ := rfl
  have hname : readChars ⟨line, .endName [], p :: outer, root⟩ name =
      .ok ⟨line, .endName (name.reverse ++ []), p :: outer, root⟩ :=
    readChars_name step_endName named line []
  have hend : step ⟨line, .endName (name.reverse ++ []), p :: outer, root⟩ '>' = .ok r := by
    rw [List.append_nil]
    show finishNamed ⟨line, .endName name.reverse, p :: outer, root⟩ name.reverse = .ok r
    rw [finishNamed, if_pos (by simp [same])]
    exact hfinish
  have hstart := readChars_cons_of_step hopen (readChars_cons_of_step hslash hname)
  exact readChars_append_of_ok hstart (readChars_cons_of_step hend rfl)

end Tags

section Elements
variable {line : Nat}

/-- An element with a text behind its children, unless there is none. -/
def withText (p : PendingElement) (run : List Char) : PendingElement :=
  if run.isEmpty then p else { p with children := .text (String.ofList run.reverse) :: p.children }

theorem addText_element (p : PendingElement) (outer : List PendingElement) (run : List Char) :
    addText ⟨line, .text run, p :: outer, root⟩ run =
      .ok ⟨line, .text run, withText p run :: outer, root⟩ := by
  cases run <;> rfl

/-- Blanks outside of the root are dropped. -/
theorem addText_outside {run : List Char} (blank : Text.Blank run) :
    addText ⟨line, .text run, [], root⟩ run = .ok ⟨line, .text run, [], root⟩ := by
  rw [addText]
  split
  · rfl
  · simp [addNode, blank.trim_eq]

/-- The elements behind blanks between tags. -/
def settled (run : List Char) : List PendingElement → List PendingElement
  | [] => []
  | p :: outer => withText p run :: outer

theorem addText_settled {run : List Char} (blank : Text.Blank run)
    (ps : List PendingElement) (line : Nat) (root : Option Node) :
    addText ⟨line, .text run, ps, root⟩ run = .ok ⟨line, .text run, settled run ps, root⟩ := by
  cases ps with
  | nil => exact addText_outside blank
  | cons p outer => exact addText_element p outer run

/-- The root of a document with nothing but blanks behind it. -/
theorem finish_outside {run : List Char} (blank : Text.Blank run) (n : Node) :
    finish ⟨line, .text run, [], some n⟩ = .ok n := by
  simp only [finish, addText_outside blank]
  rfl

def node (p : PendingElement) : Node := .element p.name p.line p.attributes p.children.reverse

/-- A reader behind the end of an element inside of others, or behind the end of the root. -/
def closed (n : Node) (line : Nat) (run : List Char) : List PendingElement → Reader
  | [] => ⟨line, .text run, [], some n⟩
  | p :: outer => ⟨line, .text run, { p with children := n :: p.children } :: outer, none⟩

theorem finishElement_closed (p : PendingElement) (outer : List PendingElement) (line : Nat) :
    finishElement ⟨line, .text [], p :: outer, none⟩ = .ok (closed (node p) line [] outer) := by
  cases outer <;> rfl

theorem readChars_closed_newline (n : Node) (outer : List PendingElement) :
    readChars (closed n line [] outer) "\n".toList =
      .ok (closed n (line + 1) ['\n'] outer) := by
  cases outer <;> rfl

/-- The line of an end tag behind a text, which becomes a node of the element first. -/
theorem readChars_endLine {p : PendingElement} {name : List Char}
    (named : ∀ c ∈ name, isNameChar c = true) (same : p.name = String.ofList name) (line : Nat)
    (run : List Char) (outer : List PendingElement) :
    readChars ⟨line, .text run, p :: outer, none⟩ ("</".toList ++ name ++ ">\n".toList) =
      .ok (closed (node (withText p run)) (line + 1) ['\n'] outer) := by
  have hsame : (withText p run).name = String.ofList name := by
    unfold withText
    split
    · exact same
    · exact same
  have hend := readChars_endTag (addText_element p outer run) named hsame
    (finishElement_closed (withText p run) outer line)
  have hboth := readChars_append_of_ok hend (readChars_closed_newline _ outer)
  rwa [List.append_assoc] at hboth

end Elements

end Reader

end SeismicTree
