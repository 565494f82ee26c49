import Mathlib.Data.List.Forall2
import SeismicTree.Proofs.Outlines
import SeismicTree.Proofs.RefusedCalls
import SeismicTree.Proofs.WrittenPieces

/-!
# Written documents are read back

A reader that follows a writer call by call knows, at every moment, the elements that are open with
all that has been added to them, and is at the spot where the writer stands: inside of a start tag,
between children or in a text. So a document that was written by calls, whichever of them succeeded,
is read as the outline of the successful ones.
-/

namespace SeismicTree
open Markup Reader

def Writer.header : List Char := "<?xml version=\"1.0\" encoding=\"UTF-8\"?>\n".toList

/-- The reader has read what the writer has written behind the header. -/
structure Writer.Reads (w : Writer) (r : Reader) : Prop where
  accepting : w.sink = .accepting
  written : ∃ body, w.written = header ++ body ∧ Reader.start.readChars body = .ok r

/-- An element that is read among others, with blanks around its children. -/
structure Reader.Encloses (p : PendingElement) (o : Outline) : Prop where
  name : p.name = o.name
  attributes : p.attributes = o.attributes
  text : o.text = ""
  children : Node.outlinesAll p.children.reverse = o.children
  blank : Node.BlankTexts p.children

/-- Where a reader stands in the innermost element, inside of those around it. -/
inductive Reader.Within : Phase → Outline → List PendingElement → Reader → Prop where
  | tag {o : Outline} {outer : List PendingElement} {line : Nat} {spot : Spot} {tag : StartTag}
      (inTag : InTag spot tag) (name : String.ofList tag.name.reverse = o.name)
      (attributes : tag.attributes.reverse = o.attributes) (text : o.text = "")
      (children : o.children = []) :
      Within .attributes o outer ⟨line, spot, outer, none⟩
  | children {o : Outline} {outer : List PendingElement} {line : Nat} {run : List Char}
      {p : PendingElement} (blank : Text.Blank run) (encloses : Encloses p o)
      (children : o.children ≠ []) :
      Within .elements o outer ⟨line, .text run, p :: outer, none⟩
  | text {o : Outline} {outer : List PendingElement} {line : Nat} {run : List Char}
      {p : PendingElement} (text : o.text = String.ofList run.reverse) (name : p.name = o.name)
      (attributes : p.attributes = o.attributes) (childless : p.children = [])
      (children : o.children = []) :
      Within .text o outer ⟨line, .text run, p :: outer, none⟩

/-- The open element has the name of the outline, which is one. -/
structure Names (e : OpenElement) (o : Outline) : Prop where
  same : e.name = o.name
  named : ∀ c ∈ o.name.toList, isNameChar c = true

structure Surrounds (e : OpenElement) (o : Outline) : Prop extends Names e o where
  phase : e.phase = .elements
  inactive : e.active = false

/-- A writer whose innermost open element is `e`, a draft of what it has written, and a reader of
it. The reader stands within the innermost element, and the elements around it match one by one. -/
structure Inside (w : Writer) (e : OpenElement) (es : List OpenElement) (o : Outline)
    (os : List Outline) (ps : List PendingElement) (r : Reader) : Prop where
  rooted : w.rooted = true
  elements : w.elements = e :: es
  names : Names e o
  reads : w.Reads r
  within : Within e.phase o ps r
  surrounds : List.Forall₂ Surrounds es os
  encloses : List.Forall₂ Encloses ps os

/-- A writer, and a draft of what it has written: before the root, inside of it or behind it. -/
inductive Follows : Writer → Draft → Prop where
  | before (indented : Bool) : Follows (Writer.begin indented .accepting) Draft.empty
  | inside {w : Writer} {e : OpenElement} {es : List OpenElement} {o : Outline}
      {os : List Outline} {ps : List PendingElement} {r : Reader}
      (inside : Inside w e es o os ps r) : Follows w ⟨o :: os, none⟩
  | behind {w : Writer} {tree : Outline} {node : Node} {line : Nat} {run : List Char}
      (rooted : w.rooted = true) (elements : w.elements = [])
      (reads : w.Reads ⟨line, .text run, [], some node⟩)
      (blank : Text.Blank run) (outline : node.outlines = [tree]) :
      Follows w ⟨[], some tree⟩

section Reads
variable {w : Writer} {r r' : Reader}

theorem Writer.Reads.emit {cs : List Char} (h : w.Reads r) (hcs : r.readChars cs = .ok r') :
    (w.emit cs).Reads r' := by
  obtain ⟨haccepting, body, hwritten, hbody⟩ := h
  rw [Writer.emit, haccepting]
  refine ⟨rfl, body ++ cs, ?_, readChars_append_of_ok hbody hcs⟩
  rw [← List.append_assoc, ← hwritten]

theorem Writer.Reads.changeAt (h : w.Reads r) (depth : Nat)
    (change : OpenElement → OpenElement) : (w.changeAt depth change).Reads r :=
  ⟨h.accepting, h.written⟩

@[simp] theorem Writer.rooted_emit (w : Writer) (cs : List Char) :
    (w.emit cs).rooted = w.rooted := by
  unfold Writer.emit
  split <;> rfl

@[simp] theorem Writer.rooted_changeAt (w : Writer) (depth : Nat)
    (change : OpenElement → OpenElement) : (w.changeAt depth change).rooted = w.rooted := rfl

theorem Reader.Encloses.withText {p : PendingElement} {o : Outline} (h : Encloses p o)
    {run : List Char} (blank : Text.Blank run) :
    Encloses (withText p run) o := by
  unfold Reader.withText
  split
  · exact h
  · refine ⟨h.name, h.attributes, h.text, ?_, ?_⟩
    · rw [List.reverse_cons, Node.outlinesAll_append, h.children]
      exact List.append_nil _
    · exact List.forall_mem_cons.mpr ⟨by simp [blank.trim_eq], h.blank⟩

theorem Reader.Encloses.child {p : PendingElement} {o child : Outline} (h : Encloses p o)
    {n : Node} (outline : n.outlines = [child]) :
    Encloses { p with children := n :: p.children }
      { o with children := o.children ++ [child] } := by
  refine ⟨h.name, h.attributes, h.text, ?_, h.blank.cons outline⟩
  rw [List.reverse_cons, Node.outlinesAll_append, h.children, Node.outlinesAll, outline]
  rfl

/-- The start of an element behind blanks. -/
theorem Writer.Reads.start {line : Nat} {run : List Char} {ps : List PendingElement}
    {root : Option Node} (h : w.Reads ⟨line, .text run, ps, root⟩)
    (blank : Text.Blank run) {name : String} (named : Named name) :
    ∃ line' run', Text.Blank run' ∧
      (w.start name.toList).Reads
        ⟨line', .startName name.toList.reverse, settled run' ps, root⟩ := by
  obtain ⟨line', run', blank', hread⟩ :=
    readChars_indentation w w.elements.length line blank ps root
  have hstart := readChars_tagStart (addText_settled blank' ps line' root) named.toList_ne_nil
    fun c hc => (named.2 c hc).1
  have hreads := h.emit (readChars_append_of_ok hread hstart)
  exact ⟨line', run', blank', hreads.accepting, hreads.written⟩

end Reads

/-- A plain call asks for no element without a name. -/
theorem Markup.Call.Plain.not_opensNameless {call : Call} (plain : call.Plain) (w : Writer) :
    ¬ w.OpensNameless call := by
  cases call with
  | addRoot name =>
    rintro ⟨hempty, _⟩
    exact Named.toList_ne_nil plain (Named.untilNul plain ▸ hempty)
  | addChild depth name =>
    rintro ⟨hempty, _⟩
    exact Named.toList_ne_nil plain (Named.untilNul plain ▸ hempty)
  | addAttribute depth name value => exact id
  | addText depth value => exact id
  | close => exact id
  | move => exact id
  | moveAt depth => exact id

/-- A name is written and read as itself. -/
theorem Markup.Named.names {name : String} (named : Named name) :
    Names ⟨String.ofList name.toList, .attributes, true, true⟩ (.ofName name) :=
  ⟨String.ofList_toList, fun c hc => (named.2 c hc).1⟩

theorem Reader.Within.ofName (name : String) (outer : List PendingElement) (line : Nat) :
    Within .attributes (.ofName name) outer
      ⟨line, .startName name.toList.reverse, outer, none⟩ := by
  refine .tag (.named _) ?_ rfl rfl rfl
  rw [List.reverse_reverse, String.ofList_toList]
  rfl

/-- The node of an element has the outline of the element. -/
theorem Reader.outlines_node {p : PendingElement} {o : Outline} (name : p.name = o.name)
    (attributes : p.attributes = o.attributes) (text : Node.textOf p.children.reverse = o.text)
    (children : Node.outlinesAll p.children.reverse = o.children) : (node p).outlines = [o] := by
  rw [node, Node.outlines, name, attributes, text, children]
  cases o
  rfl

/-- The node of an element without children has its text, even if that is empty. -/
theorem Reader.outlines_withText {p : PendingElement} {o : Outline} {run : List Char}
    (name : p.name = o.name) (attributes : p.attributes = o.attributes)
    (childless : p.children = []) (text : o.text = String.ofList run.reverse)
    (children : o.children = []) : (node (withText p run)).outlines = [o] := by
  unfold withText
  split
  · rename_i hempty
    refine outlines_node name attributes ?_ ?_
    · rw [childless, text, List.isEmpty_iff.mp hempty]
      rfl
    · rw [childless, children]
      rfl
  · refine outlines_node name attributes ?_ ?_
    · rw [childless, text]
      rfl
    · rw [childless, children]
      rfl

/-- The node of an element with children has no text, whatever blanks are around them. -/
theorem Reader.Encloses.outlines {p : PendingElement} {o : Outline} (h : Encloses p o)
    (children : o.children ≠ []) : (node p).outlines = [o] := by
  have htext := Node.textOf_of_blankTexts h.blank.reverse (h.children ▸ children)
  exact outlines_node h.name h.attributes (htext.trans h.text.symm) h.children

namespace Inside
variable {w : Writer} {e : OpenElement} {es : List OpenElement} {o : Outline} {os : List Outline}
  {ps : List PendingElement} {r : Reader}

theorem inactive (h : Inside w e es o os ps r) : ∀ x ∈ es, x.active = false := by
  have hsurrounds := h.surrounds
  clear h
  induction hsurrounds with
  | nil => exact fun _ hx => absurd hx List.not_mem_nil
  | cons hfirst _ ih => exact List.forall_mem_cons.mpr ⟨hfirst.inactive, ih⟩

theorem elementAt? (h : Inside w e es o os ps r) : w.elementAt? es.length = some e :=
  Writer.elementAt?_innermost h.elements

/-- Where an element has a child or can have one, the reader comes to stand between children. -/
theorem reads_opened (h : Inside w e es o os ps r) (notext : e.phase ≠ .text) :
    ∃ line run p, Text.Blank run ∧ Encloses p o ∧
      (w.opened es.length).Reads ⟨line, .text run, p :: ps, none⟩ := by
  have hat := h.elementAt?
  obtain ⟨_, elements, _, reads, within, _, _⟩ := h
  obtain ⟨ename, phase, active, handsBack⟩ := e
  cases within with
  | @tag _ _ line spot tag inTag hname attributes text children =>
    have hmark : w.endOfTag es.length ">\n" = ['>'] ++ ['\n'] := by
      simp [Writer.endOfTag, hat]
    have hnewline : readChars ⟨line, .text [], opened tag line :: ps, none⟩ ['\n'] =
        .ok ⟨line + 1, .text ['\n'], opened tag line :: ps, none⟩ := rfl
    have hread := reads.emit (readChars_append_of_ok (readChars_tagEnd inTag) hnewline)
    refine ⟨line + 1, ['\n'], opened tag line, isBlank_newline, ?_, (hmark ▸ hread).changeAt _ _⟩
    exact ⟨hname, attributes, text, children.symm, fun t ht => absurd ht List.not_mem_nil⟩
  | @children _ _ line run p blank encloses children =>
    rw [Writer.opened_of_elements hat rfl]
    exact ⟨line, run, p, blank, encloses, reads⟩
  | text => exact absurd rfl notext

/-- Where an element has text or can have some, more text is read behind it. -/
theorem reads_text (h : Inside w e es o os ps r) (nochild : e.phase ≠ .elements)
    (cs : List Char) :
    ∃ r', (w.emit (w.endOfTag es.length ">" ++ escape cs)).Reads r' ∧
      Within .text { o with text := o.text ++ String.ofList cs } ps r' := by
  have hat := h.elementAt?
  obtain ⟨_, elements, _, reads, within, _, _⟩ := h
  obtain ⟨ename, phase, active, handsBack⟩ := e
  cases within with
  | @tag _ _ line spot tag inTag hname attributes text children =>
    have hmark : w.endOfTag es.length ">" = ['>'] := by simp [Writer.endOfTag, hat]
    obtain ⟨line', hcs⟩ := readChars_escape_text cs line [] (opened tag line :: ps) none
    have hread := reads.emit (readChars_append_of_ok (readChars_tagEnd inTag) hcs)
    refine ⟨_, hmark ▸ hread, .text ?_ hname attributes rfl children⟩
    simp [text]
  | children => exact absurd rfl nochild
  | @text _ _ line run p text hname attributes childless children =>
    have hmark : w.endOfTag es.length ">" = [] := by simp [Writer.endOfTag, hat]
    obtain ⟨line', hcs⟩ := readChars_escape_text cs line run (p :: ps) none
    rw [hmark]
    refine ⟨_, reads.emit hcs, .text ?_ hname attributes childless children⟩
    simp [text]

/-- Behind the end of an element the reader has the node of its outline. -/
theorem reads_close (h : Inside w e es o os ps r) :
    ∃ n line, Node.outlines n = [o] ∧ w.close.Reads (closed n line ['\n'] ps) := by
  obtain ⟨_, elements, names, reads, within, _, _⟩ := h
  have hname : o.name = String.ofList e.name.toList := by
    rw [String.ofList_toList, names.same]
  have hnamed : ∀ c ∈ e.name.toList, isNameChar c = true := names.same ▸ names.named
  obtain ⟨ename, phase, active, handsBack⟩ := e
  rw [Writer.close, elements]
  cases within with
  | @tag _ _ line spot tag inTag hname attributes text children =>
    have hread := reads.emit (readChars_append_of_ok
      (readChars_emptyTagEnd inTag (finishElement_closed (opened tag line) ps line))
      (readChars_closed_newline _ ps))
    have houtline : (node (opened tag line)).outlines = [o] :=
      outlines_node hname attributes text.symm children.symm
    exact ⟨_, line + 1, houtline, hread.accepting, hread.written⟩
  | @children _ _ line run p blank encloses children =>
    obtain ⟨line', run', blank', hblanks⟩ :=
      readChars_indentation w es.length line blank (p :: ps) none
    have hread := reads.emit (readChars_append_of_ok hblanks
      (readChars_endLine hnamed (encloses.name.trans hname) line' run' ps))
    have houtline := (encloses.withText blank').outlines children
    exact ⟨_, line' + 1, houtline, hread.accepting, hread.written⟩
  | @text _ _ line run p text hname' attributes childless children =>
    have hread := reads.emit (readChars_endLine hnamed (hname'.trans hname) line run ps)
    have houtline := outlines_withText hname' attributes childless text children
    exact ⟨_, line + 1, houtline, hread.accepting, hread.written⟩

end Inside

/-- The elements differ at most in whether they hand the writing back. -/
structure Markup.OpenElement.Alike (e e' : OpenElement) : Prop where
  name : e.name = e'.name
  phase : e.phase = e'.phase
  active : e.active = e'.active

theorem Writer.forall₂_alike_move (w : Writer) (depth : Nat) :
    List.Forall₂ OpenElement.Alike (w.move depth).elements w.elements := by
  have hmodify (es : List OpenElement) (i : Nat) :
      List.Forall₂ OpenElement.Alike (es.modify i ({ · with handsBack := false })) es := by
    induction es generalizing i with
    | nil =>
      rw [List.modify_nil]
      exact .nil
    | cons e es ih =>
      cases i with
      | zero => exact .cons ⟨rfl, rfl, rfl⟩ (List.forall₂_same.mpr fun _ _ => ⟨rfl, rfl, rfl⟩)
      | succ i => exact .cons ⟨rfl, rfl, rfl⟩ (ih i)
  have hreverse := List.forall₂_reverse_iff.mpr (hmodify w.elements.reverse (depth + 1))
  rwa [List.reverse_reverse] at hreverse

theorem Surrounds.of_alike {e e' : OpenElement} {o : Outline} (alike : e'.Alike e)
    (h : Surrounds e o) : Surrounds e' o :=
  ⟨⟨alike.name.trans h.same, h.named⟩, alike.phase.trans h.phase, alike.active.trans h.inactive⟩

/-- Elements that are moved stay where they are in the document. -/
theorem Inside.move {w : Writer} {e : OpenElement} {es : List OpenElement} {o : Outline}
    {os : List Outline} {ps : List PendingElement} {r : Reader} (h : Inside w e es o os ps r)
    (depth : Nat) : ∃ e' es', Inside (w.move depth) e' es' o os ps r := by
  have hmove := w.forall₂_alike_move depth
  rw [h.elements] at hmove
  obtain ⟨e', es', halike, hrest, helements⟩ := List.forall₂_cons_right_iff.mp hmove
  have hsurrounds : List.Forall₂ Surrounds es' os := by
    have hes := h.surrounds
    clear h helements hmove
    induction hrest generalizing os with
    | nil => exact hes
    | cons hfirst _ ih =>
      cases hes with
      | cons hparent hes => exact .cons (.of_alike hfirst hparent) (ih hes)
  exact ⟨e', es', h.rooted, helements, ⟨halike.name.trans h.names.same, h.names.named⟩,
    h.reads.changeAt _ _, halike.phase ▸ h.within, hsurrounds, h.encloses⟩

namespace Follows
variable {w w' : Writer} {d : Draft} {depth : Nat} {name : String} {value : Value}

/-- A writer with an active element is inside of the root, and that element is the innermost one. -/
theorem exists_inside (h : Follows w d) (active : w.isActive depth = true) :
    ∃ e es o os ps r, d = ⟨o :: os, none⟩ ∧ depth = es.length ∧ Inside w e es o os ps r := by
  have hnil (hend : w.elements = []) : False := by
    simp [Writer.isActive, Writer.elementAt?, hend] at active
  cases h with
  | before indented => exact (hnil rfl).elim
  | @inside _ e es o os ps r inside =>
    have hdepth := (Writer.eq_innermost_of_isActive inside.elements inside.inactive active).1
    exact ⟨e, es, o, os, ps, r, rfl, hdepth, inside⟩
  | behind rooted elements => exact (hnil elements).elim

theorem addRoot (h : Follows w d) (named : Named name)
    (hok : w.after (.addRoot name) = (.ok (), w')) : Follows w' (d.opening name) := by
  obtain ⟨hrooted, rfl⟩ := Writer.after_addRoot_ok hok
  cases h with
  | before indented =>
    have hreads : ({ Writer.begin indented .accepting with rooted := true } : Writer).Reads
        Reader.start := ⟨rfl, [], rfl, rfl⟩
    obtain ⟨line, run, _, hstart⟩ := hreads.start nofun named
    rw [named.untilNul]
    exact .inside ⟨rfl, rfl, named.names, hstart, .ofName name [] line, .nil, .nil⟩
  | inside inside => rw [inside.rooted] at hrooted; cases hrooted
  | behind rooted => rw [rooted] at hrooted; cases hrooted

theorem addChild (h : Follows w d) (named : Named name)
    (hok : w.after (.addChild depth name) = (.ok (), w')) : Follows w' (d.opening name) := by
  obtain ⟨hactive, htext, rfl⟩ := Writer.after_addChild_ok hok
  obtain ⟨e, es, o, os, ps, r, rfl, rfl, inside⟩ := h.exists_inside hactive
  have notext : e.phase ≠ .text := by simpa [inside.elementAt?] using htext
  obtain ⟨line, run, p, blank, hencloses, hopened⟩ := inside.reads_opened notext
  obtain ⟨line', run', blank', hstart⟩ := (hopened.changeAt es.length _).start blank named
  have hrooted : (((w.opened es.length).suspend es.length).start name.toList).rooted = true := by
    simpa [Writer.start, Writer.opened, Writer.enter, Writer.suspend] using inside.rooted
  have hstarted : (((w.opened es.length).suspend es.length).start name.toList).elements =
      ⟨String.ofList name.toList, .attributes, true, true⟩ ::
        { e with phase := .elements, active := false } :: es := by
    have hsuspended := Writer.elements_opened inside.elements
    simp [Writer.start, Writer.suspend, Writer.elements_changeAt_innermost hsuspended]
  have hsurrounds : Surrounds { e with phase := .elements, active := false } o :=
    ⟨⟨inside.names.same, inside.names.named⟩, rfl, rfl⟩
  rw [named.untilNul]
  exact .inside ⟨hrooted, hstarted, named.names, hstart, .ofName name _ line',
    .cons hsurrounds inside.surrounds, .cons (hencloses.withText blank') inside.encloses⟩

theorem addAttribute (h : Follows w d) (named : Named name) (plain : value.Plain)
    (hok : w.after (.addAttribute depth name value) = (.ok (), w')) :
    Follows w' (d.record (.addAttribute depth name value)) := by
  obtain ⟨hactive, hattributes, rfl⟩ := Writer.after_addAttribute_ok hok
  obtain ⟨e, es, o, os, ps, r, rfl, rfl, inside⟩ := h.exists_inside hactive
  have hphase : e.phase = .attributes := by simpa [inside.elementAt?] using hattributes
  obtain ⟨rooted, elements, names, reads, within, surrounds, encloses⟩ := inside
  obtain ⟨ename, phase, active, handsBack⟩ := e
  cases hphase
  cases within with
  | @tag _ _ line spot tag inTag hname attributes text children =>
    obtain ⟨line', hread⟩ := readChars_attribute inTag named.toList_ne_nil
      (fun c hc => (named.2 c hc).1) value.chars line ps none
    rw [named.untilNul]
    refine .inside ⟨by simpa using rooted, by simpa using elements, ⟨names.same, names.named⟩,
      reads.emit hread, .tag (.tagged _) hname ?_ text children, surrounds, encloses⟩
    rw [List.reverse_cons, attributes, String.ofList_toList, plain.chars_eq,
      String.ofList_toList]

theorem addText (h : Follows w d) (plain : value.Plain)
    (hok : w.after (.addText depth value) = (.ok (), w')) :
    Follows w' (d.record (.addText depth value)) := by
  obtain ⟨hactive, hchildless, rfl⟩ := Writer.after_addText_ok hok
  obtain ⟨e, es, o, os, ps, r, rfl, rfl, inside⟩ := h.exists_inside hactive
  have nochild : e.phase ≠ .elements := by simpa [inside.elementAt?] using hchildless
  obtain ⟨r', hreads, hwithin⟩ := inside.reads_text nochild value.chars
  have hshown : String.ofList value.chars = value.shown := by
    rw [plain.chars_eq, String.ofList_toList]
  rw [hshown] at hwithin
  exact .inside ⟨by simpa [Writer.enter] using inside.rooted,
    Writer.elements_changeAt_innermost (by simpa using inside.elements),
    ⟨inside.names.same, inside.names.named⟩, hreads.changeAt _ _, hwithin, inside.surrounds,
    inside.encloses⟩

theorem close (h : Follows w d) : Follows w.close d.close := by
  cases h with
  | before indented => exact .before indented
  | @inside _ e es o os ps r inside =>
    obtain ⟨n, line, houtline, hreads⟩ := inside.reads_close
    have helements := Writer.elements_close inside.elements
    have hrooted : w.close.rooted = true := by
      rw [Writer.close, inside.elements]
      simpa using inside.rooted
    have hsurrounds := inside.surrounds
    have hencloses := inside.encloses
    cases hsurrounds with
    | nil =>
      cases hencloses
      rw [Writer.handBack_nil] at helements
      exact .behind hrooted helements hreads isBlank_newline houtline
    | @cons e' o' es' os' hparent hsurrounds =>
      cases hencloses with
      | @cons p _ ps' _ hpending hencloses =>
        rw [Writer.handBack_cons e es' hparent.inactive] at helements
        have hwithin : Within e'.phase { o' with children := o'.children ++ [o] } ps'
            (closed n line ['\n'] (p :: ps')) := by
          rw [hparent.phase]
          exact .children isBlank_newline (hpending.child houtline) (by simp)
        exact .inside ⟨hrooted, helements, ⟨hparent.same, hparent.named⟩, hreads, hwithin,
          hsurrounds, hencloses⟩
  | behind rooted elements reads blank outline =>
    have hclose : w.close = w := by rw [Writer.close, elements]
    rw [hclose]
    exact .behind rooted elements reads blank outline

theorem move (h : Follows w d) (depth : Nat) : Follows (w.move depth) d := by
  have hnone (hend : w.elements = []) : w.move depth = w :=
    Writer.changeAt_eq_self fun e he => by simp [Writer.elementAt?, hend] at he
  cases h with
  | before indented =>
    rw [hnone rfl]
    exact .before indented
  | inside inside =>
    obtain ⟨e', es', inside⟩ := inside.move depth
    exact .inside inside
  | behind rooted elements reads blank outline =>
    rw [hnone elements]
    exact .behind rooted elements reads blank outline

theorem after {call : Call} (h : Follows w d) (plain : call.Plain)
    (hok : w.after call = (.ok (), w')) : Follows w' (d.record call) := by
  cases call with
  | addRoot name => exact h.addRoot plain hok
  | addChild depth name => exact h.addChild plain hok
  | addAttribute depth name value => exact h.addAttribute plain.1 plain.2 hok
  | addText depth value => exact h.addText plain hok
  | close =>
    cases hok
    exact h.close
  | move =>
    cases hok
    exact h.move _
  | moveAt depth =>
    cases hok
    exact h.move depth

theorem run {calls : List Call} (h : Follows w d) (plain : ∀ call ∈ calls, call.Plain) :
    Follows (w.run calls) ((w.accepted calls).foldl Draft.record d) := by
  induction calls generalizing w d with
  | nil => exact h
  | cons call calls ih =>
    obtain ⟨hcall, hcalls⟩ := List.forall_mem_cons.mp plain
    rw [Writer.run_cons, Writer.accepted]
    cases hstep : w.after call with
    | mk outcome left =>
      cases outcome with
      | ok =>
        exact ih (h.after hcall hstep) hcalls
      | error f =>
        have hfails : Fails (w.after call).1 := ⟨f, by rw [hstep]⟩
        have hleft := Writer.after_eq_of_fails hfails (hcall.not_opensNameless w)
        rw [hstep] at hleft
        cases hleft
        exact ih h hcalls

theorem length_eq (h : Follows w d) : w.elements.length = d.elements.length := by
  cases h with
  | before => rfl
  | inside inside =>
    rw [inside.elements, List.length_cons, List.length_cons, inside.surrounds.length_eq]
  | behind _ elements => rw [elements]; rfl

theorem closeAll (h : Follows w d) : Follows w.closeAll d.closeAll := by
  have hfold (es : List OpenElement) (os : List Outline) (hlength : es.length = os.length) :
      Follows (es.foldl (fun w' _ => w'.close) w) (os.foldl (fun d' _ => d'.close) d) := by
    induction es generalizing os w d with
    | nil =>
      cases List.length_eq_zero_iff.mp hlength.symm
      exact h
    | cons e es ih =>
      cases os with
      | nil => cases hlength
      | cons o os => exact ih h.close os (Nat.succ.inj hlength)
  exact hfold w.elements d.elements h.length_eq

end Follows

/-- The text behind the header of a document: nothing without a root, and otherwise a text that is
read as the root. -/
def Markup.Shows (body : List Char) : Option Outline → Prop
  | none => body = []
  | some tree => ∃ n, Reader.parse (String.ofList body) = .ok n ∧ n.outlines = [tree]

/-- A document without open elements shows the root of its draft. -/
theorem Follows.shows {w : Writer} {d : Draft} (h : Follows w d) (ended : w.elements = []) :
    ∃ body, w.written = Writer.header ++ body ∧ Shows body d.root := by
  cases h with
  | before indented => exact ⟨[], rfl, rfl⟩
  | inside inside => rw [inside.elements] at ended; cases ended
  | @behind _ tree n line run rooted elements reads blank outline =>
    obtain ⟨body, hwritten, hbody⟩ := reads.written
    refine ⟨body, hwritten, n, ?_, outline⟩
    rw [Reader.parse, String.toList_ofList, hbody]
    show Except.mapError _ (Reader.finish ⟨line, .text run, [], some n⟩) = .ok n
    rw [finish_outside blank]
    rfl

namespace Writer
variable {w : Writer}

theorem elements_closeAll (w : Writer) : w.closeAll.elements = [] := by
  have hfold (es : List OpenElement) (w : Writer) (hlength : w.elements.length = es.length) :
      (es.foldl (fun w' _ => w'.close) w).elements = [] := by
    induction es generalizing w with
    | nil => exact List.length_eq_zero_iff.mp hlength
    | cons e es ih =>
      obtain ⟨e', es', helements⟩ := List.exists_cons_of_length_eq_add_one hlength
      refine ih w.close ?_
      rw [elements_close helements, length_handBack]
      simpa [helements] using hlength
  exact hfold w.elements w rfl

/-- What is to be added to an inactive element is refused, and everything stays as it is. -/
theorem after_inactive {call : Call} {depth : Nat} (hdepth : call.depth? = some depth)
    (inactive : w.isActive depth = false) :
    ∃ f, f.kind = .stream ∧ w.after call = (.error f, w) := by
  cases call with
  | addChild depth' name =>
    cases hdepth
    rw [after_addChild]
    split
    · exact ⟨_, rfl, rfl⟩
    · exact ⟨refusal .inactive, rfl, if_pos (by simp [inactive])⟩
  | addAttribute depth' name value =>
    cases hdepth
    rw [after_addAttribute]
    exact ⟨refusal .inactive, rfl, if_pos (by simp [inactive])⟩
  | addText depth' value =>
    cases hdepth
    rw [after_addText]
    split
    · exact ⟨_, rfl, rfl⟩
    · exact ⟨refusal .inactive, rfl, if_pos (by simp [inactive])⟩
  | addRoot name => cases hdepth
  | close => cases hdepth
  | move => cases hdepth
  | moveAt depth => cases hdepth

/-- The element inside of a moved one does not hand the writing back to it, so that nothing is added
to a moved element any more once another one has been open inside of it. -/
theorem after_move_close {e parent : OpenElement} {es : List OpenElement}
    (elements : w.elements = e :: parent :: es) (inactive : parent.active = false) {call : Call}
    (hdepth : call.depth? = some es.length) :
    ∃ f, f.kind = .stream ∧
      (w.move es.length).close.after call = (.error f, (w.move es.length).close) := by
  refine after_inactive hdepth ?_
  have hclosed : (w.move es.length).close.elements = { parent with active := false } :: es := by
    rw [elements_close (elements_move elements), handBack_cons _ _ inactive]
  rw [isActive, elementAt?_innermost hclosed]
  rfl

end Writer

theorem Follows.not_isActive {w : Writer} {d : Draft} (h : Follows w d) {depth : Nat}
    (outer : depth + 1 ≠ w.elements.length) : w.isActive depth = false := by
  by_contra hactive
  obtain ⟨e, es, _, _, _, _, _, rfl, inside⟩ := h.exists_inside (Bool.not_eq_false _ ▸ hactive)
  exact outer (by rw [inside.elements, List.length_cons])

namespace Writer

/-- Whatever plain calls are made, the document that remains when all elements are closed is a
header and a text that is read as the outline of the successful calls. Behind any of the calls, what
is to be added to an element that is not the innermost one is refused, and writes nothing. Any
element can be moved, which writes nothing either. -/
theorem run_reads_back (indented : Bool) {calls : List Call}
    (plain : ∀ call ∈ calls, call.Plain) :
    (∃ body, ((begin indented .accepting).run calls).closeAll.written = header ++ body ∧
      Shows body (Draft.ofCalls ((begin indented .accepting).accepted calls)).closeAll.root) ∧
    (∀ call depth, call.depth? = some depth →
      depth + 1 ≠ ((begin indented .accepting).run calls).elements.length →
        ∃ f, f.kind = .stream ∧ ((begin indented .accepting).run calls).after call =
          (.error f, (begin indented .accepting).run calls)) ∧
    ∀ depth, (((begin indented .accepting).run calls).after (.moveAt depth)).1 = .ok () ∧
      (((begin indented .accepting).run calls).after (.moveAt depth)).2.written =
        ((begin indented .accepting).run calls).written := by
  have hfollows := (Follows.before indented).run plain
  refine ⟨hfollows.closeAll.shows (elements_closeAll _), ?_, fun depth => ⟨rfl, rfl⟩⟩
  exact fun call depth hdepth outer => after_inactive hdepth (hfollows.not_isActive outer)

/-- Calls of which three are refused: text beside a child, a second root, and another child of the
root, which was moved while a child was open. -/
def someCalls : List Call :=
  [.addRoot "r", .addAttribute 0 "a" (.text "x<y"), .addChild 0 "c", .addText 0 (.text "no"),
    .addText 1 (.text "1 & 2"), .moveAt 0, .close, .addRoot "s", .addChild 0 "d"]

theorem run_reads_back_someCalls :
    (∀ call ∈ someCalls, call.Plain) ∧
      ∃ body n, ((begin true .accepting).run someCalls).closeAll.written = header ++ body ∧
        Reader.parse (String.ofList body) = .ok n ∧
        n.outlines = [⟨"r", [("a", "x<y")], "", [⟨"c", [], "1 & 2", []⟩]⟩] := by
  have hplain : ∀ call ∈ someCalls, call.Plain := by decide
  obtain ⟨⟨body, hwritten, hshows⟩, _⟩ := run_reads_back true hplain
  have hroot : (Draft.ofCalls ((begin true .accepting).accepted someCalls)).closeAll.root =
      some ⟨"r", [("a", "x<y")], "", [⟨"c", [], "1 & 2", []⟩]⟩ := rfl
  rw [hroot] at hshows
  obtain ⟨n, hparse, houtline⟩ := hshows
  exact ⟨hplain, body, n, hwritten, hparse, houtline⟩

/-- Two numbers that differ behind their twelfth digit are written as the same text, so that neither
can be read back from it. An element is moved although another one is open inside of it. -/
theorem written_alike_and_outer_moved :
    ((0.1 + 0.2 : Binary64) ≠ 0.3 ∧
      ((begin true .accepting).run
        [.addRoot "r", .addAttribute 0 "a" (.number (0.1 + 0.2))]).closeAll.written =
      ((begin true .accepting).run
        [.addRoot "r", .addAttribute 0 "a" (.number 0.3)]).closeAll.written) ∧
    ((begin true .accepting).run [.addRoot "r", .addChild 0 "c"]).elements.length = 2 ∧
      (((begin true .accepting).run [.addRoot "r", .addChild 0 "c"]).after
        (.moveAt 0)).1 = .ok () := by
  refine ⟨⟨by decide +kernel, ?_⟩, rfl, rfl⟩
  have hsum : (0.1 + 0.2 : Binary64).numeral = .finite false 5404319552844596 (2 ^ 54) := by
    decide +kernel
  have hliteral : (0.3 : Binary64).numeral = .finite false 5404319552844595 (2 ^ 54) := by
    decide +kernel
  have hdigits : Decimal.significant 12 5404319552844596 (2 ^ 54) =
      Decimal.significant 12 5404319552844595 (2 ^ 54) := by decide +kernel
  have htext : (0.1 + 0.2 : Binary64).twelveDigits = (0.3 : Binary64).twelveDigits := by
    rw [Binary64.twelveDigits_of_finite hsum (by decide),
      Binary64.twelveDigits_of_finite hliteral (by decide), hdigits]
  simp only [run_cons, run_nil, after_addAttribute, Value.chars, htext]

end Writer

end SeismicTree
