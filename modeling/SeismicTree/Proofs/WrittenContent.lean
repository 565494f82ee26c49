import SeismicTree.Markup.Content
import SeismicTree.Proofs.WrittenDocuments

/-!
# Written content is read back

Content with plain names and values is written without a call being refused, whatever its shape: an
element is opened where the writer takes one, and each call finds the element it is made on to be
the innermost one. So a reader gets the content back as a whole.
-/

namespace SeismicTree
open Markup

namespace Markup.Content

def PlainAttributes (attributes : List (String × Value)) : Prop :=
  ∀ a ∈ attributes, Named a.1 ∧ a.2.Plain

instance (attributes : List (String × Value)) : Decidable (PlainAttributes attributes) :=
  inferInstanceAs (Decidable (∀ a ∈ attributes, Named a.1 ∧ a.2.Plain))

section Attributes
variable {attributes : List (String × Value)} {name : String} {value : Value}

theorem plainAttributes_nil : PlainAttributes [] := fun _ ha => absurd ha List.not_mem_nil

theorem PlainAttributes.cons (named : Named name) (plain : value.Plain)
    (rest : PlainAttributes attributes) : PlainAttributes ((name, value) :: attributes) :=
  List.forall_mem_cons.mpr ⟨⟨named, plain⟩, rest⟩

end Attributes

mutual

def Plain : Content → Prop
  | .withText name attributes texts =>
    Named name ∧ PlainAttributes attributes ∧ ∀ t ∈ texts, t.Plain
  | .withChildren name attributes children =>
    Named name ∧ PlainAttributes attributes ∧ PlainAll children

def PlainAll : List Content → Prop
  | [] => True
  | c :: cs => c.Plain ∧ PlainAll cs

end

def shownAttributes (attributes : List (String × Value)) : List (String × String) :=
  attributes.map fun a => (a.1, a.2.shown)

mutual

def outline : Content → Outline
  | .withText name attributes texts =>
    { name, attributes := shownAttributes attributes, text := String.join (texts.map Value.shown)
      children := [] }
  | .withChildren name attributes children =>
    { name, attributes := shownAttributes attributes, text := "", children := outlineAll children }

def outlineAll : List Content → List Outline
  | [] => []
  | c :: cs => c.outline :: outlineAll cs

end

theorem plainAll_iff {cs : List Content} : PlainAll cs ↔ ∀ c ∈ cs, c.Plain := by
  induction cs with
  | nil => simp [PlainAll]
  | cons c cs ih => rw [PlainAll, ih, List.forall_mem_cons]

end Markup.Content

/-- The draft with a whole element added to the innermost one. -/
def Markup.Draft.adding (d : Draft) (o : Outline) : Draft :=
  Draft.close { d with elements := o :: d.elements }

/-- The operation succeeds on a writer, and leaves one behind whose draft is `d'` if it was `d`
before. -/
structure Writes (x : Writing Unit) (w w' : Writer) (d d' : Draft) : Prop where
  run : x.run w = (.ok (), w')
  sink : w'.sink = w.sink
  follows : Follows w d → Follows w' d'

namespace Writer
variable {w : Writer}

@[simp] theorem sink_emit (w : Writer) (cs : List Char) : (w.emit cs).sink = w.sink := by
  unfold emit
  split <;> rfl

@[simp] theorem sink_changeAt (w : Writer) (depth : Nat) (change : OpenElement → OpenElement) :
    (w.changeAt depth change).sink = w.sink := rfl

/-- No call changes where the text goes. -/
theorem sink_after (w : Writer) (call : Call) : (w.after call).2.sink = w.sink := by
  cases call with
  | addRoot name =>
    rw [after_addRoot]
    split
    · rfl
    · split <;> simp [start]
  | addChild depth name =>
    rw [after_addChild]
    split
    · rfl
    · split
      · rfl
      · split <;> simp [start, opened, enter, suspend]
  | addAttribute depth name value =>
    rw [after_addAttribute]
    split
    · rfl
    · split
      · rfl
      · split <;> simp
  | addText depth value =>
    rw [after_addText]
    split
    · rfl
    · split <;> simp [enter]
  | close =>
    rw [after_close, close]
    split <;> simp
  | move => rfl
  | moveAt depth => rfl

/-- The writer takes another element: the root, or a child of the innermost element. -/
def Ready (w : Writer) : Prop :=
  match w.elements with
  | [] => w.rooted = false
  | e :: _ => e.phase ≠ .text ∧ e.active = true

/-- The elements around another one that has been opened. -/
def around (w : Writer) : List OpenElement :=
  w.elements.modifyHead ({ · with phase := .elements, active := false })

/-- The elements after another one has been written as a whole. -/
def resumed (w : Writer) : List OpenElement := w.elements.modifyHead ({ · with phase := .elements })

theorem handBack_around {e : OpenElement} (ready : w.Ready) (handsBack : e.handsBack = true) :
    e.handBack w.around = w.resumed := by
  rw [Ready] at ready
  rw [OpenElement.handBack, if_pos handsBack, around, resumed]
  cases helements : w.elements with
  | nil => rfl
  | cons parent es =>
    rw [helements] at ready
    simp [← ready.2]

section Accepted
variable {e : OpenElement} {es : List OpenElement} {name : String} {value : Value}

theorem isActive_innermost (h : w.elements = e :: es) (active : e.active = true) :
    w.isActive es.length = true := by
  rw [isActive, elementAt?_innermost h]
  exact active

theorem untilNul_not_isEmpty (named : Named name) : ¬ (Text.untilNul name).isEmpty = true := by
  rw [named.untilNul, List.isEmpty_iff]
  exact named.toList_ne_nil

theorem after_addRoot_unrooted (named : Named name) (unrooted : w.rooted = false) :
    w.after (.addRoot name) = (.ok (), start { w with rooted := true } name.toList) := by
  rw [after_addRoot, if_neg (by simp [unrooted]), if_neg (untilNul_not_isEmpty named),
    named.untilNul]

theorem after_addChild_innermost (named : Named name) (h : w.elements = e :: es)
    (phase : e.phase ≠ .text) (active : e.active = true) :
    w.after (.addChild es.length name) =
      (.ok (), ((w.opened es.length).suspend es.length).start name.toList) := by
  have hat := elementAt?_innermost h
  have hactive := isActive_innermost h active
  rw [after_addChild, if_neg (by simp [hat, phase]), if_neg (by simp [hactive]),
    if_neg (untilNul_not_isEmpty named), named.untilNul]

theorem after_addAttribute_innermost (named : Named name) (h : w.elements = e :: es)
    (phase : e.phase = .attributes) (active : e.active = true) :
    w.after (.addAttribute es.length name value) =
      (.ok (), w.emit (attributeChars name.toList value.chars)) := by
  have hat := elementAt?_innermost h
  have hactive := isActive_innermost h active
  rw [after_addAttribute, if_neg (by simp [hactive]), if_neg (by simp [hat, phase]),
    if_neg (untilNul_not_isEmpty named), named.untilNul]

theorem after_addText_innermost (h : w.elements = e :: es) (phase : e.phase ≠ .elements)
    (active : e.active = true) :
    w.after (.addText es.length value) =
      (.ok (),
        (w.emit (w.endOfTag es.length ">" ++ escape value.chars)).enter es.length .text) := by
  have hat := elementAt?_innermost h
  have hactive := isActive_innermost h active
  rw [after_addText, if_neg (by simp [hat, phase]), if_neg (by simp [hactive])]

end Accepted

end Writer

section Calls
variable {w w' w₁ : Writer} {d d' d₁ : Draft} {x y : Writing Unit}
variable {e : OpenElement} {es : List OpenElement} {o : Outline} {os : List Outline}
variable {root : Option Outline} {name : String} {value : Value}

theorem Writer.run_bind_of_ok {α β : Type} {x : Writing α} {f : α → Writing β} {a : α}
    (h : x.run w = (.ok a, w')) : (x >>= f).run w = (f a).run w' := by
  rw [ExceptT.run_bind]
  change StateT.bind x.run _ w = _
  rw [StateT.bind, h]
  rfl

theorem Writes.bind (h : Writes x w w₁ d d₁) (h' : Writes y w₁ w' d₁ d') :
    Writes (x >>= fun _ => y) w w' d d' where
  run := (Writer.run_bind_of_ok h.run).trans h'.run
  sink := h'.sink.trans h.sink
  follows hf := h'.follows (h.follows hf)

/-- What is done depends on the writer. -/
theorem writes_get {f : Writer → Writing Unit} (h : Writes (f w) w w' d d') :
    Writes (get >>= f) w w' d d' :=
  ⟨h.run, h.sink, h.follows⟩

/-- A plain call that succeeds. -/
theorem writes_call {call : Call} (plain : call.Plain) (h : w.after call = (.ok (), w')) :
    Writes (Writer.perform call) w w' d (d.record call) where
  run := h
  sink := by rw [← Writer.sink_after w call, h]
  follows hf := hf.after plain h

/-- The call that opens an element inside of the innermost one, or the root. -/
def Writer.opensWith (w : Writer) (name : String) : Call :=
  match w.elements with
  | [] => .addRoot name
  | _ :: es => .addChild es.length name

theorem Writes.openElement {attributes : List (String × Value)}
    (hopen : Writes (Writer.perform (w.opensWith name)) w w₁ d d₁)
    (hattributes : Writes (attributes.forM fun (key, value) =>
      Writer.addAttribute (w₁.elements.length - 1) key value) w₁ w' d₁ d') :
    Writes (Content.openElement name attributes) w w' d d' where
  run := by
    have hcall := hopen.run
    rw [Content.openElement, Writer.run_get_bind]
    unfold Writer.opensWith at hcall
    cases helements : w.elements with
    | nil =>
      rw [helements] at hcall
      exact (Writer.run_bind_of_ok hcall).trans hattributes.run
    | cons e es =>
      rw [helements] at hcall
      exact (Writer.run_bind_of_ok hcall).trans hattributes.run
  sink := hattributes.sink.trans hopen.sink
  follows hf := hattributes.follows (hopen.follows hf)

theorem writes_opensWith (named : Named name) (ready : w.Ready) :
    ∃ w', Writes (Writer.perform (w.opensWith name)) w w' d (d.opening name) ∧
      w'.elements = ⟨name, .attributes, true, true⟩ :: w.around := by
  unfold Writer.Ready at ready
  unfold Writer.opensWith
  cases helements : w.elements with
  | nil =>
    rw [helements] at ready
    refine ⟨_, writes_call (show (Call.addRoot name).Plain from named)
      (Writer.after_addRoot_unrooted named ready), ?_⟩
    simp [Writer.start, Writer.around, helements]
  | cons e es =>
    rw [helements] at ready
    refine ⟨_, writes_call (show (Call.addChild es.length name).Plain from named)
      (Writer.after_addChild_innermost named helements ready.1 ready.2), ?_⟩
    have hopened := Writer.elements_opened helements
    simp [Writer.start, Writer.around, Writer.suspend, helements,
      Writer.elements_changeAt_innermost hopened]

theorem writes_attributes (root : Option Outline) {attributes : List (String × Value)}
    (plain : Content.PlainAttributes attributes) (h : w.elements = e :: es)
    (phase : e.phase = .attributes) (active : e.active = true) :
    ∃ w', Writes (attributes.forM fun (key, value) => Writer.addAttribute es.length key value) w w'
        ⟨o :: os, root⟩
        ⟨{ o with attributes := o.attributes ++ Content.shownAttributes attributes } :: os, root⟩ ∧
      w'.elements = e :: es := by
  induction attributes generalizing w o with
  | nil =>
    rw [Content.shownAttributes, List.map_nil, List.append_nil]
    cases o
    exact ⟨w, ⟨rfl, rfl, id⟩, h⟩
  | cons a attributes ih =>
    obtain ⟨⟨named, value⟩, hrest⟩ := List.forall_mem_cons.mp plain
    have hfirst := writes_call (d := ⟨o :: os, root⟩)
      (show (Call.addAttribute es.length a.1 a.2).Plain from ⟨named, value⟩)
      (Writer.after_addAttribute_innermost named h phase active)
    have hopen : (w.emit (Writer.attributeChars a.1.toList a.2.chars)).elements = e :: es := by
      simpa using h
    obtain ⟨w', hwrites, helements⟩ :=
      ih (o := { o with attributes := o.attributes ++ [(a.1, a.2.shown)] }) hrest hopen
    refine ⟨w', ?_, helements⟩
    rw [Content.shownAttributes, List.map_cons, List.append_cons]
    exact hfirst.bind hwrites

theorem writes_texts {texts : List Value} (plain : ∀ t ∈ texts, t.Plain)
    (h : w.elements = e :: es) (phase : e.phase ≠ .elements) (active : e.active = true) :
    ∃ w', Writes (texts.forM (Writer.addText es.length)) w w' ⟨o :: os, root⟩
        ⟨{ o with text := o.text ++ String.join (texts.map Value.shown) } :: os, root⟩ ∧
      ∃ phase, w'.elements = { e with phase } :: es := by
  induction texts generalizing w e o with
  | nil =>
    rw [List.map_nil, String.join_nil, String.append_empty]
    cases o
    exact ⟨w, ⟨rfl, rfl, id⟩, e.phase, h⟩
  | cons t texts ih =>
    obtain ⟨ht, hrest⟩ := List.forall_mem_cons.mp plain
    have hfirst := writes_call (d := ⟨o :: os, root⟩)
      (show (Call.addText es.length t).Plain from ht)
      (Writer.after_addText_innermost h phase active)
    have hopen :
        ((w.emit (w.endOfTag es.length ">" ++ escape t.chars)).enter es.length .text).elements =
          { e with phase := .text } :: es :=
      Writer.elements_changeAt_innermost (by simpa using h)
    obtain ⟨w', hwrites, helements⟩ :=
      ih (o := { o with text := o.text ++ t.shown }) hrest hopen (by simp) active
    refine ⟨w', ?_, helements⟩
    rw [List.map_cons, String.join_cons, ← String.append_assoc]
    exact hfirst.bind hwrites

theorem writes_close : Writes (modify Writer.close) w w.close d d.close :=
  writes_call (show Call.close.Plain from trivial) rfl

/-- An element with its attributes, as far as its end tag or its first child. -/
theorem writes_openElement {attributes : List (String × Value)} (named : Named name)
    (plain : Content.PlainAttributes attributes) (ready : w.Ready) :
    ∃ w', Writes (Content.openElement name attributes) w w' d
        { d with elements := { Outline.ofName name with
            attributes := Content.shownAttributes attributes } :: d.elements } ∧
      w'.elements = ⟨name, .attributes, true, true⟩ :: w.around := by
  obtain ⟨w₁, hopen, helements⟩ := writes_opensWith (d := d) named ready
  obtain ⟨w', hattributes, hsame⟩ :=
    writes_attributes (o := .ofName name) d.root plain helements rfl rfl
  have hdepth : w₁.elements.length - 1 = w.around.length := by rw [helements]; rfl
  rw [← hdepth] at hattributes
  exact ⟨w', hopen.openElement hattributes, hsame⟩

end Calls

mutual

/-- A whole element is written wherever the writer takes one. -/
theorem writes_write {w : Writer} (d : Draft) (ready : w.Ready) : (c : Content) → c.Plain →
    ∃ w', Writes c.write w w' d (d.adding c.outline) ∧ w'.elements = w.resumed
  | .withText name attributes texts, plain => by
    obtain ⟨named, hattributes, htexts⟩ := plain
    obtain ⟨w₁, hopen, h₁⟩ := writes_openElement (d := d) named hattributes ready
    obtain ⟨w₂, hwrites, _, h₂⟩ := writes_texts htexts h₁ (by simp) rfl
    have hdepth : w₁.elements.length - 1 = w.around.length := by rw [h₁]; rfl
    rw [← hdepth] at hwrites
    refine ⟨w₂.close, ?_, (Writer.elements_close h₂).trans (Writer.handBack_around ready rfl)⟩
    rw [Content.write, Content.outline]
    exact hopen.bind (writes_get (hwrites.bind writes_close))
  | .withChildren name attributes children, plain => by
    obtain ⟨named, hattributes, hchildren⟩ := plain
    obtain ⟨w₁, hopen, h₁⟩ := writes_openElement (d := d) named hattributes ready
    obtain ⟨w₂, hwrites, _, h₂⟩ := writes_writeAll _ _ _ h₁ (by simp) rfl children hchildren
    refine ⟨w₂.close, ?_, (Writer.elements_close h₂).trans (Writer.handBack_around ready rfl)⟩
    rw [Content.write, Content.outline]
    exact hopen.bind (hwrites.bind writes_close)

/-- The children of an element that has no text are written. -/
theorem writes_writeAll {w : Writer} {e : OpenElement} {es : List OpenElement} (o : Outline)
    (os : List Outline) (root : Option Outline) (h : w.elements = e :: es)
    (phase : e.phase ≠ .text) (active : e.active = true) :
    (cs : List Content) → Content.PlainAll cs →
    ∃ w', Writes (Content.writeAll cs) w w' ⟨o :: os, root⟩
        ⟨{ o with children := o.children ++ Content.outlineAll cs } :: os, root⟩ ∧
      ∃ phase, w'.elements = { e with phase } :: es
  | [], _ => by
    rw [Content.outlineAll, List.append_nil]
    cases o
    exact ⟨w, ⟨rfl, rfl, id⟩, e.phase, h⟩
  | c :: cs, plain => by
    obtain ⟨hc, hcs⟩ := plain
    have ready : w.Ready := by rw [Writer.Ready, h]; exact ⟨phase, active⟩
    obtain ⟨w₁, hfirst, h₁⟩ := writes_write ⟨o :: os, root⟩ ready c hc
    rw [Writer.resumed, h] at h₁
    obtain ⟨w', hrest, h'⟩ := writes_writeAll { o with children := o.children ++ [c.outline] } os
      root h₁ (by simp) active cs hcs
    refine ⟨w', ?_, h'⟩
    rw [Content.writeAll, Content.outlineAll, List.append_cons]
    exact hfirst.bind hrest

end

namespace Markup.Content
variable {c : Content}

theorem exists_written (plain : c.Plain) (indented : Bool) (sink : Sink) :
    ∃ w', Writes c.write (Writer.begin indented sink) w' .empty (Draft.empty.adding c.outline) ∧
      w'.elements = [] := by
  have ready : (Writer.begin indented sink).Ready ∧
      (Writer.begin indented sink).resumed = [] := by
    cases sink <;> exact ⟨rfl, rfl⟩
  obtain ⟨w', hwrites, helements⟩ := writes_write .empty ready.1 c plain
  exact ⟨w', hwrites, helements.trans ready.2⟩

/-- A document with plain content is a header and a text that is read as the content. -/
theorem document_reads_back (plain : c.Plain) (indented : Bool) :
    ∃ body n, c.document indented .accepting = .ok (String.ofList (Writer.header ++ body)) ∧
      Reader.parse (String.ofList body) = .ok n ∧ n.outlines = [c.outline] := by
  obtain ⟨w', hwrites, helements⟩ := exists_written plain indented .accepting
  obtain ⟨body, hwritten, n, hparse, houtline⟩ :=
    (hwrites.follows (.before indented)).shows helements
  refine ⟨body, n, ?_, hparse, houtline⟩
  have hsink : w'.sink = .accepting := hwrites.sink
  simp only [document, hwrites.run, Writer.finish, hsink, ← hwritten]
  rfl

/-- Where plain content cannot be written, it is for the sink. -/
theorem document_failsWith (plain : c.Plain) (indented : Bool) (sink : Sink) :
    FailsWith (· = { cause := .file .unwritten }) (c.document indented sink) := by
  obtain ⟨w', hwrites, _⟩ := exists_written plain indented sink
  simp only [document, hwrites.run, Writer.finish]
  split
  · exact failsWith_ok _
  · exact failsWith_error rfl

end Markup.Content

end SeismicTree
