import Mathlib.Data.List.TakeWhile
import SeismicTree.Text.Tokens

/-!
# Lists of tokens

Tokens are never empty and hold no blanks, and a text of that form has itself as its only token.
Texts that are listed with blanks between them are taken apart into the tokens of each of them.
Nothing is said of the positions of the tokens in the text.
-/

namespace SeismicTree.Text

def Blank (cs : List Char) : Prop := ∀ c ∈ cs, isBlank c = true

instance (cs : List Char) : Decidable (Blank cs) := List.decidableBAll _ cs

/-- Blanks that were collected leave nothing. -/
theorem Blank.trim_eq {run : List Char} (blank : Blank run) :
    trim (String.ofList run.reverse) = "" := by
  have hdrop : run.reverse.dropWhile isBlank = [] :=
    List.dropWhile_eq_nil_iff.mpr fun c hc => blank c (List.mem_reverse.mp hc)
  simp [trim, trimChars, hdrop]

/-- The text is a token: it is not empty and has no blanks. -/
def Solid (text : String) : Prop := text ≠ "" ∧ ∀ c ∈ text.toList, isBlank c = false

instance (text : String) : Decidable (Solid text) :=
  have := List.decidableBAll (isBlank · = false) text.toList
  inferInstanceAs (Decidable (_ ∧ _))

section Runs
variable {cs : List Char}

theorem tokenChars_of_blank (h : Blank cs) : tokenChars cs = [] := by
  rw [tokenChars]
  split
  · rfl
  · rename_i c rest hdrop
    rw [List.dropWhile_eq_nil_iff.mpr h] at hdrop
    cases hdrop

theorem tokenChars_of_dropWhile {c : Char} {rest : List Char}
    (h : cs.dropWhile isBlank = c :: rest) :
    tokenChars cs =
      (c :: rest.takeWhile (!isBlank ·)) :: tokenChars (rest.dropWhile (!isBlank ·)) := by
  rw [tokenChars]
  split
  · rename_i hdrop
    cases hdrop.symm.trans h
  · rename_i c' rest' hdrop
    cases hdrop.symm.trans h
    rfl

/-- What stops the blanks at the start is not one. -/
theorem isBlank_of_dropWhile {c : Char} {rest : List Char} (h : cs.dropWhile isBlank = c :: rest) :
    isBlank c = false := by
  have hnonempty : cs.dropWhile isBlank ≠ [] := by
    rw [h]
    exact List.cons_ne_nil c rest
  have hstop := List.head_dropWhile_not isBlank hnonempty
  simpa only [h, List.head_cons] using hstop

end Runs

/-- Blanks in front of a text add no token. -/
theorem tokenChars_blank_append {before : List Char} (h : Blank before) (cs : List Char) :
    tokenChars (before ++ cs) = tokenChars cs := by
  have hdrop : (before ++ cs).dropWhile isBlank = cs.dropWhile isBlank := by
    rw [List.dropWhile_append, List.dropWhile_eq_nil_iff.mpr h]
    rfl
  cases hcs : cs.dropWhile isBlank with
  | nil =>
    rw [tokenChars_of_blank (List.dropWhile_eq_nil_iff.mp (hdrop.trans hcs)),
      tokenChars_of_blank (List.dropWhile_eq_nil_iff.mp hcs)]
  | cons c rest =>
    rw [tokenChars_of_dropWhile (hdrop.trans hcs), tokenChars_of_dropWhile hcs]

section Separators
variable {b : Char} (hb : isBlank b = true) (cs ds : List Char)
include hb

theorem takeWhile_append_blank_cons :
    (cs ++ b :: ds).takeWhile (!isBlank ·) = cs.takeWhile (!isBlank ·) := by
  rw [List.takeWhile_append, List.takeWhile_cons_of_neg (by simp [hb])]
  split
  · rename_i hall
    rw [List.append_nil, (List.takeWhile_prefix _).eq_of_length hall]
  · rfl

theorem dropWhile_append_blank_cons :
    (cs ++ b :: ds).dropWhile (!isBlank ·) = cs.dropWhile (!isBlank ·) ++ b :: ds := by
  rw [List.dropWhile_append, List.dropWhile_cons_of_neg (by simp [hb])]
  split
  · rename_i hnone
    rw [List.isEmpty_iff.mp hnone]
    rfl
  · rfl

/-- A blank ends the token in front of it. The induction follows the tokens of the first part. -/
theorem tokenChars_append_blank_cons :
    tokenChars (cs ++ b :: ds) = tokenChars cs ++ tokenChars ds := by
  induction cs using tokenChars.induct with
  | case1 cs hcs =>
    have hblank : Blank cs := List.dropWhile_eq_nil_iff.mp hcs
    have hmore : Blank (cs ++ [b]) := List.forall_mem_append.mpr ⟨hblank, by simpa using hb⟩
    rw [tokenChars_of_blank hblank, List.append_cons, tokenChars_blank_append hmore]
    rfl
  | case2 cs c rest hcs ih =>
    have hdrop : (cs ++ b :: ds).dropWhile isBlank = c :: (rest ++ b :: ds) := by
      rw [List.dropWhile_append, hcs]
      rfl
    rw [tokenChars_of_dropWhile hdrop, tokenChars_of_dropWhile hcs,
      takeWhile_append_blank_cons hb, dropWhile_append_blank_cons hb, ih]
    rfl

end Separators

theorem tokenChars_of_solid {cs : List Char} (hne : cs ≠ [])
    (hsolid : ∀ c ∈ cs, isBlank c = false) : tokenChars cs = [cs] := by
  obtain ⟨c, rest, rfl⟩ := List.exists_cons_of_ne_nil hne
  obtain ⟨hc, hrest⟩ := List.forall_mem_cons.mp hsolid
  have hall : ∀ d ∈ rest, (!isBlank d) = true := by simpa using hrest
  rw [tokenChars_of_dropWhile (List.dropWhile_cons_of_neg (by simp [hc])),
    List.takeWhile_eq_self_iff.mpr hall, List.dropWhile_eq_nil_iff.mpr hall,
    tokenChars_of_blank fun _ h => absurd h List.not_mem_nil]

theorem solid_of_mem_tokenChars {cs t : List Char} (h : t ∈ tokenChars cs) :
    t ≠ [] ∧ ∀ c ∈ t, isBlank c = false := by
  induction cs using tokenChars.induct with
  | case1 cs hcs =>
    rw [tokenChars_of_blank (List.dropWhile_eq_nil_iff.mp hcs)] at h
    cases h
  | case2 cs c rest hcs ih =>
    rw [tokenChars_of_dropWhile hcs] at h
    rcases List.mem_cons.mp h with rfl | hlater
    · refine ⟨List.cons_ne_nil _ _, List.forall_mem_cons.mpr ⟨isBlank_of_dropWhile hcs, ?_⟩⟩
      intro d hd
      simpa using List.mem_takeWhile_imp hd
    · exact ih hlater

theorem solid_of_mem_tokens {text token : String} (h : token ∈ tokens text) : Solid token := by
  obtain ⟨t, ht, rfl⟩ := List.mem_map.mp h
  obtain ⟨hne, hsolid⟩ := solid_of_mem_tokenChars ht
  exact ⟨by simpa using hne, by simpa using hsolid⟩

theorem tokens_of_solid {text : String} (h : Solid text) : tokens text = [text] := by
  rw [tokens, tokenChars_of_solid (by simpa using h.1) h.2]
  simp

/-- The characters list the texts in order: blanks are between any two of them and may be at both
ends. -/
inductive Lists : List Char → List String → Prop
  | last {before after : List Char} (text : String) (hbefore : Blank before)
      (hafter : Blank after) : Lists (before ++ text.toList ++ after) [text]
  | cons {before rest : List Char} {b : Char} {texts : List String} (text : String)
      (hbefore : Blank before) (hb : isBlank b = true) (hrest : Lists rest texts) :
      Lists (before ++ text.toList ++ b :: rest) (text :: texts)

theorem tokenChars_append_blank (cs : List Char) {after : List Char} (h : Blank after) :
    tokenChars (cs ++ after) = tokenChars cs := by
  cases after with
  | nil => rw [List.append_nil]
  | cons b after =>
    obtain ⟨hb, hrest⟩ := List.forall_mem_cons.mp h
    rw [tokenChars_append_blank_cons hb, tokenChars_of_blank hrest, List.append_nil]

theorem Lists.tokenChars_eq {cs : List Char} {texts : List String} (h : Lists cs texts) :
    tokenChars cs = texts.flatMap fun text => tokenChars text.toList := by
  induction h with
  | last text hbefore hafter =>
    rw [tokenChars_append_blank _ hafter, tokenChars_blank_append hbefore]
    simp
  | cons text hbefore hb hrest ih =>
    rw [tokenChars_append_blank_cons hb, tokenChars_blank_append hbefore, ih, List.flatMap_cons]

/-- The tokens of a list are those of the texts that it lists. -/
theorem Lists.tokens_eq {list : String} {texts : List String} (h : Lists list.toList texts) :
    tokens list = texts.flatMap tokens := by
  rw [tokens, h.tokenChars_eq, List.map_flatMap]
  rfl

end SeismicTree.Text
