import SeismicTree.Proofs.Tokens

/-!
# Tokens and the gaps between them

A text is its tokens with gaps of blanks around them, and this is the only way to write it so: the
tokens of a text are the only tokens that it can be put together from. Every round that finds a
token takes up characters, so there are no more of them than characters. Which blanks stood in a gap
is lost where a text is taken apart.
-/

namespace SeismicTree.Text

/-- The characters of texts in a row, with a gap in front of each of them and one at the end. -/
def spaced (gap : Nat → List Char) : List String → List Char
  | [] => gap 0
  | t :: ts => gap 0 ++ t.toList ++ spaced (fun i => gap (i + 1)) ts

/-- Gaps with another one in front of them. -/
def withGap (first : List Char) (gap : Nat → List Char) : Nat → List Char
  | 0 => first
  | i + 1 => gap i

/-- The gaps around a number of texts are blank, and there is something between any two of them. -/
structure Separates (gap : Nat → List Char) (count : Nat) : Prop where
  blank : ∀ i ≤ count, Blank (gap i)
  between : ∀ i, 0 < i → i < count → gap i ≠ []

section Spaced
variable {gap : Nat → List Char}

/-- The gaps behind the first text. -/
theorem Separates.behind {n : Nat} (h : Separates gap (n + 1)) :
    Separates (fun i => gap (i + 1)) n where
  blank i hi := h.blank (i + 1) (Nat.succ_le_succ hi)
  between i _ hi := h.between (i + 1) (Nat.succ_pos i) (Nat.succ_lt_succ hi)

/-- Whatever stands behind the first text begins with a blank. -/
theorem Separates.head_behind {t : String} {ts : List String}
    (h : Separates gap (t :: ts).length) :
    ∀ b ∈ (spaced (fun i => gap (i + 1)) ts).head?, isBlank b = true := by
  intro b hb
  have hgap : Blank (gap 1) := h.blank 1 (Nat.succ_le_succ (Nat.zero_le _))
  cases hfirst : gap 1 with
  | cons c rest =>
    have hc : (spaced (fun i => gap (i + 1)) ts).head? = some c := by
      cases ts <;> simp [spaced, hfirst]
    rw [hc, Option.mem_some_iff] at hb
    exact hb ▸ hgap c (hfirst ▸ List.mem_cons_self)
  | nil =>
    cases ts with
    | nil =>
      rw [spaced, hfirst] at hb
      cases hb
    | cons u us => exact absurd hfirst (h.between 1 Nat.zero_lt_one (by simp))

/-- A text is taken apart in front of a blank. -/
theorem tokenChars_append_of_head {cs ds : List Char} (h : ∀ b ∈ ds.head?, isBlank b = true) :
    tokenChars (cs ++ ds) = tokenChars cs ++ tokenChars ds := by
  cases ds with
  | nil => rw [List.append_nil, tokenChars_of_blank (fun _ h => absurd h List.not_mem_nil),
      List.append_nil]
  | cons b ds =>
    have hb : isBlank b = true := h b rfl
    have hbehind : tokenChars (b :: ds) = tokenChars ds :=
      tokenChars_blank_append (List.forall_mem_singleton.mpr hb) ds
    rw [tokenChars_append_blank_cons hb, hbehind]

/-- Tokens that are put together with gaps are found again. -/
theorem tokenChars_spaced {ts : List String} (solid : ∀ t ∈ ts, Solid t)
    (h : Separates gap ts.length) : tokenChars (spaced gap ts) = ts.map String.toList := by
  induction ts generalizing gap with
  | nil => exact tokenChars_of_blank (h.blank 0 le_rfl)
  | cons t ts ih =>
    obtain ⟨⟨hne, ht⟩, hts⟩ := List.forall_mem_cons.mp solid
    rw [spaced, List.append_assoc, tokenChars_blank_append (h.blank 0 (Nat.zero_le _)),
      tokenChars_append_of_head h.head_behind, tokenChars_of_solid (by simpa using hne) ht,
      ih hts h.behind]
    rfl

theorem filter_spaced {ts : List String} (solid : ∀ t ∈ ts, Solid t)
    (h : Separates gap ts.length) :
    (spaced gap ts).filter (!isBlank ·) = ts.flatMap String.toList := by
  have hgap : ∀ {cs : List Char}, Blank cs → cs.filter (!isBlank ·) = [] := fun hcs =>
    List.filter_eq_nil_iff.mpr fun c hc => by simp [hcs c hc]
  induction ts generalizing gap with
  | nil => exact hgap (h.blank 0 le_rfl)
  | cons t ts ih =>
    obtain ⟨⟨_, ht⟩, hts⟩ := List.forall_mem_cons.mp solid
    have hself : t.toList.filter (!isBlank ·) = t.toList :=
      List.filter_eq_self.mpr fun c hc => by simp [ht c hc]
    rw [spaced, List.filter_append, List.filter_append, hgap (h.blank 0 (Nat.zero_le _)), hself,
      ih hts h.behind, List.nil_append, List.flatMap_cons]

theorem length_le_length_spaced {ts : List String} (solid : ∀ t ∈ ts, Solid t) :
    ts.length ≤ (spaced gap ts).length := by
  induction ts generalizing gap with
  | nil => exact Nat.zero_le _
  | cons t ts ih =>
    obtain ⟨⟨hne, _⟩, hts⟩ := List.forall_mem_cons.mp solid
    have hpos : 0 < t.toList.length := List.length_pos_iff.mpr (by simpa using hne)
    have hmore : ts.length ≤ (spaced (fun i => gap (i + 1)) ts).length := ih hts
    simp only [spaced, List.length_cons, List.length_append]
    omega

end Spaced

/-- What stands behind a token is a blank or nothing. -/
theorem dropWhile_eq_nil_of_takeWhile {cs : List Char}
    (h : (cs.dropWhile (!isBlank ·)).takeWhile isBlank = []) : cs.dropWhile (!isBlank ·) = [] := by
  by_contra hne
  have hstop := List.head_dropWhile_not (!isBlank ·) hne
  rw [Bool.not_eq_false'] at hstop
  rw [← List.cons_head_tail hne, List.takeWhile_cons_of_pos hstop] at h
  cases h

/-- Characters are put together from the tokens that are found in them. The first gap is made of the
blanks in front, so no later one can be empty. -/
theorem exists_spaced (cs : List Char) :
    ∃ gap, Separates gap (tokenChars cs).length ∧ gap 0 = cs.takeWhile isBlank ∧
      cs = spaced gap ((tokenChars cs).map String.ofList) := by
  induction cs using tokenChars.induct with
  | case1 cs hcs =>
    have hblank : Blank cs := List.dropWhile_eq_nil_iff.mp hcs
    rw [tokenChars_of_blank hblank]
    exact ⟨fun _ => cs, ⟨fun _ _ => hblank, fun i _ hi => absurd hi (Nat.not_lt_zero i)⟩,
      (List.takeWhile_eq_self_iff.mpr hblank).symm, rfl⟩
  | case2 cs c rest hcs ih =>
    obtain ⟨gap, hgap, hfirst, hrest⟩ := ih
    rw [tokenChars_of_dropWhile hcs]
    refine ⟨withGap (cs.takeWhile isBlank) gap, ⟨?blank, ?between⟩, rfl, ?whole⟩
    case blank =>
      intro i hi
      cases i with
      | zero => exact fun b hb => List.mem_takeWhile_imp hb
      | succ i => exact hgap.blank i (Nat.le_of_succ_le_succ hi)
    case between =>
      intro i _ hi
      rw [List.length_cons] at hi
      rcases i with _ | _ | i
      · contradiction
      · intro hnone
        have hend := dropWhile_eq_nil_of_takeWhile (hfirst.symm.trans hnone)
        rw [hend, tokenChars_of_blank fun _ h => absurd h List.not_mem_nil] at hi
        exact absurd hi (lt_irrefl 1)
      · exact hgap.between (i + 1) (Nat.succ_pos i) (Nat.lt_of_succ_lt_succ hi)
    case whole =>
      calc cs = cs.takeWhile isBlank ++ (c :: rest) := by
            rw [← hcs, List.takeWhile_append_dropWhile]
        _ = cs.takeWhile isBlank ++ (c :: rest.takeWhile (!isBlank ·)) ++
              rest.dropWhile (!isBlank ·) := by simp
        _ = spaced (withGap (cs.takeWhile isBlank) gap)
              (((c :: rest.takeWhile (!isBlank ·)) ::
                tokenChars (rest.dropWhile (!isBlank ·))).map String.ofList) := by
          simp only [List.map_cons, spaced, String.toList_ofList, withGap, ← hrest]

/-- Blanks at the ends are not part of a token. -/
theorem tokenChars_trimChars (cs : List Char) : tokenChars (trimChars cs) = tokenChars cs := by
  let before := cs.takeWhile isBlank
  let after := ((cs.dropWhile isBlank).reverse.takeWhile isBlank).reverse
  have hbefore : Blank before := fun b hb => List.mem_takeWhile_imp hb
  have hafter : Blank after := fun b hb => List.mem_takeWhile_imp (List.mem_reverse.mp hb)
  have hback : trimChars cs ++ after = cs.dropWhile isBlank := by
    rw [trimChars, ← List.reverse_append, List.takeWhile_append_dropWhile, List.reverse_reverse]
  calc tokenChars (trimChars cs) = tokenChars (trimChars cs ++ after) :=
        (tokenChars_append_blank _ hafter).symm
    _ = tokenChars (before ++ cs.dropWhile isBlank) := by
        rw [hback, tokenChars_blank_append hbefore]
    _ = tokenChars cs := by rw [List.takeWhile_append_dropWhile]

/-- A text is taken apart into tokens exactly if it is put together from them with gaps between
them. Concatenated they are the text without its blanks, those at its ends make no difference, and
there are no more of them than the text has characters. -/
theorem tokens_exact (text : String) :
    (∀ ts, tokens text = ts ↔ (∀ t ∈ ts, Solid t) ∧
      ∃ gap, Separates gap ts.length ∧ text.toList = spaced gap ts) ∧
    String.join (tokens text) = String.ofList (text.toList.filter (!isBlank ·)) ∧
    tokens (trim text) = tokens text ∧ (tokens text).length ≤ text.length := by
  obtain ⟨gap, hgap, _, htext⟩ := exists_spaced text.toList
  rw [← tokens] at htext
  have hsolid : ∀ t ∈ tokens text, Solid t := fun t ht => solid_of_mem_tokens ht
  have hseparates : Separates gap (tokens text).length := by
    rwa [tokens, List.length_map]
  refine ⟨fun ts => ⟨?apart, ?together⟩, ?join, ?trim, ?count⟩
  case apart =>
    rintro rfl
    exact ⟨hsolid, gap, hseparates, htext⟩
  case together =>
    rintro ⟨hts, gap', hgap', htext'⟩
    rw [tokens, htext', tokenChars_spaced hts hgap', List.map_map]
    exact (List.map_congr_left fun _ _ => String.ofList_toList).trans (List.map_id ts)
  case join =>
    rw [htext, filter_spaced hsolid hseparates, ← String.toList_join, String.ofList_toList]
  case trim => rw [tokens, trim, String.toList_ofList, tokenChars_trimChars, tokens]
  case count =>
    rw [← String.length_toList, htext]
    exact length_le_length_spaced hsolid

end SeismicTree.Text
