import SeismicTree.Proofs.AnalysisFailures
import SeismicTree.Proofs.Reports

/-!
# The paths of a report

A report shows a path as its identifiers with tildes between them, and nothing in an identifier is
changed for that. Two paths of a tree that was read part at two branches of one set. Their texts are
different unless one of the two identifiers is the other with a tilde and more behind it, and what is
behind the shorter one makes up for the difference. So identifiers without tildes are enough for the
texts to tell all paths apart. Documents hold no NUL, which would end a text.
-/

namespace SeismicTree

namespace Markup

/-- What was escaped can be read again, so no two values are written in the same way. -/
theorem escape_injective : Function.Injective escape := by
  intro cs ds h
  obtain ⟨line, hcs⟩ := Reader.readChars_escape_value ⟨[], []⟩ [] cs 0 [] [] none
  obtain ⟨line', hds⟩ := Reader.readChars_escape_value ⟨[], []⟩ [] ds 0 [] [] none
  rw [h] at hcs
  have hsame := hcs.symm.trans hds
  simp only [List.append_nil, Except.ok.injEq, Reader.mk.injEq, Spot.value.injEq,
    List.reverse_inj] at hsame
  exact hsame.2.1.2.2.2

end Markup

namespace BranchSet
variable {ω : Type} {s : BranchSet ω}

theorem eq_of_id_eq (distinct : s.Distinct) {b c : Branch ω} (hb : b ∈ s.branches)
    (hc : c ∈ s.branches) (h : b.id = c.id) : b = c := by
  have hfound := get_of_mem distinct hb
  rw [h, get_of_mem distinct hc] at hfound
  exact (Except.ok.inj hfound).symm

/-- Two lists of identifiers have a part in common and go on with two branches of a set. -/
structure PartAt (set : BranchSet ω) (common : List String) (b : Branch ω) (rest : List String)
    (c : Branch ω) (rest' : List String) (ids ids' : List String) : Prop where
  left : ids = common ++ b.id :: rest
  right : ids' = common ++ c.id :: rest'
  mem : b ∈ set.branches
  mem' : c ∈ set.branches
  differ : b.id ≠ c.id

theorem PartAt.cons {set : BranchSet ω} {common rest rest' ids ids' : List String}
    {b c : Branch ω} (h : set.PartAt common b rest c rest' ids ids') (id : String) :
    set.PartAt (id :: common) b rest c rest' (id :: ids) (id :: ids') where
  left := congrArg _ h.left
  right := congrArg _ h.right
  mem := h.mem
  mem' := h.mem'
  differ := h.differ

/-- Routes with different identifiers part at a set of the tree. The induction is on the first of
them: up to where they part, the second one goes through the same branches. -/
theorem Route.part {route route' : List (Stage ω)} (distinct : s.Distinct) (h : s.Route route)
    (h' : s.Route route')
    (hne : route.map (·.branch.id) ≠ route'.map (·.branch.id)) :
    ∃ set ∈ s.sets, ∃ common b rest c rest',
      set.PartAt common b rest c rest' (route.map (·.branch.id)) (route'.map (·.branch.id)) := by
  induction h generalizing route' with
  | @leaf s b mem last =>
    cases h' with
    | @leaf _ c mem' last' =>
      refine ⟨s, mem_sets_self s, [], b, [], c, [], rfl, rfl, mem, mem', fun hid => hne ?_⟩
      rw [List.map_singleton, List.map_singleton, hid]
    | @step _ t c route' mem' child below =>
      refine ⟨s, mem_sets_self s, [], b, [], c, _, rfl, rfl, mem, mem', fun hid => ?_⟩
      rw [eq_of_id_eq distinct mem mem' hid, child] at last
      cases last
  | @step s t b route mem child below ih =>
    cases h' with
    | @leaf _ c mem' last' =>
      refine ⟨s, mem_sets_self s, [], b, _, c, [], rfl, rfl, mem, mem', fun hid => ?_⟩
      rw [← eq_of_id_eq distinct mem mem' hid, child] at last'
      cases last'
    | @step _ t' c route' mem' child' below' =>
      by_cases hid : b.id = c.id
      · cases eq_of_id_eq distinct mem mem' hid
        cases child.symm.trans child'
        have hbelow : t.Distinct := fun u hu => distinct u (sets_of_child mem child hu)
        obtain ⟨set, hset, common, x, rest, y, rest', hpart⟩ :=
          ih hbelow below' fun hsame => hne (congrArg (b.id :: ·) hsame)
        exact ⟨set, sets_of_child mem child hset, _, x, rest, y, rest', hpart.cons b.id⟩
      · exact ⟨s, mem_sets_self s, [], b, _, c, _, rfl, rfl, mem, mem', hid⟩

end BranchSet

namespace Report
open Markup

/-- The text of a path, as it is written between quotes. -/
def pathAttribute (ids : List String) : List Char := escape (Value.text (pathText ids)).chars

/-- The second identifier is the first one with a tilde and a text behind it, and this text is made
up for by what is behind the first one. -/
def RunsInto (id : String) (rest : List String) (id' : String) (rest' : List String) : Prop :=
  ∃ text, id' = id ++ "~" ++ text ∧ rest ≠ [] ∧ pathText rest = pathText (text :: rest')

/-- What stands behind an identifier: a tilde and the identifiers that follow, if there are any. -/
def behind (rest : List String) : String := if rest = [] then "" else "~" ++ pathText rest

theorem behind_of_ne_nil {rest : List String} (h : rest ≠ []) :
    behind rest = "~" ++ pathText rest := if_neg h

theorem pathText_cons (id : String) (rest : List String) :
    pathText (id :: rest) = id ++ behind rest := by
  by_cases h : rest = []
  · rw [h, pathText, String.intercalate_singleton, behind, if_pos rfl, String.append_empty]
  · rw [behind_of_ne_nil h, pathText, String.intercalate_cons_of_ne_nil h, String.append_assoc,
      pathText]

/-- What paths have in common in front does not matter. -/
theorem pathText_append_inj {common ids ids' : List String} (h : ids ≠ []) (h' : ids' ≠ []) :
    pathText (common ++ ids) = pathText (common ++ ids') ↔ pathText ids = pathText ids' := by
  by_cases hcommon : common = []
  · rw [hcommon, List.nil_append, List.nil_append]
  · simp only [pathText, String.intercalate_append_of_ne_nil hcommon h,
      String.intercalate_append_of_ne_nil hcommon h', String.append_right_inj]

theorem RunsInto.pathText_eq {id id' : String} {rest rest' : List String}
    (h : RunsInto id rest id' rest') : pathText (id :: rest) = pathText (id' :: rest') := by
  obtain ⟨text, rfl, hne, htext⟩ := h
  rw [pathText_cons, pathText_cons, behind_of_ne_nil hne, htext, pathText_cons]
  simp only [String.append_assoc]

/-- Where one identifier begins with the other, it goes on with a tilde. -/
theorem runsInto_of_append {id id' : String} {more : List Char} {rest rest' : List String}
    (hid : id'.toList = id.toList ++ more) (hne : id ≠ id')
    (h : (behind rest).toList = more ++ (behind rest').toList) : RunsInto id rest id' rest' := by
  have hmore : more ≠ [] := by
    rintro rfl
    rw [List.append_nil] at hid
    exact hne (String.toList_injective hid.symm)
  obtain ⟨c, text, rfl⟩ := List.exists_cons_of_ne_nil hmore
  have hrest : rest ≠ [] := by
    rintro rfl
    cases h
  have htilde : "~".toList = ['~'] := by simp
  rw [behind_of_ne_nil hrest, String.toList_append, htilde] at h
  obtain ⟨rfl, htext⟩ := List.cons.inj h
  refine ⟨String.ofList text, String.toList_injective ?_, hrest, String.toList_injective ?_⟩
  · rw [hid, String.toList_append, String.toList_append, htilde, String.toList_ofList,
      List.append_assoc, List.singleton_append]
  · rw [pathText_cons, String.toList_append, String.toList_ofList]
    exact htext

theorem pathText_eq_iff {id id' : String} {rest rest' : List String} (hne : id ≠ id') :
    pathText (id :: rest) = pathText (id' :: rest') ↔
      RunsInto id rest id' rest' ∨ RunsInto id' rest' id rest := by
  constructor
  · intro h
    have hchars := congrArg String.toList h
    rw [pathText_cons, pathText_cons, String.toList_append, String.toList_append,
      List.append_eq_append_iff] at hchars
    rcases hchars with ⟨more, hid, hbehind⟩ | ⟨more, hid, hbehind⟩
    · exact Or.inl (runsInto_of_append hid hne hbehind)
    · exact Or.inr (runsInto_of_append hid hne.symm hbehind)
  · rintro (h | h)
    · exact h.pathText_eq
    · exact h.pathText_eq.symm

/-- Without a NUL in them, paths are written alike only if their texts are the same. -/
theorem pathAttribute_inj {ids ids' : List String} (plain : ∀ id ∈ ids, NulFree id)
    (plain' : ∀ id ∈ ids', NulFree id) :
    pathAttribute ids = pathAttribute ids' ↔ pathText ids = pathText ids' := by
  have hchars : (Value.text (pathText ids)).chars = (pathText ids).toList :=
    Value.Plain.chars_eq (v := .text (pathText ids)) (nulFree_intercalate (by decide) plain)
  have hchars' : (Value.text (pathText ids')).chars = (pathText ids').toList :=
    Value.Plain.chars_eq (v := .text (pathText ids')) (nulFree_intercalate (by decide) plain')
  rw [pathAttribute, pathAttribute, escape_injective.eq_iff, hchars, hchars', String.toList_inj]

theorem not_runsInto {id id' : String} {rest rest' : List String} (h : '~' ∉ id'.toList) :
    ¬ RunsInto id rest id' rest' := by
  rintro ⟨text, rfl, _, _⟩
  simp at h

/-- Two paths of a tree that was read part at two branches of one of its sets. They are reported
with the same path attribute exactly if one of the two identifiers runs into the other, and so never
if both of these are without a tilde. -/
theorem pathAttribute_eq_iff {files : Files} {path : String} {tree : LogicTree}
    (h : (LogicTree.read files path).result = .ok tree) {p q : Path Binary64}
    (hp : p ∈ (Cursor.start tree).paths) (hq : q ∈ (Cursor.start tree).paths)
    (hne : p.ids ≠ q.ids) (plain : ∀ id ∈ p.ids ++ q.ids, NulFree id) :
    ∃ set ∈ tree.sets, ∃ common b rest c rest', set.PartAt common b rest c rest' p.ids q.ids ∧
      (pathAttribute p.ids = pathAttribute q.ids ↔
        RunsInto b.id rest c.id rest' ∨ RunsInto c.id rest' b.id rest) ∧
      ('~' ∉ b.id.toList → '~' ∉ c.id.toList → pathAttribute p.ids ≠ pathAttribute q.ids) := by
  have husable := LogicTree.usable_of_read h
  have hpopulated := husable.wellFormed.populated
  obtain ⟨route, hroute⟩ := (Cursor.mem_paths_start hpopulated).mp hp
  obtain ⟨route', hroute'⟩ := (Cursor.mem_paths_start hpopulated).mp hq
  obtain ⟨hplain, hplain'⟩ := List.forall_mem_append.mp plain
  rw [hroute.ids, hroute'.ids] at hne
  obtain ⟨set, hset, common, b, rest, c, rest', hpart⟩ :=
    hroute.taken.part husable.distinct hroute'.taken hne
  rw [← hroute.ids, ← hroute'.ids] at hpart
  have hiff : pathAttribute p.ids = pathAttribute q.ids ↔
      RunsInto b.id rest c.id rest' ∨ RunsInto c.id rest' b.id rest := by
    rw [pathAttribute_inj hplain hplain', hpart.left, hpart.right,
      pathText_append_inj (List.cons_ne_nil _ _) (List.cons_ne_nil _ _),
      pathText_eq_iff hpart.differ]
  refine ⟨set, hset, common, b, rest, c, rest', hpart, hiff, fun hb hc hsame => ?_⟩
  rcases hiff.mp hsame with hruns | hruns
  · exact not_runsInto hc hruns
  · exact not_runsInto hb hruns

/-- A description with tildes in its identifiers. -/
def tilded : Files where
  folder := ""
  entries := [("tree.xml", {
    root := some <| .element "logicTree" 1 []
      [TreeReading.branchSetNode [("branchSetID", "slopes"), ("uncertaintyType", "bGRRelative")]
          "0.25" "0.1" ["a", "a~b", "b", "d"],
        .element "logicTreeBranchingLevel" 1 []
          [TreeReading.branchSetNode [("branchSetID", "first"),
              ("uncertaintyType", "maxMagGRRelative"), ("applyToBranches", "a")]
              "1" "0.2" ["b~c"],
            TreeReading.branchSetNode [("branchSetID", "second"),
              ("uncertaintyType", "maxMagGRRelative"), ("applyToBranches", "a~b")]
              "1" "0.2" ["c"]]]
    named := true
    trouble := none
    messages := [] })]

/-- Two paths that are written alike. -/
theorem exists_paths_written_alike :
    ∃ tree, (LogicTree.read tilded "tree.xml").result = .ok tree ∧
      ∃ p ∈ (Cursor.start tree).paths, ∃ q ∈ (Cursor.start tree).paths, p.ids ≠ q.ids ∧
        pathAttribute p.ids = pathAttribute q.ids := by
  have hread : (LogicTree.read tilded "tree.xml").result.toOption.map (fun tree =>
      decide (∃ p ∈ (Cursor.start tree).paths, ∃ q ∈ (Cursor.start tree).paths, p.ids ≠ q.ids ∧
        pathAttribute p.ids = pathAttribute q.ids)) = some true := by decide +kernel
  obtain ⟨tree, hok, halike⟩ := exists_of_toOption_map hread
  exact ⟨tree, hok, of_decide_eq_true halike⟩

/-- Of the same tree, two paths that part at identifiers without tildes. -/
theorem pathAttribute_eq_iff_tilded :
    ∃ tree, (LogicTree.read tilded "tree.xml").result = .ok tree ∧
      ∃ p ∈ (Cursor.start tree).paths, ∃ q ∈ (Cursor.start tree).paths,
        p.ids = ["a", "b~c"] ∧ q.ids = ["b"] ∧ pathAttribute p.ids ≠ pathAttribute q.ids := by
  have hread : (LogicTree.read tilded "tree.xml").result.toOption.map (fun tree =>
      (Cursor.start tree).paths.map (·.ids)) =
        some [["a", "b~c"], ["a~b", "c"], ["b"], ["d"]] := by decide +kernel
  obtain ⟨tree, hok, hids⟩ := exists_of_toOption_map hread
  have hfirst : ["a", "b~c"] ∈ (Cursor.start tree).paths.map (·.ids) := by simp [hids]
  have hthird : ["b"] ∈ (Cursor.start tree).paths.map (·.ids) := by simp [hids]
  obtain ⟨p, hp, hpids⟩ := List.mem_map.mp hfirst
  obtain ⟨q, hq, hqids⟩ := List.mem_map.mp hthird
  have hne : p.ids ≠ q.ids := by simp [hpids, hqids]
  have hplain : ∀ id ∈ p.ids ++ q.ids, NulFree id := by
    rw [hpids, hqids]
    decide
  obtain ⟨set, _, common, b, rest, c, rest', hpart, _, hdiffer⟩ :=
    pathAttribute_eq_iff hok hp hq hne hplain
  have hb := hpids.symm.trans hpart.left
  have hc := hqids.symm.trans hpart.right
  cases common with
  | nil =>
    obtain ⟨hb, _⟩ := List.cons.inj hb
    obtain ⟨hc, _⟩ := List.cons.inj hc
    refine ⟨tree, hok, p, hp, q, hq, hpids, hqids, hdiffer ?_ ?_⟩
    · rw [← hb]
      decide
    · rw [← hc]
      decide
  | cons id common => simp at hc

end Report

end SeismicTree
