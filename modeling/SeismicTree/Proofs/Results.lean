import SeismicTree.Log
import Mathlib.Data.List.Basic

/-!
# Results of composed operations

An operation made of others succeeds when each of them does, in order. The log of an operation has
no part in its result, also when it goes through a list.
-/

namespace SeismicTree

variable {α β ε : Type}

theorem ok_bind (a : α) (f : α → Except ε β) : Except.ok a >>= f = f a := rfl

theorem bind_eq_ok {x : Except ε α} {f : α → Except ε β} {b : β} :
    x >>= f = .ok b ↔ ∃ a, x = .ok a ∧ f a = .ok b := by
  cases x with
  | error e =>
    constructor
    · intro h; cases h
    · rintro ⟨a, ha, _⟩; cases ha
  | ok a =>
    constructor
    · intro h; exact ⟨a, rfl, h⟩
    · rintro ⟨a', ha, h⟩; cases ha; exact h

theorem map_eq_ok {x : Except ε α} {f : α → β} {b : β} :
    f <$> x = .ok b ↔ ∃ a, x = .ok a ∧ f a = b := by
  cases x with
  | error e =>
    constructor
    · intro h; cases h
    · rintro ⟨a, ha, _⟩; cases ha
  | ok a =>
    constructor
    · intro h; cases h; exact ⟨a, rfl, rfl⟩
    · rintro ⟨a', ha, h⟩; cases ha; exact congrArg Except.ok h

theorem map_eq_error {x : Except ε α} {f : α → β} {e : ε} :
    f <$> x = .error e ↔ x = .error e := by
  cases x with
  | error e' =>
    constructor
    · intro h; cases h; rfl
    · intro h; cases h; rfl
  | ok a =>
    constructor
    · intro h; cases h
    · intro h; cases h

/-- What is made of a result has no part in a failure. -/
theorem bind_ok_eq_error {x : Except ε α} {f : α → β} {e : ε} :
    (x >>= fun a => .ok (f a)) = .error e ↔ x = .error e :=
  map_eq_error (f := f)

theorem mapM_cons_eq_ok {f : α → Except ε β} {a : α} {as : List α} {bs : List β} :
    (a :: as).mapM f = .ok bs ↔
      ∃ b rest, f a = .ok b ∧ as.mapM f = .ok rest ∧ bs = b :: rest := by
  rw [List.mapM_cons, bind_eq_ok]
  constructor
  · rintro ⟨b, hb, hrest⟩
    obtain ⟨rest, hmap, heq⟩ := bind_eq_ok.mp hrest
    cases heq
    exact ⟨b, rest, hb, hmap, rfl⟩
  · rintro ⟨b, rest, hb, hmap, rfl⟩
    exact ⟨b, hb, bind_eq_ok.mpr ⟨rest, hmap, rfl⟩⟩

/-- A chain of operations that succeeds does so in front of each of them, at it and behind it. -/
theorem foldlM_append_cons_eq_ok {op : β → α → Except ε β} {before after : List α} {a : α}
    {b c : β} :
    (before ++ a :: after).foldlM op b = .ok c ↔
      ∃ b₁ b₂, before.foldlM op b = .ok b₁ ∧ op b₁ a = .ok b₂ ∧ after.foldlM op b₂ = .ok c := by
  rw [List.foldlM_append, bind_eq_ok]
  constructor
  · rintro ⟨b₁, hbefore, h⟩
    rw [List.foldlM_cons] at h
    obtain ⟨b₂, ha, hafter⟩ := bind_eq_ok.mp h
    exact ⟨b₁, b₂, hbefore, ha, hafter⟩
  · rintro ⟨b₁, b₂, hbefore, ha, hafter⟩
    refine ⟨b₁, hbefore, ?_⟩
    rw [List.foldlM_cons]
    exact bind_eq_ok.mpr ⟨b₂, ha, hafter⟩

theorem mapError_eq_ok {ε' : Type} {x : Except ε α} {f : ε → ε'} {a : α} :
    x.mapError f = .ok a ↔ x = .ok a := by
  cases x with
  | error e =>
    constructor
    · intro h; cases h
    · intro h; cases h
  | ok b =>
    constructor
    · intro h; cases h; rfl
    · intro h; cases h; rfl

theorem mapM_eq_ok {f : α → Except ε β} {as : List α} {bs : List β} (h : as.mapM f = .ok bs) :
    List.Forall₂ (fun a b => f a = .ok b) as bs := by
  induction as generalizing bs with
  | nil =>
    cases h
    exact .nil
  | cons a as ih =>
    obtain ⟨b, rest, hb, hrest, rfl⟩ := mapM_cons_eq_ok.mp h
    exact .cons hb (ih hrest)

theorem mapM_eq_ok_of_forall₂ {f : α → Except ε β} {as : List α} {bs : List β}
    (h : List.Forall₂ (fun a b => f a = .ok b) as bs) : as.mapM f = .ok bs := by
  induction h with
  | nil => rfl
  | cons hb _ ih => exact mapM_cons_eq_ok.mpr ⟨_, _, hb, ih, rfl⟩

/-- Each result of a list of operations comes from one of them. -/
theorem exists_of_mapM_eq_ok {f : α → Except ε β} {as : List α} {bs : List β}
    (h : as.mapM f = .ok bs) {b : β} (hb : b ∈ bs) : ∃ a ∈ as, f a = .ok b := by
  induction as generalizing bs with
  | nil =>
    cases h
    cases hb
  | cons a as ih =>
    obtain ⟨b', rest, hb', hrest, rfl⟩ := mapM_cons_eq_ok.mp h
    rcases List.mem_cons.mp hb with rfl | hb
    · exact ⟨a, List.mem_cons_self, hb'⟩
    · obtain ⟨a', ha', hf⟩ := ih hrest hb
      exact ⟨a', List.mem_cons_of_mem a ha', hf⟩

theorem toOption_eq_some {x : Except ε α} {a : α} : x.toOption = some a ↔ x = .ok a := by
  cases x with
  | error e =>
    constructor
    · intro h; cases h
    · intro h; cases h
  | ok b =>
    constructor
    · intro h; cases h; rfl
    · intro h; cases h; rfl

/-- What is known of a result that is looked at through a function. -/
theorem exists_of_toOption_map {x : Except ε α} {g : α → β} {b : β}
    (h : x.toOption.map g = some b) : ∃ a, x = .ok a ∧ g a = b := by
  obtain ⟨a, ha, hg⟩ := Option.map_eq_some_iff.mp h
  exact ⟨a, toOption_eq_some.mp ha, hg⟩

def Fails (x : Except ε α) : Prop := ∃ e, x = .error e

theorem not_fails_ok (a : α) : ¬ Fails (.ok a : Except ε α) := by
  rintro ⟨e, h⟩
  cases h

theorem fails_error (e : ε) : Fails (.error e : Except ε α) := ⟨e, rfl⟩

instance (x : Except ε α) : Decidable (Fails x) :=
  match x with
  | .error e => isTrue (fails_error e)
  | .ok a => isFalse (not_fails_ok a)

theorem fails_bind {x : Except ε α} {f : α → Except ε β} :
    Fails (x >>= f) ↔ Fails x ∨ ∃ a, x = .ok a ∧ Fails (f a) := by
  cases x with
  | error e =>
    constructor
    · exact fun _ => Or.inl (fails_error e)
    · exact fun _ => fails_error e
  | ok a =>
    constructor
    · exact fun h => Or.inr ⟨a, rfl, h⟩
    · rintro (h | ⟨a', ha, h⟩)
      · exact absurd h (not_fails_ok a)
      · cases ha; exact h

theorem exists_eq_ok_iff {x : Except ε α} : (∃ a, x = .ok a) ↔ ¬ Fails x := by
  cases x with
  | error e => exact iff_of_false (fun ⟨_, h⟩ => nomatch h) (not_not_intro (fails_error e))
  | ok a => exact iff_of_true ⟨a, rfl⟩ (not_fails_ok a)

/-- What is made of a result has no part in a failure. -/
theorem fails_bind_ok {x : Except ε α} {f : α → β} :
    Fails (x >>= fun a => .ok (f a)) ↔ Fails x := by
  rw [fails_bind]
  exact ⟨fun h => h.elim id fun ⟨a, _, h⟩ => absurd h (not_fails_ok _), Or.inl⟩

theorem fails_mapM {f : α → Except ε β} {as : List α} :
    Fails (as.mapM f) ↔ ∃ a ∈ as, Fails (f a) := by
  induction as with
  | nil => simp [not_fails_ok, pure, Except.pure]
  | cons a as ih =>
    rw [List.mapM_cons, fails_bind, List.exists_mem_cons_iff, ← ih]
    constructor
    · rintro (h | ⟨b, _, h⟩)
      · exact Or.inl h
      · exact Or.inr (fails_bind_ok.mp h)
    · rintro (h | h)
      · exact Or.inl h
      · cases hf : f a with
        | error e => exact Or.inl (fails_error e)
        | ok b => exact Or.inr ⟨b, rfl, fails_bind_ok.mpr h⟩

/-- Tests whose results are not looked at. -/
theorem fails_forM {f : α → Except ε β} {as : List α} :
    Fails (as.forM fun a => discard (f a)) ↔ ∃ a ∈ as, Fails (f a) := by
  induction as with
  | nil => simp [not_fails_ok, List.forM, pure, Except.pure]
  | cons a as ih =>
    rw [List.forM, fails_bind, List.exists_mem_cons_iff, ← ih]
    cases f a with
    | error e => exact ⟨fun _ => Or.inl (fails_error e), fun _ => Or.inl (fails_error e)⟩
    | ok b =>
      constructor
      · rintro (h | ⟨_, _, h⟩)
        · exact absurd h (not_fails_ok _)
        · exact Or.inr h
      · rintro (h | h)
        · exact absurd h (not_fails_ok b)
        · exact Or.inr ⟨⟨⟩, rfl, h⟩

theorem exists_forM_eq_ok {f : α → Except ε β} {as : List α} :
    (∃ u, as.forM (fun a => discard (f a)) = .ok u) ↔ ∀ a ∈ as, ¬ Fails (f a) := by
  rw [exists_eq_ok_iff, fails_forM, not_exists]
  exact forall_congr' fun a => not_and

/-- The first of a list that an operation fails for, and its failure. -/
def FirstFailure (op : α → Except ε β) (as : List α) (a : α) (e : ε) : Prop :=
  ∃ before after, as = before ++ a :: after ∧ (∀ b ∈ before, ¬ Fails (op b)) ∧ op a = .error e

section FirstFailure
variable {op : α → Except ε β} {a : α} {as : List α} {e : ε}

theorem FirstFailure.mem (h : FirstFailure op as a e) : a ∈ as := by
  obtain ⟨before, after, rfl, _⟩ := h
  exact List.mem_append_right before List.mem_cons_self

theorem FirstFailure.fails (h : FirstFailure op as a e) : op a = .error e := by
  obtain ⟨_, _, _, _, ha⟩ := h
  exact ha

theorem firstFailure_cons_of_error {b : α} {e' : ε} (hb : op b = .error e') :
    FirstFailure op (b :: as) a e ↔ a = b ∧ e' = e := by
  constructor
  · rintro ⟨before, after, h, hbefore, ha⟩
    cases before with
    | nil =>
      cases h
      rw [hb] at ha
      exact ⟨rfl, Except.error.inj ha⟩
    | cons b' before =>
      cases h
      exact absurd ⟨e', hb⟩ (hbefore b List.mem_cons_self)
  · rintro ⟨rfl, rfl⟩
    exact ⟨[], as, rfl, fun _ hb => absurd hb List.not_mem_nil, hb⟩

theorem firstFailure_cons_of_ok {b : α} {c : β} (hb : op b = .ok c) :
    FirstFailure op (b :: as) a e ↔ FirstFailure op as a e := by
  constructor
  · rintro ⟨before, after, h, hbefore, ha⟩
    cases before with
    | nil =>
      cases h
      rw [hb] at ha
      cases ha
    | cons b' before =>
      cases h
      exact ⟨before, after, rfl, fun x hx => hbefore x (List.mem_cons_of_mem b hx), ha⟩
  · rintro ⟨before, after, rfl, hbefore, ha⟩
    refine ⟨b :: before, after, rfl, List.forall_mem_cons.mpr ⟨?_, hbefore⟩, ha⟩
    rw [hb]
    exact not_fails_ok c

/-- A list of operations fails as the first of them that does. -/
theorem mapM_eq_error : as.mapM op = .error e ↔ ∃ a, FirstFailure op as a e := by
  induction as with
  | nil =>
    refine iff_of_false nofun ?_
    rintro ⟨a, h⟩
    exact List.not_mem_nil h.mem
  | cons b bs ih =>
    rw [List.mapM_cons]
    cases hb : op b with
    | error e' =>
      simp only [firstFailure_cons_of_error hb, exists_eq_left]
      exact ⟨Except.error.inj, congrArg Except.error⟩
    | ok c =>
      simp only [firstFailure_cons_of_ok hb]
      exact bind_ok_eq_error.trans ih

end FirstFailure

/-- A chain of operations fails as the first of them that does where the ones in front have led. -/
theorem foldlM_eq_error {op : β → α → Except ε β} {as : List α} {b : β} {e : ε} :
    as.foldlM op b = .error e ↔
      ∃ before a after c, as = before ++ a :: after ∧ before.foldlM op b = .ok c ∧
        op c a = .error e := by
  constructor
  · intro h
    induction as generalizing b with
    | nil => cases h
    | cons a as ih =>
      rw [List.foldlM_cons] at h
      cases hop : op b a with
      | error e' =>
        rw [hop] at h
        cases h
        exact ⟨[], a, as, b, rfl, rfl, hop⟩
      | ok b' =>
        rw [hop, ok_bind] at h
        obtain ⟨before, a', after, c, rfl, hbefore, ha'⟩ := ih h
        refine ⟨a :: before, a', after, c, rfl, ?_, ha'⟩
        rw [List.foldlM_cons, hop, ok_bind]
        exact hbefore
  · rintro ⟨before, a, after, c, rfl, hbefore, ha⟩
    rw [List.foldlM_append, hbefore, ok_bind, List.foldlM_cons, ha]
    rfl

/-- Whatever an operation fails with has a property. -/
def FailsWith (P : Failure → Prop) (x : Except Failure α) : Prop := ∀ f, x = .error f → P f

section FailsWith
variable {P : Failure → Prop}

theorem failsWith_ok (a : α) : FailsWith P (.ok a) := by
  intro f h
  cases h

theorem failsWith_error {f : Failure} (h : P f) : FailsWith P (.error f : Except Failure α) := by
  intro f' h'
  cases h'
  exact h

theorem failsWith_bind {x : Except Failure α} {g : α → Except Failure β} (hx : FailsWith P x)
    (hg : ∀ a, x = .ok a → FailsWith P (g a)) : FailsWith P (x >>= g) := by
  cases x with
  | error f => exact failsWith_error (hx f rfl)
  | ok a => exact hg a rfl

theorem failsWith_map {x : Except Failure α} {g : α → β} (hx : FailsWith P x) :
    FailsWith P (g <$> x) := by
  cases x with
  | error f => exact failsWith_error (hx f rfl)
  | ok a => exact failsWith_ok (g a)

/-- What a failure is turned into has the property. -/
theorem failsWith_mapError {x : Except ε α} {change : ε → Failure}
    (hx : ∀ e, x = .error e → P (change e)) : FailsWith P (x.mapError change) := by
  cases x with
  | error e => exact failsWith_error (hx e rfl)
  | ok a => exact failsWith_ok a

/-- A check in front of an operation. -/
theorem failsWith_check {c : Prop} [Decidable c] {f : Failure} {rest : PUnit → Except Failure β}
    (hf : c → P f) (hrest : ¬ c → FailsWith P (rest ⟨⟩)) :
    FailsWith P (if c then throw f >>= rest else rest ⟨⟩) := by
  split
  · rename_i h
    exact failsWith_error (hf h)
  · rename_i h
    exact hrest h

/-- A check that is all of an operation. -/
theorem failsWith_guard {c : Prop} [Decidable c] {f : Failure} (hf : c → P f) :
    FailsWith P (if c then .error f else .ok ()) := by
  split
  · rename_i h
    exact failsWith_error (hf h)
  · exact failsWith_ok ()

theorem FailsWith.mono {Q : Failure → Prop} {x : Except Failure α} (h : FailsWith P x)
    (more : ∀ f, P f → Q f) : FailsWith Q x :=
  fun f hf => more f (h f hf)

theorem failsWith_mapM {g : α → Except Failure β} {as : List α}
    (hg : ∀ a ∈ as, FailsWith P (g a)) : FailsWith P (as.mapM g) := by
  induction as with
  | nil => exact failsWith_ok []
  | cons a as ih =>
    obtain ⟨ha, has⟩ := List.forall_mem_cons.mp hg
    rw [List.mapM_cons]
    refine failsWith_bind ha fun b _ => failsWith_bind (ih has) fun bs _ => ?_
    exact failsWith_ok (b :: bs)

theorem failsWith_foldlM {g : β → α → Except Failure β} {as : List α}
    (hg : ∀ a ∈ as, ∀ b, FailsWith P (g b a)) (b : β) : FailsWith P (as.foldlM g b) := by
  induction as generalizing b with
  | nil => exact failsWith_ok b
  | cons a as ih =>
    obtain ⟨ha, has⟩ := List.forall_mem_cons.mp hg
    rw [List.foldlM_cons]
    exact failsWith_bind (ha b) fun b' _ => ih has b'

end FailsWith

def FailsAs (kind : FailureKind) (x : Except Failure α) : Prop := ∃ f, x = .error f ∧ f.kind = kind

section FailsAs
variable {kind : FailureKind}

@[simp] theorem failsAs_ok {a : α} : ¬ FailsAs kind (.ok a : Except Failure α) := by
  rintro ⟨f, h, _⟩
  cases h

@[simp] theorem failsAs_error {f : Failure} :
    FailsAs kind (.error f : Except Failure α) ↔ f.kind = kind := by
  constructor
  · rintro ⟨f', h, hkind⟩
    cases h
    exact hkind
  · intro hkind
    exact ⟨f, rfl, hkind⟩

/-- A failure has one kind. -/
theorem FailsAs.unique {kind' : FailureKind} {x : Except Failure α} (h : FailsAs kind x)
    (h' : FailsAs kind' x) : kind = kind' := by
  obtain ⟨f, rfl, hkind⟩ := h
  exact hkind.symm.trans (failsAs_error.mp h')

end FailsAs

/-- An operation fails with some kinds of failures only. -/
def FailsOnly (kinds : List FailureKind) (x : Except Failure α) : Prop :=
  ∀ f, x = .error f → f.kind ∈ kinds

section FailsOnly
variable {kinds : List FailureKind}

theorem failsOnly_ok (a : α) : FailsOnly kinds (.ok a) := failsWith_ok a

theorem failsOnly_error {f : Failure} (h : f.kind ∈ kinds) :
    FailsOnly kinds (.error f : Except Failure α) :=
  failsWith_error h

theorem FailsOnly.mono {kinds' : List FailureKind} {x : Except Failure α} (h : FailsOnly kinds x)
    (more : kinds ⊆ kinds') : FailsOnly kinds' x :=
  fun f hf => more (h f hf)

theorem failsOnly_bind {x : Except Failure α} {g : α → Except Failure β} (hx : FailsOnly kinds x)
    (hg : ∀ a, x = .ok a → FailsOnly kinds (g a)) : FailsOnly kinds (x >>= g) :=
  failsWith_bind hx hg

theorem failsOnly_map {x : Except Failure α} {g : α → β} (hx : FailsOnly kinds x) :
    FailsOnly kinds (g <$> x) :=
  failsWith_map hx

theorem failsOnly_withContext {x : Except Failure α} (change : Context → Context)
    (hx : FailsOnly kinds x) : FailsOnly kinds (withContext change x) :=
  failsWith_mapError hx

theorem failsOnly_mapM {g : α → Except Failure β} {as : List α}
    (hg : ∀ a ∈ as, FailsOnly kinds (g a)) : FailsOnly kinds (as.mapM g) :=
  failsWith_mapM hg

theorem failsOnly_foldlM {g : β → α → Except Failure β} {as : List α}
    (hg : ∀ a ∈ as, ∀ b, FailsOnly kinds (g b a)) (b : β) : FailsOnly kinds (as.foldlM g b) :=
  failsWith_foldlM hg b

/-- Tests whose results are not looked at. -/
theorem failsOnly_forM {g : α → Except Failure β} {as : List α}
    (hg : ∀ a ∈ as, FailsOnly kinds (g a)) :
    FailsOnly kinds (as.forM fun a => discard (g a)) := by
  induction as with
  | nil => exact failsOnly_ok _
  | cons a as ih =>
    obtain ⟨ha, has⟩ := List.forall_mem_cons.mp hg
    rw [List.forM]
    exact failsOnly_bind (failsOnly_map ha) fun _ _ => ih has

end FailsOnly

/-- Whatever an operation succeeds with has a property. -/
def Yields (P : α → Prop) (x : Except ε α) : Prop := ∀ a, x = .ok a → P a

section Yields
variable {P : α → Prop} {Q : β → Prop}

theorem yields_ok {a : α} (h : P a) : Yields P (.ok a : Except ε α) := by
  intro a' h'
  cases h'
  exact h

theorem yields_error (e : ε) : Yields P (.error e) := by
  intro a h
  cases h

theorem yields_bind {x : Except ε α} {g : α → Except ε β} (hx : Yields P x)
    (hg : ∀ a, P a → Yields Q (g a)) : Yields Q (x >>= g) := by
  intro b h
  obtain ⟨a, ha, hb⟩ := bind_eq_ok.mp h
  exact hg a (hx a ha) b hb

/-- The first part of an operation has no part in the property. -/
theorem yields_after {x : Except ε α} {g : α → Except ε β} (hg : ∀ a, Yields Q (g a)) :
    Yields Q (x >>= g) :=
  yields_bind (P := fun _ => True) (fun _ _ => trivial) fun a _ => hg a

theorem yields_map {x : Except ε α} {g : α → β} (hx : Yields P x) (hg : ∀ a, P a → Q (g a)) :
    Yields Q (g <$> x) := by
  intro b h
  obtain ⟨a, ha, rfl⟩ := map_eq_ok.mp h
  exact hg a (hx a ha)

theorem yields_mapError {ε' : Type} {x : Except ε α} {change : ε → ε'} (hx : Yields P x) :
    Yields P (x.mapError change) :=
  fun a h => hx a (mapError_eq_ok.mp h)

/-- A check in front of an operation. -/
theorem yields_check {c : Prop} [Decidable c] {e : ε} {rest : PUnit → Except ε β}
    (hrest : ¬ c → Yields Q (rest ⟨⟩)) :
    Yields Q (if c then throw e >>= rest else rest ⟨⟩) := by
  split
  · exact yields_error e
  · rename_i h
    exact hrest h

theorem yields_mapM {g : α → Except ε β} {as : List α} (hg : ∀ a ∈ as, Yields Q (g a)) :
    Yields (fun bs => ∀ b ∈ bs, Q b) (as.mapM g) := by
  intro bs h b hb
  obtain ⟨a, ha, hok⟩ := exists_of_mapM_eq_ok h hb
  exact hg a ha b hok

theorem yields_foldlM {g : β → α → Except ε β} {as : List α}
    (hg : ∀ a ∈ as, ∀ b, Q b → Yields Q (g b a)) {b : β} (hb : Q b) :
    Yields Q (as.foldlM g b) := by
  induction as generalizing b with
  | nil => exact yields_ok hb
  | cons a as ih =>
    obtain ⟨ha, has⟩ := List.forall_mem_cons.mp hg
    rw [List.foldlM_cons]
    exact yields_bind (ha b hb) fun b' hb' => ih has hb'

end Yields

/-- A check in front of an operation. -/
theorem check_eq_ok {c : Prop} [Decidable c] {e : ε} {rest : PUnit → Except ε β} {b : β} :
    (if c then throw e >>= rest else rest ⟨⟩) = .ok b ↔ ¬ c ∧ rest ⟨⟩ = .ok b := by
  by_cases h : c
  · rw [if_pos h]
    constructor
    · intro hthrow; cases hthrow
    · rintro ⟨hnot, _⟩; exact absurd h hnot
  · rw [if_neg h]
    exact ⟨fun hrest => ⟨h, hrest⟩, fun hrest => hrest.2⟩

/-- A check that is all of an operation. -/
theorem guard_eq_ok {c : Prop} [Decidable c] {e : ε} {x : Unit} :
    (if c then .error e else .ok ()) = (.ok x : Except ε Unit) ↔ ¬ c := by
  by_cases h : c
  · rw [if_pos h]
    constructor
    · intro hok; cases hok
    · intro hnot; exact absurd h hnot
  · rw [if_neg h]
    exact ⟨fun _ => h, fun _ => rfl⟩

namespace Logged

theorem result_liftM (x : Except Failure α) : (liftM x : Logged α).result = x := rfl

theorem result_map (f : α → β) (x : Logged α) : (f <$> x).result = f <$> x.result := by
  change (x >>= fun a => pure (f a)).result = _
  rw [result_bind]
  cases x.result <;> rfl

/-- A check in front of an operation with a log. -/
theorem check_eq_ok {c : Prop} [Decidable c] {f : Failure} {rest : PUnit → Logged β} {b : β} :
    (if c then fail f >>= rest else rest ⟨⟩).result = .ok b ↔ ¬ c ∧ (rest ⟨⟩).result = .ok b := by
  by_cases h : c
  · rw [if_pos h]
    constructor
    · intro hfail; cases hfail
    · rintro ⟨hnot, _⟩; exact absurd h hnot
  · rw [if_neg h]
    exact ⟨fun hrest => ⟨h, hrest⟩, fun hrest => hrest.2⟩

theorem failsWith_check {P : Failure → Prop} {c : Prop} [Decidable c] {f : Failure}
    {rest : PUnit → Logged β} (hf : c → P f) (hrest : ¬ c → FailsWith P (rest ⟨⟩).result) :
    FailsWith P (if c then fail f >>= rest else rest ⟨⟩).result := by
  split
  · rename_i h
    exact failsWith_error (hf h)
  · rename_i h
    exact hrest h

/-- Whether something is noted in front of an operation has no part in its result. -/
theorem result_note_before {c : Prop} [Decidable c] (level : Log.Level) (text : String)
    (rest : PUnit → Logged β) :
    (if c then note level text >>= rest else rest ⟨⟩).result = (rest ⟨⟩).result := by
  split <;> rfl

theorem result_foldlM (f : β → α → Logged β) (b : β) (as : List α) :
    (as.foldlM f b).result = as.foldlM (fun b a => (f b a).result) b := by
  induction as generalizing b with
  | nil => rfl
  | cons a as ih => simp only [List.foldlM_cons, result_bind, ih]

theorem result_mapM_loop (f : α → Logged β) (as : List α) (done : List β) :
    (List.mapM.loop f as done).result = List.mapM.loop (fun a => (f a).result) as done := by
  induction as generalizing done with
  | nil => rfl
  | cons a as ih => simp only [List.mapM.loop, result_bind, ih]

theorem result_mapM (f : α → Logged β) (as : List α) :
    (as.mapM f).result = as.mapM fun a => (f a).result :=
  result_mapM_loop f as []

end Logged

end SeismicTree
