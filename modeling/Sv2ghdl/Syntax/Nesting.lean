import Mathlib.Tactic

/-!
# Trees built by begin and end calls

A case holds actions and switches, a switch holds cases. The calls that build such a tree are a word of begins, ends
and assignments; the word is properly nested when it can be read as a tree.
-/

namespace Nesting

/-! ## Trees -/

structure Switch (σ γ : Type) where
  signal : σ
  cases : List γ

inductive Case (κ α σ : Type) where
  | mk (compare : κ) (actions : List α) (switches : List (Switch σ (Case κ α σ)))

section Trees

variable {κ α σ : Type}

def Case.compare : Case κ α σ → κ
  | .mk k _ _ => k

def Case.actions : Case κ α σ → List α
  | .mk _ as _ => as

def Case.switches : Case κ α σ → List (Switch σ (Case κ α σ))
  | .mk _ _ sws => sws

/-- The way from a case to one inside it: the place of a switch, and the place of a case in the switch. -/
abbrev Path := List (Nat × Nat)

def Case.get? : Path → Case κ α σ → Option (Case κ α σ)
  | [], c => some c
  | (i, j) :: p, c => (c.switches[i]?).bind fun s => (s.cases[j]?).bind (get? p)

def Case.modify (f : Case κ α σ → Case κ α σ) : Path → Case κ α σ → Case κ α σ
  | [], c => f c
  | (i, j) :: p, .mk k as sws =>
    .mk k as (sws.modify i fun s => ⟨s.signal, s.cases.modify j (modify f p)⟩)

def Case.addAction (a : α) : Case κ α σ → Case κ α σ
  | .mk k as sws => .mk k (as ++ [a]) sws

def Case.addSwitch (s : σ) : Case κ α σ → Case κ α σ
  | .mk k as sws => .mk k as (sws ++ [⟨s, []⟩])

/-- A case without actions at the end of the switch at a place. -/
def Case.addCase (i : Nat) (k : κ) : Case κ α σ → Case κ α σ
  | .mk k' as sws => .mk k' as (sws.modify i fun s => ⟨s.signal, s.cases ++ [.mk k [] []]⟩)

/-- How many switches the case at a path holds. -/
def Case.switchCount (p : Path) (c : Case κ α σ) : Nat :=
  (c.get? p).elim 0 (·.switches.length)

/-- How many cases the switch at a place in the case at a path holds. -/
def Case.caseCount (p : Path) (i : Nat) (c : Case κ α σ) : Nat :=
  ((c.get? p).bind (·.switches[i]?)).elim 0 (·.cases.length)

end Trees

/-! ## Words -/

inductive Event (κ α σ : Type) where
  | assign (a : α)
  /-- An assignment in the outermost case, wherever it is called. -/
  | assignRoot (a : α)
  | switchBegin (s : σ)
  | caseBegin (k : κ)
  | caseEnd
  | switchEnd

section Words

variable {κ α σ : Type}

mutual

/-- The calls between the begin and the end of a case, with the actions and the switches they put into it. -/
inductive Body : List (Event κ α σ) → List α → List (Switch σ (Case κ α σ)) → Prop
  | nil : Body [] [] []
  | assign {es as sws} (a : α) (h : Body es as sws) : Body (es ++ [.assign a]) (as ++ [a]) sws
  | assignRoot {es as sws} (a : α) (h : Body es as sws) : Body (es ++ [.assignRoot a]) as sws
  | switch {es as sws fs cs} (s : σ) (h : Body es as sws) (hs : Cases fs cs) :
    Body (es ++ .switchBegin s :: fs ++ [.switchEnd]) as (sws ++ [⟨s, cs⟩])

/-- The calls between the begin and the end of a switch, with the cases they put into it. -/
inductive Cases : List (Event κ α σ) → List (Case κ α σ) → Prop
  | nil : Cases [] []
  | assignRoot {es cs} (a : α) (h : Cases es cs) : Cases (es ++ [.assignRoot a]) cs
  | case {es cs fs as sws} (k : κ) (h : Cases es cs) (hb : Body fs as sws) :
    Cases (es ++ .caseBegin k :: fs ++ [.caseEnd]) (cs ++ [.mk k as sws])

end

theorem getLast?_body_ne {es : List (Event κ α σ)} {as : List α} {sws : List (Switch σ (Case κ α σ))}
    (h : Body es as sws) : es.getLast? ≠ some .caseEnd := by
  cases h with
  | nil => nofun
  | _ => rw [List.getLast?_concat]; nofun

/-- What the calls put into the outermost case when `d` of its parts are open. -/
def rootActions : Nat → List (Event κ α σ) → List α
  | _, [] => []
  | 0, .assign a :: es => a :: rootActions 0 es
  | d + 1, .assign _ :: es => rootActions (d + 1) es
  | d, .assignRoot a :: es => a :: rootActions d es
  | d, .switchBegin _ :: es => rootActions (d + 1) es
  | d, .caseBegin _ :: es => rootActions (d + 1) es
  | d, .caseEnd :: es => rootActions (d - 1) es
  | d, .switchEnd :: es => rootActions (d - 1) es

/-- The outermost case, for `k`, that a properly nested word is read as. -/
structure Reads (k : κ) (es : List (Event κ α σ)) (c : Case κ α σ) : Prop where
  body : ∃ as, Body es as c.switches
  actions : c.actions = rootActions 0 es
  compare : c.compare = k

/-! ## What is open -/

/-- What the calls so far have put into a case that is still open: the path leads to the innermost open case, and the
index is that of the switch open in it, if there is one. -/
inductive Open : List (Event κ α σ) → List α → List (Switch σ (Case κ α σ)) → Path → Option Nat → Prop
  | case {es as sws} (h : Body es as sws) : Open es as sws [] none
  | switch {es as sws fs cs} (s : σ) (h : Body es as sws) (hs : Cases fs cs) :
    Open (es ++ .switchBegin s :: fs) as (sws ++ [⟨s, cs⟩]) [] (some sws.length)
  | inside {es as sws fs cs gs as' sws' p w} (s : σ) (k : κ) (h : Body es as sws) (hs : Cases fs cs)
    (hc : Open gs as' sws' p w) :
    Open (es ++ .switchBegin s :: fs ++ .caseBegin k :: gs) as (sws ++ [⟨s, cs ++ [.mk k as' sws']⟩])
      ((sws.length, cs.length) :: p) w

/-- A case that is still open, but for the actions put into it from elsewhere. -/
abbrev OpenCase (es : List (Event κ α σ)) (c : Case κ α σ) : Path → Option Nat → Prop :=
  Open es c.actions c.switches

theorem modify_last {β : Type} (l : List β) (b : β) (f : β → β) : (l ++ [b]).modify l.length f = l ++ [f b] := by
  induction l with
  | nil => rfl
  | cons a l ih => rw [List.cons_append, List.length_cons, List.modify_succ_cons, ih, List.cons_append]

variable {es : List (Event κ α σ)} {as : List α} {sws : List (Switch σ (Case κ α σ))} {p : Path} {w : Option Nat}

/-- A change deep in the last case of the last switch. -/
theorem modify_inside (f : Case κ α σ → Case κ α σ) (k : κ) (s : σ) (cs : List (Case κ α σ)) (c : Case κ α σ) :
    (Case.mk k as (sws ++ [⟨s, cs ++ [c]⟩])).modify f ((sws.length, cs.length) :: p) =
      .mk k as (sws ++ [⟨s, cs ++ [c.modify f p]⟩]) := by
  rw [Case.modify, modify_last, modify_last]

theorem get?_inside (k : κ) (s : σ) (cs : List (Case κ α σ)) (c : Case κ α σ) :
    (Case.mk k as (sws ++ [⟨s, cs ++ [c]⟩])).get? ((sws.length, cs.length) :: p) = c.get? p := by
  simp [Case.get?, Case.switches]

theorem compare_modify {f : Case κ α σ → Case κ α σ} (hf : ∀ c, (f c).compare = c.compare) (c : Case κ α σ) :
    (c.modify f p).compare = c.compare := by
  cases p with
  | nil => exact hf c
  | cons x p =>
    cases c
    rfl

theorem compare_addAction (a : α) (c : Case κ α σ) : (c.addAction a).compare = c.compare := by
  cases c
  rfl

theorem compare_addSwitch (s : σ) (c : Case κ α σ) : (c.addSwitch s).compare = c.compare := by
  cases c
  rfl

theorem compare_addCase (i : Nat) (k : κ) (c : Case κ α σ) : (c.addCase i k).compare = c.compare := by
  cases c
  rfl

/-- The open case of an open switch, changed by one more call. -/
theorem OpenCase.inside {fs gs : List (Event κ α σ)} {cs : List (Case κ α σ)} {c : Case κ α σ} {k : κ} (s : σ)
    (h : Body es as sws) (hs : Cases fs cs) (hk : c.compare = k) (hc : OpenCase gs c p w) :
    Open (es ++ .switchBegin s :: fs ++ .caseBegin k :: gs) as (sws ++ [⟨s, cs ++ [c]⟩])
      ((sws.length, cs.length) :: p) w := by
  subst hk
  cases c
  exact .inside s _ h hs hc

theorem Open.assign (k : κ) (a : α) (h : Open es as sws p none) :
    OpenCase (es ++ [.assign a]) ((Case.mk k as sws).modify (.addAction a) p) p none := by
  generalize hw : (none : Option Nat) = w at h
  induction h generalizing k with
  | case h => exact .case (h.assign a)
  | switch => cases hw
  | inside s k' h hs _ ih =>
    rw [modify_inside, List.append_assoc, List.cons_append]
    exact OpenCase.inside s h hs (compare_modify (compare_addAction a) _) (ih k' hw)

theorem Open.switchBegin (k : κ) (s : σ) (h : Open es as sws p none) :
    OpenCase (es ++ [.switchBegin s]) ((Case.mk k as sws).modify (.addSwitch s) p) p
      (some ((Case.mk k as sws).switchCount p)) := by
  generalize hw : (none : Option Nat) = w at h
  induction h generalizing k with
  | case h => exact .switch s h .nil
  | switch => cases hw
  | inside s' k' h hs _ ih =>
    rw [modify_inside, List.append_assoc, List.cons_append, Case.switchCount, get?_inside]
    exact OpenCase.inside s' h hs (compare_modify (compare_addSwitch s) _) (ih k' hw)

theorem Open.caseBegin (k l : κ) {i : Nat} (h : Open es as sws p (some i)) :
    OpenCase (es ++ [.caseBegin l]) ((Case.mk k as sws).modify (.addCase i l) p)
      (p ++ [(i, (Case.mk k as sws).caseCount p i)]) none := by
  generalize hw : some i = w at h
  induction h generalizing k with
  | case => cases hw
  | @switch es as sws fs cs s h hs =>
    cases hw
    have hcount : (Case.mk k as (sws ++ [⟨s, cs⟩])).caseCount [] sws.length = cs.length := by
      simp [Case.caseCount, Case.get?, Case.switches]
    rw [hcount, Case.modify, Case.addCase, modify_last]
    exact Open.inside s l h hs (.case .nil)
  | inside s' k' h hs _ ih =>
    rw [modify_inside, List.append_assoc, List.cons_append, List.cons_append, Case.caseCount, get?_inside]
    exact OpenCase.inside s' h hs (compare_modify (compare_addCase i l) _) (ih k' hw)

theorem Open.caseEnd {x : Nat × Nat} (h : Open es as sws (p ++ [x]) none) :
    Open (es ++ [.caseEnd]) as sws p (some x.1) := by
  induction p generalizing es as sws with
  | nil =>
    cases h with
    | inside s k h hs hc =>
      cases hc with
      | case hb =>
        have hcase := Cases.case k hs hb
        simpa using Open.switch s h hcase
  | cons y p ih =>
    cases h with
    | inside s k h hs hc =>
      rw [List.append_assoc, List.cons_append]
      exact .inside s k h hs (ih hc)

theorem Open.switchEnd {i : Nat} (h : Open es as sws p (some i)) : Open (es ++ [.switchEnd]) as sws p none := by
  generalize hw : some i = w at h
  induction h with
  | case => cases hw
  | switch s h hs => exact .case (h.switch s hs)
  | inside s k h hs _ ih =>
    rw [List.append_assoc, List.cons_append]
    exact .inside s k h hs (ih hw)

theorem Open.assignRoot (a : α) (h : Open es as sws p w) : Open (es ++ [.assignRoot a]) as sws p w := by
  induction h with
  | case h => exact .case (h.assignRoot a)
  | switch s h hs =>
    rw [List.append_assoc, List.cons_append]
    exact .switch s h (hs.assignRoot a)
  | inside s k h hs _ ih =>
    rw [List.append_assoc, List.cons_append]
    exact .inside s k h hs ih

/-! ## The outermost case -/

/-- A word that leaves the depth as it was. -/
def Level (es : List (Event κ α σ)) : Prop :=
  ∀ d fs, rootActions d (es ++ fs) = rootActions d es ++ rootActions d fs

theorem Level.nil : Level ([] : List (Event κ α σ)) := fun _ _ => rfl

theorem Level.append {es fs : List (Event κ α σ)} (h : Level es) (h' : Level fs) : Level (es ++ fs) := by
  intro d gs
  rw [List.append_assoc, h, h', h, List.append_assoc]

theorem Level.assign (a : α) : Level [(.assign a : Event κ α σ)] := by
  intro d fs
  cases d <;> rfl

theorem Level.assignRoot (a : α) : Level [(.assignRoot a : Event κ α σ)] := by
  intro d fs
  cases d <;> rfl

theorem Level.switch (s : σ) {fs : List (Event κ α σ)} (h : Level fs) : Level (.switchBegin s :: fs ++ [.switchEnd]) := by
  intro d gs
  simp only [List.append_assoc, List.cons_append, List.nil_append, rootActions, h (d + 1), Nat.add_sub_cancel,
    List.append_nil]

theorem Level.case (k : κ) {fs : List (Event κ α σ)} (h : Level fs) : Level (.caseBegin k :: fs ++ [.caseEnd]) := by
  intro d gs
  simp only [List.append_assoc, List.cons_append, List.nil_append, rootActions, h (d + 1), Nat.add_sub_cancel,
    List.append_nil]

mutual

theorem body_level {es : List (Event κ α σ)} {as : List α} {sws : List (Switch σ (Case κ α σ))} :
    Body es as sws → Level es
  | .nil => .nil
  | .assign a h => (body_level h).append (.assign a)
  | .assignRoot a h => (body_level h).append (.assignRoot a)
  | .switch s h hs => List.append_assoc _ _ _ ▸ (body_level h).append (.switch s (cases_level hs))

theorem cases_level {es : List (Event κ α σ)} {cs : List (Case κ α σ)} : Cases es cs → Level es
  | .nil => .nil
  | .assignRoot a h => (cases_level h).append (.assignRoot a)
  | .case k h hb => List.append_assoc _ _ _ ▸ (cases_level h).append (.case k (body_level hb))

end

/-- How many cases and switches are open inside the outermost case. -/
def depth (p : Path) (w : Option Nat) : Nat := 2 * p.length + w.elim 0 fun _ => 1

theorem Open.rootActions_append (h : Open es as sws p w) (d : Nat) (fs : List (Event κ α σ)) :
    rootActions d (es ++ fs) = rootActions d es ++ rootActions (d + depth p w) fs := by
  induction h generalizing d with
  | case h => exact body_level h d fs
  | switch s h hs =>
    simp only [List.append_assoc, List.cons_append, body_level h d, rootActions, cases_level hs (d + 1)]
    rfl
  | @inside _ _ sws _ cs _ _ _ p w s k h hs hc ih =>
    have hdepth : d + 1 + 1 + depth p w = d + depth ((sws.length, cs.length) :: p) w := by
      simp only [depth, List.length_cons]
      omega
    simp only [List.append_assoc, List.cons_append, body_level h d, rootActions, cases_level hs (d + 1), ih,
      hdepth]

/-- The outermost case, still open, with what has been put into it from everywhere. -/
structure Rooted (k : κ) (es : List (Event κ α σ)) (c : Case κ α σ) (p : Path) (w : Option Nat) : Prop where
  opened : ∃ as, Open es as c.switches p w
  actions : c.actions = rootActions 0 es
  compare : c.compare = k

variable {k : κ}

theorem Rooted.nil (k : κ) : Rooted k ([] : List (Event κ α σ)) (.mk k [] []) [] none :=
  ⟨⟨[], .case .nil⟩, rfl, rfl⟩

/-- When everything is closed the word has been read. -/
theorem Rooted.reads {c : Case κ α σ} (h : Rooted k es c [] none) : Reads k es c := by
  obtain ⟨as, h'⟩ := h.opened
  refine ⟨⟨as, ?_⟩, h.actions, h.compare⟩
  generalize c.switches = sws at h'
  cases h' with
  | case hb => exact hb

/-- A change inside the outermost case is the same whatever its actions are. -/
theorem switches_modify {f : Case κ α σ → Case κ α σ}
    (hf : ∀ k as bs sws, (f (.mk k as sws)).switches = (f (.mk k bs sws)).switches) (c : Case κ α σ) (as : List α) :
    (c.modify f p).switches = ((Case.mk c.compare as c.switches).modify f p).switches := by
  cases c with
  | mk k bs sws =>
    cases p with
    | nil => exact hf k bs as sws
    | cons x p => rfl

theorem actions_modify (f : Case κ α σ → Case κ α σ) (c : Case κ α σ) (x : Nat × Nat) :
    (c.modify f (x :: p)).actions = c.actions := by
  cases c
  rfl

theorem switchCount_eq (c : Case κ α σ) (as : List α) :
    c.switchCount p = (Case.mk c.compare as c.switches).switchCount p := by
  cases p <;> rfl

theorem caseCount_eq (c : Case κ α σ) (as : List α) (i : Nat) :
    c.caseCount p i = (Case.mk c.compare as c.switches).caseCount p i := by
  cases p <;> rfl

section Steps

variable {c : Case κ α σ}

theorem Rooted.assign (a : α) (h : Rooted k es c p none) :
    Rooted k (es ++ [.assign a]) (c.modify (.addAction a) p) p none := by
  obtain ⟨as, h'⟩ := h.opened
  have hstep := h'.assign c.compare a
  rw [OpenCase, ← switches_modify (fun _ _ _ _ => rfl)] at hstep
  refine ⟨⟨_, hstep⟩, ?_, (compare_modify (compare_addAction a) c).trans h.compare⟩
  rw [h'.rootActions_append, ← h.actions]
  cases p with
  | nil =>
    cases c
    rfl
  | cons x p =>
    rw [actions_modify]
    simp [depth, Nat.mul_add, rootActions]

theorem Rooted.assignRoot (a : α) (h : Rooted k es c p w) : Rooted k (es ++ [.assignRoot a]) (c.addAction a) p w := by
  obtain ⟨as, h'⟩ := h.opened
  have hactions : (c.addAction a).actions = c.actions ++ [a] := by
    cases c
    rfl
  have hswitches : (c.addAction a).switches = c.switches := by
    cases c
    rfl
  refine ⟨⟨as, hswitches ▸ h'.assignRoot a⟩, ?_, (compare_addAction a c).trans h.compare⟩
  rw [h'.rootActions_append, ← h.actions, hactions]
  cases (0 + depth p w) <;> rfl

theorem Rooted.switchBegin (s : σ) (h : Rooted k es c p none) :
    Rooted k (es ++ [.switchBegin s]) (c.modify (.addSwitch s) p) p (some (c.switchCount p)) := by
  obtain ⟨as, h'⟩ := h.opened
  have hstep := h'.switchBegin c.compare s
  rw [OpenCase, ← switches_modify (fun _ _ _ _ => rfl), ← switchCount_eq] at hstep
  refine ⟨⟨_, hstep⟩, ?_, (compare_modify (compare_addSwitch s) c).trans h.compare⟩
  have hnone : rootActions (0 + depth p none) [(.switchBegin s : Event κ α σ)] = [] := by
    cases (0 + depth p none) <;> rfl
  rw [h'.rootActions_append, ← h.actions, hnone, List.append_nil]
  cases p with
  | nil =>
    cases c
    rfl
  | cons x p => rw [actions_modify]

theorem Rooted.caseBegin (l : κ) {i : Nat} (h : Rooted k es c p (some i)) :
    Rooted k (es ++ [.caseBegin l]) (c.modify (.addCase i l) p) (p ++ [(i, c.caseCount p i)]) none := by
  obtain ⟨as, h'⟩ := h.opened
  have hstep := h'.caseBegin c.compare l
  rw [OpenCase, ← switches_modify (fun _ _ _ _ => rfl), ← caseCount_eq] at hstep
  refine ⟨⟨_, hstep⟩, ?_, (compare_modify (compare_addCase i l) c).trans h.compare⟩
  have hnone : rootActions (0 + depth p (some i)) [(.caseBegin l : Event κ α σ)] = [] := by
    cases (0 + depth p (some i)) <;> rfl
  rw [h'.rootActions_append, ← h.actions, hnone, List.append_nil]
  cases p with
  | nil =>
    cases c
    rfl
  | cons x p => rw [actions_modify]

theorem Rooted.caseEnd {x : Nat × Nat} (h : Rooted k es c (p ++ [x]) none) :
    Rooted k (es ++ [.caseEnd]) c p (some x.1) := by
  obtain ⟨as, h'⟩ := h.opened
  refine ⟨⟨as, h'.caseEnd⟩, ?_, h.compare⟩
  have hnone : ∀ d, rootActions d [(.caseEnd : Event κ α σ)] = [] := fun d => by cases d <;> rfl
  rw [h'.rootActions_append, ← h.actions, hnone, List.append_nil]

theorem Rooted.switchEnd {i : Nat} (h : Rooted k es c p (some i)) : Rooted k (es ++ [.switchEnd]) c p none := by
  obtain ⟨as, h'⟩ := h.opened
  refine ⟨⟨as, h'.switchEnd⟩, ?_, h.compare⟩
  have hnone : ∀ d, rootActions d [(.switchEnd : Event κ α σ)] = [] := fun d => by cases d <;> rfl
  rw [h'.rootActions_append, ← h.actions, hnone, List.append_nil]

end Steps

end Words

end Nesting
