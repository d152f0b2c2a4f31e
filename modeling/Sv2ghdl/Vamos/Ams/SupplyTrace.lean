import Sv2ghdl.Vamos.Ams.Supply
import Sv2ghdl.Lists.Lookup

/-!
# What a supply trace finds

The trace ends at the first stage with a hit.  It returns the highest reference of the stage, or else the highest level
that a source or a POWERNET node holds there, with a path from the start.
-/

open Python

namespace Vamos.Supply

variable {ε K : Type} [AddCommGroup K] [LinearOrder K]

/-! ## Supplies -/

/-- The levels of a V source, `none` when they cannot be evaluated. -/
def Scope.sourceLevels (s : Scope ε K) (inst : Instance ε) : Option (List K) :=
  let src := inst.source.getD ⟨false, .none, inst.value, fun _ => none, []⟩
  if src.codeUri then none else (s.levels src).toOption

/-- The node that a V source to ground holds, and the highest level it takes there. -/
def Scope.supply (s : Scope ε K) (inst : Instance ε) : Option (Node × Option K) :=
  inst.toGround.map fun t =>
    (t.1, (s.sourceLevels inst).bind fun levels => if t.2 then (levels.map fun v => -v).max? else levels.max?)

/-- A varying source with ground at its positive terminal. -/
def Scope.Turned (s : Scope ε K) (inst : Instance ε) : Prop :=
  (∃ n, inst.toGround = some (n, true)) ∧ (s.level inst).kind = .dynamic

variable (D : Deck ε K)

/-- A level at a node: the highest one of a source or of a POWERNET node. -/
def Deck.Supplies (n : Node) (v : K) : Prop :=
  (∃ lv, D.powernet n = some lv ∧ lv.value = some v) ∨
    ∃ s ∈ D.scopes, ∃ inst ∈ s.instances, s.supply inst = some (n, some v)

/-- The levels that are noted for a node, one for each source and POWERNET node that holds it. -/
def Deck.holders (n : Node) : List (Level K) :=
  (D.powernet n).toList ++ D.scopes.flatMap fun s =>
    ((s.instances.filterMap s.held).filter fun h => h.1 = n).map Prod.snd

/-- Ground and the skip nodes are not entered. -/
def Deck.Entered (n : Node) : Prop := n ≠ ground ∧ D.skip n = false

instance (n : Node) : Decidable (D.Entered n) := inferInstanceAs (Decidable (_ ∧ _))

def Deck.Passes (start n : Node) : Prop := D.Entered n ∧ D.ref start n = none ∧ D.holders n = []

def Deck.Hit (start n : Node) : Prop := D.Entered n ∧ (D.ref start n ≠ none ∨ D.holders n ≠ [])

variable {D}

theorem levels_ne_nil {s : Scope ε K} {src : Source ε} {levels : List K} (h : s.levels src = .ok levels) :
    levels ≠ [] := by
  unfold Scope.levels at h
  split at h
  · obtain ⟨v, _, h⟩ := Lookup.bind_eq_ok.mp h
    cases h
    exact List.cons_ne_nil _ _
  · obtain ⟨v, _, h⟩ := Lookup.bind_eq_ok.mp h
    obtain ⟨w, _, h⟩ := Lookup.bind_eq_ok.mp h
    cases h
    exact List.cons_ne_nil _ _
  · obtain ⟨v, _, h⟩ := Lookup.bind_eq_ok.mp h
    obtain ⟨w, _, h⟩ := Lookup.bind_eq_ok.mp h
    cases h
    exact List.cons_ne_nil _ _
  · obtain ⟨v, _, h⟩ := Lookup.bind_eq_ok.mp h
    obtain ⟨w, _, h⟩ := Lookup.bind_eq_ok.mp h
    cases h
    exact List.cons_ne_nil _ _
  · obtain ⟨vs, _, h⟩ := Lookup.bind_eq_ok.mp h
    split_ifs at h with hnil
    · obtain ⟨v, _, h⟩ := Lookup.bind_eq_ok.mp h
      cases h
      exact List.cons_ne_nil _ _
    · cases h
      exact hnil
  · cases h

/-- Levels that are all the same, turned. -/
theorem max?_map_neg {levels : List K} {v : K} (hmem : v ∈ levels) (h : ∀ x ∈ levels, x = v) :
    (levels.map fun x => -x).max? = some (-v) := by
  rw [List.max?_eq_some_iff]
  refine ⟨List.mem_map_of_mem hmem, fun b hb => ?_⟩
  obtain ⟨x, hx, rfl⟩ := List.mem_map.mp hb
  rw [h x hx]

/-- What a level says of the levels of its source. -/
theorem level_cases (s : Scope ε K) (inst : Instance ε) :
    ((s.level inst).kind = .unevaluable ∧ (s.level inst).value = none ∧ s.sourceLevels inst = none) ∨
      ∃ levels v, s.sourceLevels inst = some levels ∧ (s.level inst).value = some v ∧ levels.max? = some v ∧
        ((s.level inst).kind = .dynamic ∨
          (s.level inst).kind = .const ∧ (levels.map fun x => -x).max? = some (-v)) := by
  unfold Scope.level Scope.sourceLevels
  dsimp only
  generalize inst.source.getD ⟨false, .none, inst.value, fun _ => none, []⟩ = src
  split_ifs with hcode
  · exact .inl ⟨rfl, rfl, rfl⟩
  · cases hlevels : s.levels src with
    | error why => exact .inl ⟨rfl, rfl, rfl⟩
    | ok levels =>
      right
      obtain ⟨m, hm⟩ := Option.ne_none_iff_exists'.mp fun h => levels_ne_nil hlevels (List.max?_eq_none_iff.mp h)
      dsimp only
      split_ifs with hsame
      · -- all levels are the greatest and the least
        rw [hm] at hsame
        obtain ⟨hmem, hle⟩ := List.max?_eq_some_iff.mp hm
        have hge := (List.min?_eq_some_iff.mp hsame.symm).2
        have hall : ∀ x ∈ levels, x = m := fun x hx => le_antisymm (hle x hx) (hge x hx)
        obtain ⟨x, rest, hcons⟩ := List.exists_cons_of_ne_nil (levels_ne_nil hlevels)
        refine ⟨levels, m, rfl, ?_, hm, .inr ⟨rfl, max?_map_neg hmem hall⟩⟩
        show levels.head? = some m
        rw [hcons, List.head?_cons, hall x (hcons ▸ List.mem_cons_self)]
      · exact ⟨levels, m, rfl, hm, hm, .inl rfl⟩

/-- The level noted for a node is the source's, unless the source is a varying one that is turned. -/
theorem held_cases {s : Scope ε K} {inst : Instance ε} {n : Node} {lv : Level K} (h : s.held inst = some (n, lv)) :
    (lv.kind = .unevaluable ∧ lv.value = none ∧ s.supply inst = some (n, none)) ∨
      (lv.kind ≠ .unevaluable ∧ ∃ v w, lv.value = some v ∧ s.supply inst = some (n, some w) ∧
        (¬ s.Turned inst → v = w)) := by
  obtain ⟨⟨m, turned⟩, ht, heq⟩ := Option.map_eq_some_iff.mp h
  rw [Prod.mk.injEq] at heq
  obtain ⟨rfl, rfl⟩ := heq
  have hsupply : s.supply inst = some (m, (s.sourceLevels inst).bind fun levels =>
      if turned then (levels.map fun v => -v).max? else levels.max?) := by
    rw [Scope.supply, ht]
    rfl
  rw [hsupply]
  rcases level_cases s inst with ⟨hkind, hvalue, hnone⟩ | ⟨levels, v, hlevels, hvalue, hmax, hkind⟩
  · left
    rw [hnone]
    cases turned with
    | false => exact ⟨hkind, hvalue, rfl⟩
    | true =>
      refine ⟨hkind, ?_, rfl⟩
      show (s.level inst).value.map _ = none
      rw [hvalue]
      rfl
  · right
    have hne : (s.level inst).kind ≠ .unevaluable := by
      rcases hkind with hdyn | ⟨hconst, _⟩
      · rw [hdyn]
        exact LevelKind.noConfusion
      · rw [hconst]
        exact LevelKind.noConfusion
    rw [hlevels, Option.bind_some]
    cases turned with
    | false => exact ⟨hne, v, v, hvalue, congrArg (fun x => some (m, x)) hmax, fun _ => rfl⟩
    | true =>
      have hneg : ((s.level inst).neg).value = some (-v) := by
        show (s.level inst).value.map _ = _
        rw [hvalue]
        rfl
      obtain ⟨w, hw⟩ : ∃ w, (levels.map fun x => -x).max? = some w := by
        refine Option.ne_none_iff_exists'.mp fun hnil => ?_
        rw [List.max?_eq_none_iff, List.map_eq_nil_iff] at hnil
        rw [hnil] at hmax
        cases hmax
      refine ⟨hne, -v, w, hneg, congrArg (fun x => some (m, x)) hw, fun hturned => ?_⟩
      rcases hkind with hdyn | ⟨_, hconst⟩
      · exact absurd ⟨⟨m, ht⟩, hdyn⟩ hturned
      · rw [hconst] at hw
        exact Option.some.inj hw

theorem exists_held {s : Scope ε K} {inst : Instance ε} {n : Node} {v : Option K}
    (h : s.supply inst = some (n, v)) : ∃ lv, s.held inst = some (n, lv) := by
  obtain ⟨⟨m, turned⟩, ht, heq⟩ := Option.map_eq_some_iff.mp h
  rw [Prod.mk.injEq] at heq
  refine ⟨if turned then (s.level inst).neg else s.level inst, ?_⟩
  rw [Scope.held, ht, Option.map_some, ← heq.1]

/-! ## The nodes that are held -/

theorem mem_holders {n : Node} {lv : Level K} : lv ∈ D.holders n ↔
    D.powernet n = some lv ∨ ∃ s ∈ D.scopes, ∃ inst ∈ s.instances, s.held inst = some (n, lv) := by
  rw [Deck.holders, List.mem_append, Option.mem_toList]
  refine or_congr Iff.rfl ?_
  simp only [List.mem_flatMap, List.mem_map, List.mem_filter, List.mem_filterMap, decide_eq_true_eq]
  constructor
  · rintro ⟨s, hs, ⟨m, lv'⟩, ⟨⟨inst, hinst, hheld⟩, rfl⟩, rfl⟩
    exact ⟨s, hs, inst, hinst, hheld⟩
  · rintro ⟨s, hs, inst, hinst, hheld⟩
    exact ⟨s, hs, (n, lv), ⟨⟨inst, hinst, hheld⟩, rfl⟩, rfl⟩

omit [AddCommGroup K] [LinearOrder K] in
theorem powernet_value {n : Node} {lv : Level K} (h : D.powernet n = some lv) :
    lv.kind ≠ .unevaluable ∧ ∃ v, lv.value = some v := by
  unfold Deck.powernet at h
  split_ifs at h with htop
  split at h
  · cases h
    exact ⟨LevelKind.noConfusion, _, rfl⟩
  · cases h
    exact ⟨LevelKind.noConfusion, _, rfl⟩
  · cases h

/-- A level that is noted has a value unless it cannot be evaluated. -/
theorem holder_value {n : Node} {lv : Level K} (h : lv ∈ D.holders n) :
    (lv.kind = .unevaluable ∧ lv.value = none) ∨ (lv.kind ≠ .unevaluable ∧ ∃ v, lv.value = some v) := by
  rcases mem_holders.mp h with hpower | ⟨s, _, inst, _, hheld⟩
  · exact .inr (powernet_value hpower)
  · rcases held_cases hheld with ⟨hkind, hvalue, _⟩ | ⟨hkind, v, _, hvalue, _⟩
    · exact .inl ⟨hkind, hvalue⟩
    · exact .inr ⟨hkind, v, hvalue⟩

theorem mem_nodes_of_held {s : Scope ε K} {inst : Instance ε} {n : Node} {lv : Level K}
    (h : s.held inst = some (n, lv)) : n ∈ inst.nodes := by
  obtain ⟨t, ht, heq⟩ := Option.map_eq_some_iff.mp h
  unfold Instance.toGround at ht
  split at ht
  · next p m rest _ hnodes =>
    rw [hnodes]
    split_ifs at ht
    · cases ht
      cases heq
      exact List.mem_cons_self
    · cases ht
      cases heq
      exact List.mem_cons_of_mem _ List.mem_cons_self
  · cases ht

theorem held_of_noted {s : Scope ε K} {unevaluable : Bool} {n : Node} {lv : Level K}
    (h : s.noted unevaluable n = some lv) :
    decide (lv.kind = .unevaluable) = unevaluable ∧ ∃ inst ∈ s.instances, s.held inst = some (n, lv) := by
  obtain ⟨⟨m, lv'⟩, hlast, rfl⟩ := Option.map_eq_some_iff.mp h
  have hmem := List.mem_of_getLast? hlast
  rw [List.mem_filter, List.mem_filterMap, decide_eq_true_eq] at hmem
  obtain ⟨⟨inst, hinst, hheld⟩, rfl, hkind⟩ := hmem
  exact ⟨hkind, inst, hinst, hheld⟩

theorem noted_of_held {s : Scope ε K} {inst : Instance ε} {n : Node} {lv : Level K} (hinst : inst ∈ s.instances)
    (h : s.held inst = some (n, lv)) : ∃ lv', s.noted (lv.kind = .unevaluable) n = some lv' := by
  have hmem : (n, lv) ∈ (s.instances.filterMap s.held).filter fun h =>
      h.1 = n ∧ decide (h.2.kind = .unevaluable) = decide (lv.kind = .unevaluable) :=
    List.mem_filter.mpr ⟨List.mem_filterMap.mpr ⟨inst, hinst, h⟩, decide_eq_true ⟨rfl, rfl⟩⟩
  obtain ⟨last, hlast⟩ := Option.ne_none_iff_exists'.mp fun hnone =>
    List.ne_nil_of_mem hmem (List.getLast?_eq_none_iff.mp hnone)
  exact ⟨last.2, by rw [Scope.noted, hlast]; rfl⟩

theorem holder_of_hitAt {n : Node} {lv : Level K} (h : D.hitAt n = some lv) :
    lv ∈ D.holders n ∧ lv.kind ≠ .unevaluable := by
  unfold Deck.hitAt at h
  split at h
  · next lv' hpower =>
    cases h
    exact ⟨mem_holders.mpr (.inl hpower), (powernet_value hpower).1⟩
  · obtain ⟨s, hs, hhits⟩ := List.exists_of_findSome?_eq_some h
    obtain ⟨hkind, inst, hinst, hheld⟩ := held_of_noted hhits
    exact ⟨mem_holders.mpr (.inr ⟨s, ((D.mem_touching n s).mp hs).1, inst, hinst, hheld⟩), of_decide_eq_false hkind⟩

theorem holder_of_unevaluableAt {n : Node} {lv : Level K} (h : D.unevaluableAt n = some lv) :
    lv ∈ D.holders n ∧ lv.kind = .unevaluable := by
  obtain ⟨s, hs, huneval⟩ := List.exists_of_findSome?_eq_some h
  obtain ⟨hkind, inst, hinst, hheld⟩ := held_of_noted huneval
  exact ⟨mem_holders.mpr (.inr ⟨s, ((D.mem_touching n s).mp hs).1, inst, hinst, hheld⟩), of_decide_eq_true hkind⟩

/-- The scope of a source on a node is one of those that touch the node. -/
theorem findSome_noted {s : Scope ε K} (hs : s ∈ D.scopes) {inst : Instance ε} (hinst : inst ∈ s.instances)
    {n : Node} {lv : Level K} (h : s.held inst = some (n, lv)) :
    ∃ lv', (D.touching n).findSome? (fun s => s.noted (lv.kind = .unevaluable) n) = some lv' := by
  have htouch : s ∈ D.touching n := (D.mem_touching n s).mpr ⟨hs, inst, hinst, mem_nodes_of_held h⟩
  obtain ⟨lv', hlv'⟩ := noted_of_held hinst h
  refine Option.ne_none_iff_exists'.mp fun hnone => ?_
  rw [List.findSome?_eq_none_iff.mp hnone s htouch] at hlv'
  cases hlv'

/-- A level with a value is seen as a hit, another one as an unevaluable supply. -/
theorem seen_of_holder {n : Node} {lv : Level K} (h : lv ∈ D.holders n) :
    (lv.kind ≠ .unevaluable → ∃ lv', D.hitAt n = some lv') ∧
      (lv.kind = .unevaluable → ∃ lv', D.unevaluableAt n = some lv') := by
  rcases mem_holders.mp h with hpower | ⟨s, hs, inst, hinst, hheld⟩
  · refine ⟨fun _ => ⟨lv, ?_⟩, fun hkind => absurd hkind (powernet_value hpower).1⟩
    rw [Deck.hitAt, hpower]
  · have hnoted := findSome_noted hs hinst hheld
    constructor
    · intro hkind
      rw [decide_eq_false hkind] at hnoted
      unfold Deck.hitAt
      cases D.powernet n with
      | some lv' => exact ⟨lv', rfl⟩
      | none => exact hnoted
    · intro hkind
      rw [decide_eq_true hkind] at hnoted
      exact hnoted

/-! ## What the trace makes of a node -/

/-- A node that is entered and is no reference, by its supplies. -/
theorem classify_cases {start n : Node} (hentered : D.Entered n) (href : D.ref start n = none) :
    (D.holders n = [] ∧ D.classify start n = .pass) ∨
      (∃ v lv, lv ∈ D.holders n ∧ lv.kind ≠ .unevaluable ∧ lv.value = some v ∧ D.classify start n = .hit v lv) ∨
      ((∀ lv ∈ D.holders n, lv.kind = .unevaluable) ∧ ∃ lv ∈ D.holders n, D.classify start n = .unevaluable lv) := by
  have hblocked : ¬ (n = ground ∨ D.skip n = true) := by
    rintro (h | h)
    · exact hentered.1 h
    · rw [hentered.2] at h
      cases h
  have hclass : D.classify start n = ((D.hitAt n).bind fun lv => lv.value.map (·, lv)).elim
      ((D.unevaluableAt n).elim .pass .unevaluable) fun hit => .hit hit.1 hit.2 := by
    rw [Deck.classify, if_neg hblocked, href]
    cases (D.hitAt n).bind fun lv => lv.value.map (·, lv) <;> cases D.unevaluableAt n <;> rfl
  cases hhit : D.hitAt n with
  | some lv =>
    obtain ⟨hmem, hkind⟩ := holder_of_hitAt hhit
    obtain ⟨v, hv⟩ := ((holder_value hmem).resolve_left fun h => hkind h.1).2
    refine .inr (.inl ⟨v, lv, hmem, hkind, hv, ?_⟩)
    rw [hclass, hhit, Option.bind_some, hv]
    rfl
  | none =>
    rw [hhit, Option.bind_none] at hclass
    have hall : ∀ lv ∈ D.holders n, lv.kind = .unevaluable := by
      intro lv hlv
      by_contra hkind
      obtain ⟨lv', hlv'⟩ := (seen_of_holder hlv).1 hkind
      rw [hhit] at hlv'
      cases hlv'
    cases huneval : D.unevaluableAt n with
    | some lv =>
      rw [huneval] at hclass
      exact .inr (.inr ⟨hall, lv, (holder_of_unevaluableAt huneval).1, hclass⟩)
    | none =>
      rw [huneval] at hclass
      refine .inl ⟨List.eq_nil_iff_forall_not_mem.mpr fun lv hlv => ?_, hclass⟩
      obtain ⟨lv', hlv'⟩ := (seen_of_holder hlv).2 (hall lv hlv)
      rw [huneval] at hlv'
      cases hlv'

theorem classify_blocked {start n : Node} (h : ¬ D.Entered n) : D.classify start n = .blocked := by
  refine if_pos ?_
  by_contra hnot
  rw [not_or, Bool.not_eq_true] at hnot
  exact h hnot

theorem classify_reference {start n : Node} (h : D.Entered n) {ref : Reference K} (href : D.ref start n = some ref) :
    D.classify start n = .reference ref := by
  have hblocked : ¬ (n = ground ∨ D.skip n = true) := by
    rintro (hg | hs)
    · exact h.1 hg
    · rw [h.2] at hs
      cases hs
  rw [Deck.classify, if_neg hblocked, href]

theorem passes_iff {start n : Node} : (D.classify start n).passes = true ↔ D.Passes start n := by
  by_cases hentered : D.Entered n
  · cases href : D.ref start n with
    | some ref =>
      rw [classify_reference hentered href]
      exact iff_of_false Bool.false_ne_true fun h => by simp [h.2.1] at href
    | none =>
      rcases classify_cases hentered href with ⟨hnil, hclass⟩ | ⟨v, lv, hmem, _, _, hclass⟩ | ⟨_, lv, hmem, hclass⟩
      · rw [hclass]
        exact iff_of_true rfl ⟨hentered, href, hnil⟩
      · rw [hclass]
        exact iff_of_false Bool.false_ne_true fun h => List.ne_nil_of_mem hmem h.2.2
      · rw [hclass]
        exact iff_of_false Bool.false_ne_true fun h => List.ne_nil_of_mem hmem h.2.2
  · rw [classify_blocked hentered]
    exact iff_of_false Bool.false_ne_true fun h => hentered h.1

theorem hits_iff {start n : Node} : (D.classify start n).hits = true ↔ D.Hit start n := by
  by_cases hentered : D.Entered n
  · cases href : D.ref start n with
    | some ref =>
      rw [classify_reference hentered href]
      exact iff_of_true rfl ⟨hentered, .inl (by rw [href]; exact Option.some_ne_none ref)⟩
    | none =>
      rcases classify_cases hentered href with ⟨hnil, hclass⟩ | ⟨v, lv, hmem, _, _, hclass⟩ | ⟨_, lv, hmem, hclass⟩
      · rw [hclass]
        exact iff_of_false Bool.false_ne_true fun h => h.2.elim (fun hr => hr href) fun hs => hs hnil
      · rw [hclass]
        exact iff_of_true rfl ⟨hentered, .inr (List.ne_nil_of_mem hmem)⟩
      · rw [hclass]
        exact iff_of_true rfl ⟨hentered, .inr (List.ne_nil_of_mem hmem)⟩
  · rw [classify_blocked hentered]
    exact iff_of_false Bool.false_ne_true fun h => hentered h.1

/-! ## What the trace returns -/

omit [AddCommGroup K] in
theorem maxBy_spec {β : Type} {key : β → K} {l : List β} {b : β} (h : maxBy key l = some b) :
    b ∈ l ∧ ∀ c ∈ l, key c ≤ key b := by
  cases l with
  | nil => cases h
  | cons a l =>
    rw [maxBy, Option.some.injEq] at h
    have hfold : ∀ (l : List β) (a : β), (l.foldl (fun best c => if key best < key c then c else best) a = a ∨
        l.foldl (fun best c => if key best < key c then c else best) a ∈ l) ∧
        key a ≤ key (l.foldl (fun best c => if key best < key c then c else best) a) ∧
        ∀ c ∈ l, key c ≤ key (l.foldl (fun best c => if key best < key c then c else best) a) := by
      intro l
      induction l with
      | nil => exact fun a => ⟨.inl rfl, le_refl _, fun c hc => absurd hc List.not_mem_nil⟩
      | cons c l ih =>
        intro a
        rw [List.foldl_cons]
        obtain ⟨hmem, hle, hall⟩ := ih (if key a < key c then c else a)
        by_cases hlt : key a < key c
        · rw [if_pos hlt] at hmem hle hall ⊢
          exact ⟨.inr (List.mem_cons.mpr hmem), hlt.le.trans hle, List.forall_mem_cons.mpr ⟨hle, hall⟩⟩
        · rw [if_neg hlt] at hmem hle hall ⊢
          refine ⟨hmem.imp_right (List.mem_cons_of_mem c), hle, List.forall_mem_cons.mpr ⟨?_, hall⟩⟩
          exact (not_lt.mp hlt).trans hle
    obtain ⟨hmem, hle, hall⟩ := hfold l a
    rw [h] at hmem hle hall
    exact ⟨List.mem_cons.mpr hmem, List.forall_mem_cons.mpr ⟨hle, hall⟩⟩

omit [AddCommGroup K] in
theorem exists_maxBy {β : Type} (key : β → K) {l : List β} (h : l ≠ []) : ∃ b, maxBy key l = some b := by
  obtain ⟨a, rest, rfl⟩ := List.exists_cons_of_ne_nil h
  exact ⟨_, rfl⟩

/-! ## What is to be found -/

/-- The stages: through the nodes that can be passed along channels, and then on from their MOS gates. -/
inductive Deck.Stage (D : Deck ε K) (start : Node) : Nat → Node → Prop where
  | start : D.Stage start 0 start
  | channel {k : Nat} {n m : Node} : D.Stage start k n → D.Passes start n → m ∈ D.adj n → D.Stage start k m
  | gate {k : Nat} {n m : Node} : D.Stage start k n → D.Passes start n → m ∈ D.gates n → D.Stage start (k + 1) m

/-- A reference that the stage reaches. -/
def Deck.RefAt (D : Deck ε K) (start : Node) (k : Nat) (n : Node) (ref : Reference K) : Prop :=
  D.Stage start k n ∧ D.Entered n ∧ D.ref start n = some ref

/-- The path of a result goes from the start to a node, along channels and from gates to channels. -/
def Deck.PathTo (D : Deck ε K) (start : Node) (t : TraceResult K) (n : Node) : Prop :=
  ∃ path : List Node, t.path = path.map fmtNode ∧ path.head? = some start ∧ path.getLast? = some n ∧
    path.IsChain fun a b => D.Passes start a ∧ (b ∈ D.adj a ∨ b ∈ D.gates a)

/-- The result of a stage with references. -/
structure Deck.ByReference (D : Deck ε K) (start : Node) (k : Nat) (t : TraceResult K) (n : Node)
    (ref : Reference K) : Prop where
  refAt : D.RefAt start k n ref
  vdd : t.vdd = ref.value.getD 0
  name : t.refName = some ref.name
  index : t.refIndex = ref.index
  dynamic : t.refDynamic = ref.value.isNone
  /-- An unknown reference first. -/
  unknown : ∀ m other, D.RefAt start k m other → other.value = none → ref.value = none
  highest : ∀ v, ref.value = some v → ∀ m other w, D.RefAt start k m other → other.value = some w → w ≤ v
  path : D.PathTo start t n

/-- No node of the stage is held by two supplies, nor by a varying source that is turned. -/
def Deck.Single (D : Deck ε K) (start : Node) (k : Nat) : Prop :=
  ∀ n, D.Stage start k n → (D.holders n).length ≤ 1 ∧
    ∀ s ∈ D.scopes, ∀ inst ∈ s.instances, ∀ lv, s.held inst = some (n, lv) → ¬ s.Turned inst

/-- The result of a stage without references. -/
structure Deck.BySupply (D : Deck ε K) (start : Node) (k : Nat) (t : TraceResult K) : Prop where
  unevaluable : ∀ lv, lv ∈ t.unevaluable ↔
    ∃ n, D.Stage start k n ∧ D.Entered n ∧ lv ∈ D.holders n ∧ lv.kind = .unevaluable
  highest : ∀ n v, D.Stage start k n → D.Entered n → D.Supplies n v → v ≤ t.vdd
  reached : (∃ n v, D.Stage start k n ∧ D.Entered n ∧ D.Supplies n v) →
    ∃ n, D.Stage start k n ∧ D.Entered n ∧ D.Supplies n t.vdd ∧ D.PathTo start t n

theorem stage_iff {start : Node} {k : Nat} {n : Node} :
    Stages.Stage (fun n => (D.classify start n).passes) D.adj D.gates start k n ↔ D.Stage start k n := by
  constructor
  · intro h
    induction h with
    | start => exact .start
    | step _ hpass hm ih => exact .channel ih (passes_iff.mp hpass) hm
    | jump _ hpass hm ih => exact .gate ih (passes_iff.mp hpass) hm
  · intro h
    induction h with
    | start => exact .start
    | channel _ hpass hm ih => exact .step ih (passes_iff.mpr hpass) hm
    | gate _ hpass hm ih => exact .jump ih (passes_iff.mpr hpass) hm

omit [AddCommGroup K] [LinearOrder K] in
theorem mem_nodes_of_adj {start n m : Node} (h : m ∈ D.adj n) : m ∈ D.nodes start := by
  rw [Deck.adj, List.mem_flatMap] at h
  obtain ⟨⟨a, b⟩, he, hm⟩ := h
  obtain ⟨inst, hinst, hchannel⟩ := List.mem_filterMap.mp he
  have hends : a ∈ inst.nodes ∧ b ∈ inst.nodes := by
    unfold Instance.channel at hchannel
    split at hchannel <;> cases hchannel
    all_goals next hnodes => rw [hnodes]; simp
  have hmem : m ∈ inst.nodes := by
    rcases List.mem_append.mp hm with hm | hm
    · split_ifs at hm
      · rw [List.mem_singleton.mp hm]
        exact hends.2
      · cases hm
    · split_ifs at hm
      · rw [List.mem_singleton.mp hm]
        exact hends.1
      · cases hm
  exact List.mem_cons_of_mem _ (List.mem_flatMap.mpr ⟨inst, hinst, hmem⟩)

omit [AddCommGroup K] [LinearOrder K] in
theorem mem_nodes_of_gates {start n m : Node} (h : m ∈ D.gates n) : m ∈ D.nodes start := by
  rw [Deck.gates, List.mem_flatMap] at h
  obtain ⟨⟨g, d, s⟩, he, hm⟩ := h
  obtain ⟨inst, hinst, hgate⟩ := List.mem_filterMap.mp he
  have hends : d ∈ inst.nodes ∧ s ∈ inst.nodes := by
    unfold Instance.gate at hgate
    split at hgate <;> cases hgate
    all_goals next hnodes => rw [hnodes]; simp
  have hmem : m ∈ inst.nodes := by
    split_ifs at hm
    · rcases List.mem_cons.mp hm with rfl | hm
      · exact hends.1
      · rw [List.mem_singleton.mp hm]
        exact hends.2
    · cases hm
  exact List.mem_cons_of_mem _ (List.mem_flatMap.mpr ⟨inst, hinst, hmem⟩)

theorem stage_mem_nodes {start : Node} {k : Nat} {n : Node} (h : D.Stage start k n) : n ∈ D.nodes start := by
  cases h with
  | start => exact List.mem_cons_self
  | channel _ _ hm => exact mem_nodes_of_adj hm
  | gate _ _ hm => exact mem_nodes_of_gates hm

theorem classify_eq_reference {start n : Node} {ref : Reference K} :
    D.classify start n = .reference ref ↔ D.Entered n ∧ D.ref start n = some ref := by
  constructor
  · intro h
    by_cases hentered : D.Entered n
    · cases href : D.ref start n with
      | some other =>
        rw [classify_reference hentered href] at h
        cases h
        exact ⟨hentered, rfl⟩
      | none =>
        rcases classify_cases hentered href with ⟨_, hclass⟩ | ⟨_, _, _, _, _, hclass⟩ | ⟨_, _, _, hclass⟩ <;>
          · rw [hclass] at h
            cases h
    · rw [classify_blocked hentered] at h
      cases h
  · exact fun h => classify_reference h.1 h.2

/-- A hit is a level with a value of a supply that holds the node. -/
theorem holder_of_hit {start n : Node} {v : K} {lv : Level K} (h : D.classify start n = .hit v lv) :
    D.Entered n ∧ lv ∈ D.holders n ∧ lv.kind ≠ .unevaluable ∧ lv.value = some v := by
  by_cases hentered : D.Entered n
  · cases href : D.ref start n with
    | some other =>
      rw [classify_reference hentered href] at h
      cases h
    | none =>
      rcases classify_cases hentered href with ⟨_, hclass⟩ | ⟨_, _, hmem, hkind, hv, hclass⟩ | ⟨_, _, _, hclass⟩
      · rw [hclass] at h
        cases h
      · rw [hclass] at h
        cases h
        exact ⟨hentered, hmem, hkind, hv⟩
      · rw [hclass] at h
        cases h
  · rw [classify_blocked hentered] at h
    cases h

theorem holder_of_unevaluable {start n : Node} {lv : Level K} (h : D.classify start n = .unevaluable lv) :
    D.Entered n ∧ lv ∈ D.holders n ∧ lv.kind = .unevaluable := by
  by_cases hentered : D.Entered n
  · cases href : D.ref start n with
    | some other =>
      rw [classify_reference hentered href] at h
      cases h
    | none =>
      rcases classify_cases hentered href with ⟨_, hclass⟩ | ⟨_, _, _, _, _, hclass⟩ | ⟨hall, _, hmem, hclass⟩
      · rw [hclass] at h
        cases h
      · rw [hclass] at h
        cases h
      · rw [hclass] at h
        cases h
        exact ⟨hentered, hmem, hall _ hmem⟩
  · rw [classify_blocked hentered] at h
    cases h

/-- The level of a node that only one supply holds decides what the trace makes of it. -/
theorem classify_of_single {start n : Node} (hentered : D.Entered n) (href : D.ref start n = none)
    (hsingle : (D.holders n).length ≤ 1) {lv : Level K} (h : lv ∈ D.holders n) :
    (∀ v, lv.value = some v → D.classify start n = .hit v lv) ∧
      (lv.kind = .unevaluable → D.classify start n = .unevaluable lv) := by
  have hsame : ∀ lv' ∈ D.holders n, lv' = lv := by
    intro lv' hlv'
    obtain ⟨x, hx⟩ := List.length_eq_one_iff.mp (Nat.le_antisymm hsingle (List.length_pos_of_mem h))
    rw [hx, List.mem_singleton] at h hlv'
    rw [h, hlv']
  rcases classify_cases hentered href with ⟨hnil, _⟩ | ⟨v, lv', hmem, hkind, hv, hclass⟩ | ⟨hall, lv', hmem, hclass⟩
  · rw [hnil] at h
    cases h
  · obtain rfl := hsame lv' hmem
    refine ⟨fun w hw => ?_, fun hun => absurd hun hkind⟩
    rw [hv, Option.some.injEq] at hw
    rw [hclass, hw]
  · obtain rfl := hsame lv' hmem
    refine ⟨fun w hw => ?_, fun _ => hclass⟩
    rcases holder_value hmem with ⟨_, hnone⟩ | ⟨hkind, _⟩
    · rw [hnone] at hw
      cases hw
    · exact absurd (hall lv' hmem) hkind

omit [AddCommGroup K] [LinearOrder K] in
theorem ref?_eq_some {c : Class K} {m n : Node} {ref : Reference K} :
    c.ref? m = some (n, ref) ↔ m = n ∧ c = .reference ref := by
  cases c <;> simp [Class.ref?]

omit [AddCommGroup K] [LinearOrder K] in
theorem hit?_eq_some {c : Class K} {m n : Node} {v : K} {lv : Level K} :
    c.hit? m = some (v, lv, n) ↔ m = n ∧ c = .hit v lv := by
  cases c <;> simp [Class.hit?, and_comm, and_left_comm]

omit [AddCommGroup K] [LinearOrder K] in
theorem unevaluable?_eq_some {c : Class K} {lv : Level K} : c.unevaluable? = some lv ↔ c = .unevaluable lv := by
  cases c <;> simp [Class.unevaluable?]

section Decide

variable {start : Node} {k : Nat} {s : Stages.Search Node} {order : List Node}

/-- The nodes of a stage as the search leaves them. -/
structure Scanned (D : Deck ε K) (start : Node) (k : Nat) (s : Stages.Search Node) (order : List Node) : Prop where
  stage : ∀ n ∈ order, D.Stage start k n
  visited : ∀ n ∈ order, n ∈ s.visited
  hit : ∀ n, D.Stage start k n → D.Hit start n → n ∈ order
  rooted : Stages.Rooted (fun n => (D.classify start n).passes) D.adj D.gates start s

variable (h : Scanned D start k s order)

include h

theorem Scanned.pathTo {n : Node} (hn : n ∈ order) {t : TraceResult K} (ht : t.path = Supply.pathTo s n) :
    D.PathTo start t n := by
  obtain ⟨path, hclimb, hchain, hhead, hlast⟩ := h.rooted.path (h.visited n hn)
  refine ⟨path, ?_, hhead, hlast, hchain.imp fun a b hstep => ⟨passes_iff.mp hstep.1, hstep.2⟩⟩
  rw [ht, Supply.pathTo, hclimb, Option.getD_some]

theorem Scanned.mem_refs {n : Node} {ref : Reference K} :
    (n, ref) ∈ order.filterMap (fun n => (D.classify start n).ref? n) ↔ D.RefAt start k n ref := by
  rw [List.mem_filterMap]
  constructor
  · rintro ⟨m, hm, href⟩
    obtain ⟨rfl, hclass⟩ := ref?_eq_some.mp href
    exact ⟨h.stage m hm, classify_eq_reference.mp hclass⟩
  · rintro ⟨hstage, hentered, href⟩
    refine ⟨n, h.hit n hstage ⟨hentered, .inl ?_⟩, ref?_eq_some.mpr ⟨rfl, classify_reference hentered href⟩⟩
    rw [href]
    exact Option.some_ne_none ref

omit h in
theorem mem_hits {v : K} {lv : Level K} {n : Node} :
    (v, lv, n) ∈ order.filterMap (fun n => (D.classify start n).hit? n) ↔
      n ∈ order ∧ D.classify start n = .hit v lv := by
  simp only [List.mem_filterMap, hit?_eq_some]
  constructor
  · rintro ⟨m, hm, rfl, hclass⟩
    exact ⟨hm, hclass⟩
  · exact fun hn => ⟨n, hn.1, rfl, hn.2⟩

omit h in
theorem mem_uneval {lv : Level K} :
    lv ∈ order.filterMap (fun n => (D.classify start n).unevaluable?) ↔
      ∃ n ∈ order, D.classify start n = .unevaluable lv := by
  simp only [List.mem_filterMap, unevaluable?_eq_some]

/-- A stage with references is decided by one of them. -/
theorem Scanned.byReference {n : Node} {ref : Reference K} (href : D.RefAt start k n ref) :
    ∃ t, D.decide start s order = some t ∧ ∃ n ref, D.ByReference start k t n ref := by
  have hmem := h.mem_refs.mpr href
  unfold Deck.decide
  dsimp only
  generalize hrefs : order.filterMap (fun n => (D.classify start n).ref? n) = refs at hmem ⊢
  have hspec : ∀ m other, (m, other) ∈ refs ↔ D.RefAt start k m other := fun m other => by rw [← hrefs, h.mem_refs]
  cases hfind : refs.find? fun r => r.2.value.isNone with
  | some best =>
    obtain ⟨m, other⟩ := best
    have hisNone := List.find?_some hfind
    have hunknown : other.value = none := Option.isNone_iff_eq_none.mp hisNone
    have hat := (hspec m other).mp (List.mem_of_find?_eq_some hfind)
    refine ⟨_, rfl, m, other, hat, rfl, rfl, rfl, rfl, fun _ _ _ _ => hunknown, ?_, ?_⟩
    · intro v hv
      rw [hunknown] at hv
      cases hv
    · exact h.pathTo (h.hit m hat.1 ⟨hat.2.1, .inl (by rw [hat.2.2]; exact Option.some_ne_none _)⟩) rfl
  | none =>
    obtain ⟨⟨m, other⟩, hbest⟩ := exists_maxBy (fun r : Node × Reference K => r.2.value.getD 0)
      (List.ne_nil_of_mem hmem)
    rw [Option.none_or, hbest]
    obtain ⟨hin, hmax⟩ := maxBy_spec hbest
    have hknown : ∀ r ∈ refs, ¬ r.2.value.isNone = true := List.find?_eq_none.mp hfind
    have hat := (hspec m other).mp hin
    refine ⟨_, rfl, m, other, hat, rfl, rfl, rfl, rfl, ?_, ?_, ?_⟩
    · intro m' other' hat' hnone
      exact absurd (Option.isNone_iff_eq_none.mpr hnone) (hknown _ ((hspec m' other').mpr hat'))
    · intro v hv m' other' w hat' hw
      have hle := hmax _ ((hspec m' other').mpr hat')
      dsimp only at hle
      rwa [hv, hw] at hle
    · exact h.pathTo (h.hit m hat.1 ⟨hat.2.1, .inl (by rw [hat.2.2]; exact Option.some_ne_none _)⟩) rfl

omit h in
theorem decide_without_refs (hnone : order.filterMap (fun n => (D.classify start n).ref? n) = []) :
    D.decide start s order =
      match maxBy Prod.fst (order.filterMap fun n => (D.classify start n).hit? n) with
      | some (v, lv, n) => some ⟨v, lv.source, Supply.pathTo s n, lv.kind = .dynamic, s.visited, none, -1, false,
          order.filterMap fun n => (D.classify start n).unevaluable?⟩
      | none => (order.filterMap fun n => (D.classify start n).unevaluable?).head?.map fun lv =>
          ⟨0, lv.source, [], false, s.visited, none, -1, false,
            order.filterMap fun n => (D.classify start n).unevaluable?⟩ := by
  unfold Deck.decide
  dsimp only
  rw [hnone]
  rfl

omit h in
/-- The level of a supply is noted where its node is not held twice. -/
theorem holder_of_supplies {n : Node} {v : K} (hsingle : ∀ s ∈ D.scopes, ∀ inst ∈ s.instances, ∀ lv,
    s.held inst = some (n, lv) → ¬ s.Turned inst) (hv : D.Supplies n v) :
    ∃ lv ∈ D.holders n, lv.value = some v := by
  rcases hv with ⟨lv, hpower, hv⟩ | ⟨s, hs, inst, hinst, hsupply⟩
  · exact ⟨lv, mem_holders.mpr (.inl hpower), hv⟩
  · obtain ⟨lv, hheld⟩ := exists_held hsupply
    refine ⟨lv, mem_holders.mpr (.inr ⟨s, hs, inst, hinst, hheld⟩), ?_⟩
    rcases held_cases hheld with ⟨_, _, hnone⟩ | ⟨_, w, w', hw, hsome, hturned⟩
    · rw [hnone] at hsupply
      cases hsupply
    · rw [hsome] at hsupply
      cases hsupply
      rw [hw, hturned (hsingle s hs inst hinst lv hheld)]

omit h in
/-- A noted level with a value is the level of a supply. -/
theorem supplies_of_holder {n : Node} {lv : Level K} {v : K} (hsingle : ∀ s ∈ D.scopes, ∀ inst ∈ s.instances, ∀ lv,
    s.held inst = some (n, lv) → ¬ s.Turned inst) (hmem : lv ∈ D.holders n) (hv : lv.value = some v) :
    D.Supplies n v := by
  rcases mem_holders.mp hmem with hpower | ⟨s, hs, inst, hinst, hheld⟩
  · exact .inl ⟨lv, hpower, hv⟩
  · refine .inr ⟨s, hs, inst, hinst, ?_⟩
    rcases held_cases hheld with ⟨_, hnone, _⟩ | ⟨_, w, w', hw, hsome, hturned⟩
    · rw [hnone] at hv
      cases hv
    · rw [hsome, ← hturned (hsingle s hs inst hinst lv hheld)]
      rw [hw] at hv
      rw [Option.some.inj hv]

/-- A stage without references is decided by its supplies. -/
theorem Scanned.bySupply (hnone : ∀ n ref, ¬ D.RefAt start k n ref) (hhit : ∃ n ∈ order, D.Hit start n) :
    ∃ t, D.decide start s order = some t ∧ (D.Single start k → D.BySupply start k t) := by
  have hrefs : order.filterMap (fun n => (D.classify start n).ref? n) = [] :=
    List.eq_nil_iff_forall_not_mem.mpr fun r hr => hnone r.1 r.2 (h.mem_refs.mp hr)
  have hnoRef : ∀ n, D.Stage start k n → D.Entered n → D.ref start n = none := by
    intro n hn hentered
    cases href : D.ref start n with
    | none => rfl
    | some ref => exact absurd ⟨hn, hentered, href⟩ (hnone n ref)
  rw [decide_without_refs hrefs]
  -- a noted level of a node of the stage is among the hits or the unevaluable supplies
  have hseen : D.Single start k → ∀ n, D.Stage start k n → D.Entered n → ∀ lv ∈ D.holders n,
      n ∈ order ∧ (∀ v, lv.value = some v → D.classify start n = .hit v lv) ∧
        (lv.kind = .unevaluable → D.classify start n = .unevaluable lv) := by
    intro hsingle n hn hentered lv hlv
    refine ⟨h.hit n hn ⟨hentered, .inr (List.ne_nil_of_mem hlv)⟩, ?_⟩
    exact classify_of_single hentered (hnoRef n hn hentered) (hsingle n hn).1 hlv
  have huneval : D.Single start k → ∀ lv,
      lv ∈ order.filterMap (fun n => (D.classify start n).unevaluable?) ↔
        ∃ n, D.Stage start k n ∧ D.Entered n ∧ lv ∈ D.holders n ∧ lv.kind = .unevaluable := by
    intro hsingle lv
    rw [mem_uneval]
    constructor
    · rintro ⟨n, hn, hclass⟩
      exact ⟨n, h.stage n hn, holder_of_unevaluable hclass⟩
    · rintro ⟨n, hn, hentered, hlv, hkind⟩
      obtain ⟨hin, _, hclass⟩ := hseen hsingle n hn hentered lv hlv
      exact ⟨n, hin, hclass hkind⟩
  cases hmax : maxBy Prod.fst (order.filterMap fun n => (D.classify start n).hit? n) with
  | some best =>
    obtain ⟨v, lv, n⟩ := best
    obtain ⟨hin, hbest⟩ := maxBy_spec hmax
    obtain ⟨hn, hclass⟩ := mem_hits.mp hin
    obtain ⟨hentered, hlv, _, hv⟩ := holder_of_hit hclass
    refine ⟨_, rfl, fun hsingle => ⟨huneval hsingle, ?_, fun _ => ⟨n, h.stage n hn, hentered, ?_, h.pathTo hn rfl⟩⟩⟩
    · intro m w hm hentered' hw
      obtain ⟨lv', hlv', hvalue⟩ := holder_of_supplies (hsingle m hm).2 hw
      obtain ⟨hin', hclass', _⟩ := hseen hsingle m hm hentered' lv' hlv'
      exact hbest _ (mem_hits.mpr ⟨hin', hclass' w hvalue⟩)
    · exact supplies_of_holder (hsingle n (h.stage n hn)).2 hlv hv
  | none =>
    have hempty : order.filterMap (fun n => (D.classify start n).hit? n) = [] := by
      by_contra hne
      obtain ⟨b, hb⟩ := exists_maxBy Prod.fst hne
      rw [hmax] at hb
      cases hb
    -- no level with a value, so one that cannot be evaluated
    have hall : ∀ n ∈ order, ∀ v lv, D.classify start n ≠ .hit v lv := by
      intro n hn v lv hclass
      have hmem := mem_hits.mpr ⟨hn, hclass⟩
      rw [hempty] at hmem
      cases hmem
    obtain ⟨n, hn, hentered, hwhy⟩ := hhit
    have hlv : ∃ lv, lv ∈ order.filterMap fun n => (D.classify start n).unevaluable? := by
      rcases classify_cases hentered (hnoRef n (h.stage n hn) hentered) with
        ⟨hnil, _⟩ | ⟨v, lv, _, _, _, hclass⟩ | ⟨_, lv, _, hclass⟩
      · rcases hwhy with href | hholders
        · exact absurd (hnoRef n (h.stage n hn) hentered) href
        · exact absurd hnil hholders
      · exact absurd hclass (hall n hn v lv)
      · exact ⟨lv, mem_uneval.mpr ⟨n, hn, hclass⟩⟩
    obtain ⟨lv, hlv⟩ := hlv
    obtain ⟨first, hfirst⟩ := Option.ne_none_iff_exists'.mp fun hnil =>
      List.ne_nil_of_mem hlv (List.head?_eq_none_iff.mp hnil)
    have hnoSupply : D.Single start k → ∀ m w, D.Stage start k m → D.Entered m → ¬ D.Supplies m w := by
      intro hsingle m w hm hentered' hw
      obtain ⟨lv', hlv', hvalue⟩ := holder_of_supplies (hsingle m hm).2 hw
      obtain ⟨hin', hclass', _⟩ := hseen hsingle m hm hentered' lv' hlv'
      exact hall m hin' w lv' (hclass' w hvalue)
    refine ⟨⟨0, first.source, [], false, s.visited, none, -1, false,
      order.filterMap fun n => (D.classify start n).unevaluable?⟩, by rw [hfirst]; rfl,
      fun hsingle => ⟨huneval hsingle, ?_, ?_⟩⟩
    · exact fun m w hm hentered' hw => absurd hw (hnoSupply hsingle m w hm hentered')
    · rintro ⟨m, w, hm, hentered', hw⟩
      exact absurd hw (hnoSupply hsingle m w hm hentered')

end Decide

/-- The trace ends, and it is decided by the first stage with a hit, if there is one: by the highest reference of the
    stage, or else by its supplies. -/
theorem trace_staged (D : Deck ε K) (start : Node) : ∃ r, D.trace start = some r ∧
    (r = none ↔ ∀ k n, D.Stage start k n → ¬ D.Hit start n) ∧
    ∀ t, r = some t → ∃ k, (∃ n, D.Stage start k n ∧ D.Hit start n) ∧
      (∀ j < k, ∀ n, D.Stage start j n → ¬ D.Hit start n) ∧
      ((∃ n ref, D.RefAt start k n ref) → ∃ n ref, D.ByReference start k t n ref) ∧
      ((∀ n ref, ¬ D.RefAt start k n ref) → D.Single start k → D.BySupply start k t) := by
  obtain ⟨r, hr, hfound⟩ := @Stages.search_spec _ _ (fun n => (D.classify start n).passes) D.adj D.gates
    (fun n => (D.classify start n).hits) start (D.nodes start) fun k n hn => stage_mem_nodes (stage_iff.mp hn)
  have hmiss : ∀ n, (D.classify start n).hits = false ↔ ¬ D.Hit start n := fun n => by
    rw [← hits_iff, Bool.not_eq_true]
  cases r with
  | none =>
    refine ⟨none, by rw [Deck.trace, hr]; rfl, ?_, fun t ht => by cases ht⟩
    exact iff_of_true rfl fun k n hn => (hmiss n).mp (hfound k n (stage_iff.mpr hn))
  | some w =>
    obtain ⟨s, order⟩ := w
    obtain ⟨k, hbefore, horder, hall, ⟨n, hn, hhit⟩, hrooted⟩ := hfound
    have hscanned : Scanned D start k s order := by
      refine ⟨fun m hm => stage_iff.mp (horder m hm).1, fun m hm => (horder m hm).2, ?_, hrooted⟩
      intro m hm hit
      exact (hall m (stage_iff.mpr hm)).resolve_right fun hno => (hmiss m).mp hno hit
    have hstage : ∃ n, D.Stage start k n ∧ D.Hit start n :=
      ⟨n, stage_iff.mp (horder n hn).1, hits_iff.mp hhit⟩
    have hearlier : ∀ j < k, ∀ n, D.Stage start j n → ¬ D.Hit start n :=
      fun j hj m hm => (hmiss m).mp (hbefore j hj m (stage_iff.mpr hm))
    have hdecide : ∃ t, D.decide start s order = some t ∧
        ((∃ n ref, D.RefAt start k n ref) → ∃ n ref, D.ByReference start k t n ref) ∧
        ((∀ n ref, ¬ D.RefAt start k n ref) → D.Single start k → D.BySupply start k t) := by
      by_cases href : ∃ n ref, D.RefAt start k n ref
      · obtain ⟨m, ref, hm⟩ := href
        obtain ⟨t, ht, hby⟩ := hscanned.byReference hm
        exact ⟨t, ht, fun _ => hby, fun hno => absurd hm (hno m ref)⟩
      · have hno : ∀ n ref, ¬ D.RefAt start k n ref := fun n ref h => href ⟨n, ref, h⟩
        obtain ⟨t, ht, hby⟩ := hscanned.bySupply hno ⟨n, hn, hits_iff.mp hhit⟩
        exact ⟨t, ht, fun h => absurd h href, fun _ => hby⟩
    obtain ⟨t, ht, hresult⟩ := hdecide
    refine ⟨some t, by rw [Deck.trace, hr]; exact congrArg some ht, ?_, ?_⟩
    · refine iff_of_false (Option.some_ne_none t) fun hno => ?_
      obtain ⟨m, hm, hit⟩ := hstage
      exact hno k m hm hit
    · intro t' ht'
      cases ht'
      exact ⟨k, hstage, hearlier, hresult⟩

/-- A node with a reference of unknown value and nothing else. -/
def loneReference : Deck Unit ℤ where
  scopes := []
  touching _ := []
  powernets _ := none
  dynamicPowernets _ := none
  labels _ := none
  skip _ := false
  refs n := if n = ([], str "vdd") then some ⟨none, str "vdd", 0⟩ else none
  mem_touching _ _ := ⟨fun h => absurd h List.not_mem_nil, fun h => absurd h.1 List.not_mem_nil⟩
  sorted _ := List.Pairwise.nil
  powernet_or_dynamic _ h := absurd h Bool.false_ne_true

/-- The start's own reference of unknown value is no hit. -/
theorem own_reference_passed : loneReference.Stage ([], str "vdd") 0 ([], str "vdd") ∧
    loneReference.Entered ([], str "vdd") ∧
    loneReference.refs ([], str "vdd") = some ⟨none, str "vdd", 0⟩ ∧
    (loneReference.trace ([], str "vdd")).map Option.isNone = some true :=
  ⟨.start, by decide, by decide, by decide⟩

end Vamos.Supply
