import Sv2ghdl.Graph.Loops
import Sv2ghdl.Vamos.Netlist.TopValues

/-!
# The order of parameters

`dedup_sort` and `find_cycle` of `vamos/netlist/spice.py` beside the `sort_params` of `vamos/netlist/spectre.py`.  Both
sort alike; they differ in what they list of a cycle.
-/

open Python Loops Relation

namespace Vamos.Netlist.Expression

variable (U : UnicodeData)

/-! ## The sort of a SPICE netlist -/

/-- The least name, among those of stuck parameters, that the definition of a name reads. -/
def nextStuck (keep : List Param) (stuck : List Str) (cur : Str) : Option Str :=
  (keep.find? fun p => p.name = cur).bind fun p => ((names U p.expr).filter (· ∈ stuck)).min?

/-- `find_cycle` -/
def findCycle (keep : List Param) (stuck : List Str) : List Str :=
  match stuck with
  | [] => []
  | start :: _ => Loops.walk (nextStuck U keep stuck) (stuck.length + 1) [] start

/-- `dedup_sort`.  Its message repeats the first name of the cycle behind the last. -/
def dedupSort (params : List Param) : List Param × List ParamError :=
  let keep := keepLast params
  let order := Kahn.sort keep.length (dependencies U keep)
  let stuck := (List.range keep.length).filter (· ∉ order)
  ((order ++ stuck).filterMap (keep[·]?),
    if order.length < keep.length then
      [.cycle (findCycle U keep (stuck.filterMap fun i => (keep[i]?).map Param.name))] else [])

/-! ## Definitions and cycles -/

/-- The last definition of its name. -/
def LastDef (decls : List Param) (p : Param) : Prop :=
  ∃ l₁ l₂, decls = l₁ ++ p :: l₂ ∧ p.name ∉ l₂.map Param.name

/-- Two last definitions, in this order. -/
def DefinedBefore (decls : List Param) (q p : Param) : Prop :=
  ∃ l₁ l₂ l₃, decls = l₁ ++ q :: (l₂ ++ p :: l₃) ∧ q.name ∉ (l₂ ++ p :: l₃).map Param.name ∧
    p.name ∉ l₃.map Param.name

/-- The last definition of a name reads another name that is defined. -/
def Reads (decls : List Param) (a b : Str) : Prop :=
  ∃ p q, LastDef decls p ∧ LastDef decls q ∧ p.name = a ∧ q.name = b ∧ b ∈ names U p.expr

/-- The names of last definitions that refer to each other in a cycle. -/
def Cycle (decls : List Param) (c : List Str) : Prop := Loop (Reads U decls) c

/-- A name whose definition is on a cycle, or reads one of a cycle, directly or not. -/
def LeadsIntoCycle (decls : List Param) (a : Str) : Prop :=
  ∃ c, Cycle U decls c ∧ ∃ b ∈ c, ReflTransGen (Reads U decls) a b

/-- All that a definition reads of the defined names is in a list. -/
def Available (decls listed : List Param) (p : Param) : Prop :=
  ∀ q, LastDef decls q → q.name ∈ names U p.expr → q ∈ listed

open Classical in
/-- The definitions that lead into a cycle, in their order. -/
noncomputable def entangled (decls : List Param) : List Param :=
  (keepLast decls).filter fun p => decide (LeadsIntoCycle U decls p.name)

variable {U}

/-! ## The definitions that count -/

theorem keepLast_split (l₁ l₂ : List Param) {p : Param} (h : p.name ∉ l₂.map Param.name) :
    ∃ l, keepLast (l₁ ++ p :: l₂) = l ++ p :: keepLast l₂ := by
  induction l₁ with
  | nil =>
    refine ⟨[], ?_⟩
    rw [List.nil_append, keepLast, if_neg, List.nil_append]
    rw [List.any_eq_true]
    rintro ⟨q, hq, hname⟩
    exact h (List.mem_map.mpr ⟨q, hq, of_decide_eq_true hname⟩)
  | cons q l₁ ih =>
    obtain ⟨l, hl⟩ := ih
    rw [List.cons_append, keepLast, hl]
    by_cases hlater : (l₁ ++ p :: l₂).any (·.name = q.name) = true
    · rw [if_pos hlater]
      exact ⟨l, rfl⟩
    · rw [if_neg hlater]
      exact ⟨q :: l, rfl⟩

theorem mem_keepLast {decls : List Param} {p : Param} : p ∈ keepLast decls ↔ LastDef decls p := by
  constructor
  · intro h
    induction decls with
    | nil => cases h
    | cons q decls ih =>
      rw [keepLast] at h
      by_cases hlater : decls.any (·.name = q.name) = true
      · rw [if_pos hlater] at h
        obtain ⟨l₁, l₂, rfl, hout⟩ := ih h
        exact ⟨q :: l₁, l₂, rfl, hout⟩
      · rw [if_neg hlater] at h
        rcases List.mem_cons.mp h with rfl | h
        · refine ⟨[], decls, rfl, fun hmem => hlater ?_⟩
          obtain ⟨r, hr, hname⟩ := List.mem_map.mp hmem
          exact List.any_eq_true.mpr ⟨r, hr, decide_eq_true hname⟩
        · obtain ⟨l₁, l₂, rfl, hout⟩ := ih h
          exact ⟨q :: l₁, l₂, rfl, hout⟩
  · rintro ⟨l₁, l₂, rfl, hout⟩
    obtain ⟨l, hl⟩ := keepLast_split l₁ l₂ hout
    rw [hl]
    exact List.mem_append_right l List.mem_cons_self

theorem keepLast_before {decls : List Param} {p q : Param} (h : DefinedBefore decls q p) :
    ∃ l₁ l₂ l₃, keepLast decls = l₁ ++ q :: (l₂ ++ p :: l₃) := by
  obtain ⟨l₁, l₂, l₃, rfl, hq, hp⟩ := h
  obtain ⟨l, hl⟩ := keepLast_split l₁ (l₂ ++ p :: l₃) hq
  obtain ⟨m, hm⟩ := keepLast_split l₂ l₃ hp
  exact ⟨l, m, keepLast l₃, by rw [hl, hm]⟩

/-- A name has one last definition. -/
theorem LastDef.unique {decls : List Param} {p q : Param} (hp : LastDef decls p) (hq : LastDef decls q)
    (h : p.name = q.name) : p = q :=
  List.inj_on_of_nodup_map (keepLast_nodup decls) (mem_keepLast.mpr hp) (mem_keepLast.mpr hq) h

/-- Each name that is defined has a last definition. -/
theorem exists_lastDef {decls : List Param} {a : Str} (h : a ∈ decls.map Param.name) :
    ∃ p, LastDef decls p ∧ p.name = a := by
  induction decls with
  | nil => cases h
  | cons q decls ih =>
    by_cases hlater : a ∈ decls.map Param.name
    · obtain ⟨p, ⟨l₁, l₂, rfl, hout⟩, hname⟩ := ih hlater
      exact ⟨p, ⟨q :: l₁, l₂, rfl, hout⟩, hname⟩
    · have hq : a = q.name := by
        rw [List.map_cons, List.mem_cons] at h
        exact h.resolve_right hlater
      exact ⟨q, ⟨[], decls, rfl, hq ▸ hlater⟩, hq.symm⟩

/-! ## The two parts of the sorted list -/

variable (U) in
/-- The definitions of the sort's order, and those left over. -/
structure Parts (keep sorted left : List Param) : Prop where
  perm : (sorted ++ left).Perm keep
  before : ∀ l₁ p l₂, sorted = l₁ ++ p :: l₂ → ∀ q ∈ keep, q.name ∈ names U p.expr → q ∈ l₁
  least : ∀ l₁ p l₂, sorted = l₁ ++ p :: l₂ → ∀ q ∈ keep, q ∉ l₁ →
    (∀ q' ∈ keep, q'.name ∈ names U q.expr → q' ∈ l₁) → ∀ k₁ k₂ k₃, keep ≠ k₁ ++ q :: (k₂ ++ p :: k₃)
  waits : ∀ p ∈ left, ∃ q ∈ left, q.name ∈ names U p.expr
  sublist : left.Sublist keep

theorem mem_dependencies_iff {keep : List Param} {i j : Nat} {p : Param} (hp : keep[i]? = some p) :
    j ∈ dependencies U keep i ↔ ∃ q, keep[j]? = some q ∧ q.name ∈ names U p.expr := by
  constructor
  · intro h
    unfold dependencies at h
    rw [hp] at h
    simp only [List.mem_filter, List.mem_range] at h
    obtain ⟨q, hq⟩ : ∃ q, keep[j]? = some q := ⟨_, List.getElem?_eq_getElem h.1⟩
    rw [hq] at h
    exact ⟨q, hq, of_decide_eq_true h.2⟩
  · rintro ⟨q, hq, hname⟩
    exact mem_dependencies hp hq hname

theorem parts {keep : List Param} (hnodup : (keep.map Param.name).Nodup) :
    Parts U keep ((Kahn.sort keep.length (dependencies U keep)).filterMap (keep[·]?))
      (((List.range keep.length).filter (· ∉ Kahn.sort keep.length (dependencies U keep))).filterMap
        (keep[·]?)) := by
  have hdeps := dependencies_nodup (U := U) keep
  obtain ⟨horder, hbound, hsorted⟩ := Kahn.sort_spec (n := keep.length) hdeps
  have hleast := Kahn.sort_leastFirst (n := keep.length) hdeps
  have hcomplete := fun i => Kahn.sort_complete (n := keep.length) (i := i) hdeps
  generalize Kahn.sort keep.length (dependencies U keep) = order at *
  have hkeep : keep.Nodup := hnodup.of_map
  -- a definition is at one place of the list
  have hinj : ∀ {i j p}, keep[i]? = some p → keep[j]? = some p → i = j := fun hi hj =>
    (List.getElem?_inj (List.getElem?_eq_some_iff.mp hi).1 hkeep).mp (hi.trans hj.symm)
  have hall : (List.range keep.length).filterMap (keep[·]?) = keep := by
    have hmap : (List.range keep.length).map (keep[·]?) = keep.map some := by
      apply List.ext_getElem?
      intro i
      by_cases hi : i < keep.length
      · simp [hi]
      · simp [hi]
    calc (List.range keep.length).filterMap (keep[·]?)
        = ((List.range keep.length).map (keep[·]?)).filterMap id := by
          rw [List.filterMap_map]; rfl
      _ = (keep.map some).filterMap id := by rw [hmap]
      _ = keep := by rw [List.filterMap_map]; exact List.filterMap_some
  constructor
  · rw [← List.filterMap_append]
    have hperm : (order ++ (List.range keep.length).filter (· ∉ order)).Perm (List.range keep.length) := by
      refine (List.perm_ext_iff_of_nodup ?_ List.nodup_range).mpr fun i => ?_
      · refine horder.append (List.nodup_range.filter _) fun i hi hmem => ?_
        exact of_decide_eq_true (List.mem_filter.mp hmem).2 hi
      · rw [List.mem_append, List.mem_filter, List.mem_range]
        by_cases hi : i ∈ order
        · simp [hi, hbound i hi]
        · simp [hi]
    have hfull := hperm.filterMap (keep[·]?)
    rwa [hall] at hfull
  · intro l₁ p l₂ hsplit q hq hname
    obtain ⟨o₁, o₂, rfl, hl₁, ho₂⟩ := List.filterMap_eq_append_iff.mp hsplit
    obtain ⟨m₁, i, m₂, rfl, hm₁, hi, -⟩ := List.filterMap_eq_cons_iff.mp ho₂
    obtain ⟨j, hj⟩ := List.getElem?_of_mem hq
    have hmem := hsorted (o₁ ++ m₁) i m₂ (by simp) j (mem_dependencies hi hj hname)
    rw [← hl₁]
    rcases List.mem_append.mp hmem with hmem | hmem
    · exact List.mem_filterMap.mpr ⟨j, hmem, hj⟩
    · exact absurd hj (by simp [hm₁ j hmem])
  · intro l₁ p l₂ hsplit q hq hout hfree k₁ k₂ k₃ hkeepEq
    obtain ⟨o₁, o₂, rfl, hl₁, ho₂⟩ := List.filterMap_eq_append_iff.mp hsplit
    obtain ⟨m₁, i, m₂, rfl, hm₁, hi, -⟩ := List.filterMap_eq_cons_iff.mp ho₂
    obtain ⟨j, hj⟩ := List.getElem?_of_mem hq
    -- the places of `q` and `p` in the list
    have hjk : j = k₁.length := hinj hj (by rw [hkeepEq]; simp)
    have hik : i = k₁.length + 1 + k₂.length := by
      refine hinj hi ?_
      rw [hkeepEq, List.getElem?_append_right (by omega), Nat.add_assoc, Nat.add_sub_cancel_left, Nat.add_comm,
        List.getElem?_cons_succ, List.getElem?_append_right (by omega), Nat.sub_self]
      rfl
    have hle : i ≤ j := by
      refine hleast (o₁ ++ m₁) i m₂ (by simp) j (List.getElem?_eq_some_iff.mp hj).1 ?_ fun k hk => ?_
      · intro hmem
        rcases List.mem_append.mp hmem with hmem | hmem
        · exact hout (hl₁ ▸ List.mem_filterMap.mpr ⟨j, hmem, hj⟩)
        · exact absurd hj (by simp [hm₁ j hmem])
      · obtain ⟨q', hq', hname⟩ := (mem_dependencies_iff hj).mp hk
        have hin := hfree q' (List.mem_of_getElem? hq') hname
        rw [← hl₁] at hin
        obtain ⟨k', hk', hat⟩ := List.mem_filterMap.mp hin
        rw [hinj hq' hat]
        exact List.mem_append_left m₁ hk'
    omega
  · intro p hp
    obtain ⟨i, hi, hat⟩ := List.mem_filterMap.mp hp
    obtain ⟨hrange, hout⟩ := List.mem_filter.mp hi
    have hout' : i ∉ order := of_decide_eq_true hout
    -- it waits for one that is left over too
    have hwaits : ∃ j ∈ dependencies U keep i, j ∉ order := by
      by_contra hno
      push Not at hno
      exact hout' (hcomplete i (List.mem_range.mp hrange) hno)
    obtain ⟨j, hj, hjout⟩ := hwaits
    obtain ⟨q, hq, hname⟩ := (mem_dependencies_iff hat).mp hj
    refine ⟨q, List.mem_filterMap.mpr ⟨j, List.mem_filter.mpr ⟨?_, decide_eq_true hjout⟩, hq⟩, hname⟩
    exact List.mem_range.mpr (List.getElem?_eq_some_iff.mp hq).1
  · have hsub := (List.filter_sublist (p := (· ∉ order)) (l := List.range keep.length)).filterMap (keep[·]?)
    rwa [hall] at hsub

theorem length_lt_iff {keep : List Param} {order : List Nat} (hnodup : order.Nodup)
    (hbound : ∀ i ∈ order, i < keep.length) : order.length < keep.length ↔
      (((List.range keep.length).filter (· ∉ order)).filterMap (keep[·]?)).isEmpty = false := by
  have hsub : order.Subperm (List.range keep.length) :=
    hnodup.subperm fun i hi => List.mem_range.mpr (hbound i hi)
  rw [← Bool.not_eq_true, List.isEmpty_iff]
  constructor
  · intro hlt hnil
    have hall : List.range keep.length ⊆ order := by
      intro i hi
      by_contra hout
      obtain ⟨p, hp⟩ : ∃ p, keep[i]? = some p := ⟨_, List.getElem?_eq_getElem (List.mem_range.mp hi)⟩
      have hwaits : i ∈ (List.range keep.length).filter (· ∉ order) :=
        List.mem_filter.mpr ⟨hi, decide_eq_true hout⟩
      have hmem := List.mem_filterMap.mpr ⟨i, hwaits, hp⟩
      rw [hnil] at hmem
      cases hmem
    have hle := (List.nodup_range.subperm hall).length_le
    rw [List.length_range] at hle
    omega
  · intro hne
    obtain ⟨p, hp⟩ := List.exists_mem_of_ne_nil _ hne
    obtain ⟨i, hi, -⟩ := List.mem_filterMap.mp hp
    obtain ⟨hrange, hout⟩ := List.mem_filter.mp hi
    by_contra hge
    rw [not_lt] at hge
    have hperm := hsub.perm_of_length_le (by rwa [List.length_range])
    exact of_decide_eq_true hout (hperm.mem_iff.mpr hrange)

/-- Both sorts put the definitions left over behind the others, and report them if there are any. -/
theorem sorts_eq (U : UnicodeData) (decls : List Param) : ∃ sorted left, Parts U (keepLast decls) sorted left ∧
    sortParams U decls = (sorted ++ left, if left.isEmpty then [] else [.cycle (left.map Param.name)]) ∧
    dedupSort U decls = (sorted ++ left,
      if left.isEmpty then [] else [.cycle (findCycle U (keepLast decls) (left.map Param.name))]) := by
  have hparts := parts (U := U) (keepLast_nodup decls)
  obtain ⟨hnodup, hbound, -⟩ := Kahn.sort_spec (n := (keepLast decls).length)
    (dependencies_nodup (U := U) (keepLast decls))
  have hlt := length_lt_iff hnodup hbound
  unfold sortParams dedupSort
  dsimp only
  generalize keepLast decls = keep at *
  generalize Kahn.sort keep.length (dependencies U keep) = order at *
  refine ⟨_, _, hparts, ?_, ?_⟩
  all_goals
    rw [List.filterMap_append, List.map_filterMap]
    congr 1
    cases hempty : (((List.range keep.length).filter (· ∉ order)).filterMap (keep[·]?)).isEmpty with
    | true =>
      rw [if_pos rfl, if_neg]
      rw [hlt, hempty]
      exact Bool.noConfusion
    | false =>
      rw [if_pos (hlt.mpr hempty), if_neg Bool.false_ne_true]

/-! ## What is left over -/

section Left

variable {decls sorted left : List Param} (h : Parts U (keepLast decls) sorted left)

include h

theorem Parts.lastDef {p : Param} : LastDef decls p ↔ p ∈ sorted ∨ p ∈ left := by
  rw [← mem_keepLast, ← h.perm.mem_iff, List.mem_append]

theorem Parts.nodup : ((sorted ++ left).map Param.name).Nodup :=
  (h.perm.map Param.name).nodup_iff.mpr (keepLast_nodup decls)

/-- No definition of the order is on a cycle. -/
theorem Parts.not_mem_cycle {c : List Str} (hc : Cycle U decls c) {p : Param} (hp : p ∈ sorted) : p.name ∉ c := by
  obtain ⟨l₁, l₂, hsplit⟩ := List.append_of_mem hp
  induction hn : l₁.length using Nat.strong_induction_on generalizing l₁ p l₂ with
  | _ n ih =>
    intro hmem
    obtain ⟨b, hb, p', q, hp', hq, hname, rfl, hread⟩ := hc.next hmem
    obtain rfl := hp'.unique (h.lastDef.mpr (.inl hp)) hname
    -- what it reads stands before it
    have hin := h.before l₁ p' l₂ hsplit q (mem_keepLast.mpr hq) hread
    obtain ⟨m₁, m₂, rfl⟩ := List.append_of_mem hin
    refine ih m₁.length ?_ ?_ m₁ (m₂ ++ p' :: l₂) ?_ rfl hb
    · rw [← hn, List.length_append, List.length_cons]
      omega
    · rw [hsplit]
      simp
    · rw [hsplit]
      simp

/-- What reads a definition left over is left over. -/
theorem Parts.left_of_reads {a b : Str} (hread : Reads U decls a b) (hb : b ∈ left.map Param.name) :
    a ∈ left.map Param.name := by
  obtain ⟨p, q, hp, hq, rfl, rfl, hname⟩ := hread
  rcases h.lastDef.mp hp with hsorted | hleft
  · obtain ⟨l₁, l₂, hsplit⟩ := List.append_of_mem hsorted
    have hin := h.before l₁ p l₂ hsplit q (mem_keepLast.mpr hq) hname
    obtain ⟨q', hq', hsame⟩ := List.mem_map.mp hb
    obtain rfl := (h.lastDef.mpr (.inr hq')).unique hq hsame
    -- it would be in both parts
    have hdisj := List.disjoint_of_nodup_append h.nodup.of_map
    exact absurd hq' (hdisj (hsplit ▸ List.mem_append_left _ hin))
  · exact List.mem_map_of_mem hleft

omit h in
theorem find_lastDef {p : Param} (hp : LastDef decls p) :
    (keepLast decls).find? (fun q => q.name = p.name) = some p := by
  cases hfind : (keepLast decls).find? (fun q => q.name = p.name) with
  | none => exact absurd (decide_eq_true rfl) (List.find?_eq_none.mp hfind p (mem_keepLast.mpr hp))
  | some q =>
    have hq := mem_keepLast.mp (List.mem_of_find?_eq_some hfind)
    have hname := List.find?_some hfind
    rw [hq.unique hp (of_decide_eq_true hname)]

theorem Parts.nextStuck_reads {a b : Str} (hnext : nextStuck U (keepLast decls) (left.map Param.name) a = some b) :
    Reads U decls a b ∧ b ∈ left.map Param.name := by
  obtain ⟨p, hfind, hmin⟩ := Option.bind_eq_some_iff.mp hnext
  have hp := mem_keepLast.mp (List.mem_of_find?_eq_some hfind)
  obtain ⟨hread, hb⟩ := List.mem_filter.mp (List.min?_mem hmin)
  have hb := of_decide_eq_true hb
  obtain ⟨q, hq, rfl⟩ := List.mem_map.mp hb
  have hname := List.find?_some hfind
  exact ⟨⟨p, q, hp, h.lastDef.mpr (.inr hq), of_decide_eq_true hname, rfl, hread⟩, hb⟩

theorem Parts.exists_nextStuck {a : Str} (ha : a ∈ left.map Param.name) :
    ∃ b ∈ left.map Param.name, nextStuck U (keepLast decls) (left.map Param.name) a = some b := by
  obtain ⟨p, hp, rfl⟩ := List.mem_map.mp ha
  obtain ⟨q, hq, hread⟩ := h.waits p hp
  have hmem : q.name ∈ (names U p.expr).filter (· ∈ left.map Param.name) :=
    List.mem_filter.mpr ⟨hread, decide_eq_true (List.mem_map_of_mem hq)⟩
  obtain ⟨b, hb⟩ := Option.ne_none_iff_exists'.mp fun hnone =>
    List.ne_nil_of_mem hmem (List.min?_eq_none_iff.mp hnone)
  have hnext : nextStuck U (keepLast decls) (left.map Param.name) p.name = some b := by
    rw [nextStuck, find_lastDef (h.lastDef.mpr (.inr hp)), Option.bind_some, hb]
  exact ⟨b, (h.nextStuck_reads hnext).2, hnext⟩

/-- From a definition left over the walk finds a cycle that it leads into. -/
theorem Parts.walk_cycle {a : Str} (ha : a ∈ left.map Param.name) :
    Cycle U decls (Loops.walk (nextStuck U (keepLast decls) (left.map Param.name))
      ((left.map Param.name).length + 1) [] a) ∧ LeadsIntoCycle U decls a := by
  obtain ⟨hloop, hin⟩ := walk_loop (fun (b : Str) (hb : b ∈ left.map Param.name) => h.exists_nextStuck hb) ha
    (List.nil_subset _) List.nodup_nil (List.isChain_singleton a)
    (Nat.lt_succ_self (left.map Param.name).length)
  have hreads := fun x y hxy => (h.nextStuck_reads (a := x) (b := y) hxy).1
  have hcycle := hloop.imp hreads
  refine ⟨hcycle, _, hcycle, ?_⟩
  obtain ⟨b, hb⟩ := List.exists_mem_of_ne_nil _ hloop.ne_nil
  refine ⟨b, hb, ?_⟩
  exact ReflTransGen.mono hreads _ _ ((hin b hb).2.resolve_left List.not_mem_nil)

/-- The definitions left over are those that lead into a cycle. -/
theorem Parts.mem_left {p : Param} : p ∈ left ↔ LastDef decls p ∧ LeadsIntoCycle U decls p.name := by
  constructor
  · intro hp
    exact ⟨h.lastDef.mpr (.inr hp), (h.walk_cycle (List.mem_map_of_mem hp)).2⟩
  · rintro ⟨hp, c, hc, b, hb, hreach⟩
    -- the node of the cycle is left over, and so is what reaches it
    have hleft : b ∈ left.map Param.name := by
      obtain ⟨d, -, q, r, hq, -, rfl, -⟩ := hc.next hb
      rcases h.lastDef.mp hq with hsorted | hleft
      · exact absurd hb (h.not_mem_cycle hc hsorted)
      · exact List.mem_map_of_mem hleft
    have hname : p.name ∈ left.map Param.name := by
      generalize p.name = a at hreach
      induction hreach using ReflTransGen.head_induction_on with
      | refl => exact hleft
      | head hread _ ih => exact h.left_of_reads hread ih
    obtain ⟨q, hq, hsame⟩ := List.mem_map.mp hname
    rwa [← (h.lastDef.mpr (.inr hq)).unique hp hsame]

theorem Parts.left_eq : left = entangled U decls := by
  classical
  have hsub : left.Sublist (entangled U decls) := by
    have hfilter := h.sublist.filter fun p => decide (LeadsIntoCycle U decls p.name)
    have hall : left.filter (fun p => decide (LeadsIntoCycle U decls p.name)) = left :=
      List.filter_eq_self.mpr fun p hp => decide_eq_true (h.mem_left.mp hp).2
    rw [hall] at hfilter
    unfold entangled
    exact hfilter
  have hnodup : (entangled U decls).Nodup := (keepLast_nodup decls).of_map.filter _
  refine hsub.eq_of_length_le (hnodup.subperm fun p hp => ?_).length_le
  obtain ⟨hkeep, hleads⟩ := List.mem_filter.mp hp
  exact h.mem_left.mpr ⟨mem_keepLast.mp hkeep, of_decide_eq_true hleads⟩

theorem Parts.exists_cycle : left ≠ [] ↔ ∃ c, Cycle U decls c := by
  constructor
  · intro hne
    obtain ⟨p, hp⟩ := List.exists_mem_of_ne_nil _ hne
    exact ⟨_, (h.walk_cycle (List.mem_map_of_mem hp)).1⟩
  · rintro ⟨c, hc⟩ hnil
    obtain ⟨a, ha⟩ := List.exists_mem_of_ne_nil _ hc.ne_nil
    obtain ⟨b, -, p, q, hp, -, rfl, -⟩ := hc.next ha
    rcases h.lastDef.mp hp with hsorted | hleft
    · exact h.not_mem_cycle hc hsorted ha
    · rw [hnil] at hleft
      cases hleft

/-- `find_cycle` returns a cycle. -/
theorem Parts.findCycle_cycle (hne : left ≠ []) :
    Cycle U decls (findCycle U (keepLast decls) (left.map Param.name)) := by
  obtain ⟨p, rest, rfl⟩ := List.exists_cons_of_ne_nil hne
  exact (h.walk_cycle List.mem_cons_self).1

end Left

end Vamos.Netlist.Expression
