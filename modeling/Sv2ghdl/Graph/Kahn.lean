import Mathlib.Data.List.Perm.Basic
import Mathlib.Data.List.MinMax
import Mathlib.Tactic

/-!
# Sorting by counting dependencies

The topological sort of `0, …, n - 1` that counts for each node the dependencies that are not listed
yet, and takes the least node whose count is 0.  A node is listed after all it depends on; all nodes
are listed unless some depend on each other in a cycle.
-/

namespace Kahn

/-! ## The algorithm -/

structure State where
  ready : List Nat
  order : List Nat
  indeg : Nat → Nat

variable (n : Nat) (deps : Nat → List Nat)

/-- The nodes that depend on `j`. -/
def users (j : Nat) : List Nat := (List.range n).filter fun i => j ∈ deps i

def init : State where
  ready := (List.range n).filter fun i => (deps i).length = 0
  order := []
  indeg := fun i => (deps i).length

/-- One dependency of `u` is listed. -/
def release (s : State) (u : Nat) : State :=
  let d := s.indeg u - 1
  { s with
    indeg := Function.update s.indeg u d
    ready := if d = 0 then s.ready ++ [u] else s.ready }

/-- Take `i` off the ready nodes. -/
def take (s : State) (i : Nat) : State :=
  (users n deps i).foldl release { s with ready := s.ready.erase i, order := s.order ++ [i] }

def run : Nat → State → State
  | 0, s => s
  | fuel + 1, s =>
    match s.ready.min? with
    | none => s
    | some i => run fuel (take n deps s i)

def sort : List Nat := (run n deps n (init n deps)).order

/-! ## The counts -/

/-- The dependencies of `i` that are not in the list. -/
def missing (order : List Nat) (i : Nat) : List Nat := (deps i).filter (· ∉ order)

structure Inv (s : State) : Prop where
  nodup : (s.order ++ s.ready).Nodup
  bound : ∀ i ∈ s.order ++ s.ready, i < n
  count : ∀ i < n, s.indeg i = (missing deps s.order i).length
  ready : ∀ i < n, (missing deps s.order i = [] ↔ i ∈ s.order ++ s.ready)
  sorted : ∀ l₁ i l₂, s.order = l₁ ++ i :: l₂ → ∀ j ∈ deps i, j ∈ l₁

variable {n} {deps}

theorem release_foldl {us : List Nat} (hus : us.Nodup) (s : State) :
    (us.foldl release s).order = s.order ∧
      (us.foldl release s).indeg = (fun i => if i ∈ us then s.indeg i - 1 else s.indeg i) ∧
      (us.foldl release s).ready = s.ready ++ us.filter (fun u => s.indeg u - 1 = 0) := by
  induction us generalizing s with
  | nil => simp
  | cons u us ih =>
    have hu : u ∉ us := (List.nodup_cons.mp hus).1
    obtain ⟨horder, hindeg, hready⟩ := ih (List.nodup_cons.mp hus).2 (release s u)
    rw [List.foldl_cons]
    refine ⟨horder, ?_, ?_⟩
    · rw [hindeg]
      funext i
      by_cases hiu : i = u
      · subst hiu
        simp [hu, release]
      · simp [release, hiu]
    · rw [hready]
      -- the counts of the users that follow are not touched by `u`
      have hcount : us.filter (fun v => (release s u).indeg v - 1 = 0) =
          us.filter (fun v => s.indeg v - 1 = 0) := by
        apply List.filter_congr
        intro v hv
        have hvu : v ≠ u := fun h => hu (h ▸ hv)
        simp [release, Function.update_of_ne hvu]
      rw [hcount]
      by_cases hzero : s.indeg u - 1 = 0
      · simp [release, hzero]
      · simp [release, hzero]

theorem mem_users {i j : Nat} : i ∈ users n deps j ↔ i < n ∧ j ∈ deps i := by
  simp [users]

theorem nodup_users (n : Nat) (deps : Nat → List Nat) (j : Nat) : (users n deps j).Nodup := List.nodup_range.filter _

theorem missing_snoc (order : List Nat) (i j : Nat) (hdeps : (deps i).Nodup) (hj : j ∉ order) :
    (missing deps (order ++ [j]) i).length =
      if j ∈ deps i then (missing deps order i).length - 1 else (missing deps order i).length := by
  have hfilter : missing deps (order ++ [j]) i = (missing deps order i).filter (· ≠ j) := by
    unfold missing
    rw [List.filter_filter]
    apply List.filter_congr
    intro x _
    simp [not_or, and_comm]
  have hnodup : (missing deps order i).Nodup := hdeps.filter _
  have herase : (missing deps order i).filter (· ≠ j) = (missing deps order i).erase j := by
    rw [hnodup.erase_eq_filter]
    apply List.filter_congr
    intro x _
    by_cases hxj : x = j <;> simp [hxj]
  rw [hfilter, herase, List.length_erase]
  by_cases hmem : j ∈ deps i
  · have : j ∈ missing deps order i := by simp [missing, hmem, hj]
    simp [hmem, this]
  · have : j ∉ missing deps order i := by simp [missing, hmem]
    simp [hmem, this]

theorem inv_init (n : Nat) (deps : Nat → List Nat) : Inv n deps (init n deps) := by
  constructor
  · simpa [init] using List.nodup_range.filter _
  · intro i hi
    simp only [init, List.nil_append, List.mem_filter, List.mem_range] at hi
    exact hi.1
  · simp [init, missing]
  · intro i hi
    simp [init, missing, hi]
  · intro l₁ i l₂ h
    simp [init] at h

/-- Taking a ready node keeps the invariant. -/
theorem Inv.take {s : State} (h : Inv n deps s) (hdeps : ∀ i, (deps i).Nodup) {i : Nat}
    (hi : i ∈ s.ready) : Inv n deps (take n deps s i) := by
  have hbound : i < n := h.bound i (List.mem_append_right _ hi)
  have hlisted : i ∉ s.order := fun hmem =>
    (List.nodup_append.mp h.nodup).2.2 i hmem i hi rfl
  have hnone : missing deps s.order i = [] := (h.ready i hbound).mpr (List.mem_append_right _ hi)
  obtain ⟨horder, hindeg, hready⟩ := release_foldl (nodup_users n deps i)
    { s with ready := s.ready.erase i, order := s.order ++ [i] }
  -- a user of `i` misses it, so it is neither listed nor ready
  have hwaits : ∀ u ∈ users n deps i, u ∉ s.order ++ s.ready := by
    intro u hu hmem
    have hu' := mem_users.mp hu
    have hmiss := (h.ready u hu'.1).mpr hmem
    have : i ∈ missing deps s.order u := by simp [missing, hu'.2, hlisted]
    rw [hmiss] at this
    cases this
  have hcount : ∀ u < n, (Kahn.take n deps s i).indeg u =
      (missing deps (s.order ++ [i]) u).length := by
    intro u hu
    rw [missing_snoc s.order u i (hdeps u) hlisted, ← h.count u hu, Kahn.take, hindeg]
    simp only [mem_users, hu, true_and]
  have hperm : ((s.order ++ [i]) ++ s.ready.erase i).Perm (s.order ++ s.ready) := by
    rw [List.append_assoc]
    exact (List.perm_cons_erase hi).symm.append_left s.order
  constructor
  · show ((Kahn.take n deps s i).order ++ (Kahn.take n deps s i).ready).Nodup
    rw [Kahn.take, horder, hready, ← List.append_assoc, List.nodup_append]
    refine ⟨hperm.nodup_iff.mpr h.nodup, (nodup_users n deps i).filter _, ?_⟩
    intro a ha b hb hab
    subst hab
    exact hwaits a (List.mem_filter.mp hb).1 (hperm.mem_iff.mp ha)
  · intro u hu
    rw [Kahn.take, horder, hready, ← List.append_assoc] at hu
    rcases List.mem_append.mp hu with hu | hu
    · exact h.bound u (hperm.mem_iff.mp hu)
    · exact (mem_users.mp (List.mem_filter.mp hu).1).1
  · intro u hu
    rw [hcount u hu, Kahn.take, horder]
  · intro u hu
    have hzero : missing deps (s.order ++ [i]) u = [] ↔ (Kahn.take n deps s i).indeg u = 0 := by
      rw [hcount u hu, List.length_eq_zero_iff]
    have hmem : u ∈ (Kahn.take n deps s i).order ++ (Kahn.take n deps s i).ready ↔
        u ∈ s.order ++ s.ready ∨ u ∈ users n deps i ∧ s.indeg u - 1 = 0 := by
      rw [Kahn.take, horder, hready, ← List.append_assoc, List.mem_append, hperm.mem_iff,
        List.mem_filter, decide_eq_true_eq]
    rw [hmem]
    show missing deps (Kahn.take n deps s i).order u = [] ↔ _
    rw [Kahn.take, horder, hzero, Kahn.take, hindeg]
    by_cases huser : u ∈ users n deps i
    · have hout := hwaits u huser
      simp [huser, hout]
    · have hcountu := h.count u hu
      have hreadyu := h.ready u hu
      rw [← List.length_eq_zero_iff, ← hcountu] at hreadyu
      simp only [huser, if_false, false_and, or_false]
      exact hreadyu
  · intro l₁ j l₂ hsplit k hk
    rw [Kahn.take, horder] at hsplit
    rcases List.eq_nil_or_concat l₂ with rfl | ⟨l₂', z, rfl⟩
    · -- the last node is `i`, and nothing is missing for it
      have hlast : s.order = l₁ ∧ i = j := by simpa using List.append_inj' hsplit rfl
      obtain ⟨rfl, rfl⟩ := hlast
      by_contra hk'
      have : k ∈ missing deps s.order i := by simp [missing, hk, hk']
      rw [hnone] at this
      cases this
    · have hinit : s.order = l₁ ++ j :: l₂' := by
        have hassoc : l₁ ++ j :: l₂'.concat z = (l₁ ++ j :: l₂') ++ [z] := by simp
        rw [hassoc] at hsplit
        exact (List.append_inj' hsplit rfl).1
      exact h.sorted l₁ j l₂' hinit k hk

theorem Inv.run {s : State} (h : Inv n deps s) (hdeps : ∀ i, (deps i).Nodup) (fuel : Nat) :
    Inv n deps (run n deps fuel s) := by
  induction fuel generalizing s with
  | zero => exact h
  | succ fuel ih =>
    unfold Kahn.run
    split
    · exact h
    · next i hi =>
      apply ih
      exact h.take hdeps (List.min?_mem hi)

/-- The loop has no node left that is ready: `n` rounds are enough. -/
theorem run_ready {s : State} (h : Inv n deps s) (hdeps : ∀ i, (deps i).Nodup) {fuel : Nat}
    (hfuel : n ≤ fuel + s.order.length) : (run n deps fuel s).ready = [] := by
  induction fuel generalizing s with
  | zero =>
    -- all nodes are listed
    have hlen : (s.order ++ s.ready).length ≤ (List.range n).length := by
      apply (List.Nodup.subperm h.nodup ?_).length_le
      intro i hi
      exact List.mem_range.mpr (h.bound i hi)
    rw [List.length_append, List.length_range] at hlen
    rw [Kahn.run]
    apply List.length_eq_zero_iff.mp
    omega
  | succ fuel ih =>
    unfold Kahn.run
    split
    · next hnone => exact List.min?_eq_none_iff.mp hnone
    · next i hi =>
      apply ih (h.take hdeps (List.min?_mem hi))
      have horder := (release_foldl (nodup_users n deps i)
        { s with ready := s.ready.erase i, order := s.order ++ [i] }).1
      rw [Kahn.take, horder, List.length_append, List.length_singleton]
      omega

/-- The list is in order, each node once. -/
theorem sort_spec (hdeps : ∀ i, (deps i).Nodup) :
    (sort n deps).Nodup ∧ (∀ i ∈ sort n deps, i < n) ∧
      ∀ l₁ i l₂, sort n deps = l₁ ++ i :: l₂ → ∀ j ∈ deps i, j ∈ l₁ := by
  have h := (inv_init n deps).run hdeps n
  exact ⟨(List.nodup_append.mp h.nodup).1, fun i hi => h.bound i (List.mem_append_left _ hi),
    h.sorted⟩

/-- A list of all `n` nodes is one of each. -/
theorem sort_perm (hdeps : ∀ i, (deps i).Nodup) (hlen : (sort n deps).length = n) :
    (sort n deps).Perm (List.range n) := by
  have h := sort_spec (n := n) hdeps
  apply (List.Nodup.subperm h.1 ?_).perm_of_length_le
  · rw [List.length_range, hlen]
  · intro i hi
    exact List.mem_range.mpr (h.2.1 i hi)

/-- Each node listed is the least one of those that wait for nothing. -/
def LeastFirst (n : Nat) (deps : Nat → List Nat) (order : List Nat) : Prop :=
  ∀ l₁ i l₂, order = l₁ ++ i :: l₂ → ∀ j < n, j ∉ l₁ → (∀ k ∈ deps j, k ∈ l₁) → i ≤ j

theorem missing_eq_nil {order : List Nat} {i : Nat} : missing deps order i = [] ↔ ∀ j ∈ deps i, j ∈ order := by
  simp [missing, List.filter_eq_nil_iff]

theorem LeastFirst.take {s : State} (h : LeastFirst n deps s.order) (hinv : Inv n deps s) {i : Nat}
    (hi : s.ready.min? = some i) : LeastFirst n deps (take n deps s i).order := by
  have horder : (Kahn.take n deps s i).order = s.order ++ [i] := (release_foldl (nodup_users n deps i) _).1
  rw [horder]
  intro l₁ m l₂ hsplit j hj hout hfree
  rcases List.eq_nil_or_concat l₂ with rfl | ⟨l₂', z, rfl⟩
  · -- the last node is `i`, the least one that is ready
    have hlast : s.order = l₁ ∧ i = m := by simpa using List.append_inj' hsplit rfl
    obtain ⟨rfl, rfl⟩ := hlast
    have hready : j ∈ s.ready := by
      have hmem := (hinv.ready j hj).mp (missing_eq_nil.mpr hfree)
      exact (List.mem_append.mp hmem).resolve_left hout
    exact (List.min?_eq_some_iff.mp hi).2 j hready
  · have hinit : s.order = l₁ ++ m :: l₂' := by
      have hassoc : l₁ ++ m :: l₂'.concat z = (l₁ ++ m :: l₂') ++ [z] := by simp
      rw [hassoc] at hsplit
      exact (List.append_inj' hsplit rfl).1
    exact h l₁ m l₂' hinit j hj hout hfree

theorem LeastFirst.run {s : State} (h : LeastFirst n deps s.order) (hinv : Inv n deps s)
    (hdeps : ∀ i, (deps i).Nodup) (fuel : Nat) : LeastFirst n deps (run n deps fuel s).order := by
  induction fuel generalizing s with
  | zero => exact h
  | succ fuel ih =>
    unfold Kahn.run
    split
    · exact h
    · next i hi => exact ih (h.take hinv hi) (hinv.take hdeps (List.min?_mem hi))

theorem sort_leastFirst (hdeps : ∀ i, (deps i).Nodup) : LeastFirst n deps (sort n deps) := by
  refine LeastFirst.run ?_ (inv_init n deps) hdeps n
  intro l₁ i l₂ h
  exact absurd h.symm (List.append_ne_nil_of_right_ne_nil l₁ (List.cons_ne_nil i l₂))

/-- A node is left out only if it waits for one that is. -/
theorem sort_complete (hdeps : ∀ i, (deps i).Nodup) {i : Nat} (hi : i < n) (h : ∀ j ∈ deps i, j ∈ sort n deps) :
    i ∈ sort n deps := by
  have hinv := (inv_init n deps).run hdeps n
  have hnone : (Kahn.run n deps n (init n deps)).ready = [] :=
    run_ready (inv_init n deps) hdeps (Nat.le_add_right n _)
  have hmem := (hinv.ready i hi).mp (missing_eq_nil.mpr h)
  rw [hnone, List.append_nil] at hmem
  exact hmem

end Kahn
