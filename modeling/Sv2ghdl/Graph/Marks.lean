import Sv2ghdl.Lists.OrderedDict
import Mathlib.Tactic

/-!
# Marking until nothing changes

Nodes are marked, each with a reason, that may depend on the marks there are.  The list of the nodes is gone through
until a pass marks none.
-/

namespace Marks

variable {α ρ : Type} [DecidableEq α] (why : OrderedDict α ρ → α → Option ρ)

/-- One node of a pass; the flag says whether the pass has marked a node. -/
def mark (s : OrderedDict α ρ × Bool) (a : α) : OrderedDict α ρ × Bool :=
  if a ∈ s.1.keys then s
  else match why s.1 a with
    | some r => (s.1.set a r, true)
    | none => s

def pass (nodes : List α) (d : OrderedDict α ρ) : OrderedDict α ρ × Bool := nodes.foldl (mark why) (d, false)

/-- Passes until one marks no node; `none` when the fuel runs out. -/
def passes (nodes : List α) : Nat → OrderedDict α ρ → Option (OrderedDict α ρ)
  | 0, _ => none
  | fuel + 1, d => if (pass why nodes d).2 then passes nodes fuel (pass why nodes d).1 else some (pass why nodes d).1

/-! ## One pass -/

variable {why}

/-- A node is passed over, or it is marked with its reason. -/
theorem mark_cases (s : OrderedDict α ρ × Bool) (a : α) :
    (mark why s a = s ∧ (a ∈ s.1.keys ∨ why s.1 a = none)) ∨
      ∃ r, a ∉ s.1.keys ∧ why s.1 a = some r ∧ mark why s a = (s.1.set a r, true) := by
  by_cases ha : a ∈ s.1.keys
  · exact .inl ⟨if_pos ha, .inl ha⟩
  · cases hwhy : why s.1 a with
    | none =>
      refine .inl ⟨?_, .inr rfl⟩
      rw [mark, if_neg ha, hwhy]
    | some r =>
      refine .inr ⟨r, ha, rfl, ?_⟩
      rw [mark, if_neg ha, hwhy]

/-- What a mark keeps, a pass keeps. -/
theorem foldl_rule {nodes : List α} (inv : OrderedDict α ρ → Prop)
    (hmark : ∀ d, ∀ a ∈ nodes, ∀ r, inv d → a ∉ d.keys → why d a = some r → inv (d.set a r))
    {s : OrderedDict α ρ × Bool} (h : inv s.1) : inv (nodes.foldl (mark why) s).1 := by
  induction nodes generalizing s with
  | nil => exact h
  | cons a nodes ih =>
    rw [List.foldl_cons]
    refine ih (fun d b hb => hmark d b (List.mem_cons_of_mem a hb)) ?_
    rcases mark_cases s a with ⟨heq, _⟩ | ⟨r, ha, hwhy, heq⟩
    · rw [heq]
      exact h
    · rw [heq]
      exact hmark s.1 a List.mem_cons_self r h ha hwhy

theorem length_set {d : OrderedDict α ρ} {a : α} (ha : a ∉ d.keys) (r : ρ) :
    (d.set a r).keys.length = d.keys.length + 1 := by
  rw [OrderedDict.keys_set, if_neg ha, List.length_append, List.length_singleton]

theorem length_foldl (nodes : List α) (s : OrderedDict α ρ × Bool) :
    s.1.keys.length ≤ (nodes.foldl (mark why) s).1.keys.length := by
  refine foldl_rule (fun d => s.1.keys.length ≤ d.keys.length) ?_ (Nat.le_refl _)
  intro d a _ r h ha _
  rw [length_set ha]
  exact Nat.le_succ_of_le h

theorem foldl_flag (nodes : List α) (d : OrderedDict α ρ) : (nodes.foldl (mark why) (d, true)).2 = true := by
  induction nodes generalizing d with
  | nil => rfl
  | cons a nodes ih =>
    rw [List.foldl_cons]
    rcases mark_cases (d, true) a with ⟨heq, _⟩ | ⟨r, _, _, heq⟩
    · rw [heq]
      exact ih d
    · rw [heq]
      exact ih _

/-- A pass that marks no node has found no reason for one. -/
theorem pass_unchanged {nodes : List α} {d : OrderedDict α ρ} (h : (pass why nodes d).2 = false) :
    (pass why nodes d).1 = d ∧ ∀ a ∈ nodes, a ∈ d.keys ∨ why d a = none := by
  unfold pass at h ⊢
  induction nodes with
  | nil => exact ⟨rfl, fun a ha => by cases ha⟩
  | cons a nodes ih =>
    rw [List.foldl_cons] at h ⊢
    rcases mark_cases (d, false) a with ⟨heq, hkeep⟩ | ⟨r, _, _, heq⟩
    · rw [heq] at h ⊢
      obtain ⟨hsame, hnone⟩ := ih h
      exact ⟨hsame, List.forall_mem_cons.mpr ⟨hkeep, hnone⟩⟩
    · rw [heq, foldl_flag] at h
      cases h

/-- A pass that marks a node makes the table longer. -/
theorem length_pass {nodes : List α} {d : OrderedDict α ρ} (h : (pass why nodes d).2 = true) :
    d.keys.length < (pass why nodes d).1.keys.length := by
  unfold pass at h ⊢
  induction nodes with
  | nil => cases h
  | cons a nodes ih =>
    rw [List.foldl_cons] at h ⊢
    rcases mark_cases (d, false) a with ⟨heq, _⟩ | ⟨r, ha, _, heq⟩
    · rw [heq] at h ⊢
      exact ih h
    · rw [heq]
      calc d.keys.length < d.keys.length + 1 := Nat.lt_succ_self _
        _ = (d.set a r).keys.length := (length_set ha r).symm
        _ ≤ _ := length_foldl nodes (d.set a r, true)

/-! ## All passes -/

/-- What a mark keeps holds of the marks at the end, and at the end no node has a reason and no mark. -/
theorem passes_rule {nodes : List α} (inv : OrderedDict α ρ → Prop)
    (hmark : ∀ d, ∀ a ∈ nodes, ∀ r, inv d → a ∉ d.keys → why d a = some r → inv (d.set a r))
    {fuel : Nat} {d d' : OrderedDict α ρ} (h : inv d) (hrun : passes why nodes fuel d = some d') :
    inv d' ∧ ∀ a ∈ nodes, a ∈ d'.keys ∨ why d' a = none := by
  induction fuel generalizing d with
  | zero => cases hrun
  | succ fuel ih =>
    rw [passes] at hrun
    have hpass : inv (pass why nodes d).1 := foldl_rule inv hmark h
    cases hflag : (pass why nodes d).2 with
    | true =>
      rw [hflag, if_pos rfl] at hrun
      exact ih hpass hrun
    | false =>
      rw [hflag, if_neg Bool.false_ne_true] at hrun
      cases hrun
      obtain ⟨hsame, hnone⟩ := pass_unchanged hflag
      rw [hsame] at hpass ⊢
      exact ⟨hpass, hnone⟩

/-- More fuel gives the same. -/
theorem passes_mono {nodes : List α} {fuel fuel' : Nat} {d d' : OrderedDict α ρ} (hle : fuel ≤ fuel')
    (hrun : passes why nodes fuel d = some d') : passes why nodes fuel' d = some d' := by
  induction fuel generalizing fuel' d with
  | zero => cases hrun
  | succ fuel ih =>
    obtain ⟨fuel', rfl⟩ := Nat.exists_eq_succ_of_ne_zero (show fuel' ≠ 0 by omega)
    rw [passes] at hrun ⊢
    split_ifs at hrun ⊢ with hflag
    · exact ih (Nat.le_of_succ_le_succ hle) hrun
    · exact hrun

omit [DecidableEq α] in
theorem length_le {nodes : List α} {d : OrderedDict α ρ} (h : ∀ a ∈ d.keys, a ∈ nodes) :
    d.keys.length ≤ nodes.length :=
  (d.nodup.subperm h).length_le

theorem passes_total {nodes : List α} {fuel : Nat} {d : OrderedDict α ρ} (hd : ∀ a ∈ d.keys, a ∈ nodes)
    (hfuel : nodes.length < fuel + d.keys.length) : ∃ d', passes why nodes fuel d = some d' := by
  induction fuel generalizing d with
  | zero =>
    have := length_le hd
    omega
  | succ fuel ih =>
    rw [passes]
    split_ifs with hflag
    · refine ih ?_ ?_
      · refine foldl_rule (fun d => ∀ a ∈ d.keys, a ∈ nodes) ?_ hd
        intro d a ha r hinv _ _ b hb
        rcases OrderedDict.mem_keys_set.mp hb with rfl | hb
        · exact ha
        · exact hinv b hb
      · have := length_pass hflag
        omega
    · exact ⟨_, rfl⟩

end Marks
