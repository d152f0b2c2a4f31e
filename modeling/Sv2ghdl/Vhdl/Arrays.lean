import Mathlib.Tactic

/-!
# VHDL arrays

One-dimensional arrays with any index range.  An index outside the range is the run-time error that a
simulation stops at.
-/

namespace Vhdl

/-- `to` or `downto`. -/
inductive Direction where
  | ascending
  | descending
  deriving DecidableEq, Repr

/-- `left to right` or `left downto right`; one that is empty is a null range. -/
structure Range where
  left : Int
  dir : Direction
  right : Int
  deriving DecidableEq, Repr

namespace Range

variable (r : Range)

def length : Nat :=
  match r.dir with
  | .ascending => (r.right - r.left + 1).toNat
  | .descending => (r.left - r.right + 1).toNat

/-- The index `k` places from the left. -/
def index (k : Nat) : Int :=
  match r.dir with
  | .ascending => r.left + k
  | .descending => r.left - k

/-- The least index, unless the range is null. -/
def low : Int :=
  match r.dir with
  | .ascending => r.left
  | .descending => r.right

/-- How far from the left an index is; none outside the range. -/
def position (i : Int) : Option Nat :=
  let k : Int := match r.dir with
    | .ascending => i - r.left
    | .descending => r.left - i
  if 0 ≤ k ∧ k < r.length then some k.toNat else none

/-- The indices from left to right, as a loop over the range takes them. -/
def indices : List Int := (List.range r.length).map r.index

theorem position_index {k : Nat} (hk : k < r.length) : r.position (r.index k) = some k := by
  obtain ⟨left, dir, right⟩ := r
  cases dir with
  | ascending =>
    have hpos : left + (k : Int) - left = k := by omega
    simp only [position, index, hpos]
    rw [if_pos ⟨by omega, by exact_mod_cast hk⟩, Int.toNat_natCast]
  | descending =>
    have hpos : left - (left - (k : Int)) = k := by omega
    simp only [position, index, hpos]
    rw [if_pos ⟨by omega, by exact_mod_cast hk⟩, Int.toNat_natCast]

/-- `1 to n` -/
def oneTo (n : Nat) : Range := ⟨1, .ascending, n⟩

@[simp] theorem length_oneTo (n : Nat) : (oneTo n).length = n := by
  simp only [oneTo, length]
  omega

end Range

/-- An array: its elements from left to right, as many as its range has indices. -/
structure Array (α : Type) where
  range : Range
  elems : List α
  length_eq : elems.length = range.length

namespace Array

variable {α β : Type}

/-- `v'length` -/
def length (v : Array α) : Nat := v.elems.length

/-- `v(i)` -/
def get? (v : Array α) (i : Int) : Option α := (v.range.position i).bind (v.elems[·]?)

/-- `v(i) := a` -/
def set? (v : Array α) (i : Int) (a : α) : Option (Array α) :=
  (v.range.position i).map fun k => ⟨v.range, v.elems.set k a, by rw [List.length_set, v.length_eq]⟩

/-- A variable of a range, every element at the default of its type. -/
def default (r : Range) (a : α) : Array α := ⟨r, List.replicate r.length a, List.length_replicate⟩

/-- `alias w : t (1 to v'length) is v` -/
def aliasOf (v : Array α) : Array α := ⟨.oneTo v.length, v.elems, (Range.length_oneTo _).symm⟩

theorem get?_index (v : Array α) {k : Nat} (hk : k < v.length) : v.get? (v.range.index k) = v.elems[k]? := by
  rw [get?, v.range.position_index (v.length_eq ▸ hk), Option.bind_some]

theorem get?_aliasOf (v : Array α) {k : Nat} (hk : k < v.length) : v.aliasOf.get? (1 + k) = v.elems[k]? :=
  v.aliasOf.get?_index hk

/-- `for i in v'range loop v(i) := f(i); end loop;` -/
def assign (v : Array α) (f : Int → Option α) : Option (Array α) :=
  v.range.indices.foldlM (fun (v : Array α) i => do v.set? i (← f i)) v

/-- What the loop has left to do after the first elements are assigned. -/
theorem foldlM_assign (f : Int → Option α) (rest : List α) (v : Array α) (done : List α)
    (hv : v.elems = done ++ rest) :
    (((List.range' done.length rest.length).map v.range.index).foldlM
        (fun (v : Array α) i => do v.set? i (← f i)) v).map elems =
      (((List.range' done.length rest.length).map v.range.index).mapM f).map (done ++ ·) := by
  induction rest generalizing v done with
  | nil =>
    simp only [List.length_nil, List.range'_zero, List.map_nil, List.foldlM_nil, List.mapM_nil]
    show some v.elems = some (done ++ [])
    rw [hv]
  | cons a rest ih =>
    have hk : done.length < v.range.length := by
      rw [← v.length_eq, hv, List.length_append, List.length_cons]
      omega
    rw [List.length_cons, List.range'_succ, List.map_cons, List.foldlM_cons, List.mapM_cons]
    cases hf : f (v.range.index done.length) with
    | none => rfl
    | some b =>
      -- the next element is assigned, and the loop goes on behind it
      let v' : Array α := ⟨v.range, v.elems.set done.length b, by rw [List.length_set, v.length_eq]⟩
      have hset : v.set? (v.range.index done.length) b = some v' := by
        rw [set?, v.range.position_index hk]
        rfl
      have hv' : v'.elems = (done ++ [b]) ++ rest := by
        show v.elems.set done.length b = _
        rw [hv, List.set_append_right _ _ le_rfl, Nat.sub_self, List.set_cons_zero, List.append_assoc]
        rfl
      have hrest := ih v' (done ++ [b]) hv'
      rw [List.length_append, List.length_singleton] at hrest
      rw [show v'.range = v.range from rfl] at hrest
      simp only [Option.bind_eq_bind, Option.bind_some, hset] at hrest ⊢
      rw [hrest]
      cases List.mapM f (List.map v.range.index (List.range' (done.length + 1) rest.length)) with
      | none => rfl
      | some bs => simp

/-- The loop leaves the values of the expression, or fails where that fails. -/
theorem assign_elems (v : Array α) (f : Int → Option α) :
    (v.assign f).map elems = v.range.indices.mapM f := by
  have hloop := foldlM_assign f v.elems v [] rfl
  rw [assign, Range.indices, List.range_eq_range', ← v.length_eq]
  simpa using hloop

theorem mapM_eq_some {γ : Type} {f : γ → Option α} {is : List γ} {as : List α}
    (h : List.Forall₂ (fun i a => f i = some a) is as) : is.mapM f = some as := by
  induction h with
  | nil => rfl
  | cons hia _ ih =>
    rw [List.mapM_cons, hia, ih]
    rfl

theorem length_indices (r : Range) : r.indices.length = r.length := by
  rw [Range.indices, List.length_map, List.length_range]

/-- The loop over an expression that has a value everywhere. -/
theorem assign_eq (v : Array α) {f : Int → Option α} {as : List α} (hlength : as.length = v.range.length)
    (h : ∀ (k : Nat) (a : α), as[k]? = some a → f (v.range.index k) = some a) : (v.assign f).map elems = some as := by
  rw [assign_elems]
  apply mapM_eq_some
  rw [List.forall₂_iff_get]
  refine ⟨by rw [length_indices, hlength], ?_⟩
  intro k hk hk'
  have hindex : v.range.indices.get ⟨k, hk⟩ = v.range.index k := by simp [Range.indices]
  rw [hindex]
  exact h k _ (List.getElem?_eq_getElem hk')

theorem indices_forall₂ (v : Array α) : List.Forall₂ (fun i a => v.get? i = some a) v.range.indices v.elems := by
  rw [List.forall₂_iff_get]
  refine ⟨by rw [length_indices, v.length_eq], ?_⟩
  intro k hk hk'
  have hindex : v.range.indices.get ⟨k, hk⟩ = v.range.index k := by simp [Range.indices]
  rw [hindex, v.get?_index hk', List.getElem?_eq_getElem hk', List.get_eq_getElem]

/-- `for i in v'range loop b := f(b, v(i)); end loop;` -/
theorem foldlM_get? (v : Array α) (f : β → α → β) (b : β) :
    v.range.indices.foldlM (fun b i => do return f b (← v.get? i)) b = some (v.elems.foldl f b) := by
  have hall := v.indices_forall₂
  generalize v.range.indices = is at hall ⊢
  generalize v.elems = as at hall ⊢
  induction hall generalizing b with
  | nil => rfl
  | cons hia _ ih =>
    rw [List.foldlM_cons, hia, List.foldl_cons, ← ih]
    rfl

/-- The loop fails where the expression does. -/
theorem assign_eq_none (v : Array α) {f : Int → Option α} {k : Nat} (hk : k < v.range.length)
    (h : f (v.range.index k) = none) : v.assign f = none := by
  rw [← Option.map_eq_none_iff (f := elems), assign_elems]
  have hmem : v.range.index k ∈ v.range.indices := List.mem_map_of_mem (List.mem_range.mpr hk)
  generalize v.range.indices = is at hmem
  induction is with
  | nil => cases hmem
  | cons i is ih =>
    rw [List.mapM_cons]
    rcases List.mem_cons.mp hmem with rfl | hmem
    · rw [h]
      rfl
    · rw [ih hmem]
      cases f i <;> rfl

end Array

end Vhdl
