import Sv2ghdl.Vhdl.Arrays

/-!
# `enh_logic_1164`

The package body of `packages/enhlogic/enh_logic_1164-body.vhd`, but for the signal attributes of the edge functions.
A function that returns nothing has stopped the simulation: an index outside an array, or a failed assertion.
-/

open Vhdl

namespace Packages

/-- `enh_ulogic`, and `enh_logic`, which is resolved -/
inductive EnhUlogic where
  | U
  | X
  | b0
  | b1
  | Z
  | W
  | L
  | H
  | dc
  deriving DecidableEq, Repr

open EnhUlogic

instance : Fintype EnhUlogic := ⟨{U, X, b0, b1, Z, W, L, H, dc}, fun s => by cases s <;> decide⟩

/-- `bit` -/
inductive Bit where
  | b0
  | b1
  deriving DecidableEq, Repr

/-- `enh_logic_vector` and `enh_ulogic_vector` -/
abbrev EnhVector := Vhdl.Array EnhUlogic

/-! ## Tables -/

/-- The place of a state in the type, which is its row and its column. -/
def EnhUlogic.pos : EnhUlogic → Nat
  | .U => 0
  | .X => 1
  | .b0 => 2
  | .b1 => 3
  | .Z => 4
  | .W => 5
  | .L => 6
  | .H => 7
  | .dc => 8

/-- An array indexed by `enh_ulogic`. -/
def row {α : Type} (default : α) (values : List α) (s : EnhUlogic) : α := values.getD s.pos default

/-- `enh_table` -/
def table (rows : List (List EnhUlogic)) (l r : EnhUlogic) : EnhUlogic := row U (row [] rows l) r

def resolutionTable : EnhUlogic → EnhUlogic → EnhUlogic := table
  [[U, U, U, U, U, U, U, U, U],
    [U, X, X, X, X, X, X, X, X],
    [U, X, b0, X, b0, b0, b0, b0, X],
    [U, X, X, b1, b1, b1, b1, b1, X],
    [U, X, b0, b1, Z, W, L, H, X],
    [U, X, b0, b1, W, W, W, W, X],
    [U, X, b0, b1, L, W, L, W, X],
    [U, X, b0, b1, H, W, W, H, X],
    [U, X, X, X, X, X, X, X, X]]

def andTable : EnhUlogic → EnhUlogic → EnhUlogic := table
  [[U, U, b0, U, U, U, b0, U, U],
    [U, X, b0, X, X, X, b0, X, X],
    [b0, b0, b0, b0, b0, b0, b0, b0, b0],
    [U, X, b0, b1, X, X, b0, b1, X],
    [U, X, b0, X, X, X, b0, X, X],
    [U, X, b0, X, X, X, b0, X, X],
    [b0, b0, b0, b0, b0, b0, b0, b0, b0],
    [U, X, b0, b1, X, X, b0, b1, X],
    [U, X, b0, X, X, X, b0, X, X]]

def orTable : EnhUlogic → EnhUlogic → EnhUlogic := table
  [[U, U, U, b1, U, U, U, b1, U],
    [U, X, X, b1, X, X, X, b1, X],
    [U, X, b0, b1, X, X, b0, b1, X],
    [b1, b1, b1, b1, b1, b1, b1, b1, b1],
    [U, X, X, b1, X, X, X, b1, X],
    [U, X, X, b1, X, X, X, b1, X],
    [U, X, b0, b1, X, X, b0, b1, X],
    [b1, b1, b1, b1, b1, b1, b1, b1, b1],
    [U, X, X, b1, X, X, X, b1, X]]

def xorTable : EnhUlogic → EnhUlogic → EnhUlogic := table
  [[U, U, U, U, U, U, U, U, U],
    [U, X, X, X, X, X, X, X, X],
    [U, X, b0, b1, X, X, b0, b1, X],
    [U, X, b1, b0, X, X, b1, b0, X],
    [U, X, X, X, X, X, X, X, X],
    [U, X, X, X, X, X, X, X, X],
    [U, X, b0, b1, X, X, b0, b1, X],
    [U, X, b1, b0, X, X, b1, b0, X],
    [U, X, X, X, X, X, X, X, X]]

def notTable : EnhUlogic → EnhUlogic := row U [U, X, b1, b0, X, X, b1, b0, X]

/-! ## Resolution -/

/-- `resolved` -/
def resolvedEnh (s : EnhVector) : Option EnhUlogic :=
  if s.length = 0 then some Z
  else s.range.indices.foldlM (fun result i => do return resolutionTable result (← s.get? i)) Z

/-! ## Logical operators -/

/-- An operator with its overloads. -/
structure Operator where
  scalar : EnhUlogic → EnhUlogic → EnhUlogic
  vector : EnhVector → EnhVector → Option EnhVector
  vectorScalar : EnhVector → EnhUlogic → Option EnhVector
  scalarVector : EnhUlogic → EnhVector → Option EnhVector

section Bodies

variable {α β : Type} (op : EnhUlogic → EnhUlogic → EnhUlogic)

/-- The body of the operators of two vectors. -/
def vectorBody (l r : EnhVector) : Option EnhVector :=
  let lv := l.aliasOf
  let rv := r.aliasOf
  let result : EnhVector := .default (.oneTo l.length) U
  if l.length ≠ r.length then none
  else result.assign fun i => do return op (← lv.get? i) (← rv.get? i)

/-- The body of what maps a vector: `result` has the range `1 to s'length`. -/
def mapBody (initial : β) (f : α → β) (s : Vhdl.Array α) : Option (Vhdl.Array β) :=
  let sv := s.aliasOf
  let result : Vhdl.Array β := .default (.oneTo s.length) initial
  result.assign fun i => do return f (← sv.get? i)

def vectorScalarBody (l : EnhVector) (r : EnhUlogic) : Option EnhVector := mapBody U (fun a => op a r) l

def scalarVectorBody (l : EnhUlogic) (r : EnhVector) : Option EnhVector := mapBody U (fun b => op l b) r

/-- The four bodies of an operator. -/
def operator : Operator := ⟨op, vectorBody op, vectorScalarBody op, scalarVectorBody op⟩

end Bodies

/-- `"and"` -/
def andOp : Operator := operator andTable

/-- `"nand"` -/
def nandOp : Operator := operator fun l r => notTable (andTable l r)

/-- `"or"` -/
def orOp : Operator := operator orTable

/-- `"nor"` -/
def norOp : Operator := operator fun l r => notTable (orTable l r)

/-- `"xor"` -/
def xorOp : Operator := operator xorTable

/-- `"xnor"` -/
def xnorOp : Operator := operator fun l r => notTable (xorTable l r)

/-- `"not"` -/
def notVector : EnhVector → Option EnhVector := mapBody U notTable

/-! ## Conversions -/

/-- `To_bit` -/
def toBit (s : EnhUlogic) (xmap : Bit) : Bit :=
  if s = b1 ∨ s = H then .b1
  else if s = b0 ∨ s = L then .b0
  else xmap

/-- `To_bitvector` -/
def toBitvector (s : EnhVector) (xmap : Bit) : Option (Vhdl.Array Bit) := mapBody .b0 (toBit · xmap) s

/-- `To_EnhULogic` -/
def toEnhULogic : Bit → EnhUlogic
  | .b0 => b0
  | .b1 => b1

/-- `To_EnhLogicVector` of a `bit_vector` -/
def toEnhLogicVectorOfBits : Vhdl.Array Bit → Option EnhVector := mapBody U toEnhULogic

/-- The body of the two copies: the loop reads the argument, not its alias. -/
def copyBody (s : EnhVector) : Option EnhVector :=
  let result : EnhVector := .default (.oneTo s.length) U
  result.assign fun i => s.get? i

/-- `To_EnhLogicVector` of an `enh_ulogic_vector` -/
def toEnhLogicVector : EnhVector → Option EnhVector := copyBody

/-- `To_EnhULogicVector` -/
def toEnhULogicVector : EnhVector → Option EnhVector := copyBody

/-! ## Strength strippers -/

def toX01Table : EnhUlogic → EnhUlogic := row U [X, X, b0, b1, X, X, b0, b1, X]

def toX01zTable : EnhUlogic → EnhUlogic := row U [X, X, b0, b1, Z, X, b0, b1, X]

def toUx01Table : EnhUlogic → EnhUlogic := row U [U, X, b0, b1, X, X, b0, b1, X]

/-- A strength stripper with its overloads. -/
structure Stripper where
  scalar : EnhUlogic → EnhUlogic
  vector : EnhVector → Option EnhVector
  bits : Vhdl.Array Bit → Option EnhVector
  bit : Bit → EnhUlogic

def stripper (t : EnhUlogic → EnhUlogic) : Stripper where
  scalar := t
  vector := mapBody U t
  bits b := do mapBody U t (← toEnhLogicVectorOfBits b)
  bit b := t (toEnhULogic b)

/-- `To_X01` -/
def toX01 : Stripper := stripper toX01Table

/-- `To_X01Z` -/
def toX01Z : Stripper := stripper toX01zTable

/-- `To_UX01` -/
def toUX01 : Stripper := stripper toUx01Table

/-! ## Strings -/

/-- `enh_to_char` -/
def enhToChar : EnhUlogic → Char := row 'U' ['U', 'X', '0', '1', 'Z', 'W', 'L', 'H', '-']

/-- `to_string` -/
def toStringEnh (value : EnhVector) : Option (Vhdl.Array Char) :=
  mapBody (Char.ofNat 0) enhToChar value

/-! ## Resolution as the standard has it -/

/-- The strength of what a driver drives, and the unknown that two of one strength make. -/
def EnhUlogic.strength : EnhUlogic → Nat
  | .Z => 0
  | .L | .H => 1
  | .W => 2
  | .b0 | .b1 => 3
  | .X | .dc => 4
  | .U => 5

def conflict : Nat → EnhUlogic
  | 0 => Z
  | 1 => W
  | 2 => W
  | 5 => U
  | _ => X

/-- Two drivers: the stronger one wins, and two that differ conflict; a don't care is an unknown. -/
def joined (a b : EnhUlogic) : EnhUlogic :=
  let stronger := if a.strength < b.strength then b else a
  if a.strength = b.strength ∧ a ≠ b ∨ stronger = dc then conflict stronger.strength else stronger

/-- `resolved` of `std_logic_1164`: a single driver is what it drives. -/
def stdResolved : List EnhUlogic → EnhUlogic
  | [d] => d
  | drivers => drivers.foldl joined Z

theorem resolutionTable_eq : resolutionTable = joined := by
  funext a b
  cases a <;> cases b <;> rfl

theorem joined_right_comm (a b c : EnhUlogic) : joined (joined a b) c = joined (joined a c) b := by
  revert a b c
  decide +kernel

theorem joined_Z (a : EnhUlogic) : joined Z a = if a = dc then X else a := by
  cases a <;> rfl

theorem resolvedEnh_eq (s : EnhVector) : resolvedEnh s = some (s.elems.foldl joined Z) := by
  rw [resolvedEnh]
  split_ifs with hlength
  · rw [List.length_eq_zero_iff.mp hlength]
    rfl
  · rw [resolutionTable_eq]
    exact s.foldlM_get? joined Z

/-- The fold is what the standard returns, but for a single don't care. -/
theorem resolvedEnh_iff (s : EnhVector) : resolvedEnh s = some (stdResolved s.elems) ↔ s.elems ≠ [dc] := by
  rw [resolvedEnh_eq, Option.some.injEq]
  generalize s.elems = drivers
  cases drivers with
  | nil => simp [stdResolved]
  | cons d drivers =>
    cases drivers with
    | nil =>
      rw [List.foldl_cons, List.foldl_nil, joined_Z, stdResolved]
      split_ifs with hd
      · simp [hd]
      · simp [hd]
    | cons e drivers => simp [stdResolved]

theorem resolvedEnh_perm {s s' : EnhVector} (h : s.elems.Perm s'.elems) : resolvedEnh s = resolvedEnh s' := by
  have : RightCommutative joined := ⟨joined_right_comm⟩
  rw [resolvedEnh_eq, resolvedEnh_eq, h.foldl_eq]

/-! ## Element by element -/

/-- A vector with these elements is returned, whatever its range. -/
def Returns {α : Type} (r : Option (Vhdl.Array α)) (elems : List α) : Prop := r.map Vhdl.Array.elems = some elems

theorem mapBody_returns {α β : Type} (initial : β) (f : α → β) (s : Vhdl.Array α) :
    Returns (mapBody initial f s) (s.elems.map f) := by
  apply Vhdl.Array.assign_eq
  · rw [List.length_map]
    exact (Range.length_oneTo _).symm
  · intro k b hb
    obtain ⟨a, ha, rfl⟩ := Option.map_eq_some_iff.mp (List.getElem?_map ▸ hb)
    have hk : k < s.length := (List.getElem?_eq_some_iff.mp ha).1
    show (do return f (← s.aliasOf.get? (1 + k))) = _
    rw [s.get?_aliasOf hk, ha]
    rfl

theorem vectorBody_returns (op : EnhUlogic → EnhUlogic → EnhUlogic) {l r : EnhVector} (h : l.length = r.length) :
    Returns (vectorBody op l r) (List.zipWith op l.elems r.elems) := by
  rw [vectorBody, if_neg (not_not_intro h)]
  have hlength : (List.zipWith op l.elems r.elems).length = l.length := by
    rw [List.length_zipWith]
    exact min_eq_left (le_of_eq h)
  apply Vhdl.Array.assign_eq
  · rw [hlength]
    exact (Range.length_oneTo _).symm
  · intro k c hc
    obtain ⟨a, b, ha, hb, rfl⟩ := List.getElem?_zipWith_eq_some.mp hc
    have hk : k < l.length := (List.getElem?_eq_some_iff.mp ha).1
    show (do return op (← l.aliasOf.get? (1 + k)) (← r.aliasOf.get? (1 + k))) = _
    rw [l.get?_aliasOf hk, r.get?_aliasOf (h ▸ hk), ha, hb]
    rfl

/-! ## The copies -/

/-- The elements read at the indices `1` up to the length are the elements from left to right. -/
def ReadsFromOne (s : EnhVector) : Prop :=
  s.elems = [] ∨ s.range.low = 1 ∧ (s.range.dir = .ascending ∨ s.elems.reverse = s.elems)

theorem copyBody_of_get? {s : EnhVector} {as : List EnhUlogic} (hlength : as.length = s.length)
    (h : ∀ k < s.length, s.get? (1 + k) = as[k]?) : Returns (copyBody s) as := by
  apply Vhdl.Array.assign_eq
  · rw [hlength]
    exact (Range.length_oneTo _).symm
  · intro k a ha
    exact (h k (hlength ▸ (List.getElem?_eq_some_iff.mp ha).1)).trans ha

theorem copyBody_eq_none {s : EnhVector} {k : Nat} (hk : k < s.length) (h : s.get? (1 + k) = none) :
    copyBody s = none :=
  Vhdl.Array.assign_eq_none _ ((Range.length_oneTo _).symm ▸ hk) h

/-- From the index `1` the elements are read from the end that the range has it at. -/
theorem get?_of_low {s : EnhVector} (hlow : s.range.low = 1) {k : Nat} (hk : k < s.length) :
    s.get? (1 + k) = if s.range.dir = .ascending then s.elems[k]? else s.elems.reverse[k]? := by
  have hlength := s.length_eq
  have hn : s.length = s.range.length := hlength
  obtain ⟨⟨left, dir, right⟩, elems, helems⟩ := s
  cases dir with
  | ascending =>
    obtain rfl : left = 1 := hlow
    rw [if_pos rfl, ← Vhdl.Array.get?_index _ hk]
    rfl
  | descending =>
    obtain rfl : right = 1 := hlow
    simp only [Range.length] at hn
    rw [if_neg (by simp), List.getElem?_reverse hk]
    have hk' : elems.length - 1 - k < elems.length := by
      have : k < elems.length := hk
      omega
    have hindex := Vhdl.Array.get?_index ⟨⟨left, .descending, 1⟩, elems, helems⟩ hk'
    have hplace : (⟨left, .descending, 1⟩ : Range).index (elems.length - 1 - k) = 1 + k := by
      have hlt : k < elems.length := hk
      have hn' : elems.length = (left - 1 + 1).toNat := hn
      simp only [Range.index]
      omega
    rw [hplace] at hindex
    exact hindex

/-- Where the least index is another one, an index from `1` up to the length is outside the range. -/
theorem get?_eq_none_of_low {s : EnhVector} (hne : s.elems ≠ []) (hlow : s.range.low ≠ 1) :
    ∃ k < s.length, s.get? (1 + k) = none := by
  have hn : s.length = s.range.length := s.length_eq
  have hpos : 0 < s.length := List.length_pos_iff.mpr hne
  obtain ⟨⟨left, dir, right⟩, elems, helems⟩ := s
  rcases lt_or_gt_of_ne hlow with hlt | hgt
  · -- the last one is too large
    refine ⟨elems.length - 1, Nat.sub_lt hpos one_pos, ?_⟩
    have hpos' : 0 < elems.length := hpos
    have hn' : elems.length = Range.length ⟨left, dir, right⟩ := hn
    rw [Vhdl.Array.get?, Range.position, if_neg]
    · rfl
    · cases dir with
      | ascending =>
        simp only [Range.low, Range.length] at hlt hn' ⊢
        omega
      | descending =>
        simp only [Range.low, Range.length] at hlt hn' ⊢
        omega
  · refine ⟨0, hpos, ?_⟩
    have hn' : elems.length = Range.length ⟨left, dir, right⟩ := hn
    rw [Vhdl.Array.get?, Range.position, if_neg]
    · rfl
    · cases dir with
      | ascending =>
        simp only [Range.low, Range.length] at hgt hn' ⊢
        omega
      | descending =>
        simp only [Range.low, Range.length] at hgt hn' ⊢
        omega

theorem copyBody_iff (s : EnhVector) : Returns (copyBody s) s.elems ↔ ReadsFromOne s := by
  by_cases hnil : s.elems = []
  · refine iff_of_true (copyBody_of_get? rfl ?_) (.inl hnil)
    intro k hk
    rw [Vhdl.Array.length, hnil] at hk
    cases hk
  by_cases hlow : s.range.low = 1
  · -- every index is in the range
    have hread : Returns (copyBody s) (if s.range.dir = .ascending then s.elems else s.elems.reverse) := by
      apply copyBody_of_get?
      · split_ifs
        · rfl
        · exact List.length_reverse
      · intro k hk
        rw [get?_of_low hlow hk]
        split_ifs <;> rfl
    rw [Returns] at hread ⊢
    rw [hread, Option.some.injEq]
    by_cases hdir : s.range.dir = .ascending
    · simp [ReadsFromOne, hlow, hdir]
    · simp [ReadsFromOne, hnil, hlow, hdir]
  · obtain ⟨k, hk, hget⟩ := get?_eq_none_of_low hnil hlow
    rw [Returns, copyBody_eq_none hk hget]
    simp [ReadsFromOne, hnil, hlow]

/-! ## The package -/

def operators : List Operator := [andOp, nandOp, orOp, norOp, xorOp, xnorOp]

def strippers : List Stripper := [toX01, toX01Z, toUX01]

theorem operator_returns (op : EnhUlogic → EnhUlogic → EnhUlogic) (s t : EnhVector) (x : EnhUlogic) :
    (s.length = t.length →
      Returns ((operator op).vector s t) (List.zipWith (operator op).scalar s.elems t.elems)) ∧
    Returns ((operator op).vectorScalar s x) (s.elems.map ((operator op).scalar · x)) ∧
    Returns ((operator op).scalarVector x s) (s.elems.map ((operator op).scalar x)) :=
  ⟨fun h => vectorBody_returns op h, mapBody_returns U _ s, mapBody_returns U _ s⟩

theorem stripper_returns (f : EnhUlogic → EnhUlogic) (s : EnhVector) (b : Vhdl.Array Bit) :
    Returns ((stripper f).vector s) (s.elems.map (stripper f).scalar) ∧
    Returns ((stripper f).bits b) (b.elems.map (stripper f).bit) := by
  refine ⟨mapBody_returns U f s, ?_⟩
  obtain ⟨v, hv, helems⟩ := Option.map_eq_some_iff.mp (mapBody_returns U toEnhULogic b)
  have hbits : (stripper f).bits b = mapBody U f v := by
    show (mapBody U toEnhULogic b).bind _ = _
    rw [hv]
    rfl
  rw [hbits]
  have hreturns := mapBody_returns U f v
  rw [helems, List.map_map] at hreturns
  exact hreturns

/-- The package is the standard one but for a single don't care as the only driver, and for the copies of vectors that
do not start at the index `1`. -/
theorem enh_logic_1164_iff (s t : EnhVector) (b : Vhdl.Array Bit) (x : EnhUlogic) (xmap : Bit) :
    (resolvedEnh s = some (stdResolved s.elems) ↔ s.elems ≠ [dc]) ∧
    (s.elems.Perm t.elems → resolvedEnh s = resolvedEnh t) ∧
    (∀ o ∈ operators,
      (s.length = t.length → Returns (o.vector s t) (List.zipWith o.scalar s.elems t.elems)) ∧
      Returns (o.vectorScalar s x) (s.elems.map (o.scalar · x)) ∧
      Returns (o.scalarVector x s) (s.elems.map (o.scalar x))) ∧
    Returns (notVector s) (s.elems.map notTable) ∧
    Returns (toBitvector s xmap) (s.elems.map (toBit · xmap)) ∧
    Returns (toEnhLogicVectorOfBits b) (b.elems.map toEnhULogic) ∧
    (Returns (toEnhLogicVector s) s.elems ↔ ReadsFromOne s) ∧
    (Returns (toEnhULogicVector s) s.elems ↔ ReadsFromOne s) ∧
    (∀ o ∈ strippers, Returns (o.vector s) (s.elems.map o.scalar) ∧ Returns (o.bits b) (b.elems.map o.bit)) ∧
    Returns (toStringEnh s) (s.elems.map enhToChar) := by
  refine ⟨resolvedEnh_iff s, resolvedEnh_perm, ?_, mapBody_returns U notTable s,
    mapBody_returns Bit.b0 (toBit · xmap) s, mapBody_returns U toEnhULogic b, copyBody_iff s, copyBody_iff s, ?_,
    mapBody_returns _ enhToChar s⟩
  · intro o ho
    simp only [operators, List.mem_cons, List.not_mem_nil, or_false] at ho
    rcases ho with rfl | rfl | rfl | rfl | rfl | rfl <;> exact operator_returns _ s t x
  · intro o ho
    simp only [strippers, List.mem_cons, List.not_mem_nil, or_false] at ho
    rcases ho with rfl | rfl | rfl <;> exact stripper_returns _ s b

/-- A single don't care resolves to an unknown, `(7 downto 0)` is read outside its range and `(2 downto 1)` is read
backwards. -/
theorem not_enh_logic_1164 :
    resolvedEnh ⟨⟨0, .ascending, 0⟩, [dc], rfl⟩ ≠ some (stdResolved [dc]) ∧
    toEnhLogicVector ⟨⟨7, .descending, 0⟩, [b1, b0, b0, b0, b0, b0, b0, b0], rfl⟩ = none ∧
    ¬ Returns (toEnhULogicVector ⟨⟨2, .descending, 1⟩, [b1, b0], rfl⟩) [b1, b0] := by
  refine ⟨by decide, ?_, ?_⟩
  · exact @copyBody_eq_none ⟨⟨7, .descending, 0⟩, [b1, b0, b0, b0, b0, b0, b0, b0], rfl⟩ 7 (by decide) (by decide)
  · show ¬ Returns (copyBody _) _
    rw [copyBody_iff ⟨⟨2, .descending, 1⟩, [b1, b0], rfl⟩]
    simp [ReadsFromOne]

end Packages
