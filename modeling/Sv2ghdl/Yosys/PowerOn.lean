import Sv2ghdl.Yosys.Clocks

/-!
# Power-on values

`sm_reset` of `yosys/gen_statemachine.cpp`.  The value of a whole-wire register is gathered in an
integer of 128 bits, that of a merged one bit by bit in its limbs: when each is the initial value of
the wire, or else that of the asynchronous reset.
-/

open Clang Yosys.WideRt

namespace Yosys.Rtlil

/-- A member of `state_t`. -/
inductive Member where
  | scalar (v : Nat)
  | limbs (xs : List Nat)
  deriving DecidableEq, Repr

def Member.bit (size : LimbSize) : Member → Nat → Bool
  | .scalar v, i => v.testBit i
  | .limbs xs, i => bitAt size.bits xs i

/-- `$adff` and `$adffe` -/
def Flop.resets (c : Flop) : Bool := c.type = .adff || c.type = .adffe

/-- `arst_val`, which is shifted together in 128 bits -/
def Flop.arstVal (c : Flop) : Nat := if c.resets then constValue c.arstValue % 2 ^ 128 else 0

namespace Reg

/-- The bit is held by a cell. -/
def holdsBit (r : Reg) (i : Nat) : Bool :=
  match r.body with
  | .whole c => i < c.Q.length
  | .merged _ slices => slices.any fun sl => sl.offset ≤ i && i < sl.offset + sl.width

/-- The value of a bit under the asynchronous reset. -/
def arstAt (r : Reg) (i : Nat) : Bool :=
  match r.body with
  | .whole c => c.resets && c.arstValue[i]? = some .s1
  | .merged _ slices => slices.any fun sl => sl.offset ≤ i && i < sl.offset + sl.width &&
      (sl.cell.resets && sl.cell.arstValue[sl.pos + (i - sl.offset)]? = some .s1)

end Reg

namespace Sequential

variable (N : Sequential) (init : Wire → List State)

/-- The bit that the attribute `init` of the net's wire defines. -/
def initBit (b : SigBit) : Option Bool :=
  match N.nets.sigmap b with
  | .wire w i =>
    match (init w)[i]? with
    | some .s0 => some false
    | some .s1 => some true
    | _ => none
  | .const _ => none

/-! ## Whole wires -/

/-- `init_val`, when any of the first 128 bits is defined -/
def initVal (c : Flop) : Option Nat :=
  let bits := (c.Q.take 128).map (N.initBit init)
  if bits.any Option.isSome then some (ofBits (bits.map (·.getD false))) else none

/-- `pov` -/
def wholePov (c : Flop) : Nat := (N.initVal init c).getD c.arstVal

def wholeMember (size : LimbSize) (c : Flop) (width : Nat) : Member :=
  let pov := N.wholePov init c
  if isWide width then
    .limbs <| (List.range (nlimbs size width)).map fun l =>
      if l < 128 / size.bits then pov >>> (size.bits * l) % 2 ^ size.bits else 0
  else .scalar (pov % 2 ^ 64)

/-! ## Slices -/

/-- A bit of a slice is 1: its own `init` bit, and else the bit of the reset value. -/
def sliceBit (sl : Slice) (i : Nat) : Bool :=
  match (sl.cell.Q[sl.pos + i]?).bind (N.initBit init) with
  | some b => b
  | none => sl.cell.resets && sl.cell.arstValue[sl.pos + i]? = some .s1

/-- `lv[p >> LS] |= UINT64_C(1) << (p & LM)` -/
def setLimb (size : LimbSize) (lv : List Nat) (p : Nat) : List Nat :=
  lv.modify (p / size.bits) (· ||| 1 <<< (p % size.bits))

def slicePov (size : LimbSize) (lv : List Nat) (sl : Slice) : List Nat :=
  (List.range sl.width).foldl
    (fun lv i => if N.sliceBit init sl i then setLimb size lv (sl.offset + i) else lv) lv

/-- `merged_pov` -/
def mergedPov (size : LimbSize) (width : Nat) (slices : List Slice) : List Nat :=
  slices.foldl (N.slicePov init size) (List.replicate (nlimbs size width) 0)

def mergedMember (size : LimbSize) (width : Nat) (slices : List Slice) : Member :=
  let lv := N.mergedPov init size width slices
  if isWide width then .limbs lv
  else
    let pv := lv.getD 0 0 ||| if size = .w32 then lv.getD 1 0 <<< 32 else 0
    .scalar (pv % 2 ^ 64)

/-! ## The state -/

def resetMember (r : Reg) : Member :=
  match r.body with
  | .whole c => N.wholeMember init N.memories.size c r.width
  | .merged _ slices => N.mergedMember init N.memories.size r.width slices

/-- `sm_reset`, for the registers: the whole state is zeroed first. -/
def smReset (regs : List Reg) : String → Member :=
  regs.foldl (fun s r => Function.update s r.name (N.resetMember init r)) fun _ => .scalar 0

/-! ## What a register powers on with -/

/-- The initial value of a bit of a register's wire. -/
def initAt (r : Reg) (i : Nat) : Option Bool :=
  match r.body with
  | .whole c => (c.Q[i]?).bind (N.initBit init)
  | .merged w _ => if i < w.width then N.initBit init (.wire w i) else none

/-- Some bit of the register has an initial value. -/
def hasInit (r : Reg) : Bool := (List.range r.width).any fun i => (N.initAt init r i).isSome

/-- The initial value of the wire, or the reset value of a register without any, or 0. -/
def powerOn (r : Reg) (i : Nat) : Bool :=
  match N.initAt init r i with
  | some b => b
  | none => !N.hasInit init r && r.arstAt i

/-- What the power-on values depend on beyond that.  A whole wire has no 1 from bit 128 on, and its
    initial values do not begin there; a bit of a slice with an initial value elsewhere in the register
    has one of its own unless its reset value is 0, and a bit that no cell holds has none that is 1. -/
def Kept (r : Reg) : Prop :=
  match r.body with
  | .whole _ =>
    (∀ i, 128 ≤ i → i < r.width → N.initAt init r i ≠ some true ∧
      (N.hasInit init r = false → r.arstAt i = false)) ∧
    (N.hasInit init r = true → (∀ i < 128, N.initAt init r i = none) → ∀ i < 128, r.arstAt i = false)
  | .merged _ _ =>
    (∀ i < r.width, r.holdsBit i = true → N.initAt init r i = none → N.hasInit init r = true →
      r.arstAt i = false) ∧
    ∀ i < r.width, r.holdsBit i = false → N.initAt init r i ≠ some true

/-! ## The bits of a whole wire -/

variable {N init}

theorem testBit_constValue (data : List State) (i : Nat) :
    (constValue data).testBit i = decide (data[i]? = some .s1) := by
  rw [constValue, testBit_ofBits, List.getD_eq_getElem?_getD, List.getElem?_map]
  cases data[i]? with
  | none => rfl
  | some s => cases s <;> rfl

theorem getD_false (b : Option Bool) : b.getD false = decide (b = some true) := by
  rcases b with _ | _ | _ <;> rfl

/-- Any of the first 128 bits has an initial value. -/
def lowInit (N : Sequential) (init : Wire → List State) (c : Flop) : Bool :=
  (c.Q.take 128).any fun b => (N.initBit init b).isSome

theorem testBit_wholePov (c : Flop) (i : Nat) : (N.wholePov init c).testBit i =
    (decide (i < 128) && if lowInit N init c then (c.Q[i]?).bind (N.initBit init) = some true
      else c.resets && c.arstValue[i]? = some .s1) := by
  have hany : ((c.Q.take 128).map (N.initBit init)).any Option.isSome = lowInit N init c := List.any_map
  unfold wholePov initVal
  dsimp only
  rw [hany]
  cases lowInit N init c with
  | true =>
    rw [if_pos rfl, if_pos rfl, Option.getD_some, testBit_ofBits, List.getD_eq_getElem?_getD,
      List.getElem?_map, List.getElem?_map, List.getElem?_take]
    by_cases hi : i < 128
    · rw [if_pos hi, decide_eq_true hi, Bool.true_and]
      cases c.Q[i]? with
      | none => rfl
      | some b => exact getD_false (N.initBit init b)
    · rw [if_neg hi, decide_eq_false hi, Bool.false_and]
      rfl
  | false =>
    rw [if_neg Bool.false_ne_true, if_neg Bool.false_ne_true, Option.getD_none, Flop.arstVal]
    cases c.resets with
    | true => rw [if_pos rfl, Nat.testBit_mod_two_pow, testBit_constValue, Bool.true_and]
    | false => rw [if_neg Bool.false_ne_true, Nat.zero_testBit, Bool.false_and, Bool.and_false]

/-- The parts of the 128 bits in the limbs are those of the number. -/
theorem wholeMember_bit (size : LimbSize) {c : Flop} (hlen : c.arstValue.length ≤ c.Q.length) (i : Nat) :
    (N.wholeMember init size c c.Q.length).bit size i = (N.wholePov init c).testBit i := by
  have hhigh : ∀ j, 128 ≤ j ∨ c.Q.length ≤ j → (N.wholePov init c).testBit j = false := by
    intro j hj
    rw [testBit_wholePov]
    rcases hj with hj | hj
    · rw [decide_eq_false (by omega), Bool.false_and]
    · rw [List.getElem?_eq_none hj, List.getElem?_eq_none (hlen.trans hj)]
      simp
  unfold wholeMember
  dsimp only
  split_ifs with hwide
  · rw [Member.bit, bitAt, List.getD_eq_getElem?_getD, List.getElem?_map]
    have hpos := size_pos size
    have hdiv := Nat.div_add_mod i size.bits
    by_cases hl : i / size.bits < nlimbs size c.Q.length
    · rw [List.getElem?_range hl, Option.map_some, Option.getD_some]
      split_ifs with hlow
      · rw [Nat.testBit_mod_two_pow, decide_eq_true (Nat.mod_lt i hpos), Bool.true_and,
          Nat.testBit_shiftRight, hdiv]
      · rw [Nat.zero_testBit]
        symm
        apply hhigh
        left
        cases size <;> simp only [LimbSize.bits] at hlow <;> omega
    · rw [List.getElem?_eq_none (by rw [List.length_range]; omega)]
      have hle := le_nlimbs size c.Q.length
      have hmul : size.bits * nlimbs size c.Q.length ≤ size.bits * (i / size.bits) :=
        Nat.mul_le_mul_left _ (by omega)
      symm
      exact (hhigh i (.inr (by omega))).trans (Nat.zero_testBit _).symm
  · rw [Member.bit, Nat.testBit_mod_two_pow]
    have hnarrow : c.Q.length ≤ 64 := by
      simpa [isWide] using hwide
    by_cases hi : i < 64
    · rw [decide_eq_true hi, Bool.true_and]
    · rw [decide_eq_false hi, Bool.false_and, hhigh i (.inr (by omega))]

/-! ## The bits of slices -/

section Limbs

variable {size : LimbSize} {lv : List Nat} {p : Nat}

theorem length_setLimb (size : LimbSize) (lv : List Nat) (p : Nat) :
    (setLimb size lv p).length = lv.length := List.length_modify _ _ _

theorem getD_setLimb (hp : p / size.bits < lv.length) (l : Nat) : (setLimb size lv p).getD l 0 =
    if p / size.bits = l then lv.getD l 0 ||| 1 <<< (p % size.bits) else lv.getD l 0 := by
  unfold setLimb
  rw [List.getD_eq_getElem?_getD, List.getD_eq_getElem?_getD, List.getElem?_modify]
  split_ifs with h
  · rw [← h, List.getElem?_eq_getElem hp]
    rfl
  · cases lv[l]? <;> rfl

theorem testBit_one_shiftLeft (n k : Nat) : (1 <<< n).testBit k = decide (k = n) := by
  rw [Nat.one_shiftLeft, Nat.testBit_two_pow]
  exact decide_eq_decide.mpr eq_comm

theorem bitAt_setLimb (hp : p / size.bits < lv.length) (k : Nat) :
    bitAt size.bits (setLimb size lv p) k = (bitAt size.bits lv k || decide (k = p)) := by
  have hk := Nat.div_add_mod k size.bits
  have hdiv := Nat.div_add_mod p size.bits
  rw [bitAt, bitAt, getD_setLimb hp]
  split_ifs with h
  · rw [Nat.testBit_or, testBit_one_shiftLeft]
    congr 1
    apply decide_eq_decide.mpr
    constructor
    · intro hmod
      rw [← hk, ← h, hmod, hdiv]
    · rintro rfl
      rfl
  · rw [decide_eq_false, Bool.or_false]
    rintro rfl
    exact h rfl

/-- No limb has a bit above its size. -/
def Small (size : LimbSize) (lv : List Nat) : Prop :=
  ∀ l j, size.bits ≤ j → (lv.getD l 0).testBit j = false

theorem Small.setLimb (h : Small size lv) (hp : p / size.bits < lv.length) :
    Small size (setLimb size lv p) := by
  intro l j hj
  have hmod := Nat.mod_lt p (size_pos size)
  rw [getD_setLimb hp]
  split_ifs
  · rw [Nat.testBit_or, h l j hj, testBit_one_shiftLeft, decide_eq_false (by omega)]
    rfl
  · exact h l j hj

end Limbs

/-- The limbs hold the bits, and nothing else. -/
structure Holds (size : LimbSize) (n : Nat) (bits : Nat → Bool) (lv : List Nat) : Prop where
  length : lv.length = n
  small : Small size lv
  bit : ∀ k, bitAt size.bits lv k = bits k

theorem Holds.setLimb {size : LimbSize} {n p : Nat} {bits bits' : Nat → Bool} {lv : List Nat}
    (h : Holds size n bits lv) (hp : p / size.bits < n)
    (hbits : ∀ k, bits' k = (bits k || decide (k = p))) : Holds size n bits' (setLimb size lv p) where
  length := (length_setLimb size lv p).trans h.length
  small := h.small.setLimb (by rwa [h.length])
  bit k := by rw [bitAt_setLimb (by rwa [h.length]), h.bit, hbits]

/-- The bits that a slice sets. -/
def sliceSets (N : Sequential) (init : Wire → List State) (sl : Slice) (k : Nat) : Bool :=
  sl.offset ≤ k && k < sl.offset + sl.width && N.sliceBit init sl (k - sl.offset)

theorem slicePov_holds {size : LimbSize} {n : Nat} {sl : Slice} {bits : Nat → Bool} {lv : List Nat}
    (hfits : sl.offset + sl.width ≤ size.bits * n) (h : Holds size n bits lv) :
    Holds size n (fun k => bits k || N.sliceSets init sl k) (N.slicePov init size lv sl) := by
  -- the bits of the first `m` places
  suffices hpre : ∀ m ≤ sl.width, Holds size n
      (fun k => bits k || (decide (k < sl.offset + m) && N.sliceSets init sl k))
      ((List.range m).foldl (fun lv i =>
        if N.sliceBit init sl i then Sequential.setLimb size lv (sl.offset + i) else lv) lv) by
    refine ⟨(hpre _ le_rfl).length, (hpre _ le_rfl).small, fun k => ?_⟩
    refine ((hpre _ le_rfl).bit k).trans ?_
    unfold sliceSets
    by_cases hk : k < sl.offset + sl.width <;> simp [hk]
  intro m hm
  induction m with
  | zero =>
    refine ⟨h.length, h.small, fun k => (h.bit k).trans ?_⟩
    unfold sliceSets
    by_cases hk : k < sl.offset
    · simp [hk, Nat.not_le.mpr hk]
    · simp [hk]
  | succ m ih =>
    have hprev := ih (by omega)
    rw [List.range_succ, List.foldl_append, List.foldl_cons, List.foldl_nil]
    have hindex : (sl.offset + m) / size.bits < n := Nat.div_lt_of_lt_mul (by omega)
    have hstep : ∀ k, (decide (k < sl.offset + (m + 1)) && N.sliceSets init sl k) =
        (decide (k < sl.offset + m) && N.sliceSets init sl k ||
          decide (k = sl.offset + m) && N.sliceBit init sl m) := by
      intro k
      by_cases hk : k = sl.offset + m
      · subst hk
        have hin : sl.offset + m < sl.offset + sl.width := by omega
        simp [sliceSets, hin]
      · have hlt : k < sl.offset + (m + 1) ↔ k < sl.offset + m := by omega
        simp [hk, hlt]
    cases hbit : N.sliceBit init sl m with
    | true =>
      rw [if_pos rfl]
      refine hprev.setLimb hindex fun k => ?_
      rw [hstep, hbit, Bool.and_true, Bool.or_assoc]
    | false =>
      rw [if_neg Bool.false_ne_true]
      refine ⟨hprev.length, hprev.small, fun k => (hprev.bit k).trans ?_⟩
      rw [hstep, hbit, Bool.and_false, Bool.or_false]

theorem mergedPov_holds (size : LimbSize) {width : Nat} {slices : List Slice}
    (hfits : ∀ sl ∈ slices, sl.offset + sl.width ≤ width) :
    Holds size (nlimbs size width) (fun k => slices.any fun sl => N.sliceSets init sl k)
      (N.mergedPov init size width slices) := by
  suffices hfold : ∀ (done rest : List Slice) (lv : List Nat), (∀ sl ∈ rest, sl ∈ slices) →
      Holds size (nlimbs size width) (fun k => done.any fun sl => N.sliceSets init sl k) lv →
      Holds size (nlimbs size width) (fun k => (done ++ rest).any fun sl => N.sliceSets init sl k)
        (rest.foldl (N.slicePov init size) lv) by
    apply hfold [] slices _ fun _ h => h
    refine ⟨List.length_replicate, ?_, ?_⟩
    · intro l j _
      rw [List.getD_eq_getElem?_getD, List.getElem?_replicate]
      split_ifs <;> exact Nat.zero_testBit j
    · intro k
      rw [bitAt, List.getD_eq_getElem?_getD, List.getElem?_replicate]
      split_ifs <;> exact Nat.zero_testBit _
  intro done rest
  induction rest generalizing done with
  | nil =>
    intro lv _ h
    rwa [List.append_nil]
  | cons sl rest ih =>
    intro lv hsub h
    have hmem := hsub sl List.mem_cons_self
    have hle := hfits sl hmem
    have hcover := le_nlimbs size width
    have hnext := @slicePov_holds N init _ _ _ _ _ (show sl.offset + sl.width ≤ _ by omega) h
    have hrest := ih (done ++ [sl]) (N.slicePov init size lv sl)
      (fun sl' h' => hsub sl' (List.mem_cons_of_mem sl h'))
      ⟨hnext.length, hnext.small, fun k => (hnext.bit k).trans (by simp)⟩
    rw [List.append_assoc, List.singleton_append] at hrest
    exact hrest

theorem mergedMember_bit (size : LimbSize) {width : Nat} {slices : List Slice}
    (hfits : ∀ sl ∈ slices, sl.offset + sl.width ≤ width) (k : Nat) :
    (N.mergedMember init size width slices).bit size k =
      slices.any fun sl => N.sliceSets init sl k := by
  have hholds := @mergedPov_holds N init size _ _ hfits
  have hbit := hholds.bit k
  unfold mergedMember
  dsimp only
  split_ifs with hwide hsize
  · exact hbit
  all_goals
    have hnarrow : width ≤ 64 := by simpa [isWide] using hwide
    rw [← hbit, Member.bit, Nat.testBit_mod_two_pow, Nat.testBit_or]
    by_cases hk : k < 64
    swap
    · -- no slice reaches beyond the wire
      have hnone : (slices.any fun sl => N.sliceSets init sl k) = false := by
        apply List.any_eq_false.mpr
        intro sl hsl
        have hle := hfits sl hsl
        unfold sliceSets
        rw [decide_eq_false (show ¬ k < sl.offset + sl.width by omega), Bool.and_false, Bool.false_and]
        exact Bool.false_ne_true
      rw [hbit, hnone, decide_eq_false hk, Bool.false_and]
    rw [decide_eq_true hk, Bool.true_and, bitAt]
  · subst hsize
    rw [Nat.testBit_shiftLeft]
    by_cases hlow : k < 32
    · rw [decide_eq_false (by omega), Bool.false_and, Bool.or_false]
      simp only [LimbSize.bits, Nat.div_eq_of_lt hlow, Nat.mod_eq_of_lt hlow]
    · have hdiv : k / 32 = 1 := by omega
      have hmod : k % 32 = k - 32 := by omega
      have hsmall := hholds.small 0 k (by simp only [LimbSize.bits]; omega)
      rw [hsmall, decide_eq_true (by omega), Bool.true_and, Bool.false_or]
      simp only [LimbSize.bits, hdiv, hmod]
  · have hsize64 : size = .w64 := by
      cases size with
      | w32 => exact absurd rfl hsize
      | w64 => rfl
    subst hsize64
    simp only [LimbSize.bits, Nat.div_eq_of_lt hk, Nat.mod_eq_of_lt hk, Nat.zero_testBit, Bool.or_false]

/-! ## The registers that the pass makes -/

/-- What the library lets a register cell have. -/
def WellTyped (N : Sequential) : Prop :=
  ∀ c ∈ N.flops, c.arstValue.length ≤ c.Q.length ∧ ∀ b ∈ c.Q, b.Valid

/-- A register spans its wire, and each slice lies where its bits are. -/
def Layout (N : Sequential) (r : Reg) : Prop :=
  match r.body with
  | .whole c => c ∈ N.flops ∧ r.width = c.Q.length
  | .merged w slices => r.width = w.width ∧ ∀ sl ∈ slices, sl.offset + sl.width ≤ w.width ∧
      ∀ k < sl.width, sl.cell.Q[sl.pos + k]? = some (.wire w (sl.offset + k))

theorem layout_addChunk {c : Flop} {regs regs' : List Reg} {done rest : List Chunk} {pos' : Nat}
    {chunk : Chunk} (hchunks : chunks c.Q = done ++ chunk :: rest) (hvalid : chunk.Valid)
    (h : ∀ r ∈ regs, Layout N r)
    (hrun : N.addChunk c (regs, (done.flatMap Chunk.bits).length) chunk = some (regs', pos')) :
    (∀ r ∈ regs', Layout N r) ∧ pos' = ((done ++ [chunk]).flatMap Chunk.bits).length := by
  cases chunk with
  | const data => cases hrun
  | wire w offset width =>
    have hpos : ((done ++ [Chunk.wire w offset width]).flatMap Chunk.bits).length =
        (done.flatMap Chunk.bits).length + width := by
      rw [List.flatMap_append, List.length_append, List.flatMap_singleton, length_bits]
      rfl
    have hslice : offset + width ≤ w.width ∧ ∀ k < width,
        c.Q[(done.flatMap Chunk.bits).length + k]? = some (.wire w (offset + k)) := by
      refine ⟨hvalid.le.2, fun k hk => ?_⟩
      have hQ := bits_chunks c.Q
      rw [hchunks, List.flatMap_append, List.flatMap_cons] at hQ
      rw [← hQ, List.getElem?_append_right (Nat.le_add_right _ _), Nat.add_sub_cancel_left,
        List.getElem?_append_left (by rw [length_bits]; exact hk), Chunk.bits, List.getElem?_map,
        List.getElem?_range' hk]
      simp
    rw [hpos]
    simp only [addChunk] at hrun
    cases hfind : regs.findIdx? (·.merges w) with
    | none =>
      rw [hfind] at hrun
      simp only at hrun
      split_ifs at hrun
      cases hrun
      refine ⟨fun r hr => ?_, rfl⟩
      rcases List.mem_append.mp hr with hr | hr
      · exact h r hr
      · obtain rfl := List.mem_singleton.mp hr
        refine ⟨rfl, fun sl hsl => ?_⟩
        obtain rfl := List.mem_singleton.mp hsl
        exact hslice
    | some ri =>
      rw [hfind] at hrun
      simp only [Option.bind_eq_bind, Option.bind_eq_some_iff] at hrun
      obtain ⟨mreg, hmreg, hrun⟩ := hrun
      split_ifs at hrun
      cases hrun
      obtain ⟨hlt, rfl⟩ := List.getElem?_eq_some_iff.mp hmreg
      have hmerges := (List.findIdx?_eq_some_iff_getElem.mp hfind).2.1
      refine ⟨fun r hr => ?_, rfl⟩
      rcases List.mem_or_eq_of_mem_set hr with hr | rfl
      · exact h r hr
      · have hold := h _ (List.getElem_mem hlt)
        generalize regs[ri] = mreg at hmerges hold
        obtain ⟨name, width', clkName, body⟩ := mreg
        cases body with
        | whole c' => cases hmerges
        | merged v slices =>
          obtain rfl : v = w := of_decide_eq_true hmerges
          refine ⟨hold.1, fun sl hsl => ?_⟩
          rcases List.mem_append.mp hsl with hsl | hsl
          · exact hold.2 sl hsl
          · obtain rfl := List.mem_singleton.mp hsl
            exact hslice

theorem layout_addChunks {c : Flop} (hvalid : ∀ b ∈ c.Q, b.Valid) {done rest : List Chunk}
    (hchunks : chunks c.Q = done ++ rest) {regs regs' : List Reg} {pos' : Nat}
    (h : ∀ r ∈ regs, Layout N r)
    (hrun : rest.foldlM (N.addChunk c) (regs, (done.flatMap Chunk.bits).length) = some (regs', pos')) :
    ∀ r ∈ regs', Layout N r := by
  induction rest generalizing done regs with
  | nil =>
    cases hrun
    exact h
  | cons chunk rest ih =>
    rw [List.foldlM_cons, Option.bind_eq_bind, Option.bind_eq_some_iff] at hrun
    obtain ⟨⟨regs₁, pos₁⟩, hstep, hrun⟩ := hrun
    have hmem : chunk ∈ chunks c.Q := by
      rw [hchunks]
      exact List.mem_append_right _ List.mem_cons_self
    obtain ⟨h₁, rfl⟩ := layout_addChunk hchunks (chunks_valid hvalid chunk hmem) h hstep
    exact ih (by rw [hchunks, List.append_assoc, List.singleton_append]) h₁ hrun

theorem layout_registers (hN : WellTyped N) {regs : List Reg} (hrun : N.registers = some regs) :
    ∀ r ∈ regs, Layout N r := by
  refine foldlM_rule (fun _ regs => ∀ r ∈ regs, Layout N r) (fun r hr => absurd hr List.not_mem_nil)
    ?_ hrun
  intro done c regs regs' hc h hstep
  unfold addFlop at hstep
  split at hstep
  · cases hstep
    intro r hr
    rcases List.mem_append.mp hr with hr | hr
    · exact h r hr
    · obtain rfl := List.mem_singleton.mp hr
      exact ⟨hc, rfl⟩
  · rw [Option.map_eq_some_iff] at hstep
    obtain ⟨⟨regs₁, pos⟩, hchunks, rfl⟩ := hstep
    exact @layout_addChunks _ c (hN c hc).2 [] _ rfl _ _ _ h hchunks

/-! ## What the registers power on with -/

theorem smReset_eq {regs : List Reg} (hnodup : (regs.map Reg.name).Nodup) {r : Reg} (hr : r ∈ regs) :
    N.smReset init regs r.name = N.resetMember init r := by
  unfold smReset
  generalize (fun _ => Member.scalar 0 : String → Member) = s
  induction regs generalizing s with
  | nil => exact absurd hr List.not_mem_nil
  | cons r' regs ih =>
    rw [List.map_cons, List.nodup_cons] at hnodup
    rw [List.foldl_cons]
    by_cases hrest : r ∈ regs
    · exact ih hnodup.2 hrest _
    · obtain rfl := (List.mem_cons.mp hr).resolve_right hrest
      -- no other register has the name
      have hframe : ∀ (rest : List Reg) (s : String → Member), (∀ r' ∈ rest, r'.name ≠ r.name) →
          rest.foldl (fun s r => Function.update s r.name (N.resetMember init r)) s r.name =
            s r.name := by
        intro rest
        induction rest with
        | nil => exact fun _ _ => rfl
        | cons r' rest ih =>
          intro s hne
          rw [List.foldl_cons, ih _ fun r'' h => hne r'' (List.mem_cons_of_mem r' h)]
          exact Function.update_of_ne (hne r' List.mem_cons_self).symm _ _
      rw [hframe regs _ fun r' h heq => hnodup.1 (heq ▸ List.mem_map_of_mem h)]
      exact Function.update_self _ _ _

theorem hasInit_iff {r : Reg} :
    N.hasInit init r = true ↔ ∃ i < r.width, (N.initAt init r i).isSome = true := by
  unfold hasInit
  rw [List.any_eq_true]
  exact exists_congr fun i => and_congr_left fun _ => List.mem_range

/-- The bits of a whole wire are those of its power-on value when nothing is lost beyond bit 128. -/
theorem whole_kept {r : Reg} {c : Flop} (hbody : r.body = .whole c) (hwidth : r.width = c.Q.length)
    (hlen : c.arstValue.length ≤ c.Q.length) (size : LimbSize) :
    (∀ i, (N.wholeMember init size c r.width).bit size i =
      (decide (i < r.width) && N.powerOn init r i)) ↔ N.Kept init r := by
  have hinit : ∀ i, (c.Q[i]?).bind (N.initBit init) = N.initAt init r i := by
    intro i
    unfold initAt
    rw [hbody]
  have harst : ∀ i, (c.resets && c.arstValue[i]? = some .s1) = r.arstAt i := by
    intro i
    unfold Reg.arstAt
    rw [hbody]
  have hbit : ∀ i, (N.wholeMember init size c r.width).bit size i = (decide (i < 128) &&
      if lowInit N init c then decide (N.initAt init r i = some true) else r.arstAt i) := by
    intro i
    rw [hwidth, wholeMember_bit size hlen, testBit_wholePov, harst]
    simp only [hinit]
  have hout : ∀ i, r.width ≤ i → N.initAt init r i = none ∧ r.arstAt i = false := by
    intro i hi
    rw [← hinit, ← harst, List.getElem?_eq_none (by omega), List.getElem?_eq_none (by omega)]
    exact ⟨rfl, by simp⟩
  have hlow : lowInit N init c = true ↔ ∃ i < 128, (N.initAt init r i).isSome = true := by
    unfold lowInit
    rw [List.any_eq_true]
    constructor
    · rintro ⟨b, hb, hsome⟩
      obtain ⟨i, hi⟩ := List.mem_iff_getElem?.mp hb
      rw [List.getElem?_take] at hi
      split_ifs at hi with hlt
      exact ⟨i, hlt, by rw [← hinit, hi]; exact hsome⟩
    · rintro ⟨i, hlt, hsome⟩
      rw [← hinit] at hsome
      cases hb : c.Q[i]? with
      | none =>
        rw [hb] at hsome
        cases hsome
      | some b =>
        rw [hb] at hsome
        refine ⟨b, List.mem_iff_getElem?.mpr ⟨i, ?_⟩, hsome⟩
        rw [List.getElem?_take, if_pos hlt, hb]
  unfold Kept
  rw [hbody]
  constructor
  · intro h
    constructor
    · intro i hi hiw
      have hval := h i
      rw [hbit, decide_eq_false (by omega), Bool.false_and, decide_eq_true hiw, Bool.true_and] at hval
      constructor
      · intro htrue
        rw [powerOn, htrue] at hval
        cases hval
      · intro hnone
        have hundef : N.initAt init r i = none := by
          by_contra hne
          have hsome := hasInit_iff.mpr ⟨i, hiw, Option.isSome_iff_ne_none.mpr hne⟩
          rw [hnone] at hsome
          cases hsome
        rw [powerOn, hundef, hnone] at hval
        exact hval.symm
    · intro hsome hundef i hi
      have hval := h i
      have hnolow : lowInit N init c = false := by
        apply Bool.eq_false_of_not_eq_true
        intro hl
        obtain ⟨j, hj, hdef⟩ := hlow.mp hl
        rw [hundef j hj] at hdef
        cases hdef
      rw [hbit, hnolow, if_neg Bool.false_ne_true, decide_eq_true hi, Bool.true_and, powerOn,
        hundef i hi, hsome] at hval
      rw [hval]
      exact Bool.and_false _
  · rintro ⟨hhigh, hbelow⟩ i
    rw [hbit]
    by_cases hiw : i < r.width
    · rw [decide_eq_true hiw, Bool.true_and]
      by_cases hi : i < 128
      · rw [decide_eq_true hi, Bool.true_and]
        cases hl : lowInit N init c with
        | true =>
          -- an undefined bit of a register with initial values is 0
          obtain ⟨j, hj, hdef⟩ := hlow.mp hl
          have hjw : j < r.width := by
            by_contra hge
            rw [(hout j (by omega)).1] at hdef
            cases hdef
          rw [if_pos rfl, powerOn, hasInit_iff.mpr ⟨j, hjw, hdef⟩]
          rcases N.initAt init r i with _ | _ | _ <;> rfl
        | false =>
          have hundef : ∀ j < 128, N.initAt init r j = none := by
            intro j hj
            by_contra hne
            have hsome := hlow.mpr ⟨j, hj, Option.isSome_iff_ne_none.mpr hne⟩
            rw [hl] at hsome
            cases hsome
          rw [if_neg Bool.false_ne_true, powerOn, hundef i hi]
          cases hh : N.hasInit init r with
          | true => exact (hbelow hh hundef i hi).trans rfl
          | false => rfl
      · rw [decide_eq_false hi, Bool.false_and]
        obtain ⟨hne, harst0⟩ := hhigh i (by omega) hiw
        unfold powerOn
        cases hdef : N.initAt init r i with
        | none =>
          cases hh : N.hasInit init r with
          | true => rfl
          | false => exact (harst0 hh).symm
        | some b =>
          cases b with
          | true => exact absurd hdef hne
          | false => rfl
    · obtain ⟨hundef, harst0⟩ := hout i (by omega)
      simp [hundef, harst0, hiw]

theorem sliceSets_eq {w : Wire} {sl : Slice} (hbits : ∀ k < sl.width,
    sl.cell.Q[sl.pos + k]? = some (.wire w (sl.offset + k))) (i : Nat) : N.sliceSets init sl i =
      (sl.offset ≤ i && i < sl.offset + sl.width &&
        match N.initBit init (.wire w i) with
        | some b => b
        | none => sl.cell.resets && sl.cell.arstValue[sl.pos + (i - sl.offset)]? = some .s1) := by
  unfold sliceSets
  by_cases hin : sl.offset ≤ i ∧ i < sl.offset + sl.width
  · have hk := hbits (i - sl.offset) (by omega)
    rw [show sl.offset + (i - sl.offset) = i by omega] at hk
    rw [sliceBit, hk, Option.bind_some]
  · by_cases hle : sl.offset ≤ i
    · simp [show ¬ i < sl.offset + sl.width by omega]
    · simp [hle]

/-- The bits of a merged register are those of its power-on value when each bit with an initial value
    elsewhere in the register is told by its own. -/
theorem merged_kept {r : Reg} {w : Wire} {slices : List Slice} (hbody : r.body = .merged w slices)
    (hlay : Layout N r) (size : LimbSize) :
    (∀ i, (N.mergedMember init size r.width slices).bit size i =
      (decide (i < r.width) && N.powerOn init r i)) ↔ N.Kept init r := by
  rw [Layout, hbody] at hlay
  obtain ⟨hwidth, hslices⟩ := hlay
  have hholds : ∀ i, r.holdsBit i = slices.any fun sl => sl.offset ≤ i && i < sl.offset + sl.width := by
    intro i
    rw [Reg.holdsBit, hbody]
  have harst : ∀ i, r.arstAt i = slices.any fun sl => sl.offset ≤ i && i < sl.offset + sl.width &&
      (sl.cell.resets && sl.cell.arstValue[sl.pos + (i - sl.offset)]? = some .s1) := by
    intro i
    rw [Reg.arstAt, hbody]
  have hheld : ∀ i, r.holdsBit i = true → i < r.width := by
    intro i hi
    rw [hholds, List.any_eq_true] at hi
    obtain ⟨sl, hsl, hin⟩ := hi
    have hle := (hslices sl hsl).1
    simp only [Bool.and_eq_true, decide_eq_true_eq] at hin
    omega
  have hreset : ∀ i, r.arstAt i = true → r.holdsBit i = true := by
    intro i hi
    rw [harst, List.any_eq_true] at hi
    obtain ⟨sl, hsl, hin⟩ := hi
    rw [hholds, List.any_eq_true]
    exact ⟨sl, hsl, (Bool.and_eq_true_iff.mp hin).1⟩
  have hinit : ∀ i < r.width, N.initAt init r i = N.initBit init (.wire w i) := by
    intro i hi
    rw [initAt, hbody]
    exact if_pos (by omega)
  have hbit : ∀ i < r.width, (N.mergedMember init size r.width slices).bit size i =
      match N.initAt init r i with
      | some b => r.holdsBit i && b
      | none => r.arstAt i := by
    intro i hi
    rw [mergedMember_bit size (fun sl hsl => by have := (hslices sl hsl).1; omega), hinit i hi]
    have hsets : (slices.any fun sl => N.sliceSets init sl i) = slices.any fun sl =>
        (sl.offset ≤ i && i < sl.offset + sl.width &&
          match N.initBit init (.wire w i) with
          | some b => b
          | none => sl.cell.resets && sl.cell.arstValue[sl.pos + (i - sl.offset)]? = some .s1) := by
      rw [Bool.eq_iff_iff, List.any_eq_true, List.any_eq_true]
      exact exists_congr fun sl => and_congr_right fun hsl => by rw [sliceSets_eq (hslices sl hsl).2 i]
    rw [hsets]
    cases N.initBit init (.wire w i) with
    | none => exact (harst i).symm
    | some b =>
      rw [hholds]
      cases b with
      | true => simp
      | false => simp
  have hout : ∀ i, r.width ≤ i → (N.mergedMember init size r.width slices).bit size i = false := by
    intro i hi
    rw [mergedMember_bit size (fun sl hsl => by have := (hslices sl hsl).1; omega)]
    apply List.any_eq_false.mpr
    intro sl hsl
    have hle := (hslices sl hsl).1
    rw [sliceSets, decide_eq_false (show ¬ i < sl.offset + sl.width by omega), Bool.and_false,
      Bool.false_and]
    exact Bool.false_ne_true
  unfold Kept
  rw [hbody]
  constructor
  · intro h
    constructor
    · intro i hi _ hnone hsome
      have hval := h i
      rw [hbit i hi, decide_eq_true hi, Bool.true_and, powerOn, hnone, hsome] at hval
      exact hval
    · intro i hi hfree htrue
      have hval := h i
      rw [hbit i hi, decide_eq_true hi, Bool.true_and, powerOn, htrue, hfree] at hval
      cases hval
  · rintro ⟨hreg, hfree⟩ i
    by_cases hi : i < r.width
    · rw [hbit i hi, decide_eq_true hi, Bool.true_and, powerOn]
      cases hdef : N.initAt init r i with
      | none =>
        cases hh : N.hasInit init r with
        | false => rfl
        | true =>
          cases hheld : r.holdsBit i with
          | true => exact hreg i hi hheld hdef hh
          | false =>
            apply Bool.eq_false_of_not_eq_true
            intro hone
            rw [hreset i hone] at hheld
            cases hheld
      | some b =>
        cases b with
        | false => exact Bool.and_false _
        | true =>
          cases hheld : r.holdsBit i with
          | true => rfl
          | false => exact absurd hdef (hfree i hi hheld)
    · rw [hout i (by omega), decide_eq_false hi, Bool.false_and]

/-- Each register powers on with the initial value of its wire, or else with its reset value, in the
    modules whose registers are `Kept`, and in no others. -/
theorem smReset_powerOn_iff (hN : WellTyped N) (A : N.Accepted) (init : Wire → List State) :
    (∀ r ∈ A.regs, ∀ i, (N.smReset init A.regs r.name).bit N.memories.size i =
      (decide (i < r.width) && N.powerOn init r i)) ↔ ∀ r ∈ A.regs, N.Kept init r := by
  refine forall₂_congr fun r hr => ?_
  have hlay := layout_registers hN A.registers_eq r hr
  rw [smReset_eq A.names_nodup hr]
  unfold resetMember
  cases hbody : r.body with
  | whole c =>
    rw [Layout, hbody] at hlay
    exact whole_kept hbody hlay.2 (hN c hlay.1).1 _
  | merged w slices => exact merged_kept hbody hlay _

theorem twoEdges_powerOn :
    (∀ r ∈ twoEdgesAccepted.regs, ∀ i, (twoEdges.smReset (fun _ => [.s1]) twoEdgesAccepted.regs
      r.name).bit twoEdges.memories.size i =
        (decide (i < r.width) && twoEdges.powerOn (fun _ => [.s1]) r i)) ↔
      ∀ r ∈ twoEdgesAccepted.regs, twoEdges.Kept (fun _ => [.s1]) r := by
  refine smReset_powerOn_iff ?_ twoEdgesAccepted _
  show ∀ c ∈ [_, _], _
  simp [bitFlop, SigBit.Valid]

/-! ## Lost bits -/

/-- A register of 129 bits that resets to all ones. -/
def longFlop : Flop where
  name := "$1"
  type := .adff
  D := Wire.all ⟨"\\d", 129⟩
  Q := Wire.all ⟨"\\q", 129⟩
  CLK := some (.wire ⟨"\\clk", 1⟩ 0)
  clkPolarity := true
  EN := none
  enPolarity := none
  ARST := some [.wire ⟨"\\rst", 1⟩ 0]
  arstPolarity := some true
  arstValue := List.replicate 129 .s1

def longReg : Sequential where
  memories := twoEdges.memories
  flops := [longFlop]
  inputs := [⟨"\\clk", 1⟩, ⟨"\\rst", 1⟩]

def longRegAccepted : longReg.Accepted where
  regs := [⟨"_q", 129, "_clk", .whole longFlop⟩]
  extra := []
  registers_eq := by decide +kernel
  extraClocks_eq := by decide
  names_nodup := by decide

/-- Bit 128 of the reset value is lost. -/
theorem longReg_lost : WellTyped longReg ∧ ∃ r ∈ longRegAccepted.regs,
    (longReg.smReset (fun _ => []) longRegAccepted.regs r.name).bit .w32 128 = false ∧
      longReg.powerOn (fun _ => []) r 128 = true := by
  refine ⟨?_, ⟨"_q", 129, "_clk", .whole longFlop⟩, List.mem_singleton_self _, ?_⟩
  · intro c hc
    obtain rfl := List.mem_singleton.mp hc
    exact ⟨by decide +kernel, all_valid _⟩
  · decide +kernel

end Sequential

end Yosys.Rtlil
