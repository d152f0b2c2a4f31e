import Sv2ghdl.Yosys.ShiftFaithful
import Sv2ghdl.Yosys.WideCells

/-!
# Which shifts are faithful

The shifts on arrays of words, whose count goes through an `int`, and from them and the narrow ones
the shapes for which a shift cell is faithful.
-/

open Clang Yosys.WideRt

namespace Yosys.Rtlil

variable {size : LimbSize} {env env' : CEnv} {nets : Nets} {n : Nat}

/-! ## Counts -/

/-- `(int)x` -/
def intOf (x : Int) : Int := (int.ofInt x).toInt

/-- A conversion to the type a value has. -/
theorem ofInt_convert {t : IntType} (hsigned : t.signed = true) (x : Int) :
    (t.ofInt x).convert t = t.ofInt x := by
  have hpos : (0 : Int) < 2 ^ t.bits := by positivity
  have hmod := Int.emod_nonneg x (show (2 : Int) ^ t.bits ≠ 0 by positivity)
  have hlt := Int.emod_lt_of_pos x hpos
  have hnat : (x % 2 ^ t.bits).toNat < 2 ^ t.bits := by
    have hcast : ((2 ^ t.bits : Nat) : Int) = 2 ^ t.bits := by push_cast; rfl
    omega
  have hint : (t.ofInt x).toInt = signedOf t.bits (x % 2 ^ t.bits).toNat := if_pos hsigned
  rw [Value.convert, hint, IntType.ofInt, signedOf_emod hnat, Int.toNat_natCast]
  rfl

theorem intOf_natCast {x : Nat} (hx : x < 2 ^ 31) : intOf x = x := by
  have hholds : int.Holds x := IntType.holds_natCast rfl (by decide) hx
  exact hholds.toInt_ofInt

/-- The count of `wshl` and `wshr` where it is a local of type `int`. -/
theorem intArgument_local {x : Int} (hs : env.scalar (.loc "_sh") = int.ofInt x) :
    intArgument size (local_ "_sh") env = some (intOf x) := by
  rw [intArgument, local_, Expr.eval, hs, Option.map_some, ofInt_convert rfl, intOf]

/-- The count of `wshl` and `wshr` where it is converted from a local of type `int64_t`. -/
theorem intArgument_cast {e : CExpr} {o : Int} (hholds : int64.Holds o)
    (he : e.eval (Func.eval size) env = some (int64.ofInt o)) :
    intArgument size (.cast int e) env = some (intOf o) := by
  have hcast : (int64.ofInt o).convert int = int.ofInt o := by
    rw [Value.convert, hholds.toInt_ofInt]
  rw [intArgument, Expr.eval, he, Option.map_some, Option.map_some, hcast, ofInt_convert rfl, intOf]

/-! ## The calls -/

/-- `wshl` by an `int`, which reads out of the array when that is negative. -/
def shlInt (a : Nat) (s : Int) : Option Nat := if 0 ≤ s then some (a <<< s.toNat) else none

def shrInt (a : Nat) (s : Int) : Option Nat := if 0 ≤ s then some (a >>> s.toNat) else none

/-- What a statement leaves in `_wy`, as far as its words go. -/
def LeavesWords (size : LimbSize) (n : Nat) (env : CEnv) (s : CStmt) : Option Nat → Prop
  | some v => ∃ env', run size s env = some env' ∧ Changes "_wy" env env' ∧
      HasWords size n env' wy (v % 2 ^ (size.bits * n))
  | none => run size s env = none

section Calls

variable {a y : Nat} {e : CExpr} {s : Int} (hn : 0 < n) (ha : HasWords size n env wa a)
  (hy : HasWords size n env wy y) (hs : intArgument size e env = some s)
include hn ha hy hs

theorem wshl_leaves : LeavesWords size n env (.call (.wshl wy wa e n)) (shlInt a s) := by
  obtain ⟨la, hla, rfl⟩ := ha
  obtain ⟨ly, hly, -⟩ := hy
  have hrun : run size (.call (.wshl wy wa e n)) env =
      (wshlInt size.bits ly.limbs la.limbs s n).map (env.setArray wy) := by
    rw [run, Stmt.run, Proc.run, hs, Option.bind_some, hla, hly]
  by_cases hpos : 0 ≤ s
  · obtain ⟨k, rfl⟩ := Int.eq_ofNat_of_zero_le hpos
    obtain ⟨r, hcall, hr⟩ := wshl_spec (size_pos size) ly la k
    rw [shlInt, if_pos hpos, Int.toNat_natCast]
    refine ⟨_, ?_, changes_setArray env "_wy" r.limbs, r, env.array_setArray_self _ _, hr⟩
    rw [hrun, wshlInt_natCast, hcall]
    rfl
  · rw [shlInt, if_neg hpos, LeavesWords, hrun,
      wshlInt_neg (by omega) (Nat.le_of_eq la.length_eq) hn (size_pos size)]
    rfl

theorem wshr_leaves : LeavesWords size n env (.call (.wshr wy wa e n)) (shrInt a s) := by
  obtain ⟨la, hla, rfl⟩ := ha
  obtain ⟨ly, hly, -⟩ := hy
  have hrun : run size (.call (.wshr wy wa e n)) env =
      (wshrInt size.bits ly.limbs la.limbs s n).map (env.setArray wy) := by
    rw [run, Stmt.run, Proc.run, hs, Option.bind_some, hla, hly]
  by_cases hpos : 0 ≤ s
  · obtain ⟨k, rfl⟩ := Int.eq_ofNat_of_zero_le hpos
    obtain ⟨r, hcall, hr⟩ := wshr_spec (size_pos size) ly la k
    have hlt := r.value_lt
    rw [shrInt, if_pos hpos, Int.toNat_natCast]
    refine ⟨_, ?_, changes_setArray env "_wy" r.limbs, r, env.array_setArray_self _ _, ?_⟩
    · rw [hrun, wshrInt_natCast, hcall]
      rfl
    · rw [← hr, Nat.mod_eq_of_lt hlt]
  · rw [shrInt, if_neg hpos, LeavesWords, hrun, wshrInt_neg (by omega) hn (size_pos size)]
    rfl

end Calls

/-! ## `$shl` and `$shr` -/

section Cells

variable {p : Shape} {c : Cell} {w : Wire} {offset width : Nat} {rest : List Chunk}

/-- The two arrays of a shift, declared. -/
theorem declared_run (henv : WellFormed size env) (n : Nat) :
    ∃ env' va vy, run size (.block [declareWords size wa n, declareWords size wy n]) env =
        some env' ∧ SameWires size env env' ∧ HasWords size n env' wa va ∧
      HasWords size n env' wy vy := by
  obtain ⟨env₁, va, hrun₁, hchange₁, ha₁⟩ := declare_words size env "_wa" n
  have hwires₁ := hchange₁.sameWires henv
  obtain ⟨env₂, vy, hrun₂, hchange₂, hy₂⟩ := declare_words size env₁ "_wy" n
  refine ⟨env₂, va, vy, ?_, hwires₁.trans (hchange₂.sameWires hwires₁.wellFormed),
    ha₁.frame hchange₂ (by decide), hy₂⟩
  rw [run_cons, wa, hrun₁, Option.bind_some, wy, run_single, hrun₂]

/-- A call that leaves a result in `_wy`, and the store of it. -/
theorem LeavesWords.delivers {s : CStmt} {r : Option Nat} (h : LeavesWords size n env s r)
    (henv : WellFormed size env) (hc : c.Has nets p)
    (hchunks : chunks c.Y = .wire w offset width :: rest) (hlen : c.Y.length ≤ size.bits * n) :
    Delivers size env (.block [s, putVal n c.Y w offset]) c.Y r := by
  cases r with
  | none => exact Delivers.of_none [s] _ (by rw [run_single]; exact h)
  | some v =>
    obtain ⟨env₁, hrun, hchange, hy⟩ := h
    have hwires := hchange.sameWires henv
    apply Delivers.after [s] (by rw [run_single, hrun]) hwires
    apply (putVal_run hc.drives hwires.wellFormed hc.nodup hchunks hlen hy).single.congr
    intro k hk
    rw [Nat.testBit_mod_two_pow, decide_eq_true (by omega), Bool.true_and]

/-- The arrays and the count of a shift. -/
theorem shift_prefix (henv : WellFormed size env) {A : SigSpec} {count : List CStmt} {u : Value}
    (hA : ∀ b ∈ A, (nets.sigmap b).Valid) (hlen : A.length ≤ size.bits * n)
    (hcount : ∀ env', SameWires size env env' →
      run size (.block count) env' = some (env'.set (.loc "_sh") u)) :
    ∃ env' vy, run size (.block ([declareWords size wa n, declareWords size wy n] ++
        (count ++ [materialize size nets wa n A false]))) env = some env' ∧
      SameWires size env env' ∧ env'.scalar (.loc "_sh") = u ∧
      HasWords size n env' wa (rawOperand size nets env A) ∧ HasWords size n env' wy vy := by
  obtain ⟨env₁, va, vy, hrun₁, hwires₁, ha₁, hy₁⟩ := declared_run henv n
  have hwires₂ := hwires₁.trans (sameWires_set hwires₁.wellFormed "_sh" u)
  have ha₂ : HasWords size n (env₁.set (.loc "_sh") u) wa va := ha₁
  have hy₂ : HasWords size n (env₁.set (.loc "_sh") u) wy vy := hy₁
  obtain ⟨env₃, hrun₃, hchange₃, ha₃⟩ := materialize_words hwires₂.wellFormed hA hlen ha₂
  rw [hwires₂.rawOperand] at ha₃
  refine ⟨env₃, vy, ?_, hwires₂.trans (hchange₃.sameWires hwires₂.wellFormed), ?_, ha₃,
    hy₂.frame hchange₃ (by decide)⟩
  · rw [run_append, hrun₁, Option.bind_some, run_append, hcount env₁ hwires₁, Option.bind_some,
      run_single, wa, hrun₃]
  · rw [hchange₃.scalar, env₁.scalar_set_self]

/-- `$shl` and `$shr`: the count is what is left of `B` in an `int`. -/
theorem emitWideShift_delivers (henv : WellFormed size env) (hc : c.Has nets p) (hp : p.Legal)
    (hchunks : chunks c.Y = .wire w offset width :: rest) (call : CExpr → Nat → Proc)
    (shift : Nat → Int → Option Nat)
    (hcall : ∀ env' n a y s, 0 < n → HasWords size n env' wa a → HasWords size n env' wy y →
      intArgument size (local_ "_sh") env' = some s →
      LeavesWords size n env' (.call (call (local_ "_sh") n)) (shift a s))
    (hmapped : ∀ b ∈ c.A, (nets.sigmap b).Valid) :
    Delivers size env (emitWideShift size nets c w offset call) c.Y
      (shift (rawOperand size nets env c.A)
        (intOf (operand size nets env c.B % 2 ^ 64 : Nat))) := by
  obtain ⟨n, hn⟩ : ∃ n, n = nlimbs size (max c.Y.length c.A.length) := ⟨_, rfl⟩
  have hle := le_nlimbs size (max c.Y.length c.A.length)
  rw [← hn] at hle
  have hY : c.Y.length ≤ size.bits * n := le_trans (le_max_left _ _) hle
  have hA : c.A.length ≤ size.bits * n := le_trans (le_max_right _ _) hle
  have hpos : 0 < n := by
    have hyw := hp.1
    rw [← hc.yw] at hyw
    apply Nat.pos_of_ne_zero
    intro hzero
    rw [hzero, Nat.mul_zero] at hY
    omega
  have hcount : ∀ env', SameWires size env env' →
      run size (.block [.set (.loc "_sh") int (.cast int (scalarOf size nets c.B))]) env' =
        some (env'.set (.loc "_sh") (int.ofInt (operand size nets env c.B % 2 ^ 64 : Nat))) := by
    intro env' hwires
    have hb := scalarOf_has hwires.wellFormed hc.B
    rw [hwires.operand] at hb
    have hcast : (Expr.cast int (scalarOf size nets c.B)).eval (Func.eval size) env' =
        some (int.ofInt (operand size nets env c.B % 2 ^ 64 : Nat)) := by
      rw [Expr.eval, hb, Option.map_some]
      rfl
    rw [run_single, run_set hcast, ofInt_convert rfl]
  obtain ⟨env', vy, hrun, hwires, hsh, ha, hy⟩ := shift_prefix henv hmapped hA hcount
  have hleaves := hcall env' n _ _ _ hpos ha hy (intArgument_local hsh)
  rw [emitWideShift, ← hn]
  exact Delivers.after _ hrun hwires (hleaves.delivers hwires.wellFormed hc hchunks hY)

/-! ## `$shift` and `$shiftx` -/

/-- The count of a wide part select: corrected by hand if it is signed and narrower than the
    carrier, else the carrier's own number. -/
def Shape.count (p : Shape) (b : Nat) : Option Int :=
  if p.bSigned ∧ p.bw < 64 then
    if p.bw = 0 ∨ p.bw = 63 ∧ 2 ^ 62 ≤ b then none else some (signedOf p.bw b)
  else some (signedOf 64 (b % 2 ^ 64))

/-- The shift by an `int64_t`, which is narrowed to an `int`. -/
def selectInt (a : Nat) (o : Int) : Option Nat :=
  if 0 ≤ o then shrInt a (intOf o)
  else if o = -(2 ^ 63) then none
  else shlInt a (intOf (-o))

theorem count_holds {b : Nat} {o : Int} (hb : b < 2 ^ p.bw) (h : p.count b = some o) :
    int64.Holds o := by
  rw [Shape.count] at h
  split_ifs at h with hs hzero
  · cases h
    exact int64_holds_signedOf (by omega) (by omega) hb
  · cases h
    exact int64_holds_signedOf (by decide) (by decide) (Nat.mod_lt _ (by decide))

theorem count_run (hc : c.Has nets p) (henv : WellFormed size env) :
    run size (.block [
      .set (.loc "_sh") int64 (.cast int64 (.cast uint64 (scalarOf size nets c.B))),
      if c.bSigned ∧ c.B.length < 64 then signCount "_sh" c.B.length else .skip]) env =
    (p.count (operand size nets env c.B)).map fun o => env.set (.loc "_sh") (int64.ofInt o) := by
  have hb := scalarOf_has henv hc.B
  have hlt := Nat.mod_lt (operand size nets env c.B) (Nat.two_pow_pos 64)
  have hoperand := operand_lt size nets env c.B
  have hcast : (Expr.cast int64 (.cast uint64 (scalarOf size nets c.B))).eval (Func.eval size) env =
      some (int64.ofInt (operand size nets env c.B % 2 ^ 64 : Nat)) := by
    rw [Expr.eval, Expr.eval, hb, Option.map_some, convert_u64 hlt, Option.map_some]
    rfl
  rw [run_cons, run_set hcast, ofInt_convert rfl, IntType.ofInt_small hlt, Option.bind_some,
    run_single, Shape.count, ← hc.bSigned, ← hc.bw]
  by_cases hsigned : c.bSigned = true ∧ c.B.length < 64
  · have hle : 2 ^ c.B.length ≤ 2 ^ 64 := Nat.pow_le_pow_right (by decide) (by omega)
    have hself := env.scalar_set_self (.loc "_sh") ⟨int64, operand size nets env c.B⟩
    rw [if_pos hsigned, if_pos hsigned, Nat.mod_eq_of_lt (by omega), signCount]
    by_cases hzero : c.B.length = 0
    · have hshift : (Expr.bin .and (local_ "_sh")
          (.bin .shl (.lit ⟨int64, 1⟩) (intLitOf ((0 : Nat) - 1 : Int)))).eval (Func.eval size)
          (env.set (.loc "_sh") ⟨int64, operand size nets env c.B⟩) = none := by
        rw [Expr.eval, local_eval]
        rfl
      rw [if_pos (.inl hzero), hzero, run, Stmt.run, hshift]
      rfl
    · rw [signCount_run size "_sh" hself (by omega) hsigned.2 hoperand, env.set_set]
      by_cases hbig : c.B.length = 63 ∧ 2 ^ 62 ≤ operand size nets env c.B
      · rw [if_pos hbig, if_pos (.inr hbig)]
        rfl
      · rw [if_neg hbig, if_neg (by tauto)]
        rfl
  · rw [if_neg hsigned, if_neg hsigned, run_skip, Option.map_some]
    congr 2
    rw [IntType.ofInt, signedOf_emod hlt, Int.toNat_natCast]

theorem select_leaves {a y : Nat} {o : Int} (hn : 0 < n) (ha : HasWords size n env wa a)
    (hy : HasWords size n env wy y) (hsh : env.scalar (.loc "_sh") = int64.ofInt o)
    (hholds : int64.Holds o) :
    LeavesWords size n env
      (.ite (.bin .ge (local_ "_sh") (intLit 0)) (.call (.wshr wy wa (.cast int (local_ "_sh")) n))
        (.call (.wshl wy wa (.cast int (.neg (local_ "_sh"))) n)))
      (selectInt a o) := by
  have hlocal : (local_ "_sh").eval (Func.eval size) env = some (int64.ofInt o) := by
    rw [local_, Expr.eval, hsh]
  have htest := signTest_eval size "_sh" .ge (e := intLit 0) (x := 0) (r := decide (0 ≤ o))
    (v := ⟨int, 0⟩) hsh hholds rfl rfl (by decide) rfl
  have hite : ∀ s t, run size (.ite (.bin .ge (local_ "_sh") (intLit 0)) s t) env =
      if 0 ≤ o then run size s env else run size t env := by
    intro s t
    rw [run, Stmt.run, htest, Option.bind_some]
    by_cases hpos : 0 ≤ o
    · rw [if_pos hpos, decide_eq_true hpos]
      rfl
    · rw [if_neg hpos, decide_eq_false hpos]
      rfl
  by_cases hpos : 0 ≤ o
  · have hshr := wshr_leaves hn ha hy (intArgument_cast hholds hlocal)
    rw [selectInt, if_pos hpos]
    cases hr : shrInt a (intOf o) with
    | none =>
      rw [hr] at hshr
      rw [LeavesWords, hite, if_pos hpos]
      exact hshr
    | some v =>
      rw [hr] at hshr
      rw [LeavesWords, hite, if_pos hpos]
      exact hshr
  · rw [selectInt, if_neg hpos]
    have hneg : (Expr.neg (local_ "_sh") : CExpr).eval (Func.eval size) env =
        int64.result (-o) := by
      rw [Expr.eval, hlocal, Option.bind_some, hholds.toInt_ofInt]
      rfl
    obtain ⟨-, -, hlow, hhigh⟩ := id hholds
    simp only at hlow hhigh
    by_cases hmin : o = -(2 ^ 63)
    · have hnone : int64.result (-o) = none := by
        rw [hmin]
        decide
      rw [if_pos hmin, LeavesWords, hite, if_neg hpos, run, Stmt.run, Proc.run, intArgument,
        Expr.eval, hneg, hnone]
      rfl
    · have hholds' : int64.Holds (-o) := ⟨rfl, by decide, by simp only; omega, by simp only; omega⟩
      rw [hholds'.result] at hneg
      have hshl := wshl_leaves hn ha hy (intArgument_cast hholds' hneg)
      rw [if_neg hmin]
      cases hr : shlInt a (intOf (-o)) with
      | none =>
        rw [hr] at hshl
        rw [LeavesWords, hite, if_neg hpos]
        exact hshl
      | some v =>
        rw [hr] at hshl
        rw [LeavesWords, hite, if_neg hpos]
        exact hshl

theorem emitWidePartSelect_delivers (henv : WellFormed size env) (hc : c.Has nets p)
    (hp : p.Legal) (hchunks : chunks c.Y = .wire w offset width :: rest)
    (hmapped : ∀ b ∈ c.A, (nets.sigmap b).Valid) :
    Delivers size env (emitWidePartSelect size nets c w offset) c.Y
      ((p.count (operand size nets env c.B)).bind
        (selectInt (rawOperand size nets env c.A))) := by
  obtain ⟨n, hn⟩ : ∃ n, n = nlimbs size (max c.Y.length c.A.length) := ⟨_, rfl⟩
  have hle := le_nlimbs size (max c.Y.length c.A.length)
  rw [← hn] at hle
  have hY : c.Y.length ≤ size.bits * n := le_trans (le_max_left _ _) hle
  have hA : c.A.length ≤ size.bits * n := le_trans (le_max_right _ _) hle
  have hpos : 0 < n := by
    have hyw := hp.1
    rw [← hc.yw] at hyw
    apply Nat.pos_of_ne_zero
    intro hzero
    rw [hzero, Nat.mul_zero] at hY
    omega
  have hb := operand_lt size nets env c.B
  rw [hc.bw] at hb
  rw [emitWidePartSelect, ← hn]
  cases hcount : p.count (operand size nets env c.B) with
  | none =>
    obtain ⟨env₁, va, vy, hrun₁, hwires₁, -, -⟩ := declared_run henv n
    rw [Option.bind_none]
    have hnone := count_run hc hwires₁.wellFormed
    rw [hwires₁.operand, hcount, Option.map_none] at hnone
    apply Delivers.of_none ([declareWords size wa n, declareWords size wy n] ++
      [.set (.loc "_sh") int64 (.cast int64 (.cast uint64 (scalarOf size nets c.B))),
        if c.bSigned ∧ c.B.length < 64 then signCount "_sh" c.B.length else .skip])
    rw [run_append, hrun₁, Option.bind_some, hnone]
  | some o =>
    have hrunCount : ∀ env', SameWires size env env' →
        run size (.block [
          .set (.loc "_sh") int64 (.cast int64 (.cast uint64 (scalarOf size nets c.B))),
          if c.bSigned ∧ c.B.length < 64 then signCount "_sh" c.B.length else .skip]) env' =
        some (env'.set (.loc "_sh") (int64.ofInt o)) := by
      intro env' hwires
      rw [count_run hc hwires.wellFormed, hwires.operand, hcount, Option.map_some]
    obtain ⟨env', vy, hrun, hwires, hsh, ha, hy⟩ := shift_prefix henv hmapped hA hrunCount
    have hleaves := select_leaves hpos ha hy hsh (count_holds hb hcount)
    rw [Option.bind_some]
    exact Delivers.after _ hrun hwires (hleaves.delivers hwires.wellFormed hc hchunks hY)

end Cells

/-! ## The wide shifts -/

variable {p : Shape}

/-- What a wide shift delivers from the words of `A` and the count. -/
def Shape.wideShift (p : Shape) (a b : Nat) : Option Nat :=
  match p.type with
  | .shl => shlInt a (intOf (b % 2 ^ 64 : Nat))
  | .shr => shrInt a (intOf (b % 2 ^ 64 : Nat))
  | _ => (p.count b).bind (selectInt a)

/-- The shifts that `emit_wide_cell` does not decline. -/
def CellType.WideShift : CellType → Prop
  | .shl | .shr | .shift | .shiftx => True
  | _ => False

theorem wideShift_delivers (hp : p.Legal) (ht : p.type.WideShift) (nets : Nets) (c : Cell)
    (env : CEnv) (hc : c.Has nets p) (henv : WellFormed size env) (w : Wire) (offset width : Nat)
    (rest : List Chunk) (hchunks : chunks c.Y = .wire w offset width :: rest) :
    ∃ s, emitWide size nets c w offset = some s ∧ Delivers size env s c.Y
      (p.wideShift (rawOperand size nets env c.A) (operand size nets env c.B)) := by
  have hmapped : ∀ b ∈ c.A, (nets.sigmap b).Valid := by
    intro b hb
    apply hc.mapped
    unfold Cell.materialized
    split <;> simp [hb]
  rw [emitWide, Shape.wideShift, hc.type]
  cases htype : p.type <;> rw [htype] at ht <;> simp only [CellType.WideShift] at ht ⊢
  case shl =>
    exact ⟨_, rfl, emitWideShift_delivers henv hc hp hchunks _ shlInt
      (fun _ _ _ _ _ hn ha hy hs => wshl_leaves hn ha hy hs) hmapped⟩
  case shr =>
    exact ⟨_, rfl, emitWideShift_delivers henv hc hp hchunks _ shrInt
      (fun _ _ _ _ _ hn ha hy hs => wshr_leaves hn ha hy hs) hmapped⟩
  case shift => exact ⟨_, rfl, emitWidePartSelect_delivers henv hc hp hchunks hmapped⟩
  case shiftx => exact ⟨_, rfl, emitWidePartSelect_delivers henv hc hp hchunks hmapped⟩

/-- The number of positions a shift cell moves its operand to the right. -/
def Shape.distance (p : Shape) (b : Nat) : Int :=
  match p.type with
  | .shl => -b
  | .shr => b
  | _ => if p.bSigned then signedOf p.bw b else b

/-- The operand of a shift is not in need of an extension, and its count fits in an `int`. -/
def Shape.WideShiftOk (p : Shape) : Prop :=
  Unextended p.aSigned p.aw p.yw ∧ (p.bw < 32 ∧ (p.bSigned = false ∨ p.bw ≠ 0)) ∧
    (p.aliased = false ∨ p.aw = 0)

instance (p : Shape) : Decidable p.WideShiftOk := inferInstanceAs (Decidable (_ ∧ _))

/-- With its operand extended right, a shift moves it by its distance. -/
theorem value_shift (hp : p.Legal) (ht : p.type.WideShift)
    (hA : Unextended p.aSigned p.aw p.yw) {a b s : Nat} (ha : a < 2 ^ p.aw) :
    p.value a b s = shiftBy a (p.distance b) % 2 ^ p.yw := by
  have hlegal := hp.2.2
  rw [Shape.value, CellType.value.eq_def, Shape.distance]
  cases htype : p.type <;> rw [htype] at ht hlegal <;> simp only [CellType.WideShift] at ht hlegal ⊢
  case shl =>
    have hshift : shiftBy a (-b) = a <<< b := by
      by_cases hb : b = 0
      · rw [hb]
        rfl
      · rw [shiftBy, if_neg (by omega), neg_neg, Int.toNat_natCast]
    rw [extend_of_unextended hA ha, mod_shiftLeft, hshift]
  case shr => rw [extend_max _ hA ha, shiftBy_natCast]
  case shift => rw [extend_max _ hA ha]

/-- A count that an `int` holds reaches the runtime as it is. -/
theorem wideShift_eq (ht : p.type.WideShift) (hcount : p.bw < 32 ∧ (p.bSigned = false ∨ p.bw ≠ 0))
    {a b : Nat} (hb : b < 2 ^ p.bw) : p.wideShift a b = some (shiftBy a (p.distance b)) := by
  have hpow : 2 ^ p.bw ≤ 2 ^ 31 := Nat.pow_le_pow_right (by decide) (by omega)
  have hmod : b % 2 ^ 64 = b := Nat.mod_eq_of_lt (by omega)
  have hint : intOf (b % 2 ^ 64 : Nat) = b := by
    rw [hmod]
    exact intOf_natCast (by omega)
  have hselect : p.type ≠ .shl → p.type ≠ .shr → (p.count b).bind (selectInt a) =
      some (shiftBy a (if p.bSigned then signedOf p.bw b else b)) := by
    intro hshl hshr
    have hdistance : p.count b = some (if p.bSigned then signedOf p.bw b else b) := by
      rw [Shape.count]
      by_cases hs : p.bSigned = true
      · have hbw := hcount.2.resolve_left (by rw [hs]; exact Bool.false_ne_true.symm)
        rw [if_pos ⟨hs, by omega⟩, if_neg (by omega), if_pos hs]
      · rw [if_neg (by tauto), if_neg hs, hmod, signedOf, if_pos (by omega)]
    rw [hdistance, Option.bind_some]
    obtain ⟨o, ho⟩ : ∃ o : Int, o = if p.bSigned then signedOf p.bw b else b := ⟨_, rfl⟩
    have hbounds : -(2 ^ 31 : Int) < o ∧ o < 2 ^ 31 := by
      rw [ho, signedOf]
      have hcast : ((2 ^ p.bw : Nat) : Int) = 2 ^ p.bw := by push_cast; rfl
      have hhalf := Nat.two_pow_pos (p.bw - 1)
      split_ifs <;> omega
    rw [← ho, selectInt, shiftBy]
    by_cases hpos : 0 ≤ o
    · obtain ⟨k, rfl⟩ := Int.eq_ofNat_of_zero_le hpos
      rw [if_pos hpos, if_pos hpos, intOf_natCast (by omega), shrInt, if_pos hpos]
    · obtain ⟨k, hk⟩ := Int.eq_ofNat_of_zero_le (show 0 ≤ -o by omega)
      rw [if_neg hpos, if_neg hpos, if_neg (by omega), hk, intOf_natCast (by omega), shlInt,
        if_pos (Int.natCast_nonneg k)]
  rw [Shape.wideShift, Shape.distance]
  cases htype : p.type <;> rw [htype] at ht hselect <;> simp only [CellType.WideShift] at ht ⊢
  case shl =>
    rw [hint, shlInt, if_pos (Int.natCast_nonneg b), Int.toNat_natCast, shiftBy]
    by_cases hzero : b = 0
    · rw [hzero]
      rfl
    · rw [if_neg (by omega), neg_neg, Int.toNat_natCast]
  case shr => rw [hint, shrInt, if_pos (Int.natCast_nonneg b), Int.toNat_natCast, shiftBy_natCast]
  case shift => exact hselect (by decide) (by decide)
  case shiftx => exact hselect (by decide) (by decide)

/-- A count of 2^31 is negative in an `int`. -/
theorem wideShift_none (ht : p.type.WideShift) (hbw : 32 ≤ p.bw) (a : Nat) :
    p.wideShift a (2 ^ 31) = none := by
  have hint : intOf ((2 ^ 31 : Nat) % 2 ^ 64 : Nat) = -(2 ^ 31) := by decide
  have hneg : ¬ (0 : Int) ≤ -(2 ^ 31) := by decide
  have hselect : (p.count (2 ^ 31)).bind (selectInt a) = none := by
    -- the count is 2^31 or, where that is its sign bit, -2^31: both narrow to the same
    have hcases : p.count (2 ^ 31) = some (2 ^ 31) ∨ p.count (2 ^ 31) = some (-(2 ^ 31)) := by
      rw [Shape.count]
      by_cases hs : p.bSigned = true ∧ p.bw < 64
      · rw [if_pos hs, if_neg (by omega)]
        by_cases h32 : p.bw = 32
        · right
          rw [h32]
          decide
        · left
          have hlt : 2 ^ 31 < 2 ^ (p.bw - 1) := Nat.pow_lt_pow_right (by decide) (by omega)
          rw [signedOf, if_pos hlt]
          rfl
      · left
        rw [if_neg hs]
        decide
    rcases hcases with h | h
    · have hint' : intOf (2 ^ 31) = -(2 ^ 31) := by decide
      rw [h, Option.bind_some, selectInt, if_pos (by decide), hint', shrInt, if_neg hneg]
    · have hint' : intOf (-(-(2 ^ 31))) = -(2 ^ 31) := by decide
      rw [h, Option.bind_some, selectInt, if_neg hneg, if_neg (by decide), hint', shlInt,
        if_neg hneg]
  rw [Shape.wideShift]
  cases htype : p.type <;> rw [htype] at ht <;> simp only [CellType.WideShift] at ht ⊢
  case shl => rw [hint, shlInt, if_neg hneg]
  case shr => rw [hint, shrInt, if_neg hneg]
  case shift => exact hselect
  case shiftx => exact hselect

/-- What an operand of which no bit is moved gives. -/
theorem value_shift_ones (hp : p.Legal) (ht : p.type.WideShift)
    (hA : ¬ Unextended p.aSigned p.aw p.yw) (s : Nat) :
    p.value (2 ^ p.aw - 1) 0 s = 2 ^ p.yw - 1 := by
  have hlegal := hp.2.2
  have hmod : (2 ^ p.yw - 1) % 2 ^ p.yw = 2 ^ p.yw - 1 := Nat.mod_eq_of_lt (ones_lt p.yw)
  rw [Shape.value, CellType.value.eq_def]
  cases htype : p.type <;> rw [htype] at ht hlegal <;> simp only [CellType.WideShift] at ht hlegal ⊢
  case shl => rw [extend_ones hA, Nat.shiftLeft_zero, hmod]
  case shr => rw [extend_max_ones _ hA, Nat.shiftRight_zero, hmod]
  case shift =>
    rw [signedOf_zero, Nat.cast_zero, ite_self, extend_max_ones _ hA]
    exact hmod
  case shiftx => exact absurd (.inl hlegal) hA

/-- A count of 0 moves nothing, if it is one. -/
theorem wideShift_zero (ht : p.type.WideShift) {a v : Nat} (h : p.wideShift a 0 = some v) :
    v = a := by
  have hint : intOf ((0 : Nat) % 2 ^ 64 : Nat) = 0 := by decide
  have hselect : (p.count 0).bind (selectInt a) = some v → v = a := by
    intro h
    have hcount : ∀ o, p.count 0 = some o → o = 0 := by
      intro o ho
      rw [Shape.count, signedOf_zero] at ho
      split_ifs at ho
      · exact (Option.some.inj ho).symm
      · exact (Option.some.inj ho).symm
    cases ho : p.count 0 with
    | none =>
      rw [ho] at h
      cases h
    | some o =>
      rw [ho, hcount o ho] at h
      exact (Option.some.inj h).symm
  rw [Shape.wideShift] at h
  cases htype : p.type <;> rw [htype] at ht h <;> simp only [CellType.WideShift] at ht h
  case shl =>
    rw [hint] at h
    exact (Option.some.inj h).symm
  case shr =>
    rw [hint] at h
    exact (Option.some.inj h).symm
  case shift => exact hselect h
  case shiftx => exact hselect h

theorem faithful_wideShift (hp : p.Legal) (hwide : p.wide = true) (ht : p.type.WideShift) :
    Faithful size p ↔ p.WideShiftOk := by
  have hiff := faithful_wide size hp hwide (fun a _ _ b' _ => p.wideShift a b')
    fun nets c env hc henv w offset width rest hchunks _ =>
      wideShift_delivers hp ht nets c env hc henv w offset width rest hchunks
  have hwords : p.type.wordsOfB = false := by
    cases htype : p.type <;> rw [htype] at ht <;> first | rfl | exact ht.elim
  have hreads : ∀ a b, p.Reads a b a b := fun _ _ _ => ⟨rfl, fun _ => rfl⟩
  have hpos := Nat.two_pow_pos
  rw [hiff]
  constructor
  · intro h
    have hext : Unextended p.aSigned p.aw p.yw := by
      by_contra hA
      obtain ⟨v, hv, hvalue⟩ := h _ 0 _ 0 0 (ones_lt p.aw) (hpos _) (ones_lt p.aw) (hpos _) (hpos _)
        (hreads _ _)
      rw [wideShift_zero ht hv, value_shift_ones hp ht hA] at hvalue
      exact ones_ne hA hvalue
    refine ⟨hext, ⟨?_, ?_⟩, ?_⟩
    · by_contra hbw
      have hb : 2 ^ 31 < 2 ^ p.bw := Nat.pow_lt_pow_right (by decide) (by omega)
      obtain ⟨v, hv, -⟩ := h 0 _ 0 _ 0 (hpos _) hb (hpos _) hb (hpos _) (hreads _ _)
      rw [wideShift_none ht (by omega)] at hv
      cases hv
    · by_contra hno
      rw [not_or, Bool.not_eq_false, not_not] at hno
      obtain ⟨v, hv, -⟩ := h 0 0 0 0 0 (hpos _) (hpos _) (hpos _) (hpos _) (hpos _) (hreads _ _)
      have hlegal := hp.2.2
      rw [Shape.wideShift, Shape.count, if_pos ⟨hno.1, by omega⟩, if_pos (.inl hno.2)] at hv
      cases htype : p.type <;> rw [htype] at ht hlegal hv <;>
        simp only [CellType.WideShift] at ht hlegal hv
      case shl => exact absurd (hno.1.symm.trans hlegal) Bool.noConfusion
      case shr => exact absurd (hno.1.symm.trans hlegal) Bool.noConfusion
      case shift => cases hv
      case shiftx => cases hv
    · -- the words hold 0 where the wire that is meant holds 1
      by_contra hno
      rw [not_or, Bool.not_eq_false] at hno
      have hone : 1 < 2 ^ p.aw := Nat.one_lt_two_pow hno.2
      have hone' : 1 < 2 ^ p.yw := Nat.one_lt_two_pow (by have := hp.1; omega)
      have hread : p.Reads 0 0 1 0 := fun haliased => absurd (hno.1.symm.trans haliased) Bool.noConfusion
      obtain ⟨v, hv, hvalue⟩ := h 0 0 1 0 0 (hpos _) (hpos _) hone (hpos _) (hpos _) hread
      have hdistance : p.distance 0 = 0 := by
        rw [Shape.distance, signedOf_zero]
        cases p.type <;> simp
      rw [wideShift_zero ht hv, value_shift hp ht hext hone, hdistance, Nat.zero_mod] at hvalue
      have hshift : shiftBy 1 0 = 1 := rfl
      rw [hshift, Nat.mod_eq_of_lt hone'] at hvalue
      cases hvalue
  · rintro ⟨hext, hcount, haliased⟩ a b a' b' s ha hb ha' hb' hs hread
    have hsame : a = a' := by
      rcases haliased with haliased | hzero
      · exact (hread haliased).1
      · rw [hzero] at ha ha'
        omega
    rw [hsame]
    exact ⟨_, wideShift_eq ht hcount hb', (value_shift hp ht hext ha').symm⟩

/-! ## All shifts -/

/-- When the statement of a shift cell is faithful; `$sshl` and `$sshr` on words are declined. -/
def Shape.ShiftOk (p : Shape) : Prop :=
  if p.wide then p.type = .sshl ∨ p.type = .sshr ∨ p.WideShiftOk else p.NarrowShiftOk

theorem shift_faithful_iff (size : LimbSize) (p : Shape) (hp : p.Legal) (ht : p.type.Shift) :
    Faithful size p ↔ p.ShiftOk := by
  rw [Shape.ShiftOk]
  by_cases hwide : p.wide = true
  · rw [if_pos hwide]
    by_cases hshift : p.type.WideShift
    · rw [faithful_wideShift hp hwide hshift]
      constructor
      · exact fun h => .inr (.inr h)
      · rintro (h | h | h)
        · rw [h] at hshift
          exact hshift.elim
        · rw [h] at hshift
          exact hshift.elim
        · exact h
    · have hdeclined : p.type = .sshl ∨ p.type = .sshr := by
        cases htype : p.type <;> rw [htype] at ht hshift <;>
          simp_all [CellType.Shift, CellType.WideShift]
      apply iff_of_true
      · intro nets c hc s hemit
        obtain ⟨w, offset, width, rest, hchunks, hw⟩ := first_chunk hc hp
        rw [emitCell_wide hc hwide hchunks hw, emitWide, hc.type] at hemit
        rcases hdeclined with h | h
        · rw [h] at hemit
          cases hemit
        · rw [h] at hemit
          cases hemit
      · exact hdeclined.imp_right .inl
  · rw [if_neg hwide]
    have hnarrow : p.wide = false := by simpa using hwide
    have hdescribed : p.type.Described := by
      cases htype : p.type <;> rw [htype] at ht <;> first | exact trivial | exact ht.elim
    exact (faithful_narrow hp hnarrow hdescribed).trans (agrees_shift hp hnarrow ht)

/-- A shift of a whole wire to another. -/
def shiftCell (type : CellType) (aSigned : Bool) (aw bw yw : Nat) : Shape where
  type := type
  aw := aw
  bw := bw
  sw := 0
  yw := yw
  aSigned := aSigned
  bSigned := false
  wideTarget := isWide yw
  scattered := false
  aliased := false

/-- An unsigned operand of 100 bits, shifted by up to 127. -/
theorem shift_faithful_iff_words : Faithful .w32 (shiftCell .shl false 100 7 100) :=
  (shift_faithful_iff .w32 (shiftCell .shl false 100 7 100) ⟨by decide, fun _ => rfl, rfl⟩
    trivial).mpr (by
      rw [Shape.ShiftOk, if_pos (by decide)]
      exact .inr (.inr ⟨.inl rfl, ⟨by decide, .inl rfl⟩, .inl rfl⟩))

/-- `4'b1000 >>> 1` of an unsigned operand is 4, and the statement stores 12. -/
theorem not_shift_faithful_sshr : ¬ Faithful .w64 (shiftCell .sshr false 4 2 4) := by
  intro h
  obtain ⟨v, hv, hkept⟩ := (faithful_narrow (p := shiftCell .sshr false 4 2 4)
    ⟨by decide, fun _ => rfl, rfl⟩ (by decide) trivial).mp h 8 1 0 (by decide) (by decide) (by decide)
  have hemitted : (shiftCell .sshr false 4 2 4).emitted 8 1 0 = some 12 := by decide
  rw [hemitted] at hv
  cases hv
  revert hkept
  decide

end Yosys.Rtlil
