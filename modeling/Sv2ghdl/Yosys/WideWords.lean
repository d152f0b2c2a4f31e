import Sv2ghdl.Yosys.WideShift

/-!
# Wide cells with a result in words

The cells of `emit_wide_cell` in `yosys/gen_statemachine.cpp` that leave their result in `_wy`: sums,
products, bitwise operations and multiplexers.
-/

open Clang Yosys.WideRt

namespace Yosys.Rtlil

variable {size : LimbSize} {env : CEnv} {nets : Nets} {n : Nat}

theorem wrap_mod_two_pow {m N : Nat} (h : m ≤ N) (x : Int) : wrap N x % 2 ^ m = wrap m x := by
  have hdvd : (2 : Int) ^ m ∣ 2 ^ N := pow_dvd_pow 2 h
  have hcast : ((x % 2 ^ N).toNat : Int) = x % 2 ^ N :=
    Int.toNat_of_nonneg (Int.emod_nonneg x (by positivity))
  rw [wrap, wrap, ← Int.emod_emod_of_dvd x hdvd, ← hcast, ← natCast_two_pow m, ← Int.natCast_emod,
    Int.toNat_natCast, Int.toNat_natCast]

theorem complement_mod {m N : Nat} (h : m ≤ N) (x : Nat) :
    complement N (x % 2 ^ N) % 2 ^ m = complement m (x % 2 ^ m) := by
  have hpos := Nat.two_pow_pos m
  have hsmall : complement m (x % 2 ^ m) < 2 ^ m := by rw [complement]; omega
  apply testBit_ext (Nat.mod_lt _ hpos) hsmall
  intro k hk
  rw [Nat.testBit_mod_two_pow, testBit_complement (Nat.mod_lt _ (Nat.two_pow_pos N)),
    testBit_complement (Nat.mod_lt _ hpos), Nat.testBit_mod_two_pow, Nat.testBit_mod_two_pow,
    decide_eq_true hk, decide_eq_true (show k < N by omega)]
  simp only [Bool.true_and]

/-- Only the bits that the output has count. -/
theorem Delivers.congr_mod {s : CStmt} {Y : SigSpec} {v v' : Nat} (h : Delivers size env s Y (some v))
    (hmod : v % 2 ^ Y.length = v' % 2 ^ Y.length) : Delivers size env s Y (some v') := by
  apply h.congr
  intro k hk
  have hbit := congrArg (Nat.testBit · k) hmod
  simpa only [Nat.testBit_mod_two_pow, decide_eq_true hk, Bool.true_and] using hbit

/-! ## Calls -/

section Calls

variable {s t : CStmt} {f : Option (List Nat)} {v : Nat}

/-- A call that fills `_wy` with the words of a number. -/
theorem leaves_limbs (hrun : run size s env = f.map (env.setArray wy))
    (hf : ∃ r : Limbs size.bits n, f = some r.limbs ∧ r.value = v % 2 ^ (size.bits * n)) :
    LeavesWords size n env s (some v) := by
  obtain ⟨r, hr, hvalue⟩ := hf
  have hrun' : run size s env = some (env.setArray wy r.limbs) := by rw [hrun, hr, Option.map_some]
  exact ⟨_, hrun', changes_setArray env "_wy" _, r, env.array_setArray_self _ _, hvalue⟩

/-- A call that fills `_wy` bit by bit. -/
theorem leaves_bits (hrun : run size s env = f.map (env.setArray wy))
    (hf : ∃ r, f = some r ∧ Holds size.bits n r ∧
      ∀ k, k < size.bits * n → bitAt size.bits r k = v.testBit k) :
    LeavesWords size n env s (some v) := by
  obtain ⟨r, hr, hholds, hbits⟩ := hf
  have hrun' : run size s env = some (env.setArray wy r) := by rw [hrun, hr, Option.map_some]
  refine ⟨_, hrun', changes_setArray env "_wy" r, ?_⟩
  apply hasWords_setArray hholds (Nat.mod_lt _ (Nat.two_pow_pos _))
  intro k hk
  rw [hbits k hk, Nat.testBit_mod_two_pow, decide_eq_true hk, Bool.true_and]

theorem LeavesWords.single {r : Option Nat} (h : LeavesWords size n env s r) :
    LeavesWords size n env (.block [s]) r := by
  cases r with
  | none => exact (run_single size s env).trans h
  | some v =>
    obtain ⟨env', hrun, hrest⟩ := h
    exact ⟨env', (run_single size s env).trans hrun, hrest⟩

/-- A second call, on what the first one left. -/
theorem LeavesWords.andThen {u : Nat} (h : LeavesWords size n env s (some v))
    (ht : ∀ env', HasWords size n env' wy (v % 2 ^ (size.bits * n)) →
      LeavesWords size n env' t (some u)) : LeavesWords size n env (.block [s, t]) (some u) := by
  obtain ⟨env₁, hrun₁, hchange₁, hy₁⟩ := h
  obtain ⟨env₂, hrun₂, hchange₂, hy₂⟩ := ht env₁ hy₁
  refine ⟨env₂, ?_, ⟨hchange₂.scalar.trans hchange₁.scalar, fun y hy => ?_⟩, hy₂⟩
  · rw [run_cons, hrun₁, Option.bind_some, run_single, hrun₂]
  · rw [hchange₂.array y hy, hchange₁.array y hy]

variable {a b y : Nat}

section Binary

variable (ha : HasWords size n env wa a) (hb : HasWords size n env wb b)
  (hy : HasWords size n env wy y)
include ha hb hy

theorem wadd_leaves : LeavesWords size n env (.call (.wadd wy wa wb n)) (some (a + b)) := by
  obtain ⟨la, hla, rfl⟩ := ha
  obtain ⟨lb, hlb, rfl⟩ := hb
  obtain ⟨ly, hly, -⟩ := hy
  apply leaves_limbs (f := WideRt.wadd size.bits (env.array wy) (env.array wa) (env.array wb) n) rfl
  rw [hla, hlb, hly]
  exact wadd_spec (size_pos size) ly la lb

theorem wsub_leaves :
    LeavesWords size n env (.call (.wsub wy wa wb n)) (some (wrap (size.bits * n) (a - b))) := by
  obtain ⟨la, hla, rfl⟩ := ha
  obtain ⟨lb, hlb, rfl⟩ := hb
  obtain ⟨ly, hly, -⟩ := hy
  apply leaves_limbs (f := WideRt.wsub size.bits (env.array wy) (env.array wa) (env.array wb) n) rfl
  rw [hla, hlb, hly]
  obtain ⟨r, hr, hvalue⟩ := wsub_spec (size_pos size) ly la lb
  refine ⟨r, hr, ?_⟩
  rw [Nat.mod_eq_of_lt (wrap_lt _ _), wrap, ← hvalue, Int.toNat_natCast]

/-- The scratch array of `wmul` has a fixed length. -/
theorem wmul_leaves : LeavesWords size n env (.call (.wmul wy wa wb n))
    (if n ≤ size.scratch then some (a * b) else none) := by
  obtain ⟨la, hla, rfl⟩ := ha
  obtain ⟨lb, hlb, rfl⟩ := hb
  obtain ⟨ly, hly, -⟩ := hy
  obtain ⟨t, ht⟩ : ∃ t, t = (List.range size.scratch).map fun i => env.garbage i % 2 ^ size.bits :=
    ⟨_, rfl⟩
  have hholds : Holds size.bits size.scratch t := by
    constructor
    · rw [ht, List.length_map, List.length_range]
    · intro x hx
      rw [ht] at hx
      obtain ⟨i, -, rfl⟩ := List.mem_map.mp hx
      exact Nat.mod_lt _ (Nat.two_pow_pos _)
  obtain ⟨lt, hlt, -⟩ := hholds.limbs
  have hrun : run size (.call (.wmul wy wa wb n)) env =
      (WideRt.wmul size.bits lt.limbs ly.limbs la.limbs lb.limbs n).map (env.setArray wy) := by
    rw [← hlt, ht, ← hla, ← hlb, ← hly]
    rfl
  by_cases hn : n ≤ size.scratch
  · rw [if_pos hn]
    exact leaves_limbs hrun (wmul_spec hn lt ly la lb)
  · rw [if_neg hn, LeavesWords, hrun, wmul_none (by omega) lt ly la lb, Option.map_none]

theorem wand_leaves : LeavesWords size n env (.call (.wand wy wa wb n)) (some (a &&& b)) := by
  apply leaves_bits (f := WideRt.wand (env.array wy) (env.array wa) (env.array wb) n) rfl
  obtain ⟨r, hr, hholds, hbits⟩ := wand_spec hy.holds ha.holds hb.holds
  refine ⟨r, hr, hholds, fun k hk => ?_⟩
  rw [hbits k hk, ha.bit, hb.bit, Nat.testBit_and]

theorem wor_leaves : LeavesWords size n env (.call (.wor wy wa wb n)) (some (a ||| b)) := by
  apply leaves_bits (f := WideRt.wor (env.array wy) (env.array wa) (env.array wb) n) rfl
  obtain ⟨r, hr, hholds, hbits⟩ := wor_spec hy.holds ha.holds hb.holds
  refine ⟨r, hr, hholds, fun k hk => ?_⟩
  rw [hbits k hk, ha.bit, hb.bit, Nat.testBit_or]

theorem wxor_leaves : LeavesWords size n env (.call (.wxor wy wa wb n)) (some (a ^^^ b)) := by
  apply leaves_bits (f := WideRt.wxor (env.array wy) (env.array wa) (env.array wb) n) rfl
  obtain ⟨r, hr, hholds, hbits⟩ := wxor_spec hy.holds ha.holds hb.holds
  refine ⟨r, hr, hholds, fun k hk => ?_⟩
  rw [hbits k hk, ha.bit, hb.bit, Nat.testBit_xor]

end Binary

section Unary

variable {x : Var} (ha : HasWords size n env x a) (hy : HasWords size n env wy y)
include ha hy

theorem wnot_leaves : LeavesWords size n env (.call (.wnot wy x n))
    (some (complement (size.bits * n) a)) := by
  apply leaves_bits (f := WideRt.wnot size.bits (env.array wy) (env.array x) n) rfl
  obtain ⟨r, hr, hholds, hbits⟩ := wnot_spec (size_pos size) hy.holds ha.holds
  refine ⟨r, hr, hholds, fun k hk => ?_⟩
  rw [hbits k hk, ha.bit, testBit_complement ha.lt, decide_eq_true hk, Bool.true_and]

theorem wneg_leaves : LeavesWords size n env (.call (.wneg wy x n))
    (some (wrap (size.bits * n) (-a))) := by
  obtain ⟨la, hla, rfl⟩ := ha
  obtain ⟨ly, hly, -⟩ := hy
  apply leaves_limbs (f := WideRt.wneg size.bits (env.array wy) (env.array x) n) rfl
  rw [hla, hly]
  obtain ⟨r, hr, hvalue⟩ := wneg_spec (size_pos size) ly la
  refine ⟨r, hr, ?_⟩
  rw [Nat.mod_eq_of_lt (wrap_lt _ _), wrap, ← hvalue, Int.toNat_natCast]

theorem wcopy_leaves : LeavesWords size n env (.call (.wcopy wy x n)) (some a) := by
  apply leaves_bits (f := WideRt.wcopy (env.array wy) (env.array x) n) rfl
  obtain ⟨r, hr, hholds, hbits⟩ := wcopy_spec hy.holds ha.holds
  exact ⟨r, hr, hholds, fun k hk => by rw [hbits k hk, ha.bit]⟩

end Unary

end Calls

/-! ## Cells -/

theorem Delivers.of_run {s t : CStmt} {Y : SigSpec} {r : Option Nat} (h : Delivers size env t Y r)
    (hrun : run size s env = run size t env) : Delivers size env s Y r := by
  cases r with
  | none => exact hrun.trans h
  | some v =>
    obtain ⟨env', hrun', hstored⟩ := h
    exact ⟨env', hrun.trans hrun', hstored⟩

theorem run_ite {e : CExpr} {t : IntType} {m : Nat} (he : e.Has (Func.eval size) env t m)
    (s s' : CStmt) :
    run size (.ite e s s') env = if m ≠ 0 then run size s env else run size s' env := by
  rw [run, Stmt.run, he, Option.bind_some]
  by_cases hm : m ≠ 0
  · rw [if_pos hm, if_pos hm]
    rfl
  · rw [if_neg hm, if_neg hm]
    rfl

section Cells

variable {p : Shape} {c : Cell} {w : Wire} {offset width : Nat} {rest : List Chunk}

theorem LeavesWords.stored {ss : List CStmt} {r : Option Nat}
    (h : LeavesWords size n env (.block ss) r) (henv : WellFormed size env) (hc : c.Has nets p)
    (hchunks : chunks c.Y = .wire w offset width :: rest) (hlen : c.Y.length ≤ size.bits * n) :
    Delivers size env (.block (ss ++ [putVal n c.Y w offset])) c.Y r := by
  apply (h.delivers henv hc hchunks hlen).of_run
  rw [run_append, run_cons]

/-- The operands of a cell that reads both of them word by word. -/
theorem mapped_operands (hc : c.Has nets p) (hwords : p.type.wordsOfB = true) :
    (∀ b ∈ c.A, (nets.sigmap b).Valid) ∧ ∀ b ∈ c.B, (nets.sigmap b).Valid := by
  have hboth : c.materialized = c.A ++ c.B := by
    rw [← hc.type] at hwords
    unfold Cell.materialized
    unfold CellType.wordsOfB at hwords
    split <;> simp_all
  have hmapped := hc.mapped
  rw [hboth] at hmapped
  exact ⟨fun b hb => hmapped b (List.mem_append_left _ hb),
    fun b hb => hmapped b (List.mem_append_right _ hb)⟩

section Deliver

variable (henv : WellFormed size env) (hc : c.Has nets p) (hwords : p.type.wordsOfB = true)
  (hchunks : chunks c.Y = .wire w offset width :: rest)
include henv hc hwords hchunks

theorem emitWords_delivers {calls : Nat → List CStmt} {r : Option Nat}
    (hcalls : ∀ env' n y, n = nlimbs size (max p.yw (max p.aw p.bw)) →
      HasWords size n env' wa (rawOperand size nets env c.A) →
      HasWords size n env' wb (rawOperand size nets env c.B) → HasWords size n env' wy y →
      LeavesWords size n env' (.block (calls n)) r) :
    Delivers size env (emitWords size nets c w offset calls) c.Y r := by
  obtain ⟨n, hn⟩ : ∃ n, n = nlimbs size (max c.Y.length (max c.A.length c.B.length)) := ⟨_, rfl⟩
  have hle := le_nlimbs size (max c.Y.length (max c.A.length c.B.length))
  rw [← hn] at hle
  have hlen : c.Y.length ≤ size.bits * n ∧ c.A.length ≤ size.bits * n ∧ c.B.length ≤ size.bits * n := by
    omega
  obtain ⟨hA, hB⟩ := mapped_operands hc hwords
  obtain ⟨env', y, hrun, hwires, ha, hb, hy⟩ := operands_run henv hA hB hlen.2.1 hlen.2.2
  have hn' : n = nlimbs size (max p.yw (max p.aw p.bw)) := by rw [hn, hc.yw, hc.aw, hc.bw]
  have hleaves := hcalls env' n y hn' ha hb hy
  have hstored := hleaves.stored hwires.wellFormed hc hchunks hlen.1
  rw [emitWords, ← hn, List.append_assoc]
  exact Delivers.after _ hrun hwires hstored

theorem emitWord_delivers {calls : Nat → List CStmt} {r : Option Nat}
    (hcalls : ∀ env' n y, n = nlimbs size (max p.yw p.aw) →
      HasWords size n env' wa (rawOperand size nets env c.A) → HasWords size n env' wy y →
      LeavesWords size n env' (.block (calls n)) r) :
    Delivers size env (emitWord size nets c w offset calls) c.Y r := by
  obtain ⟨n, hn⟩ : ∃ n, n = nlimbs size (max c.Y.length c.A.length) := ⟨_, rfl⟩
  have hle := le_nlimbs size (max c.Y.length c.A.length)
  rw [← hn] at hle
  have hlen : c.Y.length ≤ size.bits * n ∧ c.A.length ≤ size.bits * n := by omega
  obtain ⟨env', y, hrun, hwires, ha, hy⟩ :=
    operand_run henv (mapped_operands hc hwords).1 hlen.2
  have hn' : n = nlimbs size (max p.yw p.aw) := by rw [hn, hc.yw, hc.aw]
  have hleaves := hcalls env' n y hn' ha hy
  have hstored := hleaves.stored hwires.wellFormed hc hchunks hlen.1
  rw [emitWord, ← hn, List.append_assoc]
  exact Delivers.after _ hrun hwires hstored

end Deliver

/-! ## Multiplexers -/

theorem emitMux_delivers (henv : WellFormed size env) (hc : c.Has nets p)
    (hwords : p.type.wordsOfB = true) (hlegal : p.aw = p.yw ∧ p.bw = p.yw ∧ p.sw = 1)
    (hchunks : chunks c.Y = .wire w offset width :: rest) (hn : c.Y.length ≤ size.bits * n) :
    Delivers size env (.block [declareWords size wa n, declareWords size wb n,
      declareWords size wy n, materialize size nets wa n c.A false,
      materialize size nets wb n c.B false,
      .ite (scalarOf size nets c.S) (.call (.wcopy wy wb n)) (.call (.wcopy wy wa n)),
      putVal n c.Y w offset]) c.Y
      (some (if operand size nets env c.S ≠ 0 then rawOperand size nets env c.B
        else rawOperand size nets env c.A)) := by
  have hlengths : c.A.length = c.Y.length ∧ c.B.length = c.Y.length := by
    rw [hc.aw, hc.bw, hc.yw]
    exact ⟨hlegal.1, hlegal.2.1⟩
  obtain ⟨hA, hB⟩ := mapped_operands hc hwords
  obtain ⟨env', y, hrun, hwires, ha, hb, hy⟩ :=
    operands_run henv hA hB (by rwa [hlengths.1]) (by rwa [hlengths.2])
  have hS := operand_lt size nets env c.S
  rw [hc.sw, hlegal.2.2] at hS
  have hselect := scalarOf_has hwires.wellFormed hc.S
  rw [hwires.operand, Nat.mod_eq_of_lt (by omega)] at hselect
  have hleaves : LeavesWords size n env'
      (.ite (scalarOf size nets c.S) (.call (.wcopy wy wb n)) (.call (.wcopy wy wa n)))
      (some (if operand size nets env c.S ≠ 0 then rawOperand size nets env c.B
        else rawOperand size nets env c.A)) := by
    rw [LeavesWords, run_ite hselect]
    split_ifs
    · exact wcopy_leaves hb hy
    · exact wcopy_leaves ha hy
  exact Delivers.after _ hrun hwires (hleaves.delivers hwires.wellFormed hc hchunks hn)

/-- The last of the indices whose bit is set decides. -/
theorem foldl_select (sel : Nat → Bool) (f : Nat → Nat) (is : List Nat) (v : Nat) :
    is.foldl (fun v i => if sel i then f i else v) v =
      match (is.filter sel).getLast? with
      | some i => f i
      | none => v := by
  induction is using List.reverseRecOn with
  | nil => rfl
  | append_singleton is i ih =>
    rw [List.foldl_append, List.filter_append, ih]
    by_cases hi : sel i = true
    · simp [hi]
    · simp [hi]

theorem rawOperand_extract (sig : SigSpec) (i m : Nat) :
    rawOperand size nets env (extract sig i m) = (rawOperand size nets env sig >>> i) % 2 ^ m := by
  have hmap : (extract sig i m).map nets.sigmap = extract (sig.map nets.sigmap) i m := by
    rw [extract, extract, List.map_take, List.map_drop]
  rw [rawOperand, hmap, value_extract, rawOperand]

theorem operand_extract (sig : SigSpec) (i m : Nat) :
    operand size nets env (extract sig i m) = (operand size nets env sig >>> i) % 2 ^ m := by
  rw [operand, resolve_extract, value_extract, operand]

theorem mem_extract {sig : SigSpec} {i m : Nat} {b : SigBit} (hb : b ∈ extract sig i m) : b ∈ sig :=
  List.mem_of_mem_drop (List.mem_of_mem_take hb)

/-- The cases of `$pmux`, each of which overwrites `_wy` when its select bit is set. -/
theorem cases_run (henv : WellFormed size env) (hc : c.Has nets p) (hwords : p.type.wordsOfB = true)
    (hn : c.Y.length ≤ size.bits * n) (is : List Nat) {v : Nat} (hy : HasWords size n env wy v) :
    ∃ env', run size (.block (is.map fun i =>
        .ite (scalarOf size nets (extract c.S i 1))
          (materialize size nets wy n (extract c.B (i * c.Y.length) c.Y.length) false) .skip)) env =
        some env' ∧ SameWires size env env' ∧
      HasWords size n env' wy (is.foldl (fun v i =>
        if (operand size nets env c.S).testBit i then
          (rawOperand size nets env c.B >>> (i * c.Y.length)) % 2 ^ c.Y.length
        else v) v) := by
  induction is generalizing env v with
  | nil => exact ⟨env, rfl, .refl henv, hy⟩
  | cons i is ih =>
    have hvalid : ∀ b ∈ nets.resolve (extract c.S i 1), b.Valid := by
      intro b hb
      rw [resolve_extract] at hb
      exact hc.S b (mem_extract hb)
    have hselect := scalarOf_has henv hvalid
    have hbit : operand size nets env (extract c.S i 1) % 2 ^ 64 =
        ((operand size nets env c.S).testBit i).toNat := by
      rw [operand_extract, pow_one, Nat.toNat_testBit, Nat.shiftRight_eq_div_pow]
      omega
    rw [hbit] at hselect
    obtain ⟨env₁, hrun₁, hwires₁, hy₁⟩ : ∃ env₁,
        run size (.ite (scalarOf size nets (extract c.S i 1))
          (materialize size nets wy n (extract c.B (i * c.Y.length) c.Y.length) false) .skip) env =
          some env₁ ∧ SameWires size env env₁ ∧
        HasWords size n env₁ wy (if (operand size nets env c.S).testBit i then
          (rawOperand size nets env c.B >>> (i * c.Y.length)) % 2 ^ c.Y.length else v) := by
      rw [run_ite hselect]
      by_cases hi : (operand size nets env c.S).testBit i = true
      · have hB : ∀ b ∈ extract c.B (i * c.Y.length) c.Y.length, (nets.sigmap b).Valid :=
          fun b hb => (mapped_operands hc hwords).2 b (mem_extract hb)
        have hlen := (List.length_take_le c.Y.length (c.B.drop (i * c.Y.length))).trans hn
        obtain ⟨env₁, hrun₁, hchange₁, hy₁⟩ := materialize_words henv hB hlen hy
        rw [rawOperand_extract] at hy₁
        rw [hi, if_pos (by decide), if_pos rfl]
        exact ⟨env₁, hrun₁, hchange₁.sameWires henv, hy₁⟩
      · rw [if_neg hi, Bool.not_eq_true] at *
        rw [hi, if_neg (by decide)]
        exact ⟨env, rfl, .refl henv, hy⟩
    obtain ⟨env₂, hrun₂, hwires₂, hy₂⟩ := ih hwires₁.wellFormed hy₁
    rw [hwires₁.operand, hwires₁.rawOperand] at hy₂
    refine ⟨env₂, ?_, hwires₁.trans hwires₂, hy₂⟩
    rw [List.map_cons, run_cons, hrun₁, Option.bind_some, hrun₂]

theorem emitPmux_delivers (henv : WellFormed size env) (hc : c.Has nets p)
    (hwords : p.type.wordsOfB = true) (haw : p.aw = p.yw)
    (hchunks : chunks c.Y = .wire w offset width :: rest) (hn : c.Y.length ≤ size.bits * n) :
    Delivers size env (.block ([declareWords size wy n, materialize size nets wy n c.A false] ++
      (List.range c.S.length).map (fun i =>
        .ite (scalarOf size nets (extract c.S i 1))
          (materialize size nets wy n (extract c.B (i * c.Y.length) c.Y.length) false) .skip) ++
      [putVal n c.Y w offset])) c.Y
      (some ((List.range c.S.length).foldl (fun v i =>
        if (operand size nets env c.S).testBit i then
          (rawOperand size nets env c.B >>> (i * c.Y.length)) % 2 ^ c.Y.length
        else v) (rawOperand size nets env c.A))) := by
  have hA : c.A.length ≤ size.bits * n := by
    rw [hc.aw, haw, ← hc.yw]
    exact hn
  obtain ⟨env₁, v, hrun₁, hchange₁, hy₁⟩ := declare_words size env "_wy" n
  have hwires₁ := hchange₁.sameWires henv
  obtain ⟨env₂, hrun₂, hchange₂, hy₂⟩ :=
    materialize_words hwires₁.wellFormed (mapped_operands hc hwords).1 hA hy₁
  rw [hwires₁.rawOperand] at hy₂
  have hwires₂ := hwires₁.trans (hchange₂.sameWires hwires₁.wellFormed)
  obtain ⟨env₃, hrun₃, hwires₃, hy₃⟩ :=
    cases_run hwires₂.wellFormed hc hwords hn (List.range c.S.length) hy₂
  rw [hwires₂.operand, hwires₂.rawOperand] at hy₃
  have hwires := hwires₂.trans hwires₃
  have hput := putVal_run hc.drives hwires.wellFormed hc.nodup hchunks hn hy₃
  apply Delivers.after _ _ hwires hput.single
  rw [run_append, run_cons, wy, hrun₁, Option.bind_some, run_single, hrun₂, Option.bind_some, ← wy,
    hrun₃]

end Cells

end Yosys.Rtlil
