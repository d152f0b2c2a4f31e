import Sv2ghdl.Yosys.BenchRun
import Sv2ghdl.Yosys.ConeFold

/-!
# What the lines of a bench netlist compute

`yosys/json2bench.py`: the nets of a valuation that satisfies the written lines carry what the cells of the module
compute, and the line of the next value of a register carries the value that the cell loads.
-/

open Python Vamos.Netlist.Expression

namespace Yosys.Bench

/-! ## The next values -/

namespace State

/-- The lines of the next values, `next_q = BUFF(dc)`. -/
def nextLines : List (Str × Str) → State → Option (List Line × State)
  | [], s => some ([], s)
  | d :: ds, s => do
    let (as, s) ← s.subst [d.2]
    let (ls, s) ← nextLines ds s
    return (⟨next d.1, str "BUFF", as⟩ :: ls, s)

theorem nextLines_state (ds : List (Str × Str)) (s : State) : (s.nextLines ds).map Prod.snd = s.nextData ds := by
  induction ds generalizing s with
  | nil => rfl
  | cons d ds ih =>
    rw [nextLines, nextData]
    cases hsubst : s.subst [d.2] with
    | none => rfl
    | some r =>
      obtain ⟨as, s'⟩ := r
      show Option.map Prod.snd ((s'.nextLines ds).bind _) = s'.nextData ds
      rw [← ih s']
      cases s'.nextLines ds <;> rfl

end State

/-- What is written, with the lines of the next values, which come before the other lines. -/
structure File extends Output where
  nexts : List Line

namespace Module

variable (P : Interpreter) (M : Module)

def benchFile (fuel : Nat) : Option File := do
  let s ← M.outPorts.foldlM State.outPort (M.start P)
  let s ← M.cells.foldlM State.cell s
  let s ← s.sweep P fuel
  let dffs := s.dffs.filter fun d => d.1 ∈ s.ppiNames
  let (nexts, s) ← s.nextLines dffs
  return ⟨⟨s.names, s.synth, s.inputs, dffs.map Prod.fst, s.outputs, s.lines⟩, nexts⟩

theorem benchFile_output (fuel : Nat) : (M.benchFile P fuel).map File.toOutput = M.bench P fuel := by
  unfold benchFile bench
  cases M.outPorts.foldlM State.outPort (M.start P) with
  | none => rfl
  | some s =>
    cases hcells : M.cells.foldlM State.cell s with
    | none => simp [hcells]
    | some s' =>
      cases hsweep : s'.sweep P fuel with
      | none => simp [hcells, hsweep]
      | some s'' =>
        simp only [hcells, hsweep, Option.bind_eq_bind, Option.bind_some]
        rw [← State.nextLines_state]
        cases s''.nextLines (s''.dffs.filter fun d => d.1 ∈ s''.ppiNames) <;> rfl

end Module

/-- The lines of the file, without the lines that name inputs and outputs. -/
def File.gates (F : File) : List Line := F.nexts ++ F.lines

/-! ## Valuations -/

/-- What the ops compute that are written. -/
def benchGate : Str → List Bool → Bool :=
  ConeSlice.gateValue fun op vs => if op = str "XNOR" then !Parity.xorAll vs else false

/-- A valuation that satisfies the lines. -/
def Holds (v : Str → Bool) (lines : List Line) : Prop := ∀ l ∈ lines, v l.target = benchGate l.op (l.args.map v)

/-- The value of a bit: only `"1"` is written as 1. -/
def Bit.value (names : Names) (v : Str → Bool) : Bit → Bool
  | .net b => v ((names.lookup b).getD [])
  | .const c => decide (¬ (c = str "0" ∨ c = str "x" ∨ c = str "z"))

/-- The value of a name that a gate is asked to read. -/
def argValue (v : Str → Bool) (n : Str) : Bool :=
  if n = str "#0" then false else if n = str "#1" then true else v n

section Gates

variable (a b : Bool)

theorem benchGate_buff : benchGate (str "BUFF") [a] = a := by
  simp +decide only [benchGate, ConeSlice.gateValue, if_true, List.headD]

theorem benchGate_not : benchGate (str "NOT") [a] = !a := by
  simp +decide only [benchGate, ConeSlice.gateValue, if_true, if_false, List.headD]

theorem benchGate_and : benchGate (str "AND") [a, b] = (a && b) := by
  simp +decide only [benchGate, ConeSlice.gateValue, if_true, if_false]
  simp

theorem benchGate_or : benchGate (str "OR") [a, b] = (a || b) := by
  simp +decide only [benchGate, ConeSlice.gateValue, if_true, if_false]
  simp

theorem benchGate_xor : benchGate (str "XOR") [a, b] = (a ^^ b) := by
  simp +decide only [benchGate, ConeSlice.gateValue, if_true, if_false]
  simp

theorem benchGate_mux (s : Bool) :
    benchGate (str "OR") [benchGate (str "AND") [a, benchGate (str "NOT") [s]], benchGate (str "AND") [b, s]] =
      if s then b else a := by
  rw [benchGate_not, benchGate_and, benchGate_and, benchGate_or]
  cases s <;> simp

end Gates

/-! ## Steps of the script -/

/-- The names that stand for the constants until a line is written. -/
def constNames : List Str := [str "#0", str "#1"]

theorem named_not_const (stem : Stem) (k : Nat) : stem.named k ∉ constNames :=
  fun h => named_not_special stem k (List.mem_of_mem_take (i := 2) h)

/-- A later state of the script. -/
structure Later (s s' : State) : Prop where
  lines : ∀ l ∈ s.lines, l ∈ s'.lines
  lookup : ∀ b n, s.names.lookup b = some n → s'.names.lookup b = some n
  dffs : ∀ d ∈ s.dffs, d ∈ s'.dffs

/-- No bit has the name of a constant, and the constant nets have their lines. -/
structure Sound (s : State) : Prop where
  names : ∀ e ∈ s.names, e.2 ∉ constNames
  root : ∀ r, s.c0root = some r → ∃ n, ⟨r, str "XOR", [n, n]⟩ ∈ s.lines
  pool : ∀ b ∈ s.c0pool, ∃ r, s.c0root = some r ∧ ⟨b, str "BUFF", [r]⟩ ∈ s.lines

/-- From `s` on the name carries what `f` gives for the names of the bits and the values of the nets. -/
def Carries (s : State) (n : Str) (f : Names → (Str → Bool) → Bool) : Prop :=
  ∀ s', Later s s' → ∀ v, Holds v s'.lines → argValue v n = f s'.names v

section Steps

variable {s s' s'' : State} {n y : Str} {f : Names → (Str → Bool) → Bool}

theorem Later.refl (s : State) : Later s s := ⟨fun _ h => h, fun _ _ h => h, fun _ h => h⟩

theorem Later.trans (h : Later s s') (h' : Later s' s'') : Later s s'' where
  lines l hl := h'.lines l (h.lines l hl)
  lookup b n hb := h'.lookup b n (h.lookup b n hb)
  dffs d hd := h'.dffs d (h.dffs d hd)

theorem Later.of_eq (hlines : s'.lines = s.lines) (hnames : s'.names = s.names) (hdffs : s'.dffs = s.dffs) :
    Later s s' := by
  constructor
  · rw [hlines]
    exact fun _ h => h
  · rw [hnames]
    exact fun _ _ h => h
  · rw [hdffs]
    exact fun _ h => h

theorem Later.holds (h : Later s s') {v : Str → Bool} (hv : Holds v s'.lines) : Holds v s.lines :=
  fun l hl => hv l (h.lines l hl)

theorem Carries.later (h : Carries s n f) (hl : Later s s') : Carries s' n f :=
  fun t ht => h t (hl.trans ht)

theorem later_addLine (s : State) (y op : Str) (args : List Str) : Later s (s.addLine y op args) where
  lines _ hl := List.mem_append_left _ hl
  lookup _ _ hb := hb
  dffs _ hd := hd

theorem mem_addLine (s : State) (y op : Str) (args : List Str) : ⟨y, op, args⟩ ∈ (s.addLine y op args).lines :=
  List.mem_append_right _ (List.mem_singleton_self _)

theorem Sound.addLine (h : Sound s) (y op : Str) (args : List Str) : Sound (s.addLine y op args) where
  names := h.names
  root r hr := (h.root r hr).imp fun _ hl => List.mem_append_left _ hl
  pool b hb := (h.pool b hb).imp fun _ hl => ⟨hl.1, List.mem_append_left _ hl.2⟩

theorem argValue_of_not_const {v : Str → Bool} (h : n ∉ constNames) : argValue v n = v n := by
  simp only [constNames, List.mem_cons, not_or] at h
  rw [argValue, if_neg h.1, if_neg h.2.1]

theorem newNet_step {stem : Stem} (h : Sound s) (hrun : s.newNet stem = (n, s')) :
    Later s s' ∧ Sound s' ∧ n ∉ constNames ∧ s'.lines = s.lines := by
  cases hrun
  exact ⟨.of_eq rfl rfl rfl, ⟨h.names, h.root, h.pool⟩, named_not_const stem _, rfl⟩

theorem bitName_step {b : Bit} (h : Sound s) (hrun : s.bitName b = (n, s')) :
    Later s s' ∧ Sound s' ∧ Carries s' n (fun names v => b.value names v) ∧
      ∀ id, b = .net id → s'.names.lookup id = some n ∧ n ∉ constNames := by
  cases b with
  | const c =>
    cases hrun
    refine ⟨.refl s, h, fun t _ v _ => ?_, fun id hid => by cases hid⟩
    unfold Bit.value
    split_ifs with hc
    · simp [argValue, hc]
    · have hne : ¬ str "#1" = str "#0" := by decide
      simp [argValue, hc, hne]
  | net id =>
    rw [State.bitName] at hrun
    have hcarries : ∀ {t : State} {m : Str}, t.names.lookup id = some m → m ∉ constNames →
        Carries t m fun names v => Bit.value names v (.net id) := by
      intro t m hm hspecial t' ht v _
      rw [argValue_of_not_const hspecial]
      show v m = v ((t'.names.lookup id).getD [])
      rw [ht.lookup id m hm]
      rfl
    cases hlookup : s.names.lookup id with
    | some m =>
      rw [hlookup] at hrun
      cases hrun
      have hspecial := h.names _ (Lookup.mem_of_lookup hlookup)
      exact ⟨.refl s, h, hcarries hlookup hspecial, fun id' hid => by cases hid; exact ⟨hlookup, hspecial⟩⟩
    | none =>
      rw [hlookup] at hrun
      cases hrun
      have hspecial := named_not_const .n (s.uid + 1)
      have hnew : List.lookup id ((id, Stem.n.named (s.uid + 1)) :: s.names) = some (Stem.n.named (s.uid + 1)) := by
        simp [List.lookup]
      refine ⟨⟨fun _ hl => hl, fun b m hb => ?_, fun _ hd => hd⟩, ⟨fun e he => ?_, h.root, h.pool⟩,
        hcarries hnew hspecial, fun id' hid => by cases hid; exact ⟨hnew, hspecial⟩⟩
      · show List.lookup b ((id, _) :: s.names) = some m
        rw [List.lookup_cons]
        by_cases heq : b = id
        · rw [heq, hlookup] at hb
          cases hb
        · rw [beq_eq_false_iff_ne.mpr heq]
          exact hb
      · rcases List.mem_cons.mp he with rfl | he
        · exact hspecial
        · exact h.names e he

/-! ## Constants -/

theorem constRoot_step (h : Sound s) (hrun : s.constRoot = (n, s')) :
    Later s s' ∧ Sound s' ∧ s'.c0root = some n := by
  rw [State.constRoot] at hrun
  cases hroot : s.c0root with
  | some root =>
    rw [hroot] at hrun
    cases hrun
    exact ⟨.refl s, h, hroot⟩
  | none =>
    rw [hroot] at hrun
    rcases hnew : s.newNet .const0 with ⟨root, s₁⟩
    simp only [hnew] at hrun
    cases hrun
    obtain ⟨hlater, hsound, -, -⟩ := newNet_step h hnew
    have hset : Later s₁ { s₁ with c0root := some n } := .of_eq rfl rfl rfl
    refine ⟨(hlater.trans hset).trans (later_addLine _ _ _ _), ⟨hsound.names, fun r hr => ?_, fun b hb => ?_⟩, rfl⟩
    · cases hr
      exact ⟨_, mem_addLine _ _ _ _⟩
    · obtain ⟨r, hr, -⟩ := hsound.pool b hb
      have hsame : s₁.c0root = s.c0root := by
        cases hnew
        rfl
      rw [hsame, hroot] at hr
      cases hr

theorem constBuffer_step (h : Sound s) (hroot : s.c0root = some n) :
    Later s (s.constBuffer n) ∧ Sound (s.constBuffer n) := by
  rw [State.constBuffer]
  split_ifs
  · rcases hnew : s.newNet .c0b with ⟨b, s₁⟩
    obtain ⟨hlater, hsound, -, -⟩ := newNet_step h hnew
    have hsame : s₁.c0root = some n := by
      cases hnew
      exact hroot
    refine ⟨hlater.trans ((later_addLine s₁ b (str "BUFF") [n]).trans (.of_eq rfl rfl rfl)), ?_⟩
    have hline := hsound.addLine b (str "BUFF") [n]
    refine ⟨hline.names, hline.root, fun c hc => ?_⟩
    rcases List.mem_append.mp hc with hc | hc
    · exact hline.pool c hc
    · rw [List.mem_singleton.mp hc]
      exact ⟨n, hsame, mem_addLine _ _ _ _⟩
  · exact ⟨.refl s, h⟩

theorem const0_step (h : Sound s) (hrun : s.const0 = some (n, s')) :
    Later s s' ∧ Sound s' ∧ ∀ v, Holds v s'.lines → v n = false := by
  rw [State.const0] at hrun
  rcases hroot : s.constRoot with ⟨root, s₁⟩
  rw [hroot] at hrun
  obtain ⟨hlater, hsound, hr⟩ := constRoot_step h hroot
  obtain ⟨hlater', hsound'⟩ := constBuffer_step hsound hr
  obtain ⟨m, hm, heq⟩ := Option.map_eq_some_iff.mp hrun
  cases heq
  refine ⟨(hlater.trans hlater').trans (.of_eq rfl rfl rfl), ⟨hsound'.names, hsound'.root, hsound'.pool⟩,
    fun v hv => ?_⟩
  obtain ⟨r, hr, hbuff⟩ := hsound'.pool n (List.mem_of_getElem? hm)
  obtain ⟨i, hxor⟩ := hsound'.root r hr
  have hzero : v r = false := by
    rw [hv _ hxor]
    exact (benchGate_xor (v i) (v i)).trans (Bool.xor_self _)
  rw [hv _ hbuff]
  exact (benchGate_buff (v r)).trans hzero

theorem const1_step (h : Sound s) (hrun : s.const1 = some (n, s')) :
    Later s s' ∧ Sound s' ∧ ∀ v, Holds v s'.lines → v n = true := by
  rw [State.const1] at hrun
  rcases hnew : s.newNet .const1 with ⟨c1, s₁⟩
  rw [hnew] at hrun
  obtain ⟨⟨c0, s₂⟩, hc0, hrun⟩ := Option.bind_eq_some_iff.mp hrun
  cases hrun
  obtain ⟨hlater₁, hsound₁, -, -⟩ := newNet_step h hnew
  obtain ⟨hlater₂, hsound₂, hzero⟩ := const0_step hsound₁ hc0
  refine ⟨(hlater₁.trans hlater₂).trans (later_addLine _ _ _ _), hsound₂.addLine _ _ _, fun v hv => ?_⟩
  rw [hv _ (mem_addLine s₂ n (str "NOT") [c0])]
  have hc0 : v c0 = false := hzero v fun l hl => hv l (List.mem_append_left _ hl)
  exact (benchGate_not (v c0)).trans (by rw [hc0]; rfl)

theorem substOne_step {i : Str} (h : Sound s) (hrun : s.substOne i = some (n, s')) :
    Later s s' ∧ Sound s' ∧ ∀ v, Holds v s'.lines → v n = argValue v i := by
  unfold State.substOne at hrun
  unfold argValue
  split_ifs at hrun ⊢
  · exact const0_step h hrun
  · exact const1_step h hrun
  · cases hrun
    exact ⟨.refl s, h, fun _ _ => rfl⟩

theorem subst_step {is as : List Str} (h : Sound s) (hrun : s.subst is = some (as, s')) :
    Later s s' ∧ Sound s' ∧ ∀ v, Holds v s'.lines → as.map v = is.map (argValue v) := by
  induction is generalizing s as with
  | nil =>
    cases hrun
    exact ⟨.refl _, h, fun _ _ => rfl⟩
  | cons i is ih =>
    rw [State.subst] at hrun
    obtain ⟨⟨a, s₁⟩, hone, hrun⟩ := Option.bind_eq_some_iff.mp hrun
    obtain ⟨⟨as', s₂⟩, hrest, hrun⟩ := Option.bind_eq_some_iff.mp hrun
    cases hrun
    obtain ⟨hlater₁, hsound₁, hfirst⟩ := substOne_step h hone
    obtain ⟨hlater₂, hsound₂, hvalues⟩ := ih hsound₁ hrest
    refine ⟨hlater₁.trans hlater₂, hsound₂, fun v hv => ?_⟩
    rw [List.map_cons, List.map_cons, hfirst v (hlater₂.holds hv), hvalues v hv]

theorem carries_map {ins : List Str} {fs : List (Names → (Str → Bool) → Bool)}
    (hins : List.Forall₂ (Carries s) ins fs) (hl : Later s s') {v : Str → Bool} (hv : Holds v s'.lines) :
    ins.map (argValue v) = fs.map fun f => f s'.names v := by
  induction hins with
  | nil => rfl
  | cons hfirst _ ih => exact congrArg₂ List.cons (hfirst s' hl v hv) ih

theorem Carries.congr {g : Names → (Str → Bool) → Bool} (h : Carries s n f) (heq : ∀ names v, f names v = g names v) :
    Carries s n g :=
  fun t ht v hv => (h t ht v hv).trans (heq t.names v)

/-- A gate carries what its op makes of what its inputs carry. -/
theorem gate_step {op : String} {ins : List Str} {fs : List (Names → (Str → Bool) → Bool)} (h : Sound s)
    (hins : List.Forall₂ (Carries s) ins fs) (hrun : s.gate op y ins = some s') :
    Later s s' ∧ Sound s' ∧ ∀ t, Later s' t → ∀ v, Holds v t.lines →
      v y = benchGate (str op) (fs.map fun f => f t.names v) := by
  rw [State.gate] at hrun
  obtain ⟨⟨as, s₁⟩, hsubst, hrun⟩ := Option.bind_eq_some_iff.mp hrun
  cases hrun
  obtain ⟨hlater, hsound, hvalues⟩ := subst_step h hsubst
  have hline := later_addLine s₁ y (str op) as
  refine ⟨hlater.trans hline, hsound.addLine _ _ _, fun t ht v hv => ?_⟩
  rw [hv _ (ht.lines _ (mem_addLine s₁ y (str op) as)), hvalues v ((hline.trans ht).holds hv)]
  rw [carries_map hins ((hlater.trans hline).trans ht) hv]

/-- A net that the script made carries what its line says. -/
theorem gate_carries {op : String} {ins : List Str} {fs : List (Names → (Str → Bool) → Bool)} (h : Sound s)
    (hins : List.Forall₂ (Carries s) ins fs) (hy : y ∉ constNames) (hrun : s.gate op y ins = some s') :
    Later s s' ∧ Sound s' ∧ Carries s' y fun names v => benchGate (str op) (fs.map fun f => f names v) := by
  obtain ⟨hlater, hsound, hvalue⟩ := gate_step h hins hrun
  refine ⟨hlater, hsound, fun t ht v hv => ?_⟩
  rw [argValue_of_not_const hy]
  exact hvalue t ht v hv

end Steps

/-! ## What cells compute -/

/-- The value at a port of a cell. -/
def Cell.port (c : Cell) (names : Names) (v : Str → Bool) (p : String) : Bool :=
  ((c.bit p).map fun b => b.value names v).getD false

/-- `ract`: whether a reset of the given polarities is active. -/
def resetActive (pol : Str) (r : Bool) : Bool := if pol[1]? = some ('P' : CodePoint) then r else !r

/-- The data with a reset of the given polarities folded in. -/
def resetValue (pol : Str) (r d : Bool) : Bool :=
  if pol[2]? = some ('0' : CodePoint) then d && !resetActive pol r else d || resetActive pol r

/-- The data with an enable folded in. -/
def enableValue (e d q : Bool) : Bool := d && e || q && !e

/-- The data of a register with its synchronous reset. -/
def Cell.resetData (c : Cell) (port : String → Bool) : Bool :=
  if (str "$_SDFF").isPrefixOf c.type then resetValue ((c.typePart 2).getD []) (port "R") (port "D") else port "D"

/-- What is written as the next value of a register. -/
def Cell.loaded (c : Cell) (port : String → Bool) : Bool :=
  if ('E' : CodePoint) ∈ (c.typePart 1).getD [] then enableValue (port "E") (c.resetData port) (port "Q")
  else c.resetData port

/-- What the lines of a cell that is no register give. -/
def Cell.gives (c : Cell) (port : String → Bool) : Bool :=
  match simpleOp c.type with
  | some op => benchGate (str op) ((["A", "B"].filter c.has).map port)
  | none => if port "S" then port "B" else port "A"

/-- The cells of one input. -/
def unary : List Str := [str "$_NOT_", str "$_BUF_"]

/-- What the primitive cells compute. -/
def primitive (t : Str) (a b s : Bool) : Bool :=
  if t = str "$_AND_" then a && b
  else if t = str "$_OR_" then a || b
  else if t = str "$_NAND_" then !(a && b)
  else if t = str "$_NOR_" then !(a || b)
  else if t = str "$_XOR_" then a ^^ b
  else if t = str "$_XNOR_" then !(a ^^ b)
  else if t = str "$_NOT_" then !a
  else if t = str "$_BUF_" then a
  else if s then b else a

/-! ### Registers -/

/-- The synchronous registers, with the active levels of clock, reset and enable and with the value of the reset. -/
inductive FlopType where
  | dff (clk : Bool)
  | dffe (clk en : Bool)
  | sdff (clk rst val : Bool)
  | sdffe (clk rst val en : Bool)
  | sdffce (clk rst val en : Bool)

namespace FlopType

def level (b : Bool) : String := if b then "P" else "N"

def digit (b : Bool) : String := if b then "1" else "0"

def text : FlopType → String
  | dff clk => "$_DFF_" ++ level clk ++ "_"
  | dffe clk en => "$_DFFE_" ++ level clk ++ level en ++ "_"
  | sdff clk rst val => "$_SDFF_" ++ level clk ++ level rst ++ digit val ++ "_"
  | sdffe clk rst val en => "$_SDFFE_" ++ level clk ++ level rst ++ digit val ++ level en ++ "_"
  | sdffce clk rst val en => "$_SDFFCE_" ++ level clk ++ level rst ++ digit val ++ level en ++ "_"

/-- The value after the clock: the reset of `sdffe` goes before the enable, that of `sdffce` after it. -/
def next : FlopType → Bool → Bool → Bool → Bool → Bool
  | dff _, d, _, _, _ => d
  | dffe _ en, d, q, _, e => if e = en then d else q
  | sdff _ rst val, d, _, r, _ => if r = rst then val else d
  | sdffe _ rst val en, d, q, r, e => if r = rst then val else if e = en then d else q
  | sdffce _ rst val en, d, q, r, e => if e = en then if r = rst then val else d else q

/-- The value that is written: every enable is taken as active high and as going before the reset. -/
def folded : FlopType → Bool → Bool → Bool → Bool → Bool
  | dff _, d, _, _, _ => d
  | dffe _ _, d, q, _, e => enableValue e d q
  | sdff _ rst val, d, _, r, _ => if r = rst then val else d
  | sdffe _ rst val _, d, q, r, e | sdffce _ rst val _, d, q, r, e => enableValue e (if r = rst then val else d) q

/-- The types whose enable is what it is taken as. -/
def folds : FlopType → Bool
  | dff _ | sdff _ _ _ => true
  | dffe _ en | sdffce _ _ _ en => en
  | sdffe _ _ _ _ => false

theorem folded_iff (T : FlopType) : (∀ d q r e, T.folded d q r e = T.next d q r e) ↔ T.folds = true := by
  cases T with
  | dff clk => revert clk; decide
  | dffe clk en => revert clk en; decide
  | sdff clk rst val => revert clk rst val; decide
  | sdffe clk rst val en => revert clk rst val en; decide
  | sdffce clk rst val en => revert clk rst val en; decide

end FlopType

section Cells

variable {s s' : State} {c : Cell} {n q : Str} {f g : Names → (Str → Bool) → Bool}

theorem port_of_bit {p : String} {b : Bit} (h : c.bit p = some b) (names : Names) (v : Str → Bool) :
    c.port names v p = b.value names v := by
  rw [Cell.port, h]
  rfl

theorem isDff_of_simpleOp {op : String} (h : simpleOp c.type = some op) : c.isDff = false := by
  rw [simpleOp] at h
  obtain ⟨e, he, heq⟩ := List.exists_of_findSome?_eq_some h
  split_ifs at heq with htype
  rw [Cell.isDff, ← htype]
  exact List.forall_iff_forall_mem.mp (by decide : List.Forall (fun e : String × String =>
    ((str "$_DFF").isPrefixOf (str e.1) || (str "$_SDFF").isPrefixOf (str e.1)) = false)
    [("$_AND_", "AND"), ("$_OR_", "OR"), ("$_NAND_", "NAND"), ("$_NOR_", "NOR"),
      ("$_XOR_", "XOR"), ("$_XNOR_", "XNOR"), ("$_NOT_", "NOT"), ("$_BUF_", "BUFF")]) e he

theorem foldReset_step (h : Sound s) (hd : Carries s n f) {nd : Str} (hrun : s.foldReset c n = some (nd, s')) :
    Later s s' ∧ Sound s' ∧
      Carries s' nd fun names v => resetValue ((c.typePart 2).getD []) (c.port names v "R") (f names v) := by
  rw [State.foldReset] at hrun
  obtain ⟨br, hbr, hrun⟩ := Option.bind_eq_some_iff.mp hrun
  rcases hr : s.bitName br with ⟨r, s₁⟩
  rw [hr] at hrun
  obtain ⟨pol, hpol, hrun⟩ := Option.bind_eq_some_iff.mp hrun
  obtain ⟨rpol, hrpol, hrun⟩ := Option.bind_eq_some_iff.mp hrun
  obtain ⟨rval, hrval, hrun⟩ := Option.bind_eq_some_iff.mp hrun
  obtain ⟨⟨ract, s₂⟩, hract, hrun⟩ := Option.bind_eq_some_iff.mp hrun
  obtain ⟨hlater₁, hsound₁, hcarries₁, -⟩ := bitName_step h hr
  -- the reset, turned to active high
  have hactive : Later s₁ s₂ ∧ Sound s₂ ∧ Carries s₂ ract fun names v => resetActive pol (c.port names v "R") := by
    simp only [port_of_bit hbr, resetActive, hrpol, Option.some.injEq]
    split_ifs at hract ⊢
    · cases hract
      exact ⟨.refl _, hsound₁, hcarries₁⟩
    · rcases hnr : s₁.newNet .n with ⟨nr, s₃⟩
      rw [hnr] at hract
      obtain ⟨s₄, hnot, heq⟩ := Option.map_eq_some_iff.mp hract
      cases heq
      obtain ⟨hlater₃, hsound₃, hname, -⟩ := newNet_step hsound₁ hnr
      obtain ⟨hlater₄, hsound₄, hcarries⟩ :=
        gate_carries hsound₃ (.cons (hcarries₁.later hlater₃) .nil) hname hnot
      refine ⟨hlater₃.trans hlater₄, hsound₄, hcarries.congr fun names v => ?_⟩
      exact benchGate_not (br.value names v)
  obtain ⟨hlater₂, hsound₂, hcarries₂⟩ := hactive
  have hd₂ := hd.later (hlater₁.trans hlater₂)
  rcases hnd : s₂.newNet .n with ⟨m, s₃⟩
  simp only [hnd] at hrun
  obtain ⟨hlater₃, hsound₃, hname, -⟩ := newNet_step hsound₂ hnd
  have hto₃ := (hlater₁.trans hlater₂).trans hlater₃
  have hpart : (c.typePart 2).getD [] = pol := by rw [hpol]; rfl
  simp only [hpart, resetValue, hrval, Option.some.injEq]
  split_ifs at hrun ⊢ with hzero
  · rcases hna : s₃.newNet .n with ⟨na, s₄⟩
    simp only [hna] at hrun
    obtain ⟨s₅, hnot, hrun⟩ := Option.bind_eq_some_iff.mp hrun
    obtain ⟨s₆, hand, heq⟩ := Option.bind_eq_some_iff.mp hrun
    cases heq
    obtain ⟨hlater₄, hsound₄, hname₄, -⟩ := newNet_step hsound₃ hna
    obtain ⟨hlater₅, hsound₅, hcarries₅⟩ :=
      gate_carries hsound₄ (.cons (hcarries₂.later (hlater₃.trans hlater₄)) .nil) hname₄ hnot
    have hd₅ := hd₂.later ((hlater₃.trans hlater₄).trans hlater₅)
    obtain ⟨hlater₆, hsound₆, hcarries₆⟩ := gate_carries hsound₅ (.cons hd₅ (.cons hcarries₅ .nil)) hname hand
    refine ⟨((hto₃.trans hlater₄).trans hlater₅).trans hlater₆, hsound₆, hcarries₆.congr fun names v => ?_⟩
    show benchGate (str "AND") [f names v, benchGate (str "NOT") [_]] = _
    rw [benchGate_not, benchGate_and]
  · obtain ⟨s₄, hor, heq⟩ := Option.bind_eq_some_iff.mp hrun
    cases heq
    have hins : List.Forall₂ (Carries s₃) [n, ract] _ :=
      .cons (hd₂.later hlater₃) (.cons (hcarries₂.later hlater₃) .nil)
    obtain ⟨hlater₄, hsound₄, hcarries₄⟩ := gate_carries hsound₃ hins hname hor
    refine ⟨hto₃.trans hlater₄, hsound₄, hcarries₄.congr fun names v => ?_⟩
    exact benchGate_or _ _

theorem foldEnable_step (h : Sound s) (hq : Carries s q g) (hd : Carries s n f) {nd : Str}
    (hrun : s.foldEnable c q n = some (nd, s')) :
    Later s s' ∧ Sound s' ∧
      Carries s' nd fun names v => enableValue (c.port names v "E") (f names v) (g names v) := by
  rw [State.foldEnable] at hrun
  obtain ⟨be, hbe, hrun⟩ := Option.bind_eq_some_iff.mp hrun
  rcases he : s.bitName be with ⟨e, s₁⟩
  rcases hne : s₁.newNet .n with ⟨ne, s₂⟩
  rcases ht1 : s₂.newNet .n with ⟨t1, s₃⟩
  rcases ht2 : s₃.newNet .n with ⟨t2, s₄⟩
  rcases hnd : s₄.newNet .n with ⟨m, s₅⟩
  simp only [he, hne, ht1, ht2, hnd] at hrun
  obtain ⟨s₆, hnot, hrun⟩ := Option.bind_eq_some_iff.mp hrun
  obtain ⟨s₇, hand1, hrun⟩ := Option.bind_eq_some_iff.mp hrun
  obtain ⟨s₈, hand2, hrun⟩ := Option.bind_eq_some_iff.mp hrun
  obtain ⟨s₉, hor, heq⟩ := Option.bind_eq_some_iff.mp hrun
  cases heq
  obtain ⟨hl₁, h₁, hcarries, -⟩ := bitName_step h he
  obtain ⟨hl₂, h₂, hname₂, -⟩ := newNet_step h₁ hne
  obtain ⟨hl₃, h₃, hname₃, -⟩ := newNet_step h₂ ht1
  obtain ⟨hl₄, h₄, hname₄, -⟩ := newNet_step h₃ ht2
  obtain ⟨hl₅, h₅, hname₅, -⟩ := newNet_step h₄ hnd
  have hto₅ : Later s₁ s₅ := ((hl₂.trans hl₃).trans hl₄).trans hl₅
  have he₅ := hcarries.later hto₅
  have hq₅ := hq.later (hl₁.trans hto₅)
  have hd₅ := hd.later (hl₁.trans hto₅)
  obtain ⟨hl₆, h₆, hcarries₆⟩ := gate_carries h₅ (.cons he₅ .nil) hname₂ hnot
  obtain ⟨hl₇, h₇, hcarries₇⟩ := gate_carries h₆ (.cons (hd₅.later hl₆) (.cons (he₅.later hl₆) .nil)) hname₃ hand1
  obtain ⟨hl₈, h₈, hcarries₈⟩ := gate_carries h₇ (.cons (hq₅.later (hl₆.trans hl₇))
    (.cons (hcarries₆.later hl₇) .nil)) hname₄ hand2
  obtain ⟨hl₉, h₉, hcarries₉⟩ := gate_carries h₈ (.cons (hcarries₇.later hl₈) (.cons hcarries₈ .nil)) hname₅ hor
  refine ⟨(hl₁.trans hto₅).trans (((hl₆.trans hl₇).trans hl₈).trans hl₉), h₉, hcarries₉.congr fun names v => ?_⟩
  show benchGate (str "OR") [benchGate (str "AND") [_, _], benchGate (str "AND") [_, benchGate (str "NOT") [_]]] = _
  rw [benchGate_not, benchGate_and, benchGate_and, benchGate_or, port_of_bit hbe]
  rfl

theorem bitNames_step {bs : List Bit} {ns : List Str} (h : Sound s) (hrun : s.bitNames bs = (ns, s')) :
    Later s s' ∧ Sound s' ∧ List.Forall₂ (Carries s') ns (bs.map fun b names v => b.value names v) := by
  induction bs generalizing s ns with
  | nil =>
    cases hrun
    exact ⟨.refl _, h, .nil⟩
  | cons b bs ih =>
    rw [State.bitNames] at hrun
    rcases hb : s.bitName b with ⟨n, s₁⟩
    rcases hbs : s₁.bitNames bs with ⟨ns', s₂⟩
    simp only [hb, hbs] at hrun
    cases hrun
    obtain ⟨hlater₁, hsound₁, hcarries, -⟩ := bitName_step h hb
    obtain ⟨hlater₂, hsound₂, hrest⟩ := ih hsound₁ hbs
    exact ⟨hlater₁.trans hlater₂, hsound₂, .cons (hcarries.later hlater₂) hrest⟩

/-- The ports that a simple cell reads, in order. -/
theorem mapM_bit {ps : List String} {bs : List Bit} (h : ps.mapM c.bit = some bs) (names : Names) (v : Str → Bool) :
    bs.map (fun b => b.value names v) = ps.map (c.port names v) := by
  induction ps generalizing bs with
  | nil =>
    cases h
    rfl
  | cons p ps ih =>
    rw [List.mapM_cons] at h
    obtain ⟨b, hb, h⟩ := Option.bind_eq_some_iff.mp h
    obtain ⟨bs', hbs, heq⟩ := Option.bind_eq_some_iff.mp h
    cases heq
    rw [List.map_cons, List.map_cons, ih hbs, port_of_bit hb]

/-- What the lines of a cell say, from the state after the cell on. -/
structure Written (s : State) (c : Cell) : Prop where
  gives : (simpleOp c.type).isSome ∨ c.type = str "$_MUX_" → ∀ id, c.bit "Y" = some (.net id) →
    ∀ t, Later s t → ∀ v, Holds v t.lines → (Bit.net id).value t.names v = c.gives (c.port t.names v)
  loads : ∀ id, c.register = some (.net id) → ∃ d ∈ s.dffs, s.names.lookup id = some d.1 ∧
    Carries s d.2 fun names v => c.loaded (c.port names v)

theorem Written.later (h : Written s c) (hl : Later s s') : Written s' c where
  gives hgate id hid t ht := h.gives hgate id hid t (hl.trans ht)
  loads id hid := by
    obtain ⟨d, hd, hlookup, hcarries⟩ := h.loads id hid
    exact ⟨d, hl.dffs d hd, hl.lookup id d.1 hlookup, hcarries.later hl⟩

theorem value_of_lookup {names : Names} {id : Nat} (h : names.lookup id = some n) (v : Str → Bool) :
    (Bit.net id).value names v = v n := by
  show v ((names.lookup id).getD []) = v n
  rw [h]
  rfl

theorem simple_step {op : String} (h : Sound s) (hop : simpleOp c.type = some op) (hrun : s.simple c op = some s') :
    Later s s' ∧ Sound s' ∧ Written s' c := by
  rw [State.simple] at hrun
  obtain ⟨by', hy, hrun⟩ := Option.bind_eq_some_iff.mp hrun
  rcases hname : s.bitName by' with ⟨y, s₁⟩
  rw [hname] at hrun
  obtain ⟨bs, hbs, hrun⟩ := Option.bind_eq_some_iff.mp hrun
  rcases hins : s₁.bitNames bs with ⟨ins, s₂⟩
  rw [hins] at hrun
  obtain ⟨hlater₁, hsound₁, -, hlookup⟩ := bitName_step h hname
  obtain ⟨hlater₂, hsound₂, hcarries⟩ := bitNames_step hsound₁ hins
  obtain ⟨hlater₃, hsound₃, hvalue⟩ := gate_step hsound₂ hcarries hrun
  refine ⟨(hlater₁.trans hlater₂).trans hlater₃, hsound₃, fun _ id hid t ht v hv => ?_, fun id hid => ?_⟩
  · have hb := (hlookup id (Option.some.inj (hy.symm.trans hid))).1
    rw [value_of_lookup (ht.lookup _ _ (hlater₃.lookup _ _ (hlater₂.lookup _ _ hb))), hvalue t ht v hv, Cell.gives,
      hop, ← mapM_bit hbs, List.map_map]
    rfl
  · rw [Cell.register, if_neg (by simp [isDff_of_simpleOp hop])] at hid
    cases hid

theorem mux_step (h : Sound s) (hmux : c.type = str "$_MUX_") (hrun : s.mux c = some s') :
    Later s s' ∧ Sound s' ∧ Written s' c := by
  rw [State.mux] at hrun
  obtain ⟨ba, hba, hrun⟩ := Option.bind_eq_some_iff.mp hrun
  rcases ha : s.bitName ba with ⟨a, s₁⟩
  rw [ha] at hrun
  obtain ⟨bb, hbb, hrun⟩ := Option.bind_eq_some_iff.mp hrun
  rcases hb : s₁.bitName bb with ⟨b, s₂⟩
  rw [hb] at hrun
  obtain ⟨bs, hbs, hrun⟩ := Option.bind_eq_some_iff.mp hrun
  rcases hs : s₂.bitName bs with ⟨sel, s₃⟩
  rw [hs] at hrun
  obtain ⟨by', hby, hrun⟩ := Option.bind_eq_some_iff.mp hrun
  rcases hy : s₃.bitName by' with ⟨y, s₄⟩
  rcases hns : s₄.newNet .n with ⟨ns, s₅⟩
  rcases ht1 : s₅.newNet .n with ⟨t1, s₆⟩
  rcases ht2 : s₆.newNet .n with ⟨t2, s₇⟩
  simp only [hy, hns, ht1, ht2] at hrun
  obtain ⟨s₈, hnot, hrun⟩ := Option.bind_eq_some_iff.mp hrun
  obtain ⟨s₉, hand1, hrun⟩ := Option.bind_eq_some_iff.mp hrun
  obtain ⟨s₁₀, hand2, hor⟩ := Option.bind_eq_some_iff.mp hrun
  obtain ⟨hl₁, h₁, hca, -⟩ := bitName_step h ha
  obtain ⟨hl₂, h₂, hcb, -⟩ := bitName_step h₁ hb
  obtain ⟨hl₃, h₃, hcs, -⟩ := bitName_step h₂ hs
  obtain ⟨hl₄, h₄, -, hlookup⟩ := bitName_step h₃ hy
  obtain ⟨hl₅, h₅, hname₅, -⟩ := newNet_step h₄ hns
  obtain ⟨hl₆, h₆, hname₆, -⟩ := newNet_step h₅ ht1
  obtain ⟨hl₇, h₇, hname₇, -⟩ := newNet_step h₆ ht2
  have hfrom₃ : Later s₃ s₇ := ((hl₄.trans hl₅).trans hl₆).trans hl₇
  have ha₇ := hca.later ((hl₂.trans hl₃).trans hfrom₃)
  have hb₇ := hcb.later (hl₃.trans hfrom₃)
  have hs₇ := hcs.later hfrom₃
  obtain ⟨hl₈, h₈, hc₈⟩ := gate_carries h₇ (.cons hs₇ .nil) hname₅ hnot
  obtain ⟨hl₉, h₉, hc₉⟩ := gate_carries h₈ (.cons (ha₇.later hl₈) (.cons hc₈ .nil)) hname₆ hand1
  obtain ⟨hl₁₀, h₁₀, hc₁₀⟩ := gate_carries h₉ (.cons (hb₇.later (hl₈.trans hl₉))
    (.cons (hs₇.later (hl₈.trans hl₉)) .nil)) hname₇ hand2
  obtain ⟨hl₁₁, h₁₁, hvalue⟩ := gate_step h₁₀ (.cons (hc₉.later hl₁₀) (.cons hc₁₀ .nil)) hor
  have hfrom₇ : Later s₇ s' := ((hl₈.trans hl₉).trans hl₁₀).trans hl₁₁
  refine ⟨((hl₁.trans hl₂).trans hl₃).trans (hfrom₃.trans hfrom₇), h₁₁, fun _ id hid t ht v hv => ?_,
    fun id hid => ?_⟩
  · have hb := (hlookup id (Option.some.inj (hby.symm.trans hid))).1
    have hfrom₄ : Later s₄ t := (((hl₅.trans hl₆).trans hl₇).trans hfrom₇).trans ht
    have hnone : simpleOp (str "$_MUX_") = none := by decide
    rw [value_of_lookup (hfrom₄.lookup _ _ hb), hvalue t ht v hv, Cell.gives, hmux, hnone, port_of_bit hba,
      port_of_bit hbb, port_of_bit hbs]
    exact benchGate_mux _ _ _
  · have hdff : c.isDff = false := by rw [Cell.isDff, hmux]; decide
    rw [Cell.register, hdff] at hid
    cases hid

theorem dff_step (h : Sound s) (hdff : c.isDff) (hnone : simpleOp c.type = none) (hmux : ¬ c.type = str "$_MUX_")
    (hrun : s.dff c = some s') : Later s s' ∧ Sound s' ∧ Written s' c := by
  rw [State.dff] at hrun
  obtain ⟨bq, hbq, hrun⟩ := Option.bind_eq_some_iff.mp hrun
  rcases hq : s.bitName bq with ⟨q, s₁⟩
  rw [hq] at hrun
  obtain ⟨bd, hbd, hrun⟩ := Option.bind_eq_some_iff.mp hrun
  rcases hd : s₁.bitName bd with ⟨d, s₂⟩
  rw [hd] at hrun
  obtain ⟨⟨d₁, s₃⟩, hreset, hrun⟩ := Option.bind_eq_some_iff.mp hrun
  obtain ⟨part, hpart, hrun⟩ := Option.bind_eq_some_iff.mp hrun
  obtain ⟨⟨d₂, s₄⟩, henable, hrun⟩ := Option.bind_eq_some_iff.mp hrun
  cases hrun
  obtain ⟨hl₁, h₁, hcq, hlookup⟩ := bitName_step h hq
  obtain ⟨hl₂, h₂, hcd, -⟩ := bitName_step h₁ hd
  have hfirst : Later s₂ s₃ ∧ Sound s₃ ∧ Carries s₃ d₁ fun names v => c.resetData (c.port names v) := by
    unfold Cell.resetData
    split_ifs at hreset ⊢
    · obtain ⟨hl, h₃, hc⟩ := foldReset_step h₂ hcd hreset
      exact ⟨hl, h₃, hc.congr fun names v => by rw [port_of_bit hbd]⟩
    · cases hreset
      exact ⟨.refl _, h₂, hcd.congr fun names v => (port_of_bit hbd names v).symm⟩
  obtain ⟨hl₃, h₃, hc₃⟩ := hfirst
  have hpart' : (c.typePart 1).getD [] = part := by rw [hpart]; rfl
  have hsecond : Later s₃ s₄ ∧ Sound s₄ ∧ Carries s₄ d₂ fun names v => c.loaded (c.port names v) := by
    simp only [Cell.loaded, hpart']
    split_ifs at henable ⊢
    · obtain ⟨hl, h₄, hc⟩ := foldEnable_step h₃ (hcq.later (hl₂.trans hl₃)) hc₃ henable
      exact ⟨hl, h₄, hc.congr fun names v => by rw [port_of_bit hbq]⟩
    · cases henable
      exact ⟨.refl _, h₃, hc₃⟩
  obtain ⟨hl₄, h₄, hc₄⟩ := hsecond
  have hadd : Later s₄ (s₄.addDff q d₂) := ⟨fun _ hl => hl, fun _ _ hb => hb, fun _ hd => List.mem_append_left _ hd⟩
  have hfrom₁ := ((hl₂.trans hl₃).trans hl₄).trans hadd
  refine ⟨hl₁.trans hfrom₁, ⟨h₄.names, h₄.root, h₄.pool⟩, fun hgate => ?_, fun id hid => ?_⟩
  · rcases hgate with hop | htype
    · rw [hnone] at hop
      cases hop
    · exact absurd htype hmux
  · rw [Cell.register, hdff] at hid
    have hb := (hlookup id (Option.some.inj (hbq.symm.trans hid))).1
    exact ⟨(q, d₂), List.mem_append_right _ (List.mem_singleton_self _), hfrom₁.lookup _ _ hb, hc₄.later hadd⟩

theorem cell_step (h : Sound s) (hrun : s.cell c = some s') : Later s s' ∧ Sound s' ∧ Written s' c := by
  rw [State.cell] at hrun
  cases hsimple : simpleOp c.type with
  | some op =>
    rw [hsimple] at hrun
    exact simple_step h hsimple hrun
  | none =>
    simp only [hsimple] at hrun
    split_ifs at hrun with hmux hdff hscope
    · exact mux_step h hmux hrun
    · exact dff_step h hdff hsimple hmux hrun
    · cases hrun
      refine ⟨.refl _, h, fun hgate => ?_, fun id hid => ?_⟩
      · rcases hgate with hop | htype
        · rw [hsimple] at hop
          cases hop
        · exact absurd htype hmux
      · rw [Cell.register, if_neg hdff] at hid
        cases hid

theorem cells_step {cells : List Cell} (h : Sound s) (hrun : cells.foldlM State.cell s = some s') :
    Later s s' ∧ Sound s' ∧ ∀ c ∈ cells, Written s' c := by
  induction cells generalizing s with
  | nil =>
    cases hrun
    exact ⟨.refl _, h, List.forall_mem_nil _⟩
  | cons c cells ih =>
    obtain ⟨s₁, hcell, hrun⟩ := Option.bind_eq_some_iff.mp hrun
    obtain ⟨hlater₁, hsound₁, hwritten⟩ := cell_step h hcell
    obtain ⟨hlater₂, hsound₂, hrest⟩ := ih hsound₁ hrun
    refine ⟨hlater₁.trans hlater₂, hsound₂, fun c' hc' => ?_⟩
    rcases List.mem_cons.mp hc' with rfl | hc'
    · exact hwritten.later hlater₂
    · exact hrest c' hc'

theorem gives_primitive (hgate : (simpleOp c.type).isSome ∨ c.type = str "$_MUX_") (ha : c.has "A" = true)
    (hb : c.has "B" = decide (c.type ∉ unary)) (port : String → Bool) :
    c.gives port = primitive c.type (port "A") (port "B") (port "S") := by
  have hfilter : ["A", "B"].filter c.has = "A" :: if c.type ∈ unary then [] else ["B"] := by
    by_cases hunary : c.type ∈ unary <;> simp [ha, hb, hunary]
  rw [Cell.gives, hfilter]
  rcases hgate with hsome | hmux
  · obtain ⟨op, hop⟩ := Option.isSome_iff_exists.mp hsome
    have htable := hop
    rw [simpleOp] at htable
    obtain ⟨e, he, heq⟩ := List.exists_of_findSome?_eq_some htable
    split_ifs at heq with htype
    cases heq
    rw [hop, ← htype, List.map_cons, apply_ite (List.map port)]
    simp only [List.map_nil, List.map_cons]
    simp only [List.mem_cons, List.not_mem_nil, or_false] at he
    generalize port "A" = a
    generalize port "B" = b
    generalize port "S" = s
    revert a b s
    rcases he with rfl | rfl | rfl | rfl | rfl | rfl | rfl | rfl <;> decide +kernel
  · have hnone : simpleOp (str "$_MUX_") = none := by decide
    rw [hmux, hnone]
    simp +decide only [primitive, if_false]

/-- The polarities are read from the name of the type. -/
theorem loaded_text (T : FlopType) (hc : c.type = str T.text) (port : String → Bool) :
    c.loaded port = T.folded (port "D") (port "Q") (port "R") (port "E") := by
  unfold Cell.loaded Cell.resetData Cell.typePart
  rw [hc]
  generalize port "D" = d
  generalize port "Q" = q
  generalize port "R" = r
  generalize port "E" = e
  clear hc
  revert d q r e
  cases T with
  | dff clk => revert clk; decide +kernel
  | dffe clk en => revert clk en; decide +kernel
  | sdff clk rst val => revert clk rst val; decide +kernel
  | sdffe clk rst val en => revert clk rst val en; decide +kernel
  | sdffce clk rst val en => revert clk rst val en; decide +kernel

end Cells

/-! ## The run -/

section Run

variable {s s' : State}

/-- What the lines of an output say, from the state after the output on. -/
def PortWritten (s : State) (p : Str × Bit) : Prop :=
  ∀ t, Later s t → ∀ v, Holds v t.lines → v p.1 = p.2.value t.names v

theorem outPort_step {p : Str × Bit} (h : Sound s) (hp : p.1 ∉ constNames) (hrun : s.outPort p = some s') :
    Later s s' ∧ Sound s' ∧ PortWritten s' p := by
  rw [State.outPort] at hrun
  rcases hdrv : s.bitName p.2 with ⟨drv, s₁⟩
  simp only [hdrv] at hrun
  obtain ⟨hlater₁, hsound₁, hcarries, -⟩ := bitName_step h hdrv
  split_ifs at hrun with heq
  · cases hrun
    have hadd : Later s₁ (s₁.addOutput p.1) := .of_eq rfl rfl rfl
    refine ⟨hlater₁.trans hadd, ⟨hsound₁.names, hsound₁.root, hsound₁.pool⟩, fun t ht v hv => ?_⟩
    rw [← @argValue_of_not_const _ v hp, ← heq]
    exact hcarries t (hadd.trans ht) v hv
  · obtain ⟨s₂, hgate, hrun⟩ := Option.bind_eq_some_iff.mp hrun
    cases hrun
    obtain ⟨hlater₂, hsound₂, hvalue⟩ := gate_step hsound₁ (.cons hcarries .nil) hgate
    have hadd : Later s₂ (s₂.addOutput p.1) := .of_eq rfl rfl rfl
    refine ⟨(hlater₁.trans hlater₂).trans hadd, ⟨hsound₂.names, hsound₂.root, hsound₂.pool⟩, fun t ht v hv => ?_⟩
    exact (hvalue t (hadd.trans ht) v hv).trans (benchGate_buff _)

theorem outPorts_step {ps : List (Str × Bit)} (h : Sound s) (hps : ∀ p ∈ ps, p.1 ∉ constNames)
    (hrun : ps.foldlM State.outPort s = some s') : Later s s' ∧ Sound s' ∧ ∀ p ∈ ps, PortWritten s' p := by
  induction ps generalizing s with
  | nil =>
    cases hrun
    exact ⟨.refl _, h, List.forall_mem_nil _⟩
  | cons p ps ih =>
    obtain ⟨s₁, hport, hrun⟩ := Option.bind_eq_some_iff.mp hrun
    obtain ⟨hlater₁, hsound₁, hwritten⟩ := outPort_step h (hps p List.mem_cons_self) hport
    obtain ⟨hlater₂, hsound₂, hrest⟩ := ih hsound₁ (fun q hq => hps q (List.mem_cons_of_mem p hq)) hrun
    refine ⟨hlater₁.trans hlater₂, hsound₂, fun q hq => ?_⟩
    rcases List.mem_cons.mp hq with rfl | hq
    · exact fun t ht => hwritten t (hlater₂.trans ht)
    · exact hrest q hq

theorem ties_step {ns : List Str} (h : Sound s) (hrun : ns.foldlM State.tie s = some s') : Later s s' ∧ Sound s' := by
  induction ns generalizing s with
  | nil =>
    cases hrun
    exact ⟨.refl _, h⟩
  | cons n ns ih =>
    obtain ⟨s₁, htie, hrun⟩ := Option.bind_eq_some_iff.mp hrun
    rw [State.tie] at htie
    obtain ⟨⟨c0, s₂⟩, hconst, htie⟩ := Option.bind_eq_some_iff.mp htie
    cases htie
    obtain ⟨hlater₁, hsound₁, -⟩ := const0_step h hconst
    obtain ⟨hlater₂, hsound₂⟩ := ih (hsound₁.addLine n (str "BUFF") [c0]) hrun
    exact ⟨(hlater₁.trans (later_addLine _ _ _ _)).trans hlater₂, hsound₂⟩

theorem sweep_step {P : Interpreter} {fuel : Nat} (h : Sound s) (hrun : s.sweep P fuel = some s') :
    Later s s' ∧ Sound s' := by
  induction fuel generalizing s with
  | zero => cases hrun
  | succ fuel ih =>
    rw [State.sweep] at hrun
    dsimp only at hrun
    split_ifs at hrun
    · obtain ⟨s₁, hties, hrun⟩ := Option.bind_eq_some_iff.mp hrun
      obtain ⟨hlater₁, hsound₁⟩ := ties_step h hties
      obtain ⟨hlater₂, hsound₂⟩ := ih hsound₁ hrun
      exact ⟨hlater₁.trans hlater₂, hsound₂⟩
    · cases hrun
      exact ⟨.refl _, h⟩
    · have hdrop : Sound { s with
          inputs := s.inputs.filter (· ∈ s.referenced), ppiNames := s.ppiNames.filter (· ∈ s.referenced) } :=
        ⟨h.names, h.root, h.pool⟩
      obtain ⟨hlater, hsound⟩ := ih hdrop hrun
      exact ⟨⟨hlater.lines, hlater.lookup, hlater.dffs⟩, hsound⟩

/-- Every register that is kept has a line for its next value, which reads what the register loads. -/
theorem nextLines_step {ds : List (Str × Str)} {ls : List Line} (h : Sound s)
    (hrun : s.nextLines ds = some (ls, s')) :
    Later s s' ∧ Sound s' ∧ ∀ d ∈ ds, ∀ v, Holds v (ls ++ s'.lines) → v (next d.1) = argValue v d.2 := by
  induction ds generalizing s ls with
  | nil =>
    cases hrun
    exact ⟨.refl _, h, List.forall_mem_nil _⟩
  | cons d ds ih =>
    rw [State.nextLines] at hrun
    obtain ⟨⟨as, s₁⟩, hsubst, hrun⟩ := Option.bind_eq_some_iff.mp hrun
    obtain ⟨⟨ls', s₂⟩, hrest, hrun⟩ := Option.bind_eq_some_iff.mp hrun
    cases hrun
    obtain ⟨hlater₁, hsound₁, hvalues⟩ := subst_step h hsubst
    obtain ⟨hlater₂, hsound₂, hnext⟩ := ih hsound₁ hrest
    refine ⟨hlater₁.trans hlater₂, hsound₂, fun e he v hv => ?_⟩
    rcases List.mem_cons.mp he with rfl | he
    · have hline := hv _ (List.mem_append_left _ List.mem_cons_self)
      rw [hline, hvalues v (hlater₂.holds fun l hl => hv l (List.mem_append_right _ hl))]
      exact benchGate_buff _
    · refine hnext e he v fun l hl => hv l ?_
      rcases List.mem_append.mp hl with hl | hl
      · exact List.mem_append_left _ (List.mem_cons_of_mem _ hl)
      · exact List.mem_append_right _ hl

end Run

/-- The nets of the file have the values that the module gives them: an output port has the value of its bit, a cell
drives its output with what it computes, and a register that is kept loads its data with reset and enable folded in,
which is what a register of a type that folds does. -/
structure Computes (M : Module) (F : File) (v : Str → Bool) : Prop where
  ports : ∀ p ∈ M.outPorts, v p.1 = p.2.value F.names v
  gates : ∀ c ∈ M.cells, (simpleOp c.type).isSome ∨ c.type = str "$_MUX_" →
    c.has "A" = true → c.has "B" = decide (c.type ∉ unary) → ∀ id, c.bit "Y" = some (.net id) →
      (Bit.net id).value F.names v =
        primitive c.type (c.port F.names v "A") (c.port F.names v "B") (c.port F.names v "S")
  loads : ∀ c ∈ M.cells, ∀ id q, c.register = some (.net id) → F.names.lookup id = some q → q ∈ F.registers →
    v (next q) = c.loaded (c.port F.names v)
  registers : ∀ c ∈ M.cells, ∀ id q, c.register = some (.net id) → F.names.lookup id = some q → q ∈ F.registers →
    ∀ T : FlopType, c.type = str T.text → T.folds = true →
      v (next q) = T.next (c.port F.names v "D") (v q) (c.port F.names v "R") (c.port F.names v "E")

/-- A register with a reset, whose data is what a gate makes of the register and an input. -/
def resettable : Module where
  ports := [⟨str "a", str "input", [.net 2]⟩, ⟨str "rst", str "input", [.net 3]⟩, ⟨str "y", str "output", [.net 5]⟩]
  netnames := [(str "q", [.net 5])]
  cells := [⟨str "g", str "$_XOR_", [(str "A", [.net 2]), (str "B", [.net 5]), (str "Y", [.net 4])]⟩,
    ⟨str "r", str "$_SDFF_PP0_", [(str "D", [.net 4]), (str "R", [.net 3]), (str "Q", [.net 5])]⟩]
  regnames := [str "q"]

/-- The nets that are 1 where `a` is, outside of the reset, after `q` was 0. -/
def resettableOnes : List Str := [str "a", str "n1", str "n3", str "n2", next (str "q")]

end Yosys.Bench
