import Sv2ghdl.Lists.OrderedDict
import Sv2ghdl.Vamos.Netlist.Number
import Sv2ghdl.Vamos.Netlist.SpiceFile

/-!
# Port maps

`vamos/ams/portmap.py`: the bits of a Verilog range, and the SPICE port that each bit of a cut
cell is bound to.
-/

open Python Vamos.Netlist.Expression
open Vamos.Netlist.Spice (Note Severity)

namespace Vamos.Ams.PortMaps

/-! ## Ranges -/

/-- `(left, right)` as declared, `none` for a scalar. -/
abbrev Range := Option (Int × Int)

def width : Range → Nat
  | none => 1
  | some (left, right) => (left - right).natAbs + 1

/-- `bits`: the indices in declaration order, the left bound first. -/
def bits (rng : Range) : List Int :=
  match rng with
  | none => [0]
  | some (left, right) =>
    (List.range (width (some (left, right)))).map fun n : Nat => if left ≥ right then left - n else left + n

def offset (bit : Int) : Range → Nat
  | none => 0
  | some (_, right) => (bit - right).natAbs

def bitOf (off : Nat) : Range → Int
  | none => 0
  | some (left, right) => if left ≥ right then right + off else right - off

theorem mem_bits {rng : Range} {b : Int} :
    b ∈ bits rng ↔ match rng with
      | none => b = 0
      | some (left, right) => min left right ≤ b ∧ b ≤ max left right := by
  match rng with
  | none => exact List.mem_singleton
  | some (left, right) =>
    show b ∈ List.map _ (List.range ((left - right).natAbs + 1)) ↔ min left right ≤ b ∧ b ≤ max left right
    simp only [List.mem_map, List.mem_range]
    constructor
    · rintro ⟨n, hn, rfl⟩
      split_ifs <;> omega
    · intro hb
      -- the bit stands as far from the left bound as it is counted
      refine ⟨(left - b).natAbs, by omega, ?_⟩
      split_ifs <;> omega

theorem length_bits (rng : Range) : (bits rng).length = width rng := by
  match rng with
  | none => rfl
  | some (left, right) =>
    show (List.map _ (List.range _)).length = _
    rw [List.length_map, List.length_range]

theorem offset_lt {rng : Range} {b : Int} (h : b ∈ bits rng) : offset b rng < width rng := by
  match rng with
  | none => exact Nat.one_pos
  | some (left, right) =>
    have hb : min left right ≤ b ∧ b ≤ max left right := mem_bits.mp h
    show (b - right).natAbs < (left - right).natAbs + 1
    omega

theorem bitOf_offset {rng : Range} {b : Int} (h : b ∈ bits rng) : bitOf (offset b rng) rng = b := by
  match rng with
  | none => exact (mem_bits.mp h).symm
  | some (left, right) =>
    have hb : min left right ≤ b ∧ b ≤ max left right := mem_bits.mp h
    show (if left ≥ right then right + ((b - right).natAbs : Int) else right - (b - right).natAbs) = b
    split_ifs <;> omega

theorem bitOf_mem {rng : Range} {off : Nat} (h : off < width rng) : bitOf off rng ∈ bits rng := by
  match rng with
  | none => exact List.mem_singleton.mpr rfl
  | some (left, right) =>
    have hoff : off < (left - right).natAbs + 1 := h
    refine mem_bits.mpr ?_
    show min left right ≤ (if left ≥ right then right + (off : Int) else right - off) ∧
      (if left ≥ right then right + (off : Int) else right - off) ≤ max left right
    split_ifs <;> omega

theorem offset_bitOf {rng : Range} {off : Nat} (h : off < width rng) : offset (bitOf off rng) rng = off := by
  match rng with
  | none => exact (Nat.lt_one_iff.mp h).symm
  | some (left, right) =>
    show ((if left ≥ right then right + (off : Int) else right - off) - right).natAbs = off
    split_ifs <;> omega

theorem offset_injective {rng : Range} {b b' : Int} (hb : b ∈ bits rng) (hb' : b' ∈ bits rng)
    (h : offset b rng = offset b' rng) : b = b' := by
  rw [← bitOf_offset hb, h, bitOf_offset hb']

theorem nodup_bits (rng : Range) : (bits rng).Nodup := by
  match rng with
  | none => exact List.nodup_singleton 0
  | some (left, right) =>
    refine List.Nodup.map (fun n m h => ?_) List.nodup_range
    have hnm : (if left ≥ right then left - (n : Int) else left + n) =
        if left ≥ right then left - (m : Int) else left + m := h
    split_ifs at hnm <;> omega

/-! ## Port maps -/

/-- `PortMap.default` -/
inductive DefaultRule where
  | snpsByName
  | snpsByPosition
  | snpsOpen
  deriving DecidableEq, Repr

structure PortMap where
  /-- `p` or `p[i]` to a SPICE port or `snps_open`. -/
  explicit : OrderedDict Str Str := .empty
  default : DefaultRule := .snpsByName
  busFormats : List Str := [str "[%d]"]

structure CutPort where
  index : Nat
  verilog : Str

structure CutCell where
  name : Str
  subckt : Str
  ports : List CutPort
  portmap : PortMap
  origin : Str
  /-- A port's index is its position in the shell's port list. -/
  index_eq : ports.map CutPort.index = List.range ports.length

/-- `OPEN` -/
def opened : Str := str "snps_open"

/-- `fmt.replace("%d", s)` -/
def replaceD (s : Str) : Str → Str
  | [] => []
  | [c] => [c]
  | c :: d :: rest => if c = '%' ∧ d = 'd' then s ++ replaceD s rest else c :: replaceD s (d :: rest)

def busName (base fmt : Str) (i : Int) : Str := base ++ replaceD (intText i) fmt

/-- `"%s[%d]" % (name, b)` of a bit of a vector, the name of a scalar. -/
def keyBit (name : Str) (rng : Range) (b : Int) : Str :=
  match rng with
  | none => name
  | some _ => name ++ str "[" ++ intText b ++ str "]"

/-- A port index and an offset. -/
abbrev BitKey := Nat × Nat

/-! ## Binding the bits -/

section Binding

variable (U : UnicodeData) (cell : CutCell) (pm : PortMap) (ranges : List Range) (origPorts : List Str)

/-- `{k: v for k, v in l}` -/
def dictOf {α β : Type} [DecidableEq α] (l : List (α × β)) : OrderedDict α β :=
  l.foldl (fun d e => d.set e.1 e.2) .empty

/-- `if k in f: d[k] = f[k]` -/
def setFound {α β : Type} [DecidableEq α] (f : α → Option β) (d : OrderedDict α β) (k : α) : OrderedDict α β :=
  match f k with
  | some v => d.set k v
  | none => d

def explicitItems : OrderedDict Str Str :=
  dictOf (pm.explicit.items.map fun e => (U.lower e.1, U.lower e.2))

/-- `allp`, and as a set `pset`. -/
def allPorts : List Str := origPorts.map U.lower

def formats : List Str := if pm.busFormats = [] then [str "[%d]"] else pm.busFormats

def rngOf (k : Nat) : Range := (ranges[k]?).getD none

def byName (base : Str) (rng : Range) (i : Int) : Option Str :=
  match rng with
  | none => if base ∈ allPorts U origPorts then some base else none
  | some _ => ((formats pm).map fun f => busName base f i).find? (· ∈ allPorts U origPorts)

/-- What the loop does for one bit. -/
inductive Entry where
  /-- It stores a target, and may add a problem. -/
  | stored (target : Option Str) (problem : Option Note)
  /-- It leaves the bit to the positions. -/
  | positional

def error (message : Str) : Note := ⟨.error, cell.origin, message⟩

/-- The body of the loop over the bits. -/
def bindBit (port : CutPort) (b : Int) : Entry :=
  let rng := rngOf ranges port.index
  let name := U.lower port.verilog
  match (explicitItems U pm).lookup (keyBit name rng b) with
  | some t =>
    if t = opened then .stored none none
    else if t ∈ allPorts U origPorts then .stored (some t) none
    else .stored (some t) (some (error cell (str "port_map " ++ keyBit name rng b ++ str " => " ++ t ++
      str ": no such port on subckt " ++ cell.subckt)))
  | none =>
    match if rng = none then none else (explicitItems U pm).lookup name with
    | some t =>
      if t = opened then .stored none none
      else
        match byName U pm origPorts t rng b with
        | some target => .stored (some target) none
        | none => .stored none (some (error cell (str "port_map " ++ name ++ str " => " ++ t ++
            str ": no SPICE port for bit " ++ intText b)))
    | none =>
      match pm.default with
      | .snpsOpen => .stored none none
      | .snpsByPosition => .positional
      | .snpsByName =>
        match byName U pm origPorts name rng b with
        | some target => .stored (some target) none
        | none => .stored none (some (error cell (str "cell " ++ cell.name ++ str ": Verilog port " ++
            keyBit name rng b ++ str " has no SPICE port on subckt " ++ cell.subckt ++
            str " (add port_map or snps_open)")))

/-- The bits of all ports, in declaration order. -/
def verilogBits : List (CutPort × Int) :=
  cell.ports.flatMap fun port => (bits (rngOf ranges port.index)).map (port, ·)

def bitKey (p : CutPort × Int) : BitKey := (p.1.index, offset p.2 (rngOf ranges p.1.index))

/-- The variables of the loop. -/
structure Bound where
  out : OrderedDict BitKey (Option Str) := .empty
  positional : List BitKey := []
  problems : List Note := []

def bindStep (st : Bound) (p : CutPort × Int) : Bound :=
  match bindBit U cell pm ranges origPorts p.1 p.2 with
  | .stored target problem =>
    { st with out := st.out.set (bitKey ranges p) target, problems := st.problems ++ problem.toList }
  | .positional => { st with positional := st.positional ++ [bitKey ranges p] }

/-- The part for `snps_by_position`: every bit owns a position, an explicitly mapped one included. -/
def bindPositions (st : Bound) : Bound :=
  if pm.default = .snpsByPosition then
    let order := (verilogBits cell ranges).map (bitKey ranges)
    let pos := dictOf (order.zip (allPorts U origPorts))
    { st with
      problems := st.problems ++
        if order.length = (allPorts U origPorts).length then []
        else [error cell (str "cell " ++ cell.name ++ str ": snps_by_position maps " ++ natText order.length ++
          str " Verilog bits onto the " ++ natText (allPorts U origPorts).length ++ str " ports of subckt " ++
          cell.subckt)]
      out := st.positional.foldl (setFound fun key => (pos.lookup key).map some) st.out }
  else st

/-- `sorted(out.items())`: the keys are all different. -/
def sortedItems (out : OrderedDict BitKey (Option Str)) : List (BitKey × Option Str) :=
  out.items.mergeSort fun e e' => e.1.1 < e'.1.1 || e.1.1 = e'.1.1 && e.1.2 ≤ e'.1.2

/-- The loop that looks for a SPICE port mapped twice. -/
def mappedTwice (seen : List Str) : List (BitKey × Option Str) → List Note
  | [] => []
  | (_, none) :: rest => mappedTwice seen rest
  | (_, some sp) :: rest =>
    (if sp ∈ seen then
      [error cell (str "cell " ++ cell.name ++ str ": SPICE port " ++ sp ++ str " is mapped twice")]
    else []) ++ mappedTwice (sp :: seen) rest

/-- `bind_bits`; an error is the list of the problems. -/
def bindBits (portmap : Option PortMap) : Except (List Note) (OrderedDict BitKey (Option Str)) :=
  let pm := portmap.getD cell.portmap
  let st := bindPositions U cell pm ranges origPorts
    ((verilogBits cell ranges).foldl (bindStep U cell pm ranges origPorts) {})
  let problems := st.problems ++ mappedTwice cell [] (sortedItems st.out)
  if problems = [] then .ok st.out else .error problems

end Binding

/-! ## The rules -/

/-- What the port map and the default rule make of a bit. -/
inductive Target where
  | port (s : Str)
  | opened
  | missing
  deriving DecidableEq, Repr

namespace Target

/-- The entry of a bit that has its port. -/
def entry : Target → Option Str
  | port s => some s
  | opened => none
  | missing => none

/-- A SPICE port that was looked for. -/
def found : Option Str → Target
  | some s => port s
  | none => missing

end Target

section Rules

variable (U : UnicodeData) (cell : CutCell) (pm : PortMap) (ranges : List Range) (origPorts : List Str)

/-- The SPICE port in the bit's own position. -/
def inPosition (p : CutPort × Int) : Option Str :=
  (allPorts U origPorts)[((verilogBits cell ranges).map (bitKey ranges)).findIdx (· = bitKey ranges p)]?

/-- The explicit mapping of the bit, else that of its port, else the default rule. -/
def target (p : CutPort × Int) : Target :=
  let rng := rngOf ranges p.1.index
  let name := U.lower p.1.verilog
  match (explicitItems U pm).lookup (keyBit name rng p.2) with
  | some t => if t = opened then .opened else if t ∈ allPorts U origPorts then .port t else .missing
  | none =>
    match if rng = none then none else (explicitItems U pm).lookup name with
    | some t => if t = opened then .opened else .found (byName U pm origPorts t rng p.2)
    | none =>
      match pm.default with
      | .snpsOpen => .opened
      | .snpsByPosition => .found (inPosition U cell ranges origPorts p)
      | .snpsByName => .found (byName U pm origPorts name rng p.2)

/-- The loop stores what the rules say, with a problem where they find no port; it leaves only bits to the
    positions that the default rule is for. -/
theorem bindBit_target (p : CutPort × Int) :
    match bindBit U cell pm ranges origPorts p.1 p.2 with
    | .stored t none =>
      target U cell pm ranges origPorts p ≠ .missing ∧ t = (target U cell pm ranges origPorts p).entry
    | .stored _ (some _) => target U cell pm ranges origPorts p = .missing
    | .positional => pm.default = .snpsByPosition ∧
        target U cell pm ranges origPorts p = .found (inPosition U cell ranges origPorts p) := by
  rw [bindBit, target]
  cases (explicitItems U pm).lookup (keyBit (U.lower p.1.verilog) (rngOf ranges p.1.index) p.2) with
  | some t =>
    by_cases hopen : t = opened
    · simp [hopen, Target.entry]
    · by_cases hport : t ∈ allPorts U origPorts <;> simp [hopen, hport, Target.entry]
  | none =>
    cases (if rngOf ranges p.1.index = none then none
      else (explicitItems U pm).lookup (U.lower p.1.verilog)) with
    | some t =>
      by_cases hopen : t = opened
      · simp [hopen, Target.entry]
      · cases h : byName U pm origPorts t (rngOf ranges p.1.index) p.2 <;>
          simp [hopen, h, Target.entry, Target.found]
    | none =>
      cases hdefault : pm.default with
      | snpsOpen => simp [Target.entry]
      | snpsByPosition => simp
      | snpsByName =>
        cases byName U pm origPorts (U.lower p.1.verilog) (rngOf ranges p.1.index) p.2 <;>
          simp [Target.entry, Target.found]

end Rules

/-! ## Dictionaries and pairs -/

theorem items_dictOf {α β : Type} [DecidableEq α] {l : List (α × β)} (h : (l.map Prod.fst).Nodup) :
    (dictOf l).items = l := OrderedDict.items_foldl_set h

theorem lookup_zip {α β : Type} [DecidableEq α] {l : List α} (l' : List β) {a : α} (h : a ∈ l) :
    (l.zip l').lookup a = l'[l.findIdx (· = a)]? := by
  induction l generalizing l' with
  | nil => cases h
  | cons b l ih =>
    cases l' with
    | nil => rfl
    | cons c l' =>
      rw [List.zip_cons_cons, List.lookup_cons]
      rw [List.findIdx_cons]
      by_cases hab : a = b
      · simp [hab]
      · rw [beq_false_of_ne hab, decide_eq_false (Ne.symm hab), cond_false, List.getElem?_cons_succ]
        exact ih l' ((List.mem_cons.mp h).resolve_left hab)

theorem nodup_fst_zip {α β : Type} {l : List α} (hl : l.Nodup) (l' : List β) : ((l.zip l').map Prod.fst).Nodup := by
  induction l generalizing l' with
  | nil => exact List.nodup_nil
  | cons a l ih =>
    cases l' with
    | nil => exact List.nodup_nil
    | cons b l' =>
      obtain ⟨ha, hl⟩ := List.nodup_cons.mp hl
      rw [List.zip_cons_cons, List.map_cons, List.nodup_cons]
      refine ⟨fun h => ha ?_, ih hl l'⟩
      obtain ⟨e, he, heq⟩ := List.mem_map.mp h
      rw [← show e.1 = a from heq]
      exact (List.of_mem_zip he).1

theorem lookup_dictOf_zip {α β : Type} [DecidableEq α] {l : List α} (hl : l.Nodup) (l' : List β) {a : α} (h : a ∈ l) :
    (dictOf (l.zip l')).lookup a = l'[l.findIdx (· = a)]? := by
  unfold OrderedDict.lookup
  rw [items_dictOf (nodup_fst_zip hl l')]
  exact lookup_zip l' h

/-- Setting what is found for each of some new keys. -/
theorem items_foldl_found {α β : Type} [DecidableEq α] (f : α → Option β) {l : List α} {d : OrderedDict α β}
    (h : (d.keys ++ l).Nodup) :
    (l.foldl (setFound f) d).items = d.items ++ l.filterMap fun k => (f k).map fun v => (k, v) := by
  induction l generalizing d with
  | nil => simp
  | cons k l ih =>
    have hnew : k ∉ d.keys := fun hmem => (List.nodup_append.mp h).2.2 _ hmem _ List.mem_cons_self rfl
    rw [List.foldl_cons]
    cases hf : f k with
    | none =>
      rw [List.filterMap_cons_none (by rw [hf]; rfl), show setFound f d k = d by rw [setFound, hf]]
      exact ih (h.sublist ((List.sublist_cons_self _ _).append_left _))
    | some v =>
      have hkeys : ((d.set k v).keys ++ l).Nodup := by
        rwa [OrderedDict.keys_set, if_neg hnew, List.append_assoc]
      rw [List.filterMap_cons_some (show _ = some (k, v) by rw [hf]; rfl),
        show setFound f d k = d.set k v by rw [setFound, hf], ih hkeys, OrderedDict.items_set_of_notMem hnew, List.append_assoc]
      rfl

/-- A partial function takes the members of a list to different values. -/
theorem nodup_filterMap_iff {α β : Type} {l : List α} (hl : l.Nodup) {f : α → Option β} :
    (l.filterMap f).Nodup ↔ ∀ a ∈ l, ∀ b ∈ l, ∀ s, f a = some s → f b = some s → a = b := by
  induction l with
  | nil => simp
  | cons x l ih =>
    obtain ⟨hx, hl⟩ := List.nodup_cons.mp hl
    cases hfx : f x with
    | none =>
      rw [List.filterMap_cons_none hfx, ih hl]
      constructor
      · intro h a ha b hb s hfa hfb
        have hmem : ∀ c ∈ x :: l, f c = some s → c ∈ l := fun c hc hfc =>
          (List.mem_cons.mp hc).resolve_left fun heq => by rw [heq, hfx] at hfc; cases hfc
        exact h a (hmem a ha hfa) b (hmem b hb hfb) s hfa hfb
      · exact fun h a ha b hb => h a (List.mem_cons_of_mem _ ha) b (List.mem_cons_of_mem _ hb)
    | some t =>
      rw [List.filterMap_cons_some hfx, List.nodup_cons, ih hl, List.mem_filterMap]
      constructor
      · rintro ⟨hnot, h⟩ a ha b hb s hfa hfb
        rcases List.mem_cons.mp ha with rfl | ha' <;> rcases List.mem_cons.mp hb with heq | hb'
        · exact heq.symm
        · exact absurd ⟨b, hb', by rw [hfb, ← hfa, hfx]⟩ hnot
        · subst heq
          exact absurd ⟨a, ha', by rw [hfa, ← hfb, hfx]⟩ hnot
        · exact h a ha' b hb' s hfa hfb
      · intro h
        refine ⟨?_, fun a ha b hb => h a (List.mem_cons_of_mem _ ha) b (List.mem_cons_of_mem _ hb)⟩
        rintro ⟨a, ha, hfa⟩
        exact hx (h x List.mem_cons_self a (List.mem_cons_of_mem _ ha) t hfx hfa ▸ ha)

/-! ## The loops -/

section Loops

variable (U : UnicodeData) (cell : CutCell) (pm : PortMap) (ranges : List Range) (origPorts : List Str)

theorem nodup_bitKeys : ((verilogBits cell ranges).map (bitKey ranges)).Nodup := by
  rw [verilogBits, List.map_flatMap, List.nodup_flatMap]
  constructor
  · intro port _
    rw [List.map_map]
    refine List.Nodup.map_on (fun b hb b' hb' h => ?_) (nodup_bits _)
    exact offset_injective hb hb' (congrArg Prod.snd h)
  · have hindex : cell.ports.Pairwise fun a b => a.index ≠ b.index := by
      have := List.nodup_range (n := cell.ports.length)
      rw [← cell.index_eq] at this
      exact List.pairwise_map.mp this
    refine hindex.imp fun {a b} hne key ha hb => hne ?_
    simp only [List.mem_map, bitKey] at ha hb
    obtain ⟨_, ⟨_, -, rfl⟩, rfl⟩ := ha
    obtain ⟨_, ⟨_, -, rfl⟩, hkey⟩ := hb
    exact (congrArg Prod.fst hkey).symm

theorem bitKey_injective {p q : CutPort × Int} (hp : p ∈ verilogBits cell ranges) (hq : q ∈ verilogBits cell ranges)
    (h : bitKey ranges p = bitKey ranges q) : p = q :=
  List.inj_on_of_nodup_map (nodup_bitKeys cell ranges) hp hq h

/-- What the first loop stores for a bit. -/
def storedItem (p : CutPort × Int) : Option (BitKey × Option Str) :=
  match bindBit U cell pm ranges origPorts p.1 p.2 with
  | .stored t _ => some (bitKey ranges p, t)
  | .positional => none

def leftKey (p : CutPort × Int) : Option BitKey :=
  match bindBit U cell pm ranges origPorts p.1 p.2 with
  | .stored _ _ => none
  | .positional => some (bitKey ranges p)

def bitProblem (p : CutPort × Int) : Option Note :=
  match bindBit U cell pm ranges origPorts p.1 p.2 with
  | .stored _ problem => problem
  | .positional => none

/-- What the loop over `l` adds to its variables. -/
structure Looped (l : List (CutPort × Int)) (st st' : Bound) : Prop where
  out : st'.out.items = st.out.items ++ l.filterMap (storedItem U cell pm ranges origPorts)
  positional : st'.positional = st.positional ++ l.filterMap (leftKey U cell pm ranges origPorts)
  problems : st'.problems = st.problems ++ l.filterMap (bitProblem U cell pm ranges origPorts)

theorem foldl_bindStep {l : List (CutPort × Int)} {st : Bound} (h : (st.out.keys ++ l.map (bitKey ranges)).Nodup) :
    Looped U cell pm ranges origPorts l st (l.foldl (bindStep U cell pm ranges origPorts) st) := by
  induction l generalizing st with
  | nil => exact ⟨by simp, by simp, by simp⟩
  | cons p l ih =>
    have hnew : bitKey ranges p ∉ st.out.keys := fun hmem =>
      (List.nodup_append.mp h).2.2 _ hmem _ List.mem_cons_self rfl
    rw [List.foldl_cons]
    cases hbit : bindBit U cell pm ranges origPorts p.1 p.2 with
    | stored t problem =>
      have hstep : bindStep U cell pm ranges origPorts st p =
          { st with out := st.out.set (bitKey ranges p) t, problems := st.problems ++ problem.toList } := by
        rw [bindStep, hbit]
      have hitems : (st.out.set (bitKey ranges p) t).items = st.out.items ++ [(bitKey ranges p, t)] :=
        OrderedDict.items_set_of_notMem hnew
      have hkeys : ((st.out.set (bitKey ranges p) t).keys ++ l.map (bitKey ranges)).Nodup := by
        rwa [OrderedDict.keys_set, if_neg hnew, List.append_assoc]
      rw [hstep]
      have hrest := @ih { st with out := st.out.set (bitKey ranges p) t, problems := st.problems ++ problem.toList } hkeys
      have hstored : storedItem U cell pm ranges origPorts p = some (bitKey ranges p, t) := by rw [storedItem, hbit]
      have hleft : leftKey U cell pm ranges origPorts p = none := by rw [leftKey, hbit]
      have hproblem : bitProblem U cell pm ranges origPorts p = problem := by rw [bitProblem, hbit]
      refine ⟨?_, ?_, ?_⟩
      · rw [hrest.out, List.filterMap_cons_some hstored, hitems, List.append_assoc]
        rfl
      · rw [hrest.positional, List.filterMap_cons_none hleft]
      · rw [hrest.problems, List.append_assoc]
        cases problem with
        | none => rw [List.filterMap_cons_none hproblem]; rfl
        | some problem => rw [List.filterMap_cons_some hproblem]; rfl
    | positional =>
      have hstep : bindStep U cell pm ranges origPorts st p =
          { st with positional := st.positional ++ [bitKey ranges p] } := by
        rw [bindStep, hbit]
      have hkeys : (st.out.keys ++ l.map (bitKey ranges)).Nodup :=
        h.sublist ((List.sublist_cons_self _ _).append_left _)
      rw [hstep]
      have hrest := @ih { st with positional := st.positional ++ [bitKey ranges p] } hkeys
      have hstored : storedItem U cell pm ranges origPorts p = none := by rw [storedItem, hbit]
      have hleft : leftKey U cell pm ranges origPorts p = some (bitKey ranges p) := by rw [leftKey, hbit]
      have hproblem : bitProblem U cell pm ranges origPorts p = none := by rw [bitProblem, hbit]
      refine ⟨?_, ?_, ?_⟩
      · rw [hrest.out, List.filterMap_cons_none hstored]
      · rw [hrest.positional, List.filterMap_cons_some hleft, List.append_assoc]
        rfl
      · rw [hrest.problems, List.filterMap_cons_none hproblem]

/-- What a bit's entry is, `none` if it has none. -/
def bound (p : CutPort × Int) : Option (Option Str) :=
  match bindBit U cell pm ranges origPorts p.1 p.2 with
  | .stored t _ => some t
  | .positional => (inPosition U cell ranges origPorts p).map some

/-- The variables after both parts. -/
def bindAll : Bound :=
  bindPositions U cell pm ranges origPorts ((verilogBits cell ranges).foldl (bindStep U cell pm ranges origPorts) {})

theorem foldl_verilogBits :
    Looped U cell pm ranges origPorts (verilogBits cell ranges) {}
      ((verilogBits cell ranges).foldl (bindStep U cell pm ranges origPorts) {}) :=
  foldl_bindStep U cell pm ranges origPorts (nodup_bitKeys cell ranges)

theorem lookup_positions {p : CutPort × Int} (hp : p ∈ verilogBits cell ranges) :
    (dictOf (((verilogBits cell ranges).map (bitKey ranges)).zip (allPorts U origPorts))).lookup (bitKey ranges p) =
      inPosition U cell ranges origPorts p :=
  lookup_dictOf_zip (nodup_bitKeys cell ranges) _ (List.mem_map_of_mem hp)

theorem leftKey_some {p : CutPort × Int} {key : BitKey} (h : leftKey U cell pm ranges origPorts p = some key) :
    key = bitKey ranges p ∧ bindBit U cell pm ranges origPorts p.1 p.2 = .positional := by
  rw [leftKey] at h
  cases hbit : bindBit U cell pm ranges origPorts p.1 p.2 with
  | stored t problem =>
    rw [hbit] at h
    cases h
  | positional =>
    rw [hbit] at h
    exact ⟨(Option.some.inj h).symm, rfl⟩

theorem storedItem_some {p : CutPort × Int} {e : BitKey × Option Str}
    (h : storedItem U cell pm ranges origPorts p = some e) :
    e.1 = bitKey ranges p ∧ ∃ problem, bindBit U cell pm ranges origPorts p.1 p.2 = .stored e.2 problem := by
  rw [storedItem] at h
  cases hbit : bindBit U cell pm ranges origPorts p.1 p.2 with
  | stored t problem =>
    rw [hbit] at h
    rw [← Option.some.inj h]
    exact ⟨rfl, problem, rfl⟩
  | positional =>
    rw [hbit] at h
    cases h

theorem nodup_verilogBits : (verilogBits cell ranges).Nodup := (nodup_bitKeys cell ranges).of_map

/-- The bits left to the positions are none of those stored. -/
theorem nodup_left {st : Bound} (h : Looped U cell pm ranges origPorts (verilogBits cell ranges) {} st) :
    (st.out.keys ++ st.positional).Nodup := by
  have hpositional : st.positional = (verilogBits cell ranges).filterMap (leftKey U cell pm ranges origPorts) :=
    h.positional
  have hitems : st.out.items = (verilogBits cell ranges).filterMap (storedItem U cell pm ranges origPorts) := h.out
  refine List.nodup_append.mpr ⟨st.out.nodup, ?_, ?_⟩
  · rw [hpositional, nodup_filterMap_iff (nodup_verilogBits cell ranges)]
    intro p hp q hq key hpk hqk
    refine bitKey_injective cell ranges hp hq ?_
    rw [← (leftKey_some U cell pm ranges origPorts hpk).1, ← (leftKey_some U cell pm ranges origPorts hqk).1]
  · intro key hkey key' hkey' heq
    subst heq
    obtain ⟨e, he, rfl⟩ := List.mem_map.mp hkey
    rw [hitems] at he
    rw [hpositional] at hkey'
    obtain ⟨p, hp, hstored⟩ := List.mem_filterMap.mp he
    obtain ⟨q, hq, hleft⟩ := List.mem_filterMap.mp hkey'
    obtain ⟨hkp, problem, hbit⟩ := storedItem_some U cell pm ranges origPorts hstored
    obtain ⟨hkq, hbit'⟩ := leftKey_some U cell pm ranges origPorts hleft
    rw [bitKey_injective cell ranges hp hq (hkp.symm.trans hkq), hbit'] at hbit
    cases hbit

theorem items_bindAll :
    (bindAll U cell pm ranges origPorts).out.items =
      (verilogBits cell ranges).filterMap (storedItem U cell pm ranges origPorts) ++
        ((verilogBits cell ranges).filter fun p => (leftKey U cell pm ranges origPorts p).isSome).filterMap fun p =>
          (inPosition U cell ranges origPorts p).map fun s => (bitKey ranges p, some s) := by
  have hloop := foldl_verilogBits U cell pm ranges origPorts
  rw [bindAll, bindPositions]
  generalize (verilogBits cell ranges).foldl (bindStep U cell pm ranges origPorts) {} = st at hloop ⊢
  by_cases hdefault : pm.default = .snpsByPosition
  · rw [if_pos hdefault]
    show (st.positional.foldl (setFound fun key => (OrderedDict.lookup _ key).map some) st.out).items = _
    rw [items_foldl_found _ (nodup_left U cell pm ranges origPorts hloop), hloop.out, hloop.positional]
    show _ ++ List.filterMap _ (List.filterMap _ _) = _ ++ List.filterMap _ (List.filter _ _)
    rw [List.filterMap_filterMap, List.filterMap_filter]
    refine congrArg _ (List.filterMap_congr fun p hp => ?_)
    cases hleft : leftKey U cell pm ranges origPorts p with
    | none => rfl
    | some key =>
      rw [(leftKey_some U cell pm ranges origPorts hleft).1]
      show (((OrderedDict.lookup _ (bitKey ranges p)).map some).map fun t => (bitKey ranges p, t)) = _
      rw [lookup_positions U cell ranges origPorts hp, Option.map_map]
      rfl
  · rw [if_neg hdefault]
    have hnone : (verilogBits cell ranges).filter (fun p => (leftKey U cell pm ranges origPorts p).isSome) = [] := by
      refine List.filter_eq_nil_iff.mpr fun p _ hleft => hdefault ?_
      obtain ⟨key, hkey⟩ := Option.isSome_iff_exists.mp hleft
      have hbit := bindBit_target U cell pm ranges origPorts p
      rw [(leftKey_some U cell pm ranges origPorts hkey).2] at hbit
      exact hbit.1
    rw [hnone, hloop.out, List.filterMap_nil, List.append_nil]
    rfl

theorem mem_items_bindAll {e : BitKey × Option Str} :
    e ∈ (bindAll U cell pm ranges origPorts).out.items ↔
      ∃ p ∈ verilogBits cell ranges, bitKey ranges p = e.1 ∧ bound U cell pm ranges origPorts p = some e.2 := by
  rw [items_bindAll, List.mem_append, List.mem_filterMap, List.mem_filterMap]
  constructor
  · rintro (⟨p, hp, he⟩ | ⟨p, hp, he⟩)
    · refine ⟨p, hp, ?_⟩
      rw [storedItem] at he
      rw [bound]
      cases hbit : bindBit U cell pm ranges origPorts p.1 p.2 with
      | stored t problem =>
        rw [hbit] at he
        cases he
        exact ⟨rfl, rfl⟩
      | positional =>
        rw [hbit] at he
        cases he
    · obtain ⟨hp, hleft⟩ := List.mem_filter.mp hp
      refine ⟨p, hp, ?_⟩
      rw [leftKey] at hleft
      rw [bound]
      obtain ⟨s, hs, rfl⟩ := Option.map_eq_some_iff.mp he
      cases hbit : bindBit U cell pm ranges origPorts p.1 p.2 with
      | stored t problem =>
        rw [hbit] at hleft
        cases hleft
      | positional => exact ⟨rfl, by rw [hs]; rfl⟩
  · rintro ⟨p, hp, hkey, he⟩
    rw [bound] at he
    cases hbit : bindBit U cell pm ranges origPorts p.1 p.2 with
    | stored t problem =>
      rw [hbit] at he
      refine .inl ⟨p, hp, ?_⟩
      rw [storedItem, hbit, hkey, Option.some.inj he]
    | positional =>
      rw [hbit] at he
      obtain ⟨s, hs, he⟩ := Option.map_eq_some_iff.mp he
      refine .inr ⟨p, List.mem_filter.mpr ⟨hp, by rw [leftKey, hbit]; rfl⟩, ?_⟩
      rw [hs, hkey, Option.map_some, he]

/-! ## What the loops find -/

theorem length_verilogBits
    (h : ((verilogBits cell ranges).map (bitKey ranges)).length = (allPorts U origPorts).length) {p : CutPort × Int} (hp : p ∈ verilogBits cell ranges) : ∃ s, inPosition U cell ranges origPorts p = some s := by
  have hlt : ((verilogBits cell ranges).map (bitKey ranges)).findIdx (· = bitKey ranges p) <
      (allPorts U origPorts).length := by
    rw [← h]
    exact List.findIdx_lt_length_of_exists ⟨_, List.mem_map_of_mem hp, decide_eq_true rfl⟩
  exact ⟨_, List.getElem?_eq_getElem hlt⟩

theorem problems_bindAll :
    (bindAll U cell pm ranges origPorts).problems = [] ↔
      (∀ p ∈ verilogBits cell ranges, bitProblem U cell pm ranges origPorts p = none) ∧
        (pm.default = .snpsByPosition → (verilogBits cell ranges).length = origPorts.length) := by
  have hloop := foldl_verilogBits U cell pm ranges origPorts
  have hbits : (verilogBits cell ranges).filterMap (bitProblem U cell pm ranges origPorts) = [] ↔
      ∀ p ∈ verilogBits cell ranges, bitProblem U cell pm ranges origPorts p = none := List.filterMap_eq_nil_iff
  rw [bindAll, bindPositions, ← hbits]
  generalize (verilogBits cell ranges).foldl (bindStep U cell pm ranges origPorts) {} = st at hloop ⊢
  have hproblems : st.problems = (verilogBits cell ranges).filterMap (bitProblem U cell pm ranges origPorts) :=
    hloop.problems
  by_cases hdefault : pm.default = .snpsByPosition
  · rw [if_pos hdefault]
    show st.problems ++ (if _ then [] else [_]) = [] ↔ _
    rw [List.append_eq_nil_iff, hproblems, List.length_map, allPorts, List.length_map]
    by_cases hcount : (verilogBits cell ranges).length = origPorts.length <;> simp [hcount, hdefault]
  · rw [if_neg hdefault, hproblems]
    simp [hdefault]

theorem mappedTwice_eq_nil {seen : List Str} {l : List (BitKey × Option Str)} :
    mappedTwice cell seen l = [] ↔ (l.filterMap Prod.snd).Nodup ∧ ∀ s ∈ l.filterMap Prod.snd, s ∉ seen := by
  induction l generalizing seen with
  | nil => simp [mappedTwice]
  | cons e l ih =>
    obtain ⟨key, sp⟩ := e
    cases sp with
    | none => exact ih
    | some sp =>
      have hseen : (∀ s ∈ l.filterMap Prod.snd, s ∉ sp :: seen) ↔
          sp ∉ l.filterMap Prod.snd ∧ ∀ s ∈ l.filterMap Prod.snd, s ∉ seen := by
        simp only [List.mem_cons, not_or]
        exact ⟨fun h => ⟨fun hmem => (h sp hmem).1 rfl, fun s hs => (h s hs).2⟩,
          fun h s hs => ⟨fun heq => h.1 (heq ▸ hs), h.2 s hs⟩⟩
      rw [mappedTwice, List.append_eq_nil_iff, ih, hseen,
        List.filterMap_cons_some (show Prod.snd (key, some sp) = some sp from rfl), List.nodup_cons,
        List.forall_mem_cons]
      by_cases hmem : sp ∈ seen
      · simp [hmem]
      · simp only [hmem, if_false, not_false_eq_true, true_and]
        exact ⟨fun ⟨hnodup, hnot, h⟩ => ⟨⟨hnot, hnodup⟩, h⟩, fun ⟨⟨hnot, hnodup⟩, h⟩ => ⟨hnodup, hnot, h⟩⟩

theorem mappedTwice_sorted (out : OrderedDict BitKey (Option Str)) :
    mappedTwice cell [] (sortedItems out) = [] ↔
      ∀ e ∈ out.items, ∀ e' ∈ out.items, ∀ s, e.2 = some s → e'.2 = some s → e = e' := by
  have hperm : (sortedItems out).Perm out.items := List.mergeSort_perm _ _
  rw [mappedTwice_eq_nil, (hperm.filterMap Prod.snd).nodup_iff, nodup_filterMap_iff (out.nodup.of_map _)]
  simp

/-- A bit without a problem and, where it is left to the positions, with a port in its position. -/
theorem bound_of_no_problem {p : CutPort × Int} (hproblem : bitProblem U cell pm ranges origPorts p = none)
    (hposition : pm.default = .snpsByPosition → ∃ s, inPosition U cell ranges origPorts p = some s) :
    target U cell pm ranges origPorts p ≠ .missing ∧
      bound U cell pm ranges origPorts p = some (target U cell pm ranges origPorts p).entry := by
  have hbit := bindBit_target U cell pm ranges origPorts p
  rw [bitProblem] at hproblem
  rw [bound]
  cases h : bindBit U cell pm ranges origPorts p.1 p.2 with
  | stored t problem =>
    rw [h] at hproblem hbit
    subst hproblem
    exact ⟨hbit.1, congrArg some hbit.2⟩
  | positional =>
    rw [h] at hbit
    obtain ⟨s, hs⟩ := hposition hbit.1
    rw [hbit.2, hs]
    exact ⟨fun heq => (nomatch heq), rfl⟩

theorem bound_of_port {p : CutPort × Int} {s : Str} (h : target U cell pm ranges origPorts p = .port s) :
    bound U cell pm ranges origPorts p = some (some s) := by
  have hbit := bindBit_target U cell pm ranges origPorts p
  rw [bound]
  cases hp : bindBit U cell pm ranges origPorts p.1 p.2 with
  | stored t problem =>
    rw [hp, h] at hbit
    cases problem with
    | none => exact congrArg some hbit.2
    | some problem => cases hbit
  | positional =>
    rw [hp, h] at hbit
    cases hs : inPosition U cell ranges origPorts p with
    | none =>
      rw [hs] at hbit
      cases hbit.2
    | some s' =>
      rw [hs] at hbit
      rw [Option.map_some, ← Target.port.inj hbit.2]

/-- A stored port is the one that the rules give, or an explicit target that does not exist. -/
theorem target_of_bound {p : CutPort × Int} {s : Str} (h : bound U cell pm ranges origPorts p = some (some s)) :
    target U cell pm ranges origPorts p = .port s ∨ target U cell pm ranges origPorts p = .missing := by
  have hbit := bindBit_target U cell pm ranges origPorts p
  rw [bound] at h
  cases hp : bindBit U cell pm ranges origPorts p.1 p.2 with
  | stored t problem =>
    rw [hp] at h hbit
    cases problem with
    | none =>
      left
      rw [Option.some.inj h] at hbit
      cases htarget : target U cell pm ranges origPorts p <;> rw [htarget] at hbit <;> cases hbit.2
      rfl
    | some problem => exact .inr hbit
  | positional =>
    rw [hp] at h hbit
    obtain ⟨s', hs', heq⟩ := Option.map_eq_some_iff.mp h
    rw [hbit.2, hs', Option.some.inj heq]
    exact .inl rfl

theorem problem_of_missing {p : CutPort × Int} (h : target U cell pm ranges origPorts p = .missing) :
    bitProblem U cell pm ranges origPorts p ≠ none ∨
      pm.default = .snpsByPosition ∧ inPosition U cell ranges origPorts p = none := by
  have hbit := bindBit_target U cell pm ranges origPorts p
  rw [bitProblem]
  cases hp : bindBit U cell pm ranges origPorts p.1 p.2 with
  | stored t problem =>
    rw [hp] at hbit
    cases problem with
    | none => exact absurd h hbit.1
    | some problem => exact .inl (Option.some_ne_none _)
  | positional =>
    rw [hp, h] at hbit
    cases hs : inPosition U cell ranges origPorts p with
    | none => exact .inr ⟨hbit.1, rfl⟩
    | some s =>
      rw [hs] at hbit
      cases hbit.2

end Loops

/-! ## What is bound -/

section Bind

variable (U : UnicodeData) (cell : CutCell) (pm : PortMap) (ranges : List Range) (origPorts : List Str)

theorem bindBits_eq (portmap : Option PortMap) :
    bindBits U cell ranges origPorts portmap =
      let st := bindAll U cell (portmap.getD cell.portmap) ranges origPorts
      if st.problems ++ mappedTwice cell [] (sortedItems st.out) = [] then .ok st.out
      else .error (st.problems ++ mappedTwice cell [] (sortedItems st.out)) := rfl

/-- Every bit has its port, none is shared and, by position, the counts agree. -/
structure Bindable : Prop where
  found : ∀ p ∈ verilogBits cell ranges, target U cell pm ranges origPorts p ≠ .missing
  apart : ∀ p ∈ verilogBits cell ranges, ∀ q ∈ verilogBits cell ranges, ∀ s,
    target U cell pm ranges origPorts p = .port s → target U cell pm ranges origPorts q = .port s → p = q
  counts : pm.default = .snpsByPosition → (verilogBits cell ranges).length = origPorts.length

theorem inPosition_of_counts (h : (verilogBits cell ranges).length = origPorts.length) {p : CutPort × Int}
    (hp : p ∈ verilogBits cell ranges) : ∃ s, inPosition U cell ranges origPorts p = some s :=
  length_verilogBits U cell ranges origPorts (by rw [List.length_map, allPorts, List.length_map, h]) hp

theorem noProblems_iff :
    (bindAll U cell pm ranges origPorts).problems = [] ∧
        mappedTwice cell [] (sortedItems (bindAll U cell pm ranges origPorts).out) = [] ↔
      Bindable U cell pm ranges origPorts := by
  rw [problems_bindAll, mappedTwice_sorted]
  constructor
  · rintro ⟨⟨hproblem, hcounts⟩, htwice⟩
    refine ⟨fun p hp hmissing => ?_, fun p hp q hq s hps hqs => ?_, hcounts⟩
    · rcases problem_of_missing U cell pm ranges origPorts hmissing with h | ⟨hdefault, hnone⟩
      · exact h (hproblem p hp)
      · obtain ⟨s, hs⟩ := inPosition_of_counts U cell ranges origPorts (hcounts hdefault) hp
        rw [hnone] at hs
        cases hs
    · have hmem : ∀ r ∈ verilogBits cell ranges, target U cell pm ranges origPorts r = .port s →
          (bitKey ranges r, some s) ∈ (bindAll U cell pm ranges origPorts).out.items := fun r hr hrs =>
        (mem_items_bindAll U cell pm ranges origPorts).mpr ⟨r, hr, rfl, bound_of_port U cell pm ranges origPorts hrs⟩
      have heq := htwice _ (hmem p hp hps) _ (hmem q hq hqs) s rfl rfl
      exact bitKey_injective cell ranges hp hq (congrArg Prod.fst heq)
  · intro h
    refine ⟨⟨fun p hp => ?_, h.counts⟩, fun e he e' he' s hs hs' => ?_⟩
    · have hbit := bindBit_target U cell pm ranges origPorts p
      rw [bitProblem]
      cases hb : bindBit U cell pm ranges origPorts p.1 p.2 with
      | stored t problem =>
        rw [hb] at hbit
        cases problem with
        | none => rfl
        | some problem => exact absurd hbit (h.found p hp)
      | positional => rfl
    · obtain ⟨p, hp, hkey, hbound⟩ := (mem_items_bindAll U cell pm ranges origPorts).mp he
      obtain ⟨q, hq, hkey', hbound'⟩ := (mem_items_bindAll U cell pm ranges origPorts).mp he'
      rw [hs] at hbound
      rw [hs'] at hbound'
      have hps := (target_of_bound U cell pm ranges origPorts hbound).resolve_right (h.found p hp)
      have hqs := (target_of_bound U cell pm ranges origPorts hbound').resolve_right (h.found q hq)
      have hpq := h.apart p hp q hq s hps hqs
      exact Prod.ext (by rw [← hkey, hpq, hkey']) (hs.trans hs'.symm)

theorem bindBits_ok_iff (portmap : Option PortMap) (out : OrderedDict BitKey (Option Str)) :
    bindBits U cell ranges origPorts portmap = .ok out ↔
      Bindable U cell (portmap.getD cell.portmap) ranges origPorts ∧
        out = (bindAll U cell (portmap.getD cell.portmap) ranges origPorts).out := by
  rw [bindBits_eq, ← noProblems_iff, ← List.append_eq_nil_iff]
  dsimp only
  split_ifs with h
  · rw [Except.ok.injEq, eq_comm]
    exact ⟨fun heq => ⟨h, heq⟩, And.right⟩
  · exact ⟨fun heq => (nomatch heq), fun heq => absurd heq.1 h⟩

theorem bindBits_error_iff (portmap : Option PortMap) :
    (∃ notes, bindBits U cell ranges origPorts portmap = .error notes) ↔
      ¬ Bindable U cell (portmap.getD cell.portmap) ranges origPorts := by
  rw [bindBits_eq, ← noProblems_iff, ← List.append_eq_nil_iff]
  dsimp only
  split_ifs with h
  · exact ⟨fun ⟨_, heq⟩ => (nomatch heq), fun hnot => absurd h hnot⟩
  · exact ⟨fun _ => h, fun _ => ⟨_, rfl⟩⟩

/-- The entries of a binding are those of the rules, one for each bit. -/
theorem lookup_bindAll (h : Bindable U cell pm ranges origPorts) {p : CutPort × Int}
    (hp : p ∈ verilogBits cell ranges) :
    (bindAll U cell pm ranges origPorts).out.lookup (bitKey ranges p) =
      some (target U cell pm ranges origPorts p).entry := by
  have hnone := ((problems_bindAll U cell pm ranges origPorts).mp
    ((noProblems_iff U cell pm ranges origPorts).mpr h).1).1 p hp
  have hbound := bound_of_no_problem U cell pm ranges origPorts hnone fun hdefault =>
    inPosition_of_counts U cell ranges origPorts (h.counts hdefault) hp
  exact OrderedDict.lookup_eq_some.mpr
    ((mem_items_bindAll U cell pm ranges origPorts).mpr ⟨p, hp, rfl, hbound.2⟩)

theorem keys_bindAll (h : Bindable U cell pm ranges origPorts) :
    (bindAll U cell pm ranges origPorts).out.keys.Perm ((verilogBits cell ranges).map (bitKey ranges)) := by
  refine (List.perm_ext_iff_of_nodup (bindAll U cell pm ranges origPorts).out.nodup
    (nodup_bitKeys cell ranges)).mpr fun key => ?_
  constructor
  · intro hkey
    obtain ⟨e, he, rfl⟩ := List.mem_map.mp hkey
    obtain ⟨p, hp, hkey, -⟩ := (mem_items_bindAll U cell pm ranges origPorts).mp he
    exact hkey ▸ List.mem_map_of_mem hp
  · intro hkey
    obtain ⟨p, hp, rfl⟩ := List.mem_map.mp hkey
    exact OrderedDict.mem_keys_iff.mpr ⟨_, lookup_bindAll U cell pm ranges origPorts h hp⟩

/-- Two port maps that differ in the case of their names. -/
structure SameNames (pm pm' : PortMap) : Prop where
  explicit : List.Forall₂ (fun e e' => U.lower e.1 = U.lower e'.1 ∧ U.lower e.2 = U.lower e'.2)
    pm.explicit.items pm'.explicit.items
  default : pm.default = pm'.default
  busFormats : pm.busFormats = pm'.busFormats

theorem SameNames.explicitItems {pm pm' : PortMap} (h : SameNames U pm pm') :
    explicitItems U pm = explicitItems U pm' := by
  have hitems : ∀ {l l' : List (Str × Str)},
      List.Forall₂ (fun e e' => U.lower e.1 = U.lower e'.1 ∧ U.lower e.2 = U.lower e'.2) l l' →
        l.map (fun e => (U.lower e.1, U.lower e.2)) = l'.map fun e => (U.lower e.1, U.lower e.2) := by
    intro l l' h
    induction h with
    | nil => rfl
    | cons he _ ih => rw [List.map_cons, List.map_cons, ih, he.1, he.2]
  rw [PortMaps.explicitItems, PortMaps.explicitItems, hitems h.explicit]

theorem SameNames.bindAll {pm pm' : PortMap} (h : SameNames U pm pm') :
    bindAll U cell pm ranges origPorts = bindAll U cell pm' ranges origPorts := by
  have hname : byName U pm origPorts = byName U pm' origPorts := by
    funext base rng i
    unfold byName formats
    rw [h.busFormats]
  have hbit : bindBit U cell pm ranges origPorts = bindBit U cell pm' ranges origPorts := by
    funext port b
    rw [bindBit, bindBit, h.explicitItems, hname, h.default]
  have hstep : bindStep U cell pm ranges origPorts = bindStep U cell pm' ranges origPorts := by
    funext st p
    rw [bindStep, bindStep, hbit]
  rw [PortMaps.bindAll, PortMaps.bindAll, bindPositions, bindPositions, hstep, h.default]

/-- Offsets and indices are inverse; every bit of every port has one entry, the one that the rules give; no SPICE
    port has two bits; and it is an error exactly where a bit has no port, two share one or the counts of the
    positions differ. The case of the port map's names is of no matter. -/
theorem ports_bound (portmap : Option PortMap) :
    (∀ rng, ((bits rng).Nodup ∧ (bits rng).length = width rng) ∧
      (∀ b ∈ bits rng, offset b rng < width rng ∧ bitOf (offset b rng) rng = b) ∧
      ∀ off < width rng, bitOf off rng ∈ bits rng ∧ offset (bitOf off rng) rng = off) ∧
    (∀ out, bindBits U cell ranges origPorts portmap = .ok out →
      (((verilogBits cell ranges).map (bitKey ranges)).Nodup ∧
        out.keys.Perm ((verilogBits cell ranges).map (bitKey ranges))) ∧
      (∀ p ∈ verilogBits cell ranges, out.lookup (bitKey ranges p) =
        some (target U cell (portmap.getD cell.portmap) ranges origPorts p).entry) ∧
      ∀ key key' s, out.lookup key = some (some s) → out.lookup key' = some (some s) → key = key') ∧
    ((∃ notes, bindBits U cell ranges origPorts portmap = .error notes) ↔
      (∃ p ∈ verilogBits cell ranges,
        target U cell (portmap.getD cell.portmap) ranges origPorts p = .missing) ∨
      (∃ p ∈ verilogBits cell ranges, ∃ q ∈ verilogBits cell ranges, p ≠ q ∧ ∃ s,
        target U cell (portmap.getD cell.portmap) ranges origPorts p = .port s ∧
          target U cell (portmap.getD cell.portmap) ranges origPorts q = .port s) ∨
      (portmap.getD cell.portmap).default = .snpsByPosition ∧
        (verilogBits cell ranges).length ≠ origPorts.length) ∧
    ∀ pm', SameNames U (portmap.getD cell.portmap) pm' →
      bindBits U cell ranges origPorts (some pm') = bindBits U cell ranges origPorts portmap := by
  refine ⟨fun rng => ⟨⟨nodup_bits rng, length_bits rng⟩, fun b hb => ⟨offset_lt hb, bitOf_offset hb⟩,
    fun off hoff => ⟨bitOf_mem hoff, offset_bitOf hoff⟩⟩, fun out hout => ?_, ?_, fun pm' hsame => ?_⟩
  · obtain ⟨h, rfl⟩ := (bindBits_ok_iff U cell ranges origPorts portmap out).mp hout
    refine ⟨⟨nodup_bitKeys cell ranges, keys_bindAll U cell _ ranges origPorts h⟩,
      fun p hp => lookup_bindAll U cell _ ranges origPorts h hp, fun key key' s hkey hkey' => ?_⟩
    have htwice := (mappedTwice_sorted cell _).mp ((noProblems_iff U cell _ ranges origPorts).mpr h).2
    have heq := htwice _ (OrderedDict.lookup_eq_some.mp hkey) _ (OrderedDict.lookup_eq_some.mp hkey') s rfl rfl
    exact congrArg Prod.fst heq
  · rw [bindBits_error_iff]
    constructor
    · intro hnot
      by_contra hall
      rw [not_or, not_or] at hall
      obtain ⟨hfound, hapart, hcounts⟩ := hall
      refine hnot ⟨fun p hp hmissing => hfound ⟨p, hp, hmissing⟩, fun p hp q hq s hps hqs => ?_, fun hdefault => ?_⟩
      · by_contra hne
        exact hapart ⟨p, hp, q, hq, hne, s, hps, hqs⟩
      · by_contra hne
        exact hcounts ⟨hdefault, hne⟩
    · rintro (⟨p, hp, hmissing⟩ | ⟨p, hp, q, hq, hne, s, hps, hqs⟩ | ⟨hdefault, hne⟩) h
      · exact h.found p hp hmissing
      · exact hne (h.apart p hp q hq s hps hqs)
      · exact hne (h.counts hdefault)
  · rw [bindBits_eq, bindBits_eq, Option.getD_some, ← hsame.bindAll]

end Bind

end Vamos.Ams.PortMaps
