import Sv2ghdl.Graph.Marks
import Sv2ghdl.Lists.Traverse
import Sv2ghdl.Python.Str
import Mathlib.Logic.Relation

/-!
# Bits that only ever hold Z

`_Index._z_bits` of `vamos/ams/cut.py` with the references it resolves (`resolve`, `offs`, `bits`, `_value_bits`),
over the records of `vamos/ams/vhdl.py`.  Names are in lower case throughout.
-/

open Python

namespace Vamos.ZBits

/-! ## Types and references -/

structure Range where
  left : Int
  right : Int
  downto : Bool := true
  deriving DecidableEq

/-- The VHDL indices, left to right. -/
def Range.indices (r : Range) : List Int :=
  if r.downto then (List.range (r.left - r.right + 1).toNat).map fun n : Nat => r.left - n
  else (List.range (r.right - r.left + 1).toNat).map fun n : Nat => r.left + n

/-- The offset from the right bound. -/
def Range.offset (r : Range) (index : Int) : Int := if r.downto then index - r.right else r.right - index

def Range.contains (r : Range) (index : Int) : Bool := min r.left r.right ≤ index && index ≤ max r.left r.right

structure TypeSpec where
  mark : Str
  rng : Option Range := none
  deriving DecidableEq

/-- `kind == "logic"` -/
def TypeSpec.isLogic (t : TypeSpec) : Bool :=
  t.mark ∈ [str "logic3d", str "resolved_logic3d", str "logic3d_vector", str "resolved_logic3d_vector"]

/-- The range of a vector, `none` for what `vector` is false of. -/
def TypeSpec.vector (t : TypeSpec) : Option Range := if (str "_vector").isSuffixOf t.mark then t.rng else none

def TypeSpec.offsets (t : TypeSpec) : List Int :=
  match t.vector with
  | some r => r.indices.map r.offset
  | none => [0]

/-- A reference; `exact` is false when an index or a bound is not a constant. -/
structure Ref where
  name : Str
  indices : Option (List Int) := none
  exact : Bool := true
  deriving DecidableEq

/-- A bit: a signal and an offset. -/
abbrev Bit := Str × Int

/-! ## Architectures -/

structure SignalDecl where
  type : TypeSpec
  /-- No comment says where the signal was declared. -/
  temporary : Bool
  readableShadow : Bool := false

/-- An element of a value: a `logic3d` constant or a plain reference. -/
inductive Part where
  | lit (l : Str)
  | ref (r : Ref)
  deriving DecidableEq

/-- `<=`, `:=`, `force` or `release` -/
inductive Op where
  | signal
  | deposit
  | force
  | release
  deriving DecidableEq

structure Assign where
  target : Ref
  op : Op := .signal
  /-- It can only assign `L3D_Z`. -/
  zOnly : Bool := false
  parts : Option (List Part) := none
  /-- An `after` clause. -/
  delayed : Bool := false
  /-- A plain reference has constant indices. -/
  exact_parts : ∀ ps ∈ parts, ∀ r, .ref r ∈ ps → r.exact = true

structure Assoc where
  actual : Option (List Ref) := none
  reads : List Ref := []

inductive Stmt where
  | inst (assocs : List Assoc)
  /-- `control` counts the statements of control flow. -/
  | process (assigns : List Assign) (ctrlReads : List Ref) (control : Nat)
  | call (ctrlReads : List Ref)

structure Architecture where
  ports : OrderedDict Str TypeSpec
  signals : OrderedDict Str SignalDecl
  /-- The target of each alias. -/
  aliases : OrderedDict Str Ref
  stmts : List Stmt

/-! ## Resolving a reference -/

section Resolve

variable (arch : Architecture)

def typeOf (name : Str) : Option TypeSpec :=
  (arch.ports.lookup name).orElse fun _ => (arch.signals.lookup name).map SignalDecl.type

/-- One round of the loop of `resolve`, `none` where it stops. -/
def aliasStep (ref : Ref) : Option Ref :=
  (arch.aliases.lookup ref.name).map fun t =>
    match t.indices with
    | some [_] => t
    | some is => ⟨t.name, some (ref.indices.getD is), ref.exact && t.exact⟩
    | none => ⟨t.name, ref.indices, ref.exact⟩

def resolveIn : Nat → Ref → Ref
  | 0, ref => ref
  | n + 1, ref =>
    match aliasStep arch ref with
    | none => ref
    | some ref' => resolveIn n ref'

/-- The rounds of `resolve`. -/
def maxAliases : Nat := 16

def resolve (ref : Ref) : Ref := resolveIn arch maxAliases ref

def offs (ref : Ref) : List Int :=
  match typeOf arch ref.name with
  | none => []
  | some ts =>
    match ref.indices, ref.exact with
    | some is, true =>
      match ts.vector with
      | some rng => (is.filter rng.contains).map rng.offset
      | none => [0]
    | _, _ => ts.offsets

/-- The bits of a resolved reference. -/
def bitsOf (ref : Ref) : List Bit := (offs arch ref).map (ref.name, ·)

/-- `bits([ref])` -/
def bits (ref : Ref) : List Bit := bitsOf arch (resolve arch ref)

end Resolve

/-! ## The assignments of the temporaries -/

/-- `_Z_LIT` -/
def zLit : Str := str "l3d_z"

/-- A bit of an assigned value. -/
inductive ValueBit where
  | lit (l : Str)
  | bit (b : Bit)
  deriving DecidableEq

section Collect

variable (arch : Architecture)

def partBits : Part → Option (List ValueBit)
  | .lit l => some [.lit l]
  | .ref p =>
    let r := resolve arch p
    if (typeOf arch r.name).isNone || r.indices.isSome && !r.exact then none
    else some ((bitsOf arch r).map .bit)

/-- `_value_bits` -/
def valueBits (asg : Assign) : Option (List ValueBit) :=
  asg.parts.bind fun ps => (ps.mapM (partBits arch)).map List.flatten

/-- The logic temporaries. -/
def temporaries : List Str :=
  (arch.signals.items.filter fun e => e.2.temporary && !e.2.readableShadow && e.2.type.isLogic).map Prod.fst

/-- The references that take a temporary out. -/
def Stmt.touched : Stmt → List Ref
  | .inst assocs => assocs.flatMap fun a => a.actual.getD [] ++ a.reads
  | .process _ ctrlReads _ => ctrlReads
  | .call ctrlReads => ctrlReads

/-- `temps` after the first loop. -/
def temps : List Str :=
  let touched := (arch.stmts.flatMap Stmt.touched).map fun r => (resolve arch r).name
  (temporaries arch).filter fun n => n ∉ touched

/-- The assignments of the processes, each with whether its process is straight. -/
def assigns : List (Bool × Assign) :=
  arch.stmts.flatMap fun
    | .process assigns _ control => assigns.map (control == 0, ·)
    | .inst _ => []
    | .call _ => []

/-- `vals` of an assignment, before its length is compared. -/
def givenBits (straight : Bool) (asg : Assign) : Option (List ValueBit) :=
  if straight && (asg.op == .signal || asg.op == .deposit) && !asg.delayed then
    if asg.zOnly then some ((bits arch asg.target).map fun _ => .lit zLit) else valueBits arch asg
  else none

/-- `srcs` and `bad`. -/
structure Sources where
  srcs : OrderedDict Bit (List ValueBit) := .empty
  bad : List Bit := []

/-- `srcs.setdefault(b, []).append(v)` -/
def addSource (srcs : OrderedDict Bit (List ValueBit)) (e : Bit × ValueBit) : OrderedDict Bit (List ValueBit) :=
  srcs.set e.1 ((srcs.lookup e.1).getD [] ++ [e.2])

/-- The body of the loop over the assignments. -/
def collectStep (s : Sources) (a : Bool × Assign) : Sources :=
  if (resolve arch a.2.target).name ∉ temps arch then s
  else
    let tb := bits arch a.2.target
    match givenBits arch a.1 a.2 with
    | none => { s with bad := s.bad ++ tb }
    | some vals =>
      if vals.length ≠ tb.length then { s with bad := s.bad ++ tb }
      else { s with srcs := (tb.zip vals).foldl addSource s.srcs }

def sources : Sources := (assigns arch).foldl (collectStep arch) {}

/-- Whether a bit is Z-only as far as the set goes. -/
def whyZ (zb : OrderedDict Bit Unit) (b : Bit) : Option Unit :=
  if b ∈ (sources arch).bad then none
  else if ((sources arch).srcs.lookup b).getD [] |>.all fun
    | .lit l => l = zLit
    | .bit c => c ∈ zb.keys then some ()
  else none

/-- `_z_bits`, `none` when the fuel does not suffice; the set is in the order in which the bits enter it. -/
def zBits (fuel : Nat) : Option (OrderedDict Bit Unit) :=
  if temps arch = [] then some .empty
  else Marks.passes (whyZ arch) (sources arch).srcs.keys fuel .empty

end Collect

/-! ## What is collected -/

section Collected

variable (arch : Architecture)

/-- The sources that an assignment gives the bits of its target. -/
def gives (a : Bool × Assign) : List (Bit × ValueBit) :=
  if (resolve arch a.2.target).name ∉ temps arch then []
  else
    match givenBits arch a.1 a.2 with
    | none => []
    | some vals => if vals.length ≠ (bits arch a.2.target).length then [] else (bits arch a.2.target).zip vals

/-- The bits that an assignment makes bad. -/
def refuses (a : Bool × Assign) : List Bit :=
  if (resolve arch a.2.target).name ∉ temps arch then []
  else
    match givenBits arch a.1 a.2 with
    | none => bits arch a.2.target
    | some vals => if vals.length ≠ (bits arch a.2.target).length then bits arch a.2.target else []

theorem collectStep_eq (s : Sources) (a : Bool × Assign) :
    collectStep arch s a = ⟨(gives arch a).foldl addSource s.srcs, s.bad ++ refuses arch a⟩ := by
  rw [collectStep, gives, refuses]
  by_cases hname : (resolve arch a.2.target).name ∉ temps arch
  · rw [if_pos hname, if_pos hname, if_pos hname, List.append_nil]
    rfl
  · rw [if_neg hname, if_neg hname, if_neg hname]
    cases givenBits arch a.1 a.2 with
    | none => rfl
    | some vals =>
      by_cases hlen : vals.length ≠ (bits arch a.2.target).length
      · simp only [if_pos hlen]
        rfl
      · simp only [if_neg hlen, List.append_nil]

theorem foldl_collectStep (l : List (Bool × Assign)) (s : Sources) :
    l.foldl (collectStep arch) s =
      ⟨(l.flatMap (gives arch)).foldl addSource s.srcs, s.bad ++ l.flatMap (refuses arch)⟩ := by
  induction l generalizing s with
  | nil => simp
  | cons a l ih =>
    rw [List.foldl_cons, ih, collectStep_eq, List.flatMap_cons, List.foldl_append, List.flatMap_cons,
      List.append_assoc]

theorem mem_bad {b : Bit} : b ∈ (sources arch).bad ↔ ∃ a ∈ assigns arch, b ∈ refuses arch a := by
  rw [sources, foldl_collectStep]
  exact List.mem_flatMap

/-- The sources of a bit in a dictionary. -/
def sourcesOf (srcs : OrderedDict Bit (List ValueBit)) (b : Bit) : List ValueBit := (srcs.lookup b).getD []

theorem sourcesOf_foldl (l : List (Bit × ValueBit)) (srcs : OrderedDict Bit (List ValueBit)) (b : Bit) :
    sourcesOf (l.foldl addSource srcs) b = sourcesOf srcs b ++ (l.filter (·.1 = b)).map Prod.snd := by
  induction l generalizing srcs with
  | nil => simp
  | cons e l ih =>
    rw [List.foldl_cons, ih, sourcesOf, addSource, OrderedDict.lookup_set]
    by_cases he : b = e.1
    · rw [if_pos he, List.filter_cons_of_pos (by simp [he])]
      simp [sourcesOf, he]
    · rw [if_neg he, List.filter_cons_of_neg (by simp [Ne.symm he])]
      rfl

theorem mem_keys_foldl {l : List (Bit × ValueBit)} {srcs : OrderedDict Bit (List ValueBit)} {b : Bit} :
    b ∈ (l.foldl addSource srcs).keys ↔ b ∈ srcs.keys ∨ ∃ v, (b, v) ∈ l := by
  induction l generalizing srcs with
  | nil => simp
  | cons e l ih =>
    rw [List.foldl_cons, ih, addSource, OrderedDict.mem_keys_set]
    constructor
    · rintro ((rfl | h) | ⟨v, hv⟩)
      · exact .inr ⟨e.2, List.mem_cons_self⟩
      · exact .inl h
      · exact .inr ⟨v, List.mem_cons_of_mem _ hv⟩
    · rintro (h | ⟨v, hv⟩)
      · exact .inl (.inr h)
      · rcases List.mem_cons.mp hv with rfl | hv
        · exact .inl (.inl rfl)
        · exact .inr ⟨v, hv⟩

theorem mem_sources {b : Bit} {v : ValueBit} :
    v ∈ sourcesOf (sources arch).srcs b ↔ ∃ a ∈ assigns arch, (b, v) ∈ gives arch a := by
  rw [sources, foldl_collectStep, sourcesOf_foldl]
  show v ∈ [] ++ _ ↔ _
  rw [List.nil_append, List.mem_map]
  constructor
  · rintro ⟨⟨b', v'⟩, he, rfl⟩
    obtain ⟨he, hb⟩ := List.mem_filter.mp he
    rw [← show b' = b from of_decide_eq_true hb]
    exact List.mem_flatMap.mp he
  · intro h
    exact ⟨(b, v), List.mem_filter.mpr ⟨List.mem_flatMap.mpr h, decide_eq_true rfl⟩, rfl⟩

theorem mem_keys {b : Bit} : b ∈ (sources arch).srcs.keys ↔ ∃ v, ∃ a ∈ assigns arch, (b, v) ∈ gives arch a := by
  rw [sources, foldl_collectStep, mem_keys_foldl]
  show b ∈ [] ∨ _ ↔ _
  simp only [List.not_mem_nil, false_or, List.mem_flatMap]

theorem fst_of_mem_bits {ref : Ref} {b : Bit} (h : b ∈ bits arch ref) : b.1 = (resolve arch ref).name := by
  obtain ⟨o, -, rfl⟩ := List.mem_map.mp h
  rfl

end Collected

/-! ## The rule -/

section Rule

variable (arch : Architecture)

/-- A bit is assigned, no instance, call or condition touches its signal, and every assignment to it is unconditional
    and undelayed and gives it Z or a copy of a bit in `S`. -/
structure Given (S : Set Bit) (b : Bit) : Prop where
  temporary : b.1 ∈ temps arch
  assigned : ∃ a ∈ assigns arch, b ∈ bits arch a.2.target
  values : ∀ a ∈ assigns arch, b ∈ bits arch a.2.target → ∃ vals, givenBits arch a.1 a.2 = some vals ∧
    vals.length = (bits arch a.2.target).length ∧
      ∀ v, (b, v) ∈ (bits arch a.2.target).zip vals → v = .lit zLit ∨ ∃ c ∈ S, v = .bit c

theorem Given.mono {S T : Set Bit} {b : Bit} (h : Given arch S b) (hST : S ⊆ T) : Given arch T b where
  temporary := h.temporary
  assigned := h.assigned
  values a ha hb := by
    obtain ⟨vals, hvals, hlen, hv⟩ := h.values a ha hb
    exact ⟨vals, hvals, hlen, fun v hmem => (hv v hmem).imp_right fun ⟨c, hc, heq⟩ => ⟨c, hST hc, heq⟩⟩

theorem whyZ_eq_some {zb : OrderedDict Bit Unit} {b : Bit} :
    whyZ arch zb b = some () ↔ b ∉ (sources arch).bad ∧
      ∀ v ∈ sourcesOf (sources arch).srcs b, v = .lit zLit ∨ ∃ c ∈ zb.keys, v = .bit c := by
  have hall : ∀ v : ValueBit, (match v with
      | .lit l => decide (l = zLit)
      | .bit c => decide (c ∈ zb.keys)) = true ↔ v = .lit zLit ∨ ∃ c ∈ zb.keys, v = .bit c := by
    intro v
    cases v <;> simp
  rw [whyZ]
  by_cases hbad : b ∈ (sources arch).bad
  · simp [hbad]
  · rw [if_neg hbad]
    split_ifs with h
    · exact ⟨fun _ => ⟨hbad, fun v hv => (hall v).mp (List.all_eq_true.mp h v hv)⟩, fun _ => rfl⟩
    · refine ⟨fun heq => (by cases heq), fun hv => absurd (List.all_eq_true.mpr fun v hmem => ?_) h⟩
      exact (hall v).mpr (hv.2 v hmem)

/-- An assignment of a temporary's bit that the rule allows gives its sources. -/
theorem gives_eq {a : Bool × Assign} {b : Bit} (hb : b ∈ bits arch a.2.target) (htemp : b.1 ∈ temps arch)
    {vals : List ValueBit} (hvals : givenBits arch a.1 a.2 = some vals)
    (hlen : vals.length = (bits arch a.2.target).length) :
    gives arch a = (bits arch a.2.target).zip vals := by
  rw [gives, if_neg (by rw [← fst_of_mem_bits arch hb]; exact not_not.mpr htemp), hvals]
  exact if_neg (not_not.mpr hlen)

/-- An assignment to a temporary's bit is collected, or it makes the bit bad. -/
theorem gives_or_refuses {a : Bool × Assign} {b : Bit} (hb : b ∈ bits arch a.2.target) (htemp : b.1 ∈ temps arch) :
    b ∈ refuses arch a ∨ ∃ vals, givenBits arch a.1 a.2 = some vals ∧ vals.length = (bits arch a.2.target).length := by
  have hname : ¬ (resolve arch a.2.target).name ∉ temps arch := by
    rw [← fst_of_mem_bits arch hb]
    exact not_not.mpr htemp
  rw [refuses, if_neg hname]
  cases givenBits arch a.1 a.2 with
  | none => exact .inl hb
  | some vals =>
    by_cases hlen : vals.length = (bits arch a.2.target).length
    · exact .inr ⟨vals, rfl, hlen⟩
    · left
      show b ∈ if _ then _ else _
      rw [if_pos hlen]
      exact hb

theorem mem_gives {a : Bool × Assign} {b : Bit} {v : ValueBit} (h : (b, v) ∈ gives arch a) :
    b ∈ bits arch a.2.target ∧ b.1 ∈ temps arch ∧ ∃ vals, givenBits arch a.1 a.2 = some vals ∧
      vals.length = (bits arch a.2.target).length ∧ (b, v) ∈ (bits arch a.2.target).zip vals := by
  rw [gives] at h
  by_cases hname : (resolve arch a.2.target).name ∈ temps arch
  · rw [if_neg (not_not.mpr hname)] at h
    cases hvals : givenBits arch a.1 a.2 with
    | none =>
      rw [hvals] at h
      cases h
    | some vals =>
      rw [hvals] at h
      dsimp only at h
      by_cases hlen : vals.length = (bits arch a.2.target).length
      · rw [if_neg (not_not.mpr hlen)] at h
        have hb := (List.of_mem_zip h).1
        exact ⟨hb, by rwa [fst_of_mem_bits arch hb], vals, rfl, hlen, h⟩
      · rw [if_pos hlen] at h
        cases h
  · rw [if_pos hname] at h
    cases h

theorem mem_refuses {a : Bool × Assign} {b : Bit} (h : b ∈ refuses arch a) :
    b ∈ bits arch a.2.target ∧ ∀ vals, givenBits arch a.1 a.2 = some vals →
      vals.length ≠ (bits arch a.2.target).length := by
  rw [refuses] at h
  by_cases hname : (resolve arch a.2.target).name ∈ temps arch
  · rw [if_neg (not_not.mpr hname)] at h
    cases hvals : givenBits arch a.1 a.2 with
    | none =>
      rw [hvals] at h
      exact ⟨h, fun vals heq => (nomatch heq)⟩
    | some vals =>
      rw [hvals] at h
      dsimp only at h
      by_cases hlen : vals.length = (bits arch a.2.target).length
      · rw [if_neg (not_not.mpr hlen)] at h
        cases h
      · rw [if_pos hlen] at h
        exact ⟨h, fun vals' heq => Option.some.inj heq ▸ hlen⟩
  · rw [if_pos hname] at h
    cases h

/-- The marks follow the rule. -/
theorem whyZ_iff {zb : OrderedDict Bit Unit} {b : Bit} :
    b ∈ (sources arch).srcs.keys ∧ whyZ arch zb b = some () ↔ Given arch {c | c ∈ zb.keys} b := by
  rw [mem_keys, whyZ_eq_some, mem_bad]
  constructor
  · rintro ⟨⟨v, a, ha, hv⟩, hbad, hall⟩
    obtain ⟨hb, htemp, -⟩ := mem_gives arch hv
    refine ⟨htemp, ⟨a, ha, hb⟩, fun a' ha' hb' => ?_⟩
    rcases gives_or_refuses arch hb' htemp with h | ⟨vals, hvals, hlen⟩
    · exact absurd ⟨a', ha', h⟩ hbad
    · refine ⟨vals, hvals, hlen, fun v' hv' => hall v' ((mem_sources arch).mpr ⟨a', ha', ?_⟩)⟩
      rw [gives_eq arch hb' htemp hvals hlen]
      exact hv'
  · intro h
    refine ⟨?_, ?_, fun v hv => ?_⟩
    · obtain ⟨a, ha, hb⟩ := h.assigned
      obtain ⟨vals, hvals, hlen, -⟩ := h.values a ha hb
      obtain ⟨k, hk, hget⟩ := List.getElem_of_mem hb
      have hmem : (b, vals[k]) ∈ (bits arch a.2.target).zip vals := by
        rw [← hget, ← List.getElem_zip (h := by rw [List.length_zip]; omega)]
        exact List.getElem_mem _
      exact ⟨_, a, ha, by rw [gives_eq arch hb h.temporary hvals hlen]; exact hmem⟩
    · rintro ⟨a, ha, hb⟩
      obtain ⟨hb, hlen⟩ := mem_refuses arch hb
      obtain ⟨vals, hvals, hlen', -⟩ := h.values a ha hb
      exact hlen vals hvals hlen'
    · obtain ⟨a, ha, hv⟩ := (mem_sources arch).mp hv
      obtain ⟨hb, -, vals, hvals, -, hzip⟩ := mem_gives arch hv
      obtain ⟨vals', hvals', -, hall⟩ := h.values a ha hb
      rw [hvals] at hvals'
      rw [← Option.some.inj hvals'] at hall
      exact hall v hzip

/-- One bit is assigned a copy of another. -/
def CopiedFrom (b c : Bit) : Prop :=
  ∃ a ∈ assigns arch, ∃ vals, givenBits arch a.1 a.2 = some vals ∧ (b, .bit c) ∈ (bits arch a.2.target).zip vals

/-- The bits that copy none of themselves are closed under the rule. -/
theorem given_acyclic {b : Bit} (h : Given arch {c | ¬ Relation.TransGen (CopiedFrom arch) c c} b) :
    ¬ Relation.TransGen (CopiedFrom arch) b b := by
  intro hcycle
  obtain ⟨c, ⟨a, ha, vals, hvals, hzip⟩, hback⟩ := Relation.TransGen.head'_iff.mp hcycle
  obtain ⟨vals', hvals', -, hall⟩ := h.values a ha (List.of_mem_zip hzip).1
  rw [hvals] at hvals'
  rw [← Option.some.inj hvals'] at hall
  rcases hall _ hzip with heq | ⟨c', hc', heq⟩
  · cases heq
  · cases heq
    exact hc' (Relation.TransGen.tail' hback ⟨a, ha, vals, hvals, hzip⟩)

/-- The iteration ends, with the least set that the rule is closed under. -/
theorem zBits_least : ∃ zb, (∀ fuel, (sources arch).srcs.keys.length < fuel → zBits arch fuel = some zb) ∧
    (∀ b, b ∈ zb.keys ↔ Given arch {c | c ∈ zb.keys} b) ∧
    ∀ S : Set Bit, (∀ b, Given arch S b → b ∈ S) → ∀ b ∈ zb.keys, b ∈ S := by
  by_cases htemps : temps arch = []
  · have hnot : ∀ S b, ¬ Given arch S b := by
      intro S b h
      have := h.temporary
      rw [htemps] at this
      cases this
    refine ⟨.empty, fun fuel _ => if_pos htemps, fun b => ⟨fun h => absurd h List.not_mem_nil,
      fun h => absurd h (hnot _ b)⟩, fun S _ b hb => absurd hb List.not_mem_nil⟩
  · have hkeep : ∀ b ∈ (OrderedDict.empty : OrderedDict Bit Unit).keys, b ∈ (sources arch).srcs.keys :=
      fun b hb => absurd hb List.not_mem_nil
    obtain ⟨zb, hzb⟩ : ∃ zb, Marks.passes (whyZ arch) (sources arch).srcs.keys ((sources arch).srcs.keys.length + 1)
        .empty = some zb := Marks.passes_total hkeep (Nat.lt_succ_self _)
    have hrun : ∀ fuel, (sources arch).srcs.keys.length < fuel →
        Marks.passes (whyZ arch) (sources arch).srcs.keys fuel .empty = some zb := fun fuel hfuel =>
      Marks.passes_mono hfuel hzb
    have hnew : ∀ d : OrderedDict Bit Unit, ∀ b ∈ (sources arch).srcs.keys, whyZ arch d b = some () →
        Given arch {c | c ∈ d.keys} b := fun d b hb hwhy => (whyZ_iff arch).mp ⟨hb, hwhy⟩
    refine ⟨zb, fun fuel hfuel => ?_, fun b => ⟨?_, fun h => ?_⟩, fun S hS => ?_⟩
    · rw [zBits, if_neg htemps]
      exact hrun fuel hfuel
    · -- what stands in the set has been given Z by what stood there before
      refine (Marks.passes_rule (fun d => ∀ b ∈ d.keys, Given arch {c | c ∈ d.keys} b) ?_
        (fun b hb => absurd hb List.not_mem_nil) hzb).1 b
      intro d a ha r h _ hwhy b hb
      have hsub : {c | c ∈ d.keys} ⊆ {c | c ∈ (d.set a r).keys} := fun c hc => OrderedDict.mem_keys_set.mpr (.inr hc)
      rcases OrderedDict.mem_keys_set.mp hb with rfl | hb
      · exact (hnew d b ha hwhy).mono arch hsub
      · exact (h b hb).mono arch hsub
    · obtain ⟨hb, hwhy⟩ := (whyZ_iff arch).mpr h
      refine ((Marks.passes_rule (fun _ => True) (fun _ _ _ _ _ _ _ => trivial) trivial hzb).2 b hb).resolve_right ?_
      rw [hwhy]
      exact Option.some_ne_none _
    · refine (Marks.passes_rule (fun d => ∀ b ∈ d.keys, b ∈ S) ?_ (fun b hb => absurd hb List.not_mem_nil) hzb).1
      intro d a ha r h _ hwhy b hb
      rcases OrderedDict.mem_keys_set.mp hb with rfl | hb
      · exact hS b ((hnew d b ha hwhy).mono arch h)
      · exact h b hb

end Rule

/-! ## Running the assignments -/

section Runs

variable (arch : Architecture)

/-- What an alias stands for; a reference through an alias that is not constant is not constant either. -/
def meantStep (ref : Ref) : Option Ref :=
  (arch.aliases.lookup ref.name).map fun t =>
    match t.indices with
    | some [_] => t
    | some is => ⟨t.name, some (ref.indices.getD is), ref.exact && t.exact⟩
    | none => ⟨t.name, ref.indices, ref.exact && t.exact⟩

/-- The object that a reference denotes, through any number of aliases. -/
inductive Denotes : Ref → Ref → Prop
  | object {ref : Ref} (h : meantStep arch ref = none) : Denotes ref ref
  | through {ref ref' obj : Ref} (h : meantStep arch ref = some ref') (hobj : Denotes ref' obj) : Denotes ref obj

variable {V : Type} (value : Str → V)

/-- The values that an element of a value may have; `value` is that of a constant. -/
inductive PartValue (σ : Bit → V) : Part → List V → Prop
  | lit (l : Str) : PartValue σ (.lit l) [value l]
  | exact {r obj : Ref} (h : Denotes arch r obj) (hexact : obj.exact = true) :
    PartValue σ (.ref r) ((bitsOf arch obj).map σ)
  | inexact {r obj : Ref} (h : Denotes arch r obj) (hexact : obj.exact = false) {bs : List Bit}
    (hbs : bs.Sublist (bitsOf arch obj)) : PartValue σ (.ref r) (bs.map σ)
  | unknown {r obj : Ref} (h : Denotes arch r obj) (htype : typeOf arch obj.name = none) (vs : List V) :
    PartValue σ (.ref r) vs

/-- What an assignment can assign: an unconditional undelayed one Z or the values of its parts, any other anything. -/
def Values (σ : Bit → V) (a : Bool × Assign) (vs : List V) : Prop :=
  a.1 = true → a.2.op = .signal ∨ a.2.op = .deposit → a.2.delayed = false →
    (a.2.zOnly = true → ∀ v ∈ vs, v = value zLit) ∧
      (a.2.zOnly = false → ∀ ps, a.2.parts = some ps → ∃ vss, List.Forall₂ (PartValue arch value σ) ps vss ∧
        vs = vss.flatten)

/-- The bits that an assignment writes, each with its value. -/
def Writes (σ : Bit → V) (a : Bool × Assign) (w : List (Bit × V)) : Prop :=
  ∃ obj tb vs, Denotes arch a.2.target obj ∧
    (if obj.exact then tb = bitsOf arch obj else tb.Sublist (bitsOf arch obj)) ∧
    vs.length = tb.length ∧ Values arch value σ a vs ∧ w = tb.zip vs

def write (σ : Bit → V) (w : List (Bit × V)) : Bit → V := w.foldl (fun σ e => Function.update σ e.1 e.2) σ

/-- A bit that changes otherwise than by an assignment of a process: one of another signal, or of a signal that an
    instance or a call has. -/
def Outside (b : Bit) : Prop :=
  b.1 ∉ temporaries arch ∨ ∃ st ∈ arch.stmts, ∃ r ∈ st.touched, ∃ obj, Denotes arch r obj ∧ b.1 = obj.name

/-- A bit that an assignment copies. -/
def Copies (asg : Assign) (c : Bit) : Prop :=
  ∃ ps ∈ asg.parts, ∃ r, .ref r ∈ ps ∧ ∃ obj, Denotes arch r obj ∧ c ∈ bitsOf arch obj

/-- The runs in any order: the values of all bits, and the bits that were assigned.  An assignment to a bit of `S`
    runs when the bits of `S` that it copies have been assigned or hold Z. -/
inductive Runs (S : Set Bit) : (Bit → V) → Set Bit → Prop
  | start (σ : Bit → V) : Runs S σ ∅
  | outside {σ : Bit → V} {A : Set Bit} (h : Runs S σ A) {b : Bit} (hb : Outside arch b) (v : V) :
    Runs S (Function.update σ b v) A
  | assign {σ : Bit → V} {A : Set Bit} (h : Runs S σ A) {a : Bool × Assign} (ha : a ∈ assigns arch)
    {w : List (Bit × V)} (hw : Writes arch value σ a w)
    (hready : (∃ e ∈ w, e.1 ∈ S) → ∀ c ∈ S, Copies arch a.2 c → c ∈ A ∨ σ c = value zLit) :
    Runs S (write σ w) (A ∪ {b | b ∈ w.map Prod.fst})

/-- The aliases have constant targets, and none stands for more than the sixteenth. -/
structure PlainAliases : Prop where
  exact : ∀ name target, arch.aliases.lookup name = some target → target.exact = true
  depth : ∀ ref, aliasStep arch (resolve arch ref) = none

end Runs

/-! ## The bits stay Z -/

section Sound

variable {arch : Architecture}

theorem PlainAliases.meantStep (h : PlainAliases arch) (ref : Ref) : meantStep arch ref = aliasStep arch ref := by
  rw [ZBits.meantStep, aliasStep]
  cases ht : arch.aliases.lookup ref.name with
  | none => rfl
  | some t =>
    rw [Option.map_some, Option.map_some, h.exact _ _ ht, Bool.and_true]

theorem PlainAliases.denotes (h : PlainAliases arch) {ref obj : Ref} (hobj : Denotes arch ref obj) :
    obj = resolve arch ref := by
  have hchain : ∀ n, aliasStep arch (resolveIn arch n ref) = none → obj = resolveIn arch n ref := by
    induction hobj with
    | @object ref hnone =>
      intro n _
      rw [h.meantStep] at hnone
      cases n with
      | zero => rfl
      | succ n => rw [resolveIn, hnone]
    | @through ref ref' obj hstep _ ih =>
      intro n hn
      rw [h.meantStep] at hstep
      cases n with
      | zero =>
        rw [resolveIn, hstep] at hn
        cases hn
      | succ n =>
        rw [resolveIn, hstep] at hn ⊢
        exact ih n hn
  exact hchain maxAliases (h.depth ref)

theorem PlainAliases.denotes_exact (h : PlainAliases arch) {ref obj : Ref} (hobj : Denotes arch ref obj)
    (hexact : ref.exact = true) : obj.exact = true := by
  induction hobj with
  | object _ => exact hexact
  | @through ref ref' obj hstep _ ih =>
    refine ih ?_
    obtain ⟨t, ht, rfl⟩ := Option.map_eq_some_iff.mp hstep
    have htarget := h.exact _ _ ht
    split
    · exact htarget
    · rw [hexact, htarget]; rfl
    · rw [hexact, htarget]; rfl

variable {V : Type} {value : Str → V} {σ : Bit → V}

/-- Writing changes a bit only to a value written to it. -/
theorem write_cases (w : List (Bit × V)) (σ : Bit → V) (b : Bit) :
    (b, write σ w b) ∈ w ∨ b ∉ w.map Prod.fst ∧ write σ w b = σ b := by
  induction w generalizing σ with
  | nil => exact .inr ⟨List.not_mem_nil, rfl⟩
  | cons e w ih =>
    show (b, write (Function.update σ e.1 e.2) w b) ∈ e :: w ∨
      b ∉ (e :: w).map Prod.fst ∧ write (Function.update σ e.1 e.2) w b = σ b
    rcases ih (Function.update σ e.1 e.2) with h | ⟨hnot, heq⟩
    · exact .inl (List.mem_cons_of_mem _ h)
    · rw [heq]
      by_cases hb : b = e.1
      · left
        rw [hb, Function.update_self]
        exact List.mem_cons_self
      · right
        rw [Function.update_of_ne hb, List.map_cons, List.mem_cons, not_or]
        exact ⟨⟨hb, hnot⟩, rfl⟩

/-- The value of an element of `vals`. -/
def ValueBit.Gives (value : Str → V) (σ : Bit → V) : ValueBit → V → Prop
  | .lit l, v => v = value l
  | .bit c, v => v = σ c

/-- An element that is read bit by bit has the values of its bits. -/
theorem partValue_gives (h : PlainAliases arch) {part : Part} (hexact : ∀ r, part = .ref r → r.exact = true)
    {vbs : List ValueBit} (hvbs : partBits arch part = some vbs) {vs : List V}
    (hvs : PartValue arch value σ part vs) : List.Forall₂ (ValueBit.Gives value σ) vbs vs := by
  have hbits : ∀ bs : List Bit, List.Forall₂ (ValueBit.Gives value σ) (bs.map .bit) (bs.map σ) := fun bs => by
    rw [List.forall₂_map_left_iff, List.forall₂_map_right_iff]
    exact List.forall₂_same.mpr fun _ _ => rfl
  have htyped : ∀ r, part = .ref r → (typeOf arch (resolve arch r).name).isNone = false ∧
      vbs = (bitsOf arch (resolve arch r)).map .bit := by
    rintro r rfl
    rw [partBits] at hvbs
    split_ifs at hvbs with hcond
    rw [Bool.or_eq_true, not_or] at hcond
    exact ⟨Bool.eq_false_iff.mpr hcond.1, (Option.some.inj hvbs).symm⟩
  cases hvs with
  | lit l =>
    rw [partBits] at hvbs
    rw [← Option.some.inj hvbs]
    exact List.Forall₂.cons rfl .nil
  | @exact r obj hobj _ =>
    rw [(htyped r rfl).2, h.denotes hobj]
    exact hbits _
  | @inexact r obj hobj hinexact =>
    rw [h.denotes_exact hobj (hexact r rfl)] at hinexact
    cases hinexact
  | @unknown r obj hobj hnone vs =>
    have := (htyped r rfl).1
    rw [← h.denotes hobj, hnone] at this
    cases this

theorem forall₂_flatten {α β : Type} {R : α → β → Prop} {ls : List (List α)} {ms : List (List β)}
    (h : List.Forall₂ (List.Forall₂ R) ls ms) : List.Forall₂ R ls.flatten ms.flatten := by
  induction h with
  | nil => exact .nil
  | cons hl _ ih => exact List.rel_append hl ih

theorem zip_gives {α β γ : Type} {R : β → γ → Prop} {as : List α} {bs : List β} {cs : List γ}
    (h : List.Forall₂ R bs cs) {a : α} {c : γ} (hmem : (a, c) ∈ as.zip cs) : ∃ b, (a, b) ∈ as.zip bs ∧ R b c := by
  induction h generalizing as with
  | nil =>
    rw [List.zip_nil_right] at hmem
    cases hmem
  | @cons b c' bs cs hbc _ ih =>
    cases as with
    | nil => cases hmem
    | cons a' as =>
      rw [List.zip_cons_cons] at hmem ⊢
      rcases List.mem_cons.mp hmem with heq | hmem
      · cases heq
        exact ⟨b, List.mem_cons_self, hbc⟩
      · obtain ⟨b', hb', hR⟩ := ih hmem
        exact ⟨b', List.mem_cons_of_mem _ hb', hR⟩

/-- Only a reference has bits. -/
theorem partBits_bit {part : Part} {vbs : List ValueBit} (h : partBits arch part = some vbs) {c : Bit}
    (hc : .bit c ∈ vbs) : ∃ r, part = .ref r ∧ c ∈ bitsOf arch (resolve arch r) := by
  cases part with
  | lit l =>
    rw [partBits] at h
    rw [← Option.some.inj h] at hc
    cases List.mem_singleton.mp hc
  | ref r =>
    rw [partBits] at h
    split_ifs at h
    rw [← Option.some.inj h] at hc
    obtain ⟨c', hc', heq⟩ := List.mem_map.mp hc
    cases heq
    exact ⟨r, rfl, hc'⟩

theorem PartValue.denotes {r : Ref} {vs : List V} (h : PartValue arch value σ (.ref r) vs) :
    ∃ obj, Denotes arch r obj := by
  cases h with
  | exact hobj _ => exact ⟨_, hobj⟩
  | inexact hobj _ _ => exact ⟨_, hobj⟩
  | unknown hobj _ => exact ⟨_, hobj⟩

/-- What stands behind the values of an assignment that is read bit by bit. -/
theorem givenBits_some {a : Bool × Assign} {vals : List ValueBit} (h : givenBits arch a.1 a.2 = some vals) :
    a.1 = true ∧ (a.2.op = .signal ∨ a.2.op = .deposit) ∧ a.2.delayed = false ∧ (a.2.zOnly = true ∨
      a.2.zOnly = false ∧ ∃ ps vss, a.2.parts = some ps ∧
        List.Forall₂ (fun p vbs => partBits arch p = some vbs) ps vss ∧ vals = vss.flatten) := by
  rw [givenBits] at h
  split_ifs at h with hplain hz
  · simp only [Bool.and_eq_true, Bool.or_eq_true, beq_iff_eq, Bool.not_eq_true'] at hplain
    exact ⟨hplain.1.1, hplain.1.2, hplain.2, .inl hz⟩
  · simp only [Bool.and_eq_true, Bool.or_eq_true, beq_iff_eq, Bool.not_eq_true'] at hplain
    obtain ⟨ps, hps, hmap⟩ := Option.bind_eq_some_iff.mp h
    obtain ⟨vss, hvss, rfl⟩ := Option.map_eq_some_iff.mp hmap
    exact ⟨hplain.1.1, hplain.1.2, hplain.2, .inr ⟨Bool.eq_false_iff.mpr hz, ps, vss, hps,
      Traverse.mapM_forall₂ hvss, rfl⟩⟩

/-- An assignment that the rule lets pass, run where what it copies holds Z, assigns Z. -/
theorem writes_z (h : PlainAliases arch) {S : Set Bit} {b : Bit} (hb : Given arch S b) {a : Bool × Assign}
    (ha : a ∈ assigns arch) {w : List (Bit × V)} (hw : Writes arch value σ a w)
    (hcopied : ∀ c ∈ S, Copies arch a.2 c → σ c = value zLit) {v : V} (hmem : (b, v) ∈ w) : v = value zLit := by
  obtain ⟨obj, tb, vs, hobj, htb, hlen, hvalues, rfl⟩ := hw
  have hsub : tb.Sublist (bits arch a.2.target) := by
    rw [bits, ← h.denotes hobj]
    split_ifs at htb
    · rw [htb]
    · exact htb
  obtain ⟨vals, hvals, hcount, hgiven⟩ := hb.values a ha (hsub.subset (List.of_mem_zip hmem).1)
  obtain ⟨hstraight, hop, hdelayed, hcase⟩ := givenBits_some hvals
  obtain ⟨hz, hparts⟩ := hvalues hstraight hop hdelayed
  rcases hcase with hzOnly | ⟨hzOnly, ps, vss, hps, hvss, rfl⟩
  · exact hz hzOnly v (List.of_mem_zip hmem).2
  · obtain ⟨wss, hwss, rfl⟩ := hparts hzOnly ps hps
    -- part by part, the values are those of the bits that the source reads
    have hgives : List.Forall₂ (ValueBit.Gives value σ) vss.flatten wss.flatten := by
      have hexact := Traverse.forall₂_imp (s := fun p vbs => (∀ r, p = .ref r → r.exact = true) ∧
        partBits arch p = some vbs) (fun p hp vbs hvbs => ⟨fun r hr => a.2.exact_parts ps hps r (hr ▸ hp), hvbs⟩) hvss
      exact forall₂_flatten (Traverse.forall₂_of_common hexact hwss fun p vbs vs hvbs hvs =>
        partValue_gives h hvbs.1 hvbs.2 hvs)
    have hall : tb = bits arch a.2.target := by
      refine hsub.eq_of_length ?_
      rw [← hlen, ← hgives.length_eq, hcount]
    obtain ⟨vb, hvb, hv⟩ := zip_gives hgives hmem
    rw [hall] at hvb
    rcases hgiven vb hvb with rfl | ⟨c, hc, rfl⟩
    · exact hv
    · refine (show v = σ c from hv).trans (hcopied c hc ?_)
      obtain ⟨vbs, hmemvbs, hcvbs⟩ := List.mem_flatten.mp (List.of_mem_zip hvb).2
      obtain ⟨p, hp, hpvbs⟩ := Traverse.forall₂_mem_right hvss hmemvbs
      obtain ⟨vs, -, hvs⟩ := Traverse.forall₂_mem_left hwss hp
      obtain ⟨r, rfl, hcr⟩ := partBits_bit hpvbs hcvbs
      obtain ⟨obj', hobj'⟩ := hvs.denotes
      exact ⟨ps, hps, r, hp, obj', hobj', h.denotes hobj' ▸ hcr⟩

/-- In every run, a bit of the set holds Z from its first assignment on. -/
theorem runs_z (h : PlainAliases arch) {S : Set Bit} (hS : ∀ b ∈ S, Given arch S b) {A : Set Bit}
    (hrun : Runs arch value S σ A) : ∀ b ∈ S, b ∈ A → σ b = value zLit := by
  induction hrun with
  | start σ => exact fun b _ hA => absurd hA (Set.notMem_empty b)
  | @outside σ A _ b' hb' v ih =>
    intro b hb hA
    have hne : b ≠ b' := by
      rintro rfl
      have htemp := (hS b hb).temporary
      rw [temps, List.mem_filter] at htemp
      rcases hb' with hnot | ⟨st, hst, r, hr, obj, hobj, hname⟩
      · exact hnot htemp.1
      · refine of_decide_eq_true htemp.2 ?_
        rw [hname, h.denotes hobj]
        exact List.mem_map_of_mem (List.mem_flatMap.mpr ⟨st, hst, hr⟩)
    rw [Function.update_of_ne hne]
    exact ih b hb hA
  | @assign σ A _ a ha w hw hready ih =>
    intro b hb hA
    rcases write_cases w σ b with hmem | ⟨hnot, heq⟩
    · refine writes_z h (hS b hb) ha hw (fun c hc hcopy => ?_) hmem
      exact (hready ⟨_, hmem, hb⟩ c hc hcopy).elim (ih c hc) id
    · rw [heq]
      exact ih b hb (hA.resolve_right hnot)

/-- The iteration ends with the least set that the rule is closed under, and no bit of it is a copy of itself.  Where
    aliases are plain, a bit of the set holds Z from its first assignment on in every run that assigns the bits it
    copies before. -/
theorem zBits_hold (arch : Architecture) (value : Str → V) : ∃ zb,
    (∀ fuel, (sources arch).srcs.keys.length < fuel → zBits arch fuel = some zb) ∧
    (∀ b, b ∈ zb.keys ↔ Given arch {c | c ∈ zb.keys} b) ∧
    (∀ S : Set Bit, (∀ b, Given arch S b → b ∈ S) → ∀ b ∈ zb.keys, b ∈ S) ∧
    (∀ b ∈ zb.keys, ¬ Relation.TransGen (CopiedFrom arch) b b) ∧
    (PlainAliases arch → ∀ σ A, Runs arch value {c | c ∈ zb.keys} σ A → ∀ b ∈ zb.keys, b ∈ A → σ b = value zLit) := by
  obtain ⟨zb, hends, hrule, hleast⟩ := zBits_least arch
  refine ⟨zb, hends, hrule, hleast, ?_, fun h σ A hrun => runs_z h (fun b hb => (hrule b).mp hb) hrun⟩
  exact hleast {c | ¬ Relation.TransGen (CopiedFrom arch) c c} fun b => given_acyclic arch

/-! ## Where they do not -/

def logicSignal : SignalDecl where
  type := ⟨str "logic3d", none⟩
  temporary := true

/-- A reference of at most `n` aliases. -/
def denoteIn (arch : Architecture) : Nat → Ref → Option Ref
  | 0, _ => none
  | n + 1, ref =>
    match meantStep arch ref with
    | none => some ref
    | some ref' => denoteIn arch n ref'

theorem denotes_of_denoteIn {n : Nat} {ref obj : Ref} (h : denoteIn arch n ref = some obj) : Denotes arch ref obj := by
  induction n generalizing ref with
  | zero => cases h
  | succ n ih =>
    rw [denoteIn] at h
    cases hstep : meantStep arch ref with
    | none =>
      rw [hstep] at h
      rw [← Option.some.inj h]
      exact .object hstep
    | some ref' =>
      rw [hstep] at h
      exact .through hstep (ih h)

/-- `target <= L3D_Z` -/
def assignZ (target : Ref) : Assign := { target := target, zOnly := true, exact_parts := by simp }

/-- `target <= part` -/
def assignPart (target : Ref) (part : Part) (h : ∀ r, .ref r ∈ [part] → r.exact = true) : Assign :=
  { target := target, parts := some [part], exact_parts := by simpa using h }

/-- `t2 <= t1; t1 <= L3D_Z;` -/
def copyFirst : Architecture where
  ports := .empty
  signals := ⟨[(str "t1", logicSignal), (str "t2", logicSignal)], by decide⟩
  aliases := .empty
  stmts :=
    [.process [assignPart ⟨str "t2", none, true⟩ (.ref ⟨str "t1", none, true⟩) (by simp)] [] 0,
      .process [assignZ ⟨str "t1", none, true⟩] [] 0]

/-- The name of an alias, or of the signal behind the last. -/
def chainName (k : Nat) : Str := List.replicate (k + 1) 'a'

/-- Seventeen aliases, each of the next, and `L3D_1` assigned through the first. -/
def aliasChain : Architecture where
  ports := .empty
  signals := ⟨[(chainName 17, logicSignal)], by decide⟩
  aliases := ⟨(List.range 17).map fun k => (chainName k, ⟨chainName (k + 1), none, true⟩), by decide⟩
  stmts :=
    [.process [assignZ ⟨chainName 17, none, true⟩] [] 0,
      .process [assignPart ⟨chainName 0, none, true⟩ (.lit (str "l3d_1")) (by simp)] [] 0]

def vectorSignal : SignalDecl where
  type := ⟨str "logic3d_vector", some ⟨1, 0, true⟩⟩
  temporary := true

/-- `alias e is z(n); z(0) <= L3D_Z; z(1) <= L3D_1; t(i) <= e;` -/
def elementAlias : Architecture where
  ports := .empty
  signals := ⟨[(str "z", vectorSignal), (str "t", vectorSignal)], by decide⟩
  aliases := ⟨[(str "e", ⟨str "z", none, false⟩)], by decide⟩
  stmts :=
    [.process [assignZ ⟨str "z", some [0], true⟩] [] 0,
      .process [assignPart ⟨str "z", some [1], true⟩ (.lit (str "l3d_1")) (by simp)] [] 0,
      .process [assignPart ⟨str "t", none, false⟩ (.ref ⟨str "e", none, true⟩) (by simp)] [] 0]

/-- One assignment, run at first. -/
theorem runs_once {S : Set Bit} {σ : Bit → V} {a : Bool × Assign} (ha : a ∈ assigns arch) {w : List (Bit × V)}
    (hw : Writes arch value σ a w) (hready : (∃ e ∈ w, e.1 ∈ S) → ∀ c ∈ S, Copies arch a.2 c → σ c = value zLit)
    {b : Bit} {v : V} (hb : w = [(b, v)]) :
    ∃ τ A, Runs arch value S τ A ∧ b ∈ A ∧ τ b = v := by
  subst hb
  refine ⟨_, _, .assign (.start σ) ha hw fun h c hc hcopy => .inr (hready h c hc hcopy), ?_, ?_⟩
  · exact .inr (List.mem_singleton.mpr rfl)
  · exact Function.update_self b v σ

/-- The first run copies a bit that has not been assigned; the second assigns through more aliases than are followed;
    the third copies an element that an alias with a computed index names. -/
theorem assigned_not_z :
    ((str "t2", 0) ∈ ((zBits copyFirst 9).getD .empty).keys ∧
      ∃ σ A, Runs copyFirst id ∅ σ A ∧ (str "t2", 0) ∈ A ∧ σ (str "t2", 0) = str "l3d_u") ∧
    ((chainName 17, 0) ∈ ((zBits aliasChain 9).getD .empty).keys ∧
      ∃ σ A, Runs aliasChain id {c | c ∈ ((zBits aliasChain 9).getD .empty).keys} σ A ∧
        (chainName 17, 0) ∈ A ∧ σ (chainName 17, 0) = str "l3d_1") ∧
    (str "t", 0) ∈ ((zBits elementAlias 9).getD .empty).keys ∧
      ∃ σ A, Runs elementAlias id {c | c ∈ ((zBits elementAlias 9).getD .empty).keys} σ A ∧
        (str "t", 0) ∈ A ∧ σ (str "t", 0) = str "l3d_1" := by
  refine ⟨⟨by decide +kernel, ?_⟩, ⟨by decide +kernel, ?_⟩, by decide +kernel, ?_⟩
  · have ht1 : Denotes copyFirst ⟨str "t1", none, true⟩ ⟨str "t1", none, true⟩ :=
      denotes_of_denoteIn (n := 1) (by decide +kernel)
    have ht2 : Denotes copyFirst ⟨str "t2", none, true⟩ ⟨str "t2", none, true⟩ :=
      denotes_of_denoteIn (n := 1) (by decide +kernel)
    refine runs_once (σ := fun _ => str "l3d_u") (a := (true, assignPart ⟨str "t2", none, true⟩
      (.ref ⟨str "t1", none, true⟩) (by simp))) (by simp [assigns, copyFirst])
      ⟨_, [(str "t2", 0)], [str "l3d_u"], ht2, by decide +kernel, rfl, fun _ _ _ => ⟨nofun, fun _ ps hps => ?_⟩, rfl⟩
      (fun ⟨_, _, h⟩ => absurd h (Set.notMem_empty _)) rfl
    cases hps
    exact ⟨[[str "l3d_u"]], .cons (.exact ht1 rfl) .nil, rfl⟩
  · have htarget : Denotes aliasChain ⟨chainName 0, none, true⟩ ⟨chainName 17, none, true⟩ :=
      denotes_of_denoteIn (n := 18) (by decide +kernel)
    refine runs_once (σ := fun _ => zLit) (a := (true, assignPart ⟨chainName 0, none, true⟩ (.lit (str "l3d_1"))
      (by simp))) (by simp [assigns, aliasChain])
      ⟨_, [(chainName 17, 0)], [str "l3d_1"], htarget, by decide +kernel, rfl,
        fun _ _ _ => ⟨nofun, fun _ ps hps => ?_⟩, rfl⟩ (fun _ _ _ _ => rfl) rfl
    cases hps
    exact ⟨[[str "l3d_1"]], .cons (.lit _) .nil, rfl⟩
  · have he : Denotes elementAlias ⟨str "e", none, true⟩ ⟨str "z", none, false⟩ :=
      denotes_of_denoteIn (n := 2) (by decide +kernel)
    have ht : Denotes elementAlias ⟨str "t", none, false⟩ ⟨str "t", none, false⟩ :=
      denotes_of_denoteIn (n := 1) (by decide +kernel)
    have hz : (str "z", (1 : Int)) ∉ ((zBits elementAlias 9).getD .empty).keys := by decide +kernel
    refine runs_once (σ := fun c => if c = (str "z", 1) then str "l3d_1" else zLit)
      (a := (true, assignPart ⟨str "t", none, false⟩ (.ref ⟨str "e", none, true⟩) (by simp)))
      (by simp [assigns, elementAlias])
      ⟨_, [(str "t", 0)], [str "l3d_1"], ht, by decide +kernel, rfl, fun _ _ _ => ⟨nofun, fun _ ps hps => ?_⟩, rfl⟩
      (fun _ c hc _ => if_neg fun heq => hz (by rw [← heq]; exact hc)) rfl
    cases hps
    -- the element is the one that is not Z
    have hbits : [(str "z", (1 : Int))].Sublist (bitsOf elementAlias ⟨str "z", none, false⟩) := by decide +kernel
    exact ⟨[[str "l3d_1"]], .cons (.inexact he rfl hbits) .nil, rfl⟩

end Sound

end Vamos.ZBits
