import Sv2ghdl.Python.Utf8
import Sv2ghdl.Vamos.Netlist.Number

/-!
# Generated names

`vamos/ams/names.py`: the names of the deck, handed out by one allocator that compares them
without case, and the registry names of the bridges, compared with their case.
-/

open Python Vamos.Netlist.Expression

namespace Vamos.Ams.Names

/-! ## Searching upwards -/

/-- A loop that tries `k`, `k + 1`, … and stops at the first one that passes. -/
def firstFrom (p : Nat → Bool) : (fuel : Nat) → (k : Nat) → Option Nat
  | 0, _ => none
  | fuel + 1, k => if p k then some k else firstFrom p fuel (k + 1)

theorem firstFrom_some {p : Nat → Bool} {fuel k n : Nat} (h : firstFrom p fuel k = some n) :
    k ≤ n ∧ p n = true := by
  induction fuel generalizing k with
  | zero => simp [firstFrom] at h
  | succ fuel ih =>
    rw [firstFrom] at h
    by_cases hk : p k = true
    · rw [if_pos hk, Option.some.injEq] at h
      rw [← h]
      exact ⟨le_refl k, hk⟩
    · rw [if_neg hk] at h
      obtain ⟨hle, hn⟩ := ih h
      exact ⟨by omega, hn⟩

/-- The loop ends where some `m` ahead passes, and any larger fuel gives the same. -/
theorem firstFrom_ends {p : Nat → Bool} {k m : Nat} (hle : k ≤ m) (hm : p m = true) :
    ∃ n, ∀ fuel, m - k < fuel → firstFrom p fuel k = some n := by
  obtain ⟨d, rfl⟩ := Nat.exists_eq_add_of_le hle
  induction d generalizing k with
  | zero =>
    refine ⟨k, fun fuel hfuel => ?_⟩
    obtain ⟨fuel, rfl⟩ := Nat.exists_eq_succ_of_ne_zero (show fuel ≠ 0 by omega)
    rw [firstFrom, if_pos (by simpa using hm)]
  | succ d ih =>
    by_cases hk : p k = true
    · refine ⟨k, fun fuel hfuel => ?_⟩
      obtain ⟨fuel, rfl⟩ := Nat.exists_eq_succ_of_ne_zero (show fuel ≠ 0 by omega)
      rw [firstFrom, if_pos hk]
    · have hm' : p (k + 1 + d) = true := by
        rwa [show k + 1 + d = k + (d + 1) by omega]
      obtain ⟨n, hn⟩ := ih (by omega) hm'
      refine ⟨n, fun fuel hfuel => ?_⟩
      obtain ⟨fuel, rfl⟩ := Nat.exists_eq_succ_of_ne_zero (show fuel ≠ 0 by omega)
      rw [firstFrom, if_neg hk]
      exact hn fuel (by omega)

/-! ## The allocator -/

section Allocator

variable (U : UnicodeData)

structure NameAllocator where
  /-- The lower-case names, a set in the source. -/
  used : List Str
  deriving DecidableEq

def NameAllocator.init (seed : List Str) : NameAllocator := ⟨seed.map U.lower⟩

def reserve (a : NameAllocator) (name : Str) : NameAllocator := ⟨U.lower name :: a.used⟩

def free (a : NameAllocator) (name : Str) : Bool := decide (U.lower name ∉ a.used)

/-- `base if k == 0 else "%s_%d" % (base, k)` -/
def candidate (base : Str) (k : Nat) : Str :=
  if k = 0 then base else base ++ ('_' : CodePoint) :: natText k

def candidates (base : Str) (suffixes : List Str) (k : Nat) : List Str :=
  suffixes.map (candidate base k ++ ·)

/-- `take_group`, `none` while `fuel` tries are not enough. -/
def takeGroup (fuel : Nat) (a : NameAllocator) (base : Str) (suffixes : List Str) :
    Option (NameAllocator × List Str) :=
  (firstFrom (fun k => (candidates base suffixes k).all (free U a)) fuel 0).map fun k =>
    ((candidates base suffixes k).foldl (reserve U) a, candidates base suffixes k)

/-- `_strip_top` -/
def stripTop (canonical : Str) : Str :=
  if ('.' : CodePoint) ∈ canonical then (canonical.dropWhile (· ≠ ('.' : CodePoint))).tail
  else canonical

/-- `_NODE_BAD.sub("_", s)` -/
def nodeText (s : Str) : Str :=
  s.map fun (c : CodePoint) =>
    if c.isLowerAscii || c.isAsciiDigit || c = ('_' : CodePoint) then c else ('_' : CodePoint)

/-- `node_base` -/
def nodeBase (canonical : Str) : Str := str "n_" ++ nodeText (U.lower (stripTop canonical))

def nodeSuffixes : List Str := [[], str "_d", str "_e"]

def first (r : NameAllocator × List Str) : Option (NameAllocator × Str) :=
  r.2.head?.map fun name => (r.1, name)

def take (fuel : Nat) (a : NameAllocator) (want : Str) : Option (NameAllocator × Str) :=
  (takeGroup U fuel a want [[]]).bind first

def node (fuel : Nat) (a : NameAllocator) (canonical : Str) : Option (NameAllocator × Str) :=
  (takeGroup U fuel a (nodeBase U canonical) nodeSuffixes).bind first

def inst (fuel : Nat) (a : NameAllocator) (element nodeName : Str) :
    Option (NameAllocator × Str) :=
  take U fuel a (element ++ nodeName)

def xname (fuel : Nat) (a : NameAllocator) (vpath : Str) : Option (NameAllocator × Str) :=
  take U fuel a (str "xv_" ++ nodeText (U.lower (stripTop vpath)))

/-- The calls on one allocator. -/
inductive Call where
  | reserve (name : Str)
  | take (want : Str)
  | takeGroup (base : Str) (suffixes : List Str)
  | node (canonical : Str)
  | inst (element nodeName : Str)
  | xname (vpath : Str)
  deriving DecidableEq

/-- What a call does to a name: it is given as taken, or handed out. -/
inductive Event where
  | reserved (name : Str)
  | handed (name : Str)
  deriving DecidableEq

def Event.name : Event → Str
  | .reserved name => name
  | .handed name => name

/-- One call; a node's `_d` and `_e` names are handed out with it. -/
def Call.run (fuel : Nat) (a : NameAllocator) : Call → Option (NameAllocator × List Event)
  | .reserve name => some (Names.reserve U a name, [.reserved name])
  | .take want => (Names.take U fuel a want).map fun r => (r.1, [.handed r.2])
  | .takeGroup base suffixes =>
    (Names.takeGroup U fuel a base suffixes).map fun r => (r.1, r.2.map .handed)
  | .node canonical =>
    (Names.node U fuel a canonical).map fun r =>
      (r.1, [.handed r.2, .handed (r.2 ++ str "_d"), .handed (r.2 ++ str "_e")])
  | .inst element nodeName =>
    (Names.inst U fuel a element nodeName).map fun r => (r.1, [.handed r.2])
  | .xname vpath => (Names.xname U fuel a vpath).map fun r => (r.1, [.handed r.2])

/-- A sequence of calls, with its events in order. -/
def runCalls (fuel : Nat) : NameAllocator → List Call → Option (NameAllocator × List Event)
  | a, [] => some (a, [])
  | a, call :: calls =>
    (call.run U fuel a).bind fun r => (runCalls fuel r.1 calls).map fun r' => (r'.1, r.2 ++ r'.2)

/-! ## The search ends -/

theorem exists_long_natText (n : Nat) : ∃ k, n < (natText k).length ∧ k ≠ 0 := by
  have hne : 10 ^ n ≠ 0 := by positivity
  refine ⟨10 ^ n, ?_, hne⟩
  rw [natText, if_neg hne, digitText, List.length_map, digitsOf, List.length_reverse]
  exact (Nat.lt_digits_length_iff (by decide) _).mpr (le_refl _)

/-- Some candidate is longer than any of the names that are in use. -/
theorem exists_long_candidate (names : List Str) (base : Str) :
    ∃ k, k ≠ 0 ∧ ∀ name ∈ names, name.length < (candidate base k).length := by
  obtain ⟨k, hk, hne⟩ := exists_long_natText (names.map List.length).sum
  refine ⟨k, hne, fun name hname => ?_⟩
  have hle : name.length ≤ (names.map List.length).sum :=
    List.le_sum_of_mem (List.mem_map_of_mem hname)
  rw [candidate, if_neg hne, List.length_append, List.length_cons]
  omega

theorem takeGroup_ends (a : NameAllocator) (base : Str) (suffixes : List Str) :
    ∃ fuel₀ r, ∀ fuel, fuel₀ ≤ fuel → takeGroup U fuel a base suffixes = some r := by
  obtain ⟨k, -, hlong⟩ := exists_long_candidate a.used base
  have hfree : (candidates base suffixes k).all (free U a) = true := by
    rw [List.all_eq_true]
    intro name hname
    obtain ⟨s, -, rfl⟩ := List.mem_map.mp hname
    simp only [free, decide_eq_true_eq]
    intro hused
    have hlower := (U.lower_mapped (candidate base k ++ s)).length_le
    have hlt := hlong _ hused
    rw [List.length_append] at hlower
    omega
  obtain ⟨n, hn⟩ := firstFrom_ends (p := fun k => (candidates base suffixes k).all (free U a))
    (Nat.zero_le k) hfree
  refine ⟨k - 0 + 1, ((candidates base suffixes n).foldl (reserve U) a,
    candidates base suffixes n), fun fuel hfuel => ?_⟩
  rw [takeGroup, hn fuel (by omega), Option.map_some]

/-- The base and the suffixes of the group that a call takes. -/
def Call.group : Call → Option (Str × List Str)
  | .reserve _ => none
  | .take want => some (want, [[]])
  | .takeGroup base suffixes => some (base, suffixes)
  | .node canonical => some (nodeBase U canonical, nodeSuffixes)
  | .inst element nodeName => some (element ++ nodeName, [[]])
  | .xname vpath => some (str "xv_" ++ nodeText (U.lower (stripTop vpath)), [[]])

theorem take_events (fuel : Nat) (a : NameAllocator) (want : Str) :
    ((take U fuel a want).map fun r => (r.1, [Event.handed r.2])) =
      (takeGroup U fuel a want [[]]).map fun r => (r.1, r.2.map .handed) := by
  simp only [take, takeGroup, candidates, first, List.map_cons, List.map_nil]
  cases firstFrom _ fuel 0 <;> rfl

theorem node_events (fuel : Nat) (a : NameAllocator) (canonical : Str) :
    ((node U fuel a canonical).map fun r =>
        (r.1, [Event.handed r.2, .handed (r.2 ++ str "_d"), .handed (r.2 ++ str "_e")])) =
      (takeGroup U fuel a (nodeBase U canonical) nodeSuffixes).map fun r =>
        (r.1, r.2.map .handed) := by
  simp only [node, takeGroup, candidates, first, nodeSuffixes, List.map_cons, List.map_nil,
    List.append_nil]
  cases firstFrom _ fuel 0 with
  | none => rfl
  | some k => rfl

/-- Every call but `reserve` takes its group. -/
theorem Call.run_group {call : Call} {base : Str} {suffixes : List Str}
    (h : call.group U = some (base, suffixes)) (fuel : Nat) (a : NameAllocator) :
    call.run U fuel a =
      (Names.takeGroup U fuel a base suffixes).map fun r => (r.1, r.2.map .handed) := by
  cases call with
  | reserve name => simp [group] at h
  | take want =>
    obtain ⟨rfl, rfl⟩ : want = base ∧ [[]] = suffixes := by simpa [group] using h
    exact take_events U fuel a want
  | takeGroup base' suffixes' =>
    obtain ⟨rfl, rfl⟩ : base' = base ∧ suffixes' = suffixes := by simpa [group] using h
    rfl
  | node canonical =>
    obtain ⟨rfl, rfl⟩ : nodeBase U canonical = base ∧ nodeSuffixes = suffixes := by
      simpa [group] using h
    exact node_events U fuel a canonical
  | inst element nodeName =>
    obtain ⟨rfl, rfl⟩ : element ++ nodeName = base ∧ [[]] = suffixes := by
      simpa [group] using h
    exact take_events U fuel a _
  | xname vpath =>
    obtain ⟨rfl, rfl⟩ : str "xv_" ++ nodeText (U.lower (stripTop vpath)) = base ∧
        [[]] = suffixes := by
      simpa [group] using h
    exact take_events U fuel a _

theorem Call.run_ends (call : Call) (a : NameAllocator) :
    ∃ fuel₀ r, ∀ fuel, fuel₀ ≤ fuel → call.run U fuel a = some r := by
  cases hgroup : call.group U with
  | none =>
    cases call with
    | reserve name => exact ⟨0, _, fun _ _ => rfl⟩
    | _ => simp [group] at hgroup
  | some g =>
    obtain ⟨fuel₀, r, hr⟩ := takeGroup_ends U a g.1 g.2
    refine ⟨fuel₀, (r.1, r.2.map .handed), fun fuel hfuel => ?_⟩
    rw [run_group U hgroup, hr fuel hfuel, Option.map_some]

theorem runCalls_ends (calls : List Call) (a : NameAllocator) :
    ∃ fuel₀ r, ∀ fuel, fuel₀ ≤ fuel → runCalls U fuel a calls = some r := by
  induction calls generalizing a with
  | nil => exact ⟨0, _, fun _ _ => rfl⟩
  | cons call calls ih =>
    obtain ⟨fuel₁, r, hr⟩ := call.run_ends U a
    obtain ⟨fuel₂, r', hr'⟩ := ih r.1
    refine ⟨max fuel₁ fuel₂, (r'.1, r.2 ++ r'.2), fun fuel hfuel => ?_⟩
    rw [runCalls, hr fuel (by omega), Option.bind_some, hr' fuel (by omega), Option.map_some]

/-! ## Names apart -/

/-- A name handed out differs, ignoring case, from the names of the events before it. -/
def Apart (before after : Event) : Prop :=
  ∀ name, after = .handed name → U.lower before.name ≠ U.lower name

/-- The suffixes of a group give different names after one base, whichever base is taken. -/
def Call.SuffixesApart (call : Call) : Prop :=
  ∀ base suffixes, call = .takeGroup base suffixes →
    ∀ k, ((candidates base suffixes k).map U.lower).Nodup

theorem nodeSuffixes_apart (base : Str) (k : Nat) :
    ((candidates base nodeSuffixes k).map U.lower).Nodup := by
  have hlength : ∀ s : Str, s ≠ [] →
      U.lower (candidate base k) ≠ U.lower (candidate base k ++ s) := by
    intro s hs heq
    have hlen := congrArg List.length heq
    have hpos := (U.lower_mapped s).length_le
    have hs' := List.length_pos_iff.mpr hs
    rw [U.length_lower_append] at hlen
    omega
  have hlast :
      U.lower (candidate base k ++ str "_d") ≠ U.lower (candidate base k ++ str "_e") := by
    have hne := U.lower_append_ne (candidate base k ++ str "_") (c := 'd') (d := 'e') (by decide)
      (by decide) (by simp [asciiLower, CodePoint.isUpperAscii])
    rwa [List.append_assoc, List.append_assoc] at hne
  have hd := hlength (str "_d") (by decide)
  have he := hlength (str "_e") (by decide)
  simp [candidates, nodeSuffixes, hd, he, hlast]

theorem Call.group_apart {call : Call} (h : call.SuffixesApart U) {base : Str}
    {suffixes : List Str} (hgroup : call.group U = some (base, suffixes)) (k : Nat) :
    ((candidates base suffixes k).map U.lower).Nodup := by
  have hone : ∀ base : Str, ((candidates base [[]] k).map U.lower).Nodup := by simp [candidates]
  cases call with
  | reserve name => simp [group] at hgroup
  | takeGroup base' suffixes' =>
    obtain ⟨rfl, rfl⟩ : base' = base ∧ suffixes' = suffixes := by simpa [group] using hgroup
    exact h _ _ rfl k
  | node canonical =>
    obtain ⟨rfl, rfl⟩ : nodeBase U canonical = base ∧ nodeSuffixes = suffixes := by
      simpa [group] using hgroup
    exact nodeSuffixes_apart U _ k
  | take want =>
    obtain ⟨-, rfl⟩ : want = base ∧ [[]] = suffixes := by simpa [group] using hgroup
    exact hone base
  | inst element nodeName =>
    obtain ⟨-, rfl⟩ : element ++ nodeName = base ∧ [[]] = suffixes := by
      simpa [group] using hgroup
    exact hone base
  | xname vpath =>
    obtain ⟨-, rfl⟩ : _ = base ∧ [[]] = suffixes := by simpa [group] using hgroup
    exact hone base

theorem mem_foldl_reserve (names : List Str) (a : NameAllocator) (u : Str) :
    u ∈ (names.foldl (reserve U) a).used ↔ u ∈ names.map U.lower ∨ u ∈ a.used := by
  induction names generalizing a with
  | nil => simp
  | cons name names ih =>
    rw [List.foldl_cons, ih, reserve, List.map_cons, List.mem_cons, List.mem_cons]
    tauto

theorem takeGroup_spec {fuel : Nat} {a a' : NameAllocator} {base : Str} {suffixes names : List Str}
    (h : takeGroup U fuel a base suffixes = some (a', names)) :
    (∃ k, names = candidates base suffixes k) ∧ (∀ name ∈ names, U.lower name ∉ a.used) ∧
      ∀ u, u ∈ a'.used ↔ u ∈ names.map U.lower ∨ u ∈ a.used := by
  rw [takeGroup, Option.map_eq_some_iff] at h
  obtain ⟨k, hk, hr⟩ := h
  obtain ⟨rfl, rfl⟩ := Prod.mk.injEq .. ▸ hr
  refine ⟨⟨k, rfl⟩, fun name hname => ?_, mem_foldl_reserve U _ a⟩
  have hall := (firstFrom_some hk).2
  simpa [free] using List.all_eq_true.mp hall name hname

/-- One call: what is handed out was free, and everything of the call is in use after it. -/
theorem Call.run_spec {call : Call} (hcall : call.SuffixesApart U) {fuel : Nat}
    {a a' : NameAllocator} {events : List Event} (h : call.run U fuel a = some (a', events)) :
    events.Pairwise (Apart U) ∧
      (∀ e ∈ events, ∀ name, e = .handed name → U.lower name ∉ a.used) ∧
      ∀ u, u ∈ a'.used ↔ (∃ e ∈ events, U.lower e.name = u) ∨ u ∈ a.used := by
  cases hgroup : call.group U with
  | none =>
    cases call with
    | reserve name =>
      obtain ⟨rfl, rfl⟩ : Names.reserve U a name = a' ∧ [Event.reserved name] = events := by
        simpa [run] using h
      refine ⟨List.pairwise_singleton _ _, by simp, fun u => ?_⟩
      simp [Names.reserve, Event.name, eq_comm]
    | _ => simp [group] at hgroup
  | some g =>
    rw [run_group U hgroup, Option.map_eq_some_iff] at h
    obtain ⟨⟨a₁, names⟩, hr, heq⟩ := h
    obtain ⟨rfl, rfl⟩ : a₁ = a' ∧ names.map Event.handed = events := by simpa using heq
    obtain ⟨⟨k, hk⟩, hfree, hused⟩ := takeGroup_spec U hr
    have hnodup := Call.group_apart U hcall hgroup k
    rw [← hk] at hnodup
    refine ⟨?_, ?_, fun u => ?_⟩
    · rw [List.pairwise_map]
      refine (List.pairwise_map.mp hnodup).imp fun hne name hname => ?_
      obtain rfl := Event.handed.inj hname
      exact hne
    · intro e he name hname
      obtain ⟨n, hn, rfl⟩ := List.mem_map.mp he
      obtain rfl := Event.handed.inj hname
      exact hfree n hn
    · rw [hused]
      simp [Event.name]

theorem runCalls_spec {calls : List Call} (hcalls : ∀ call ∈ calls, call.SuffixesApart U)
    {fuel : Nat} {a a' : NameAllocator} {events : List Event}
    (h : runCalls U fuel a calls = some (a', events)) :
    events.Pairwise (Apart U) ∧
      ∀ e ∈ events, ∀ name, e = .handed name → U.lower name ∉ a.used := by
  induction calls generalizing a events with
  | nil =>
    obtain ⟨rfl, rfl⟩ : a = a' ∧ [] = events := by simpa [runCalls] using h
    simp
  | cons call calls ih =>
    rw [runCalls, Option.bind_eq_some_iff] at h
    obtain ⟨⟨a₁, events₁⟩, hrun, hrest⟩ := h
    rw [Option.map_eq_some_iff] at hrest
    obtain ⟨⟨a₂, events₂⟩, hrest, heq⟩ := hrest
    obtain ⟨rfl, rfl⟩ : a₂ = a' ∧ events₁ ++ events₂ = events := by simpa using heq
    have hcall := hcalls call (by simp)
    obtain ⟨hpair₁, hfree₁, hused⟩ := Call.run_spec U hcall hrun
    obtain ⟨hpair₂, hfree₂⟩ := ih (fun c hc => hcalls c (by simp [hc])) hrest
    refine ⟨List.pairwise_append.mpr ⟨hpair₁, hpair₂, ?_⟩, ?_⟩
    · intro e he e' he' name hname heq
      exact hfree₂ e' he' name hname ((hused _).mpr (.inl ⟨e, he, heq⟩))
    · intro e he name hname
      rcases List.mem_append.mp he with he | he
      · exact hfree₁ e he name hname
      · exact fun hmem => hfree₂ e he name hname ((hused _).mpr (.inr hmem))

end Allocator

/-! ## Bridges -/

/-- The roles of an analog node. -/
inductive Role where
  | through | d2a | a2d | bidir | rd2a | ra2d | powernet | removed | disabled | none
  deriving DecidableEq, Repr

/-- The kind of a cut port. -/
inductive PortKind where
  | logic | real
  deriving DecidableEq, Repr

/-- `D2A_IE`, as far as the bridges read it. -/
structure D2AElement where
  rise : Float
  fall : Float
  powernet : Bool

/-- `D2A_IE(0.0, 0.0)` -/
def D2AElement.default : D2AElement := ⟨1e-11, 1e-11, false⟩

structure PortRef where
  inst : Int
  port : Int
  bit : Int
  deriving DecidableEq

structure CutInstance where
  labels : List Str
  vpath : Str
  cell : Str

/-- `CutAnalysis`: the kinds of every cell's ports by the cell's name, and the instances. -/
structure CutAnalysis where
  cells : List (Str × List PortKind)
  instances : List CutInstance

structure AnalogNode where
  name : Str
  canonical : Str
  role : Role
  host : Option PortRef
  d2a : Option D2AElement

structure AmsPlan where
  analysis : CutAnalysis
  nodes : List AnalogNode

inductive BridgeKind where
  | d2a | en | a2d
  deriving DecidableEq, Repr

structure Bridge where
  kind : BridgeKind
  name : Str
  vhdlPath : Str
  node : Str
  host : PortRef
  rise : Float
  fall : Float

/-- What `build_bridges` raises; a note is its origin and its message. -/
inductive BuildError where
  | indexError (index : Int)
  | keyError (key : Str)
  | noteError (problems : List (Str × Str))
  deriving DecidableEq

def maxBridge : Nat := 200
def hashKeep : Nat := 150
def maxField : Nat := 511

/-- `xs[i]` of a list, where a negative index counts from the end. -/
def listItem {α : Type} (xs : List α) (i : Int) : Except BuildError α :=
  let item :=
    if 0 ≤ i then xs[i.toNat]?
    else if -i ≤ xs.length then xs[(xs.length + i).toNat]?
    else none
  match item with
  | some x => .ok x
  | none => .error (.indexError i)

def dictItem {α : Type} (items : List (Str × α)) (key : Str) : Except BuildError α :=
  match items.lookup key with
  | some x => .ok x
  | none => .error (.keyError key)

/-- `[A-Za-z0-9_.\[\]<>]` -/
def isBridgeChar (c : CodePoint) : Bool :=
  c.isAsciiAlnum || c = '_' || c = '.' || c = '[' || c = ']' || c = '<' || c = '>'

section Build

-- `hashlib.sha1(data).hexdigest()`
variable (sha1 : Bytes → Str)

def bridgeBase (canonical : Str) : Str :=
  let s := canonical.map fun c => if isBridgeChar c then c else ('_' : CodePoint)
  if s.length > maxBridge then s.take hashKeep ++ str "_h" ++ (sha1 (Utf8.encode s)).take 12 else s

/-- `BRIDGE_SUFFIX` -/
def bridgeSuffix : BridgeKind → Str
  | .d2a => str "__d"
  | .en => str "__e"
  | .a2d => str "__a"

def bridge (base : Str) (kind : BridgeKind) : Str := base ++ bridgeSuffix kind

/-- `vb_signal` -/
def vbSignal (portIndex bit : Int) (kind : Char) : Str :=
  str "vb" ++ intText portIndex ++ str "_" ++ intText bit ++ str "_" ++ [(kind : CodePoint)]

/-- `boundary_path` -/
def boundaryPath (labels : List Str) (signal : Str) : Str :=
  str "." ++ (str ".").intercalate (labels ++ [signal])

/-- The calls of `add` for one node: the kind of the bridge, the signal and the deck node. -/
def nodeBridges (n : AnalogNode) (powernet : Bool) : List (BridgeKind × Char × Str) :=
  (if n.role = .d2a ∨ n.role = .bidir then
    if n.role = .d2a ∧ powernet then [(.d2a, 'd', n.name)]
    else [(.d2a, 'd', n.name ++ str "_d"), (.en, 'e', n.name ++ str "_e")]
  else []) ++
  (if n.role = .rd2a then [(.d2a, 'd', n.name)] else []) ++
  (if n.role = .a2d ∨ n.role = .bidir ∨ n.role = .ra2d then [(.a2d, 'a', n.name)] else [])

def bridged (role : Role) : Bool :=
  role = .d2a || role = .a2d || role = .bidir || role = .rd2a || role = .ra2d

/-- The message of a path that the registry cannot hold. -/
def fieldProblem (vpath path : Str) : Option (Str × Str) :=
  if path.length > maxField then
    some (vpath, str "boundary path of " ++ natText path.length ++ str " characters exceeds " ++
      natText maxField)
  else none

/-- The locals of `build_bridges`. -/
structure Build where
  out : List Bridge
  bases : List Str
  problems : List (Str × Str)

/-- The base of a node: its own, or the first free `base_k` with `1 ≤ k`. -/
def freeBase (fuel : Nat) (bases : List Str) (base : Str) : Option Str :=
  if base ∈ bases then
    (firstFrom (fun k => decide (candidate base k ∉ bases)) fuel 1).map (candidate base)
  else some base

/-- The bridges of the node `n`, hosted by the port `h` of the instance `ci`. -/
def addBridges (st : Build) (n : AnalogNode) (h : PortRef) (ci : CutInstance) (bit : Int)
    (base : Str) : Build :=
  let ie := n.d2a.getD .default
  let added := (nodeBridges n ie.powernet).map fun p =>
    { kind := p.1, name := bridge base p.1,
      vhdlPath := boundaryPath ci.labels (vbSignal h.port bit p.2.1),
      node := p.2.2, host := h, rise := ie.rise, fall := ie.fall : Bridge }
  { out := st.out ++ added
    bases := base :: st.bases
    problems := st.problems ++ added.filterMap fun b => fieldProblem ci.vpath b.vhdlPath }

/-- The instance of the host port and its host bit. -/
def hostBit (ana : CutAnalysis) (h : PortRef) : Except BuildError (CutInstance × Int) := do
  let ci ← listItem ana.instances h.inst
  let ports ← dictItem ana.cells ci.cell
  let kind ← listItem ports h.port
  return (ci, if kind = .real then 0 else h.bit)

/-- The body of the loop over `plan.nodes`. -/
def buildNode (fuel : Nat) (ana : CutAnalysis) (st : Build) (n : AnalogNode) :
    Option (Except BuildError Build) :=
  match bridged n.role, n.host with
  | false, _ => some (.ok st)
  | true, none => some (.ok st)
  | true, some h =>
    match hostBit ana h with
    | .error e => some (.error e)
    | .ok (ci, bit) =>
      (freeBase fuel st.bases (bridgeBase sha1 n.canonical)).map fun base =>
        .ok (addBridges st n h ci bit base)

def buildNodes (fuel : Nat) (ana : CutAnalysis) : Build → List AnalogNode →
    Option (Except BuildError Build)
  | st, [] => some (.ok st)
  | st, n :: nodes =>
    (buildNode sha1 fuel ana st n).bind fun r =>
      match r with
      | .error e => some (.error e)
      | .ok st' => buildNodes fuel ana st' nodes

/-- The bridges, unless a path is too long for the registry. -/
def checkProblems : Except BuildError Build → Except BuildError (List Bridge)
  | .error e => .error e
  | .ok st => if st.problems = [] then .ok st.out else .error (.noteError st.problems)

/-- `build_bridges`, `none` while `fuel` tries of a search are not enough. -/
def buildBridges (fuel : Nat) (plan : AmsPlan) : Option (Except BuildError (List Bridge)) :=
  (buildNodes sha1 fuel plan.analysis ⟨[], [], []⟩ plan.nodes).map checkProblems

theorem length_bridgeSuffix (kind : BridgeKind) : (bridgeSuffix kind).length = 3 := by
  cases kind <;> rfl

theorem bridge_inj (base : Str) {base' : Str} {kind kind' : BridgeKind}
    (h : bridge base kind = bridge base' kind') : base = base' ∧ kind = kind' := by
  have hlength : (bridgeSuffix kind).length = (bridgeSuffix kind').length := by
    rw [length_bridgeSuffix, length_bridgeSuffix]
  obtain ⟨hbase, hsuffix⟩ := List.append_inj' h hlength
  refine ⟨hbase, ?_⟩
  revert hsuffix
  cases kind <;> cases kind' <;> simp [bridgeSuffix, str]

theorem freeBase_spec {fuel : Nat} {bases : List Str} {base b : Str}
    (h : freeBase fuel bases base = some b) : b ∉ bases := by
  rw [freeBase] at h
  by_cases hmem : base ∈ bases
  · rw [if_pos hmem, Option.map_eq_some_iff] at h
    obtain ⟨k, hk, rfl⟩ := h
    simpa using (firstFrom_some hk).2
  · rw [if_neg hmem, Option.some.injEq] at h
    rwa [← h]

theorem freeBase_ends (bases : List Str) (base : Str) :
    ∃ fuel₀ b, ∀ fuel, fuel₀ ≤ fuel → freeBase fuel bases base = some b := by
  by_cases hmem : base ∈ bases
  · obtain ⟨k, hne, hlong⟩ := exists_long_candidate bases base
    have hfree : decide (candidate base k ∉ bases) = true := by
      rw [decide_eq_true_eq]
      exact fun h => lt_irrefl _ (hlong _ h)
    obtain ⟨n, hn⟩ := firstFrom_ends (p := fun k => decide (candidate base k ∉ bases))
      (Nat.one_le_iff_ne_zero.mpr hne) hfree
    refine ⟨k - 1 + 1, candidate base n, fun fuel hfuel => ?_⟩
    rw [freeBase, if_pos hmem, hn fuel (by omega), Option.map_some]
  · exact ⟨0, base, fun fuel _ => if_neg hmem⟩

/-- A node has no two bridges of one kind. -/
theorem nodeBridges_nodup (n : AnalogNode) (powernet : Bool) :
    ((nodeBridges n powernet).map Prod.fst).Nodup := by
  unfold nodeBridges
  cases n.role <;> cases powernet <;> simp

/-- The names so far are different, and each is a base in use with its suffix. -/
structure Build.Inv (st : Build) : Prop where
  nodup : (st.out.map Bridge.name).Nodup
  based : ∀ b ∈ st.out, ∃ base ∈ st.bases, ∃ kind, b.name = bridge base kind

theorem addBridges_inv {st : Build} (hst : st.Inv) (n : AnalogNode) (h : PortRef)
    (ci : CutInstance) (bit : Int) {base : Str} (hnew : base ∉ st.bases) :
    (addBridges st n h ci bit base).Inv := by
  constructor
  · rw [addBridges, List.map_append, List.map_map]
    refine List.nodup_append.mpr ⟨hst.nodup, ?_, ?_⟩
    · have hkinds := nodeBridges_nodup n (n.d2a.getD .default).powernet
      have hnames := hkinds.map fun _ _ hk => (bridge_inj base hk).2
      rwa [List.map_map] at hnames
    · -- an old name stands on an old base, which the new base is not
      intro name hname name' hname' heq
      obtain ⟨b, hb, rfl⟩ := List.mem_map.mp hname
      obtain ⟨base', hbase', kind', hb'⟩ := hst.based b hb
      obtain ⟨p, -, rfl⟩ := List.mem_map.mp hname'
      rw [hb'] at heq
      rw [(bridge_inj _ heq).1] at hbase'
      exact hnew hbase'
  · intro b hb
    rcases List.mem_append.mp hb with hb | hb
    · obtain ⟨base', hbase', kind', hb'⟩ := hst.based b hb
      exact ⟨base', List.mem_cons_of_mem _ hbase', kind', hb'⟩
    · obtain ⟨p, -, rfl⟩ := List.mem_map.mp hb
      exact ⟨base, List.mem_cons_self, p.1, rfl⟩

theorem buildNode_inv {fuel : Nat} {ana : CutAnalysis} {st st' : Build} {n : AnalogNode}
    (hst : st.Inv) (h : buildNode sha1 fuel ana st n = some (.ok st')) : st'.Inv := by
  unfold buildNode at h
  split at h
  · obtain rfl : st = st' := by simpa using h
    exact hst
  · obtain rfl : st = st' := by simpa using h
    exact hst
  · split at h
    · simp at h
    · rw [Option.map_eq_some_iff] at h
      obtain ⟨base, hbase, heq⟩ := h
      rw [← Except.ok.inj heq]
      exact addBridges_inv hst n _ _ _ (freeBase_spec hbase)

theorem buildNodes_inv {fuel : Nat} {ana : CutAnalysis} {st st' : Build} {nodes : List AnalogNode}
    (hst : st.Inv) (h : buildNodes sha1 fuel ana st nodes = some (.ok st')) : st'.Inv := by
  induction nodes generalizing st with
  | nil =>
    obtain rfl : st = st' := by simpa [buildNodes] using h
    exact hst
  | cons n nodes ih =>
    rw [buildNodes, Option.bind_eq_some_iff] at h
    obtain ⟨r, hr, hrest⟩ := h
    cases r with
    | error e => simp at hrest
    | ok st₁ => exact ih (buildNode_inv sha1 hst hr) hrest

theorem buildNode_ends (ana : CutAnalysis) (st : Build) (n : AnalogNode) :
    ∃ fuel₀ r, ∀ fuel, fuel₀ ≤ fuel → buildNode sha1 fuel ana st n = some r := by
  obtain ⟨fuel₀, base, hbase⟩ := freeBase_ends st.bases (bridgeBase sha1 n.canonical)
  unfold buildNode
  split
  · exact ⟨0, _, fun _ _ => rfl⟩
  · exact ⟨0, _, fun _ _ => rfl⟩
  · split
    · exact ⟨0, _, fun _ _ => rfl⟩
    · exact ⟨fuel₀, _, fun fuel hfuel => by rw [hbase fuel hfuel, Option.map_some]⟩

theorem buildNodes_ends (ana : CutAnalysis) (nodes : List AnalogNode) (st : Build) :
    ∃ fuel₀ r, ∀ fuel, fuel₀ ≤ fuel → buildNodes sha1 fuel ana st nodes = some r := by
  induction nodes generalizing st with
  | nil => exact ⟨0, _, fun _ _ => rfl⟩
  | cons n nodes ih =>
    obtain ⟨fuel₁, r, hr⟩ := buildNode_ends sha1 ana st n
    cases r with
    | error e =>
      refine ⟨fuel₁, .error e, fun fuel hfuel => ?_⟩
      rw [buildNodes, hr fuel hfuel, Option.bind_some]
    | ok st₁ =>
      obtain ⟨fuel₂, r', hr'⟩ := ih st₁
      refine ⟨max fuel₁ fuel₂, r', fun fuel hfuel => ?_⟩
      rw [buildNodes, hr fuel (by omega), Option.bind_some]
      exact hr' fuel (by omega)

/-- `build_bridges` ends, and the names of the bridges it returns are different. -/
theorem buildBridges_spec (plan : AmsPlan) :
    ∃ fuel₀ r, ∀ fuel, fuel₀ ≤ fuel → buildBridges sha1 fuel plan = some r ∧
      ∀ out, r = .ok out → (out.map Bridge.name).Nodup := by
  obtain ⟨fuel₀, r, hr⟩ := buildNodes_ends sha1 plan.analysis plan.nodes ⟨[], [], []⟩
  refine ⟨fuel₀, checkProblems r, fun fuel hfuel => ⟨?_, fun out hout => ?_⟩⟩
  · rw [buildBridges, hr fuel hfuel, Option.map_some]
  · cases r with
    | error e => simp [checkProblems] at hout
    | ok st =>
      have hstart : (⟨[], [], []⟩ : Build).Inv := ⟨by simp, by simp⟩
      have hinv := buildNodes_inv sha1 hstart (hr fuel hfuel)
      rw [checkProblems] at hout
      by_cases hproblems : st.problems = []
      · rw [if_pos hproblems, Except.ok.injEq] at hout
        rw [← hout]
        exact hinv.nodup
      · simp [if_neg hproblems] at hout

end Build

/-! ## No collision -/

/-- Whatever the seed, the calls and the plan: every search ends, a name handed out differs,
    ignoring case, from the seed and from the names reserved or handed out before it, and the
    bridges of a plan have different names. -/
theorem names_apart (U : UnicodeData) (sha1 : Bytes → Str) (seed : List Str) (calls : List Call)
    (hcalls : ∀ call ∈ calls, call.SuffixesApart U) (plan : AmsPlan) :
    (∃ fuel₀ a events, ∀ fuel, fuel₀ ≤ fuel →
      runCalls U fuel (.init U seed) calls = some (a, events) ∧
      (seed.map Event.reserved ++ events).Pairwise (Apart U)) ∧
    ∃ fuel₀ r, ∀ fuel, fuel₀ ≤ fuel → buildBridges sha1 fuel plan = some r ∧
      ∀ out, r = .ok out → (out.map Bridge.name).Nodup := by
  refine ⟨?_, buildBridges_spec sha1 plan⟩
  obtain ⟨fuel₀, r, hr⟩ := runCalls_ends U calls (.init U seed)
  refine ⟨fuel₀, r.1, r.2, fun fuel hfuel => ⟨hr fuel hfuel, ?_⟩⟩
  obtain ⟨hpair, hfree⟩ := runCalls_spec U hcalls (hr fuel hfuel)
  refine List.pairwise_append.mpr ⟨?_, hpair, ?_⟩
  · -- the seed hands nothing out
    rw [List.pairwise_map]
    exact List.pairwise_of_forall fun _ _ _ hname => nomatch hname
  · intro e he e' he' name hname heq
    obtain ⟨n, hn, rfl⟩ := List.mem_map.mp he
    exact hfree e' he' name hname (heq ▸ List.mem_map_of_mem hn)

theorem names_apart_node_and_group : ∃ fuel₀ a events, ∀ fuel, fuel₀ ≤ fuel →
    runCalls UnicodeData.small fuel (.init UnicodeData.small [str "n_a_d"])
        [.node (str "t.a"), .takeGroup (str "n") [str "_a", str "_b"]] = some (a, events) ∧
      ([Event.reserved (str "n_a_d")] ++ events).Pairwise (Apart UnicodeData.small) := by
  refine (names_apart UnicodeData.small (fun _ => []) [str "n_a_d"]
    [.node (str "t.a"), .takeGroup (str "n") [str "_a", str "_b"]] ?_ ⟨⟨[], []⟩, []⟩).1
  intro call hcall base suffixes heq k
  obtain ⟨rfl, rfl⟩ : str "n" = base ∧ [str "_a", str "_b"] = suffixes := by
    rcases List.mem_cons.mp hcall with rfl | hcall
    · exact nomatch heq
    · rw [List.mem_singleton.mp hcall] at heq
      exact ⟨(Call.takeGroup.inj heq).1, (Call.takeGroup.inj heq).2⟩
  have hne := UnicodeData.small.lower_append_ne (candidate (str "n") k ++ str "_") (c := 'a')
    (d := 'b') (by decide) (by decide) (by simp [asciiLower, CodePoint.isUpperAscii])
  rw [List.append_assoc, List.append_assoc,
    show str "_" ++ [CodePoint.ofChar 'a'] = str "_a" from rfl,
    show str "_" ++ [CodePoint.ofChar 'b'] = str "_b" from rfl] at hne
  simpa [candidates] using hne

/-- A group whose suffixes differ in case only hands one name out twice, and a name can be
    reserved after it was handed out. -/
theorem not_apart_same_suffixes :
    (takeGroup UnicodeData.small 1 (.init UnicodeData.small []) (str "n")
      [str "_d", str "_D"]).map Prod.snd = some [str "n_d", str "n_D"] ∧
      UnicodeData.small.lower (str "n_d") = UnicodeData.small.lower (str "n_D") ∧
      (runCalls UnicodeData.small 1 (.init UnicodeData.small [])
        [.take (str "n"), .reserve (str "n")]).map Prod.snd =
          some [.handed (str "n"), .reserved (str "n")] := by
  decide +kernel

end Vamos.Ams.Names
