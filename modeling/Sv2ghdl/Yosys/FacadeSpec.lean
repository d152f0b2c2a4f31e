import Sv2ghdl.Yosys.Facade

/-!
# What the builder is to build

Each call read by the grammar of its strings, and the decision trees as the words of the calls that build them. The
design that was built has in each process the tree that the word is read as.
-/

open Yosys.Rtlil Pieces Nesting

namespace Yosys.Facade

/-! ## Calls as they are documented -/

/-- A call that builds the tree of a process, with the signals of its strings. -/
abbrev TreeCall := Event (List SigSpec) SigSig SigSpec

/-- The design as the calls name it: a process has the word of its tree calls, a memory write no mask. -/
abbrev Plan := Store (List TreeCall) MemWrite

section Meaning

variable (lib : Library) (σ : Plan)

/-- The signal of a string in the current module. -/
def Means (txt : Text) (sig : SigSpec) : Prop :=
  ∃ m, σ.current = some m ∧ Denotes lib m.wire? (strip txt) sig

/-- The right side has the width of the left side: zeros above it, or its lowest bits. -/
def Assigns (lhs rhs : Text) (a : SigSig) : Prop :=
  ∃ r, Means lib σ lhs a.1 ∧ Means lib σ rhs r ∧
    a.2 = (r ++ List.replicate a.1.length (SigBit.const .s0)).take a.1.length

/-- The signals that a case is for. -/
def Compares (compare : Text) (sigs : List SigSpec) : Prop :=
  if compare = [] then sigs = []
  else ∃ ts, compare = [';'].intercalate ts ∧ (∀ t ∈ ts, ';' ∉ t) ∧ List.Forall₂ (Means lib σ) ts sigs

/-- `port=sigspec` -/
def Connects (item : Text) (port : Id × SigSpec) : Prop :=
  ∃ name spec, item = name ++ '=' :: spec ∧ name ≠ [] ∧ '=' ∉ name ∧ lib.escapeId name = some port.1 ∧
    Means lib σ spec port.2

/-- One bit enables the word, or each bit has its own. -/
def Enables (w : Int) (e enable : SigSpec) : Prop :=
  (∃ bit, e = [bit] ∧ enable = List.replicate w.toNat bit) ∨ e.length = w ∧ enable = e

end Meaning

def Store.log {ω : Type} (e : TreeCall) (s : Store (List TreeCall) ω) : Store (List TreeCall) ω :=
  match s.proc with
  | none => s
  | some (m, k) => s.inProcess m k fun p => { p with tree := p.tree ++ [e] }

/-- What a call adds to the design when it means something. -/
inductive Adds (lib : Library) (σ : Plan) : Call → Plan → Prop
  | module {name id} (hid : lib.escapeId name = some id) : Adds lib σ (.module name) (σ.addModule id)
  | wire {name id} {width dir : Int} {initBits : Option Text} (hmod : σ.current.isSome)
    (hid : lib.escapeId name = some id) :
    Adds lib σ (.wire name width dir initBits)
      (σ.inModule (·.addWire ⟨⟨id, width.toNat⟩, dir = 1, dir = 2, initBits.map lib.constFromString⟩))
  | connect {lhs rhs a} (ha : Assigns lib σ lhs rhs a) :
    Adds lib σ (.connect lhs rhs) (σ.inModule (·.addConnection a))
  | cellBin {op name a b y id A B Y type} {isSigned : Int} (hid : lib.escapeId name = some id)
    (hop : opType binOps op = some type) (ha : Means lib σ a A) (hb : Means lib σ b B) (hy : Means lib σ y Y) :
    Adds lib σ (.cellBin op name a b y isSigned) (σ.inModule (·.addCell (.bin type id A B Y (isSigned ≠ 0))))
  | cellUn {op name a y id A Y type} {isSigned : Int} (hid : lib.escapeId name = some id)
    (hop : opType unOps op = some type) (ha : Means lib σ a A) (hy : Means lib σ y Y) :
    Adds lib σ (.cellUn op name a y isSigned) (σ.inModule (·.addCell (.un type id A Y (isSigned ≠ 0))))
  | cellInst {type name conns id typeId ports} (hid : lib.escapeId name = some id)
    (htype : lib.escapeId type = some typeId) (hmod : σ.current.isSome)
    (hports : List.Forall₂ (Connects lib σ) (connItems conns) ports) :
    Adds lib σ (.cellInst type name conns) (σ.inModule (·.addCell (.inst typeId id (ports.foldl setPort []))))
  | cellMux {name a b s y id A B S Y} (hid : lib.escapeId name = some id) (ha : Means lib σ a A)
    (hb : Means lib σ b B) (hs : Means lib σ s S) (hy : Means lib σ y Y) :
    Adds lib σ (.cellMux name a b s y) (σ.inModule (·.addCell (.mux id A B S Y)))
  | proc {name id} (hmod : σ.current.isSome) (hid : lib.escapeId name = some id) :
    Adds lib σ (.proc name) (σ.addProcess ⟨id, [], []⟩)
  | caseAssign {lhs rhs a} (hproc : σ.proc.isSome) (ha : Assigns lib σ lhs rhs a) :
    Adds lib σ (.caseAssign lhs rhs) (σ.log (.assign a))
  | switchBegin {sig s} (hproc : σ.proc.isSome) (hs : Means lib σ sig s) :
    Adds lib σ (.switchBegin sig) (σ.log (.switchBegin s))
  | caseBegin {compare sigs} (hproc : σ.proc.isSome) (hsigs : Compares lib σ compare sigs) :
    Adds lib σ (.caseBegin compare) (σ.log (.caseBegin sigs))
  | caseAssignRoot {lhs rhs a} (hproc : σ.proc.isSome) (ha : Assigns lib σ lhs rhs a) :
    Adds lib σ (.caseAssignRoot lhs rhs) (σ.log (.assignRoot a))
  | memory {name id} {width size : Int} (hmod : σ.current.isSome) (hid : lib.escapeId name = some id)
    (hwidth : 0 < width) (hsize : 0 < size) :
    Adds lib σ (.memory name width size) (σ.inModule (·.setMemory ⟨id, width, size⟩))
  | memrd {name memid addr data id mid A D m} (hid : lib.escapeId name = some id)
    (hmid : lib.escapeId memid = some mid) (hm : σ.current = some m) (hmem : (m.memory? mid).isSome)
    (ha : Means lib σ addr A) (hd : Means lib σ data D) :
    Adds lib σ (.memrd name memid addr data) (σ.inModule (·.addCell (.memrd id mid A D)))
  | syncMemwr {memid addr data en mid A D E enable m memory} (hsync : σ.sync.isSome)
    (hmid : lib.escapeId memid = some mid) (hm : σ.current = some m) (hmem : m.memory? mid = some memory)
    (ha : Means lib σ addr A) (hd : Means lib σ data D) (hwidth : D.length = memory.width)
    (he : Means lib σ en E) (henable : Enables memory.width E enable) :
    Adds lib σ (.syncMemwr memid addr data en) (σ.inSync (·.addWrite ⟨mid, A, D, enable⟩))
  | caseEnd (hproc : σ.proc.isSome) : Adds lib σ .caseEnd (σ.log .caseEnd)
  | switchEnd (hproc : σ.proc.isSome) : Adds lib σ .switchEnd (σ.log .switchEnd)
  | sync {edge sig type signal} (hproc : σ.proc.isSome) (htype : syncType edge = some type)
    (hsignal : if type.hasSignal then Means lib σ sig signal else signal = []) :
    Adds lib σ (.sync edge sig) (σ.addSync ⟨type, signal, [], []⟩)
  | syncAssign {lhs rhs a} (hsync : σ.sync.isSome) (ha : Assigns lib σ lhs rhs a) :
    Adds lib σ (.syncAssign lhs rhs) (σ.inSync (·.addAction a))

/-- The plan of the calls of a session, when each of them means something. -/
inductive Plans (lib : Library) : List Call → Plan → Prop
  | nil : Plans lib [] .empty
  | snoc {cs σ c σ'} (h : Plans lib cs σ) (hc : Adds lib σ c σ') : Plans lib (cs ++ [c]) σ'

/-! ## A design as it was planned -/

/-- A memory write has priority over the earlier writes to its memory, and over no others. -/
def Prioritized (writes : List MemWriteAction) : Prop :=
  ∀ {i w}, writes[i]? = some w →
    w.priorityMask = (writes.take i).map fun e => if e.memid = w.memid then State.s1 else .s0

structure RealizesSync (a : SyncRule MemWriteAction) (e : SyncRule MemWrite) : Prop where
  type : a.type = e.type
  signal : a.signal = e.signal
  actions : a.actions = e.actions
  writes : a.memWriteActions.map (·.toMemWrite) = e.memWriteActions
  prioritized : Prioritized a.memWriteActions

/-- The tree of a process is what its calls are read as: they are properly nested. -/
structure RealizesProcess (a : Process CaseRule MemWriteAction) (e : Process (List TreeCall) MemWrite) : Prop where
  name : a.name = e.name
  tree : Reads [] e.tree a.tree
  syncs : List.Forall₂ RealizesSync a.syncs e.syncs

structure RealizesModule (a : Module CaseRule MemWriteAction) (e : Module (List TreeCall) MemWrite) : Prop where
  name : a.name = e.name
  wires : a.wires = e.wires
  memories : a.memories = e.memories
  connections : a.connections = e.connections
  cells : a.cells = e.cells
  processes : List.Forall₂ RealizesProcess a.processes e.processes

def Realizes (design : List (Module CaseRule MemWriteAction)) (σ : Plan) : Prop :=
  List.Forall₂ RealizesModule design σ.design

/-! ## The promise of the builder -/

/-- The builder after `gsm_rtlil_begin`, whatever it was used for before. -/
def Builder.opened (b : Builder) : Builder := (gsmRtlilBegin true b).1

/-- The sigspec strings that a call reads. -/
def Call.sigspecs : Call → List Text
  | .module _ | .wire .. | .proc _ | .memory .. | .caseEnd | .switchEnd => []
  | .connect lhs rhs | .caseAssign lhs rhs | .caseAssignRoot lhs rhs | .syncAssign lhs rhs => [lhs, rhs]
  | .cellBin _ _ a b y _ => [a, b, y]
  | .cellUn _ _ a y _ => [a, y]
  | .cellInst _ _ conns => (connItems conns).filterMap fun item => (cut '=' item).map (·.2)
  | .cellMux _ a b s y => [a, b, s, y]
  | .switchBegin sig => [sig]
  | .caseBegin compare => compare.splitOn ';'
  | .memrd _ _ addr data => [addr, data]
  | .syncMemwr _ addr data en => [addr, data, en]
  | .sync edge sig => if (syncType edge).any SyncType.hasSignal then [sig] else []

/-- What the builder does with the calls of a session. -/
structure BuildsOrDeclines (lib : Library) (cs : List Call) (b : Builder) : Prop where
  returns : ∃ r, runCalls lib cs b.opened = some r
  /-- What goes on to synthesis is what was called, and no call failed. -/
  builds : ∀ {b' rs fixes design}, runCalls lib cs b.opened = some (b', rs) →
    b'.synthesized fixes = some design → (∀ r ∈ rs, r = 0) ∧ ∃ σ, Plans lib cs σ ∧ Realizes design σ
  /-- The strings of a call are read as the grammar has it, if none has failed before it. -/
  reads : ∀ {c cs₁ cs₂ b₁ rs₁ m}, cs = cs₁ ++ c :: cs₂ → runCalls lib cs₁ b.opened = some (b₁, rs₁) →
    (∀ r ∈ rs₁, r = 0) → b₁.current = some m → ∀ txt ∈ c.sigspecs, ∀ sig,
      b₁.parse lib txt = .ok sig ↔ Denotes lib m.wire? (strip txt) sig
  /-- A call without a meaning fails, if none has failed before it. -/
  fails : ∀ {c cs₁ cs₂ b' rs}, cs = cs₁ ++ c :: cs₂ → runCalls lib cs b.opened = some (b', rs) →
    (∀ σ σ', Plans lib cs₁ σ → ¬ Adds lib σ c σ') → ∃ r ∈ rs.take (cs₁.length + 1), r ≠ 0
  /-- After a failed call the others return nonzero and change nothing. -/
  frozen : ∀ {cs₁ cs₂ b₁ rs₁ b₂ rs₂}, cs = cs₁ ++ cs₂ → runCalls lib cs₁ b.opened = some (b₁, rs₁) →
    (∃ r ∈ rs₁, r ≠ 0) → runCalls lib cs₂ b₁ = some (b₂, rs₂) → b₂ = b₁ ∧ ∀ r ∈ rs₂, r ≠ 0

/-- What a host may call. -/
inductive Entry where
  | begin (resets : Bool)
  | call (c : Call)
  | synth (fixes : Bool) (ran : Int)
  | abort (resets : Bool)

/-- The builder after an entry, unless it crashes or waits for the mutex. -/
def Entry.step (lib : Library) (b : Builder) : Entry → Option Builder
  | .begin resets => if b.locks = b.unlocks then some (gsmRtlilBegin resets b).1 else none
  | .call c => (rtlilCall lib c b).map (·.1)
  | .synth fixes ran => some (gsmRtlilSynth fixes ran b).1
  | .abort resets => some (gsmRtlilAbort resets b)

def Entry.isBegin : Entry → Bool
  | .begin _ => true
  | _ => false

/-- The builder before its first use. -/
def Builder.initial : Builder :=
  { design := [], mod := none, proc := none, sync := none, session := false, poisoned := false, cases := []
    switches := [], hash := 1469598103934665603, locks := 0, unlocks := 0 }

/-- The mutex has been released once for each begin but that of an open session. -/
def ReleasesOnce (lib : Library) (es : List Entry) : Prop :=
  ∀ {b}, es.foldlM (Entry.step lib) .initial = some b →
    b.locks = es.countP Entry.isBegin ∧ b.unlocks + b.session.toNat = b.locks

/-! ## Calls that do not cross -/

/-- Where the calls so far have led: whether a module and whether a process has been begun, and in the process of the
current module how many cases are open inside its root and whether a switch is open in the innermost one. -/
structure Place where
  module : Bool
  began : Bool
  process : Option (Nat × Bool)

def Place.start : Place := ⟨false, false, none⟩

def Place.after (p : Place) : Call → Place
  | .module _ => { p with module := true, process := none }
  | .proc _ => { p with began := true, process := some (0, false) }
  | .switchBegin _ => { p with process := p.process.map fun (k, _) => (k, true) }
  | .caseBegin _ => { p with process := p.process.map fun (k, _) => (k + 1, false) }
  | .caseEnd => { p with process := p.process.map fun (k, _) => (k - 1, true) }
  | .switchEnd => { p with process := p.process.map fun (k, _) => (k, false) }
  | _ => p

/-- Nothing is open but the root. -/
def Place.Closed (p : Place) : Prop := ∀ k w, p.process = some (k, w) → k = 0 ∧ w = false

/-- The process of the current module has been begun, or no process at all. -/
def Place.Fresh (p : Place) : Prop := p.process = none → p.began = false

/-- A call that neither reaches through a null pointer, nor leaves open what it ends, nor is taken for a call of a part
that is not the innermost open one. -/
def Place.Takes (p : Place) : Call → Prop
  | .module _ => p.Closed
  | .proc _ => p.module ∧ p.Closed
  | .wire .. | .connect .. | .cellBin .. | .cellUn .. | .cellInst .. | .cellMux .. | .memory .. | .memrd .. => p.module
  | .caseAssign .. | .switchBegin .. => p.Fresh ∧ ∀ k w, p.process = some (k, w) → w = false
  | .caseAssignRoot .. => p.Fresh
  | .caseBegin _ | .switchEnd => ∀ k, p.process = some (k, false) → k = 0
  | .caseEnd => ∀ k, p.process = some (k, true) → k = 0
  | .syncMemwr .. | .sync .. | .syncAssign .. => True

/-- As long as no call has failed, the calls do not cross and their strings are plainly written. -/
def Orderly (lib : Library) : Place → Builder → List Call → Prop
  | _, _, [] => True
  | p, b, c :: cs =>
    (b.poisoned = false → p.Takes c ∧ ∀ txt ∈ c.sigspecs, Plain txt) ∧
      ∀ r, rtlilCall lib c b = some r → Orderly lib (p.after c) r.1 cs

end Yosys.Facade
