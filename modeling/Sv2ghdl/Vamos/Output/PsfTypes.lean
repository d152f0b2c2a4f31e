import Sv2ghdl.Lists.FreshName
import Sv2ghdl.Lists.Lookup
import Sv2ghdl.Lists.Traverse
import Sv2ghdl.Vamos.Netlist.Number

/-!
# The types of a noise file

`_Writer.types` of `vamos/output/psf.py` for the noise family, and the `TRACE` lines that refer to what it declares.
-/

open Python
open Vamos.Netlist.Expression (natText natText_injective)

namespace Vamos.Psf

/-! ## Text -/

/-- `_SAFE`, that is `[A-Za-z0-9_.:!]`. -/
def isSafe (c : CodePoint) : Bool := c.isAsciiAlnum || c = '_' || c = '.' || c = ':' || c = '!'

/-- The characters that `psf_string` writes a backslash before. -/
def escapes (escchars : Bool) (c : CodePoint) : Bool := c = '"' || c = '\\' || (escchars && !isSafe c)

def escapeText (escchars : Bool) (s : Str) : Str := s.flatMap fun c => if escapes escchars c then ['\\', c] else [c]

def psfString (escchars : Bool) (s : Str) : Str := ('"' : CodePoint) :: escapeText escchars s ++ [('"' : CodePoint)]

/-- `_Writer.tname`: a type name is never escaped under `+escchars`. -/
def tname (text : Str) : Str := psfString false text

/-! ## Signals and types -/

/-- A trace: its name, its type, and for a `STRUCT` the names of its members. -/
structure Signal where
  name : Str
  ptype : Str
  members : Option (List Str)

/-- An entry of the `TYPE` section. -/
inductive TypeEntry where
  | sweep
  /-- A scalar, whose units are its name. -/
  | scalar (name : Str)
  | struct (name : Str) (members : List Str) (master : Str)
  deriving DecidableEq

def TypeEntry.name : TypeEntry → Str
  | .sweep => str "sweep"
  | .scalar name => name
  | .struct name _ _ => name

def structMemberUnits : Str := str "V^2/Hz"

/-- The entry as the file has it. -/
def TypeEntry.text (escchars : Bool) : TypeEntry → Str
  | .sweep => tname (str "sweep") ++ str " FLOAT DOUBLE PROP(\n\"key\" \"sweep\"\n)"
  | .scalar name =>
    tname name ++ str " FLOAT DOUBLE PROP(\n\"units\" " ++ psfString false name ++ str "\n\"key\" \"noise\"\n)"
  | .struct name members master =>
    tname name ++ str " STRUCT(\n" ++
      members.flatMap (fun m => psfString escchars m ++ str " FLOAT DOUBLE PROP(\n\"units\" " ++
        psfString false structMemberUnits ++ str "\n)\n") ++
      str ") PROP(\n\"key\" \"inst\"\n\"master\" " ++ psfString escchars master ++ str "\n)"

/-- `TYPES["noise"]` -/
def noiseTypes : List TypeEntry := [.sweep, .scalar (str "V/sqrt(Hz)"), .scalar (str "V^2/Hz")]

/-- The keys of `NOISE_EXTRA_TYPES`; each is its entry's units. -/
def noiseExtraTypes : List Str := [str "A/sqrt(Hz)", str "V/V", str "V/A"]

def fixedTypeNames : List Str :=
  ["sweep", "LogicV", "V", "I", "MMF", "Wb", "Temp", "Pwr", "U", "V/Sec", "I/Sec", "1/Sec", "HOD", "Q", "V/sqrt(Hz)",
    "V^2/Hz", "A/sqrt(Hz)", "V/V", "V/A"].map str

/-- The `ValueError`s of `types`, with what their texts name besides the file. -/
inductive TypesError where
  | fixedTypeName (ptype trace : Str)
  | structAndScalar (ptype : Str)
  | neitherNoiseNorStruct (trace ptype : Str)
  deriving DecidableEq

/-! ## Declaring -/

/-- The variables of the loop. -/
structure Declarations where
  /-- The lines written, in order. -/
  entries : List TypeEntry
  declared : List Str
  /-- The declared name of a `STRUCT` type, with its first trace and its members. -/
  structs : List (Str × Str × List Str)
  /-- A type and its members, with the declared name. -/
  variants : List ((Str × List Str) × Str)
  /-- The texts of `struct_note`, if notes are kept. -/
  notes : Option (List Str)

def Declarations.start (notes : Option (List Str)) : Declarations where
  entries := noiseTypes
  declared := [str "sweep", str "V/sqrt(Hz)", str "V^2/Hz"]
  structs := []
  variants := []
  notes := notes

/-- `"%s_%d" % (ptype, k)` -/
def suffixed (ptype : Str) (k : Nat) : Str := ptype ++ ('_' : CodePoint) :: natText k

def joinWords (words : List Str) : Str := [(' ' : CodePoint)].intercalate words

def structNoteText (sig : Signal) (mset : List Str) (name : Str) (first : Str × List Str) : Str :=
  str "noise STRUCT type `" ++ sig.ptype ++ str "' of `" ++ sig.name ++ str "' has the members (" ++ joinWords mset ++
    str "), not those of `" ++ first.1 ++ str "' (" ++ joinWords first.2 ++ str "); written as `" ++ name ++
    str "' (§8.4)"

/-- `struct_note`: one note for a text. -/
def structNote (text : Str) : Option (List Str) → Option (List Str)
  | none => none
  | some notes => some (if text ∈ notes then notes else notes ++ [text])

/-- The name that a `STRUCT` type is declared with: its own, or the first suffixed one that is free. -/
def structName (taken : List Str) (d : Declarations) (ptype : Str) : Str :=
  if ptype ∈ d.structs.map (·.1) then
    suffixed ptype (FreshName.first (suffixed ptype) (taken ++ d.declared) 2)
  else ptype

/-- `structs[name] = (sig.name, mset)`: a name is declared once. -/
def Declarations.declareStruct (masters : Str → Option Str) (sig : Signal) (mset : List Str) (name : Str)
    (d : Declarations) : Declarations where
  entries := d.entries ++ [.struct name mset ((masters sig.ptype).getD sig.ptype)]
  declared := d.declared ++ [name]
  structs := d.structs ++ [(name, sig.name, mset)]
  variants := d.variants ++ [((sig.ptype, mset), name)]
  notes := match d.structs.lookup sig.ptype with
    | none => d.notes
    | some first => structNote (structNoteText sig mset name first) d.notes

/-- One turn of the loop, with the name in `tnames`. -/
def declare (masters : Str → Option Str) (taken : List Str) (d : Declarations) (sig : Signal) :
    Except TypesError (Str × Declarations) :=
  match sig.members with
  | none =>
    if sig.ptype ∈ d.declared then
      if sig.ptype ∈ d.structs.map (·.1) then .error (.structAndScalar sig.ptype) else .ok (sig.ptype, d)
    else if sig.ptype ∈ noiseExtraTypes then
      .ok (sig.ptype, { d with entries := d.entries ++ [.scalar sig.ptype], declared := d.declared ++ [sig.ptype] })
    else .error (.neitherNoiseNorStruct sig.name sig.ptype)
  | some mset =>
    if sig.ptype ∈ fixedTypeNames then .error (.fixedTypeName sig.ptype sig.name)
    else
      match d.variants.lookup (sig.ptype, mset) with
      | some name => .ok (name, d)
      | none =>
        if sig.ptype ∈ d.declared ∧ sig.ptype ∉ d.structs.map (·.1) then .error (.structAndScalar sig.ptype)
        else
          let name := structName taken d sig.ptype
          .ok (name, d.declareStruct masters sig mset name)

def declareAll (masters : Str → Option Str) (taken : List Str) :
    Declarations → List Signal → Except TypesError (List Str × Declarations)
  | d, [] => .ok ([], d)
  | d, sig :: signals => do
    let (name, d) ← declare masters taken d sig
    let (names, d) ← declareAll masters taken d signals
    return (name :: names, d)

/-- The noise part of `types`: the types of the traces and what was declared. -/
def types (masters : Str → Option Str) (notes : Option (List Str)) (signals : List Signal) :
    Except TypesError (List Str × Declarations) :=
  declareAll masters (signals.map (·.ptype) ++ fixedTypeNames) (.start notes) signals

/-- `_current_prop` -/
def currentProp (sig : Signal) : Str := if sig.ptype = str "I" then str " PROP(\n\"units\" \"A\"\n)" else []

/-- A line of `TRACE`. -/
def traceLine (escchars : Bool) (sig : Signal) (name : Str) : Str :=
  psfString escchars sig.name ++ ((' ' : CodePoint) :: tname name) ++ currentProp sig

/-! ## Text that tells names apart -/

theorem escapes_backslash (escchars : Bool) : escapes escchars '\\' = true := by
  cases escchars <;> decide

theorem escapeText_cons (escchars : Bool) (c : CodePoint) (s : Str) :
    escapeText escchars (c :: s) =
      (if escapes escchars c then [('\\' : CodePoint), c] else [c]) ++ escapeText escchars s :=
  List.flatMap_cons

/-- A backslash stands before a character or is one that a backslash stands before. -/
theorem escapeText_injective (escchars : Bool) : Function.Injective (escapeText escchars) := by
  intro s
  induction s with
  | nil =>
    intro t h
    cases t with
    | nil => rfl
    | cons d t =>
      rw [escapeText_cons] at h
      split_ifs at h <;> cases h
  | cons c s ih =>
    intro t h
    cases t with
    | nil =>
      rw [escapeText_cons] at h
      split_ifs at h <;> cases h
    | cons d t =>
      rw [escapeText_cons, escapeText_cons] at h
      split_ifs at h with hc hd hd <;> simp only [List.cons_append, List.nil_append, List.cons.injEq] at h
      · obtain ⟨-, rfl, hrest⟩ := h
        rw [ih hrest]
      · rw [← h.1] at hd
        exact absurd (escapes_backslash escchars) hd
      · rw [h.1] at hc
        exact absurd (escapes_backslash escchars) hc
      · obtain ⟨rfl, hrest⟩ := h
        rw [ih hrest]

theorem tname_injective : Function.Injective tname := by
  intro s t h
  obtain ⟨hbody, -⟩ := List.append_inj' (List.cons.inj h).2 rfl
  exact escapeText_injective false hbody

theorem suffixed_injective (ptype : Str) : Function.Injective (suffixed ptype) := by
  intro m n h
  exact natText_injective (List.cons.inj (List.append_cancel_left h)).2

/-! ## What is declared -/

/-- The declarations so far. -/
structure Sound (masters : Str → Option Str) (d : Declarations) : Prop where
  names : d.entries.map TypeEntry.name = d.declared
  nodup : d.declared.Nodup
  keys : (d.variants.map (·.1)).Nodup
  variantNames : (d.variants.map (·.2)).Nodup
  variants : ∀ {ptype mset name}, ((ptype, mset), name) ∈ d.variants →
    .struct name mset ((masters ptype).getD ptype) ∈ d.entries

/-- What is declared stays declared. -/
structure Declarations.Extends (d d' : Declarations) : Prop where
  declared : d.declared ⊆ d'.declared
  variants : d.variants ⊆ d'.variants

theorem Declarations.Extends.refl (d : Declarations) : d.Extends d :=
  ⟨List.Subset.refl _, List.Subset.refl _⟩

theorem Declarations.Extends.trans {d₁ d₂ d₃ : Declarations} (h : d₁.Extends d₂) (h' : d₂.Extends d₃) :
    d₁.Extends d₃ :=
  ⟨List.Subset.trans h.declared h'.declared, List.Subset.trans h.variants h'.variants⟩

/-- The name of a trace's type is declared for it. -/
def Named (d : Declarations) (sig : Signal) (name : Str) : Prop :=
  match sig.members with
  | none => name = sig.ptype ∧ name ∈ d.declared
  | some mset => ((sig.ptype, mset), name) ∈ d.variants

theorem Named.mono {d d' : Declarations} {sig : Signal} {name : Str} (h : Named d sig name) (hd : d.Extends d') :
    Named d' sig name := by
  rw [Named] at h ⊢
  split at h
  · exact ⟨h.1, hd.declared h.2⟩
  · exact hd.variants h

section Steps

variable {masters : Str → Option Str} {taken : List Str} {d d' : Declarations} {sig : Signal} {name : Str}

theorem Sound.start (notes : Option (List Str)) : Sound masters (.start notes) where
  names := rfl
  nodup := show [str "sweep", str "V/sqrt(Hz)", str "V^2/Hz"].Nodup by decide
  keys := List.nodup_nil
  variantNames := List.nodup_nil
  variants := nofun

/-- The name that a new `STRUCT` type gets is free. -/
theorem structName_free (h : ¬ (sig.ptype ∈ d.declared ∧ sig.ptype ∉ d.structs.map (·.1))) :
    structName taken d sig.ptype ∉ d.declared := by
  rw [structName]
  split_ifs with hstruct
  · have hfree := @FreshName.first_free _ _ _ (taken ++ d.declared) (suffixed_injective sig.ptype) 2
    exact fun hmem => hfree (List.mem_append_right _ hmem)
  · exact fun hmem => h ⟨hmem, hstruct⟩

theorem Sound.mem_declared (h : Sound masters d) {e : (Str × List Str) × Str} (he : e ∈ d.variants) :
    e.2 ∈ d.declared := by
  rw [← h.names]
  exact List.mem_map_of_mem (h.variants he)

theorem Sound.declareStruct (h : Sound masters d) {mset : List Str} (hname : name ∉ d.declared)
    (hkey : d.variants.lookup (sig.ptype, mset) = none) :
    Sound masters (d.declareStruct masters sig mset name) where
  names := by
    rw [Declarations.declareStruct, List.map_append, h.names]
    rfl
  nodup := by
    rw [Declarations.declareStruct]
    exact h.nodup.append (List.nodup_singleton name) (List.disjoint_singleton.mpr hname)
  keys := by
    rw [Declarations.declareStruct, List.map_append]
    refine h.keys.append (List.nodup_singleton _) (List.disjoint_singleton.mpr ?_)
    intro hmem
    obtain ⟨e, he, heq⟩ := List.mem_map.mp hmem
    have hne := List.lookup_eq_none_iff.mp hkey e he
    rw [heq] at hne
    simp at hne
  variantNames := by
    rw [Declarations.declareStruct, List.map_append]
    refine h.variantNames.append (List.nodup_singleton _) (List.disjoint_singleton.mpr ?_)
    intro hmem
    obtain ⟨e, he, rfl⟩ := List.mem_map.mp hmem
    exact hname (h.mem_declared he)
  variants := by
    intro ptype mset' name' hmem
    rcases List.mem_append.mp hmem with hmem | hmem
    · exact List.mem_append_left _ (h.variants hmem)
    · obtain ⟨⟩ := List.mem_singleton.mp hmem
      exact List.mem_append_right _ (List.mem_singleton_self _)

/-- One turn keeps what is declared, and declares the type of the trace. -/
theorem Sound.declare (h : Sound masters d) (hstep : declare masters taken d sig = .ok (name, d')) :
    Sound masters d' ∧ d.Extends d' ∧ Named d' sig name := by
  rw [Psf.declare] at hstep
  split at hstep
  · rename_i hscalar
    split_ifs at hstep with hdeclared hstruct hextra
    · cases hstep
      refine ⟨h, .refl d, ?_⟩
      rw [Named, hscalar]
      exact ⟨rfl, hdeclared⟩
    · cases hstep
      refine ⟨?_, ⟨List.subset_append_left _ _, List.Subset.refl _⟩, ?_⟩
      · exact
          { names := by rw [List.map_append, h.names]; rfl
            nodup := h.nodup.append (List.nodup_singleton _) (List.disjoint_singleton.mpr hdeclared)
            keys := h.keys
            variantNames := h.variantNames
            variants := fun hmem => List.mem_append_left _ (h.variants hmem) }
      · rw [Named, hscalar]
        exact ⟨rfl, List.mem_append_right _ (List.mem_singleton_self _)⟩
  · rename_i mset hmembers
    split at hstep
    · cases hstep
    split at hstep
    · rename_i known hlookup
      cases hstep
      refine ⟨h, .refl d, ?_⟩
      rw [Named, hmembers]
      exact Lookup.mem_of_lookup hlookup
    · rename_i hlookup
      split at hstep
      · cases hstep
      rename_i hboth
      cases hstep
      refine ⟨h.declareStruct (structName_free hboth) hlookup,
        ⟨List.subset_append_left _ _, List.subset_append_left _ _⟩, ?_⟩
      rw [Named, hmembers]
      exact List.mem_append_right _ (List.mem_singleton_self _)

/-- So does the whole loop. -/
theorem Sound.declareAll (h : Sound masters d) {signals : List Signal} {names : List Str}
    (hrun : declareAll masters taken d signals = .ok (names, d')) :
    Sound masters d' ∧ d.Extends d' ∧ List.Forall₂ (Named d') signals names := by
  induction signals generalizing d names with
  | nil =>
    cases hrun
    exact ⟨h, .refl _, .nil⟩
  | cons sig signals ih =>
    obtain ⟨⟨name, d₁⟩, hstep, hrun⟩ := Lookup.bind_eq_ok.mp hrun
    obtain ⟨⟨rest, d₂⟩, hrest, hrun⟩ := Lookup.bind_eq_ok.mp hrun
    cases hrun
    obtain ⟨h₁, hextends, hnamed⟩ := h.declare hstep
    obtain ⟨h₂, hextends', hall⟩ := ih h₁ hrest
    exact ⟨h₂, hextends.trans hextends', .cons (hnamed.mono hextends') hall⟩

/-- A trace's type has one entry. -/
theorem Sound.count (h : Sound masters d) (hnamed : Named d sig name) :
    (d.entries.map fun e => tname e.name).count (tname name) = 1 := by
  have hmem : name ∈ d.declared := by
    rw [Named] at hnamed
    split at hnamed
    · exact hnamed.2
    · exact h.mem_declared hnamed
  have hwritten : (d.entries.map fun e => tname e.name) = d.declared.map tname := by
    rw [← h.names, List.map_map]
    rfl
  rw [hwritten, List.count_map_of_injective _ _ tname_injective]
  exact List.count_eq_one_of_mem h.nodup hmem

/-- Two `STRUCT` types of one name are one type. -/
theorem Sound.name_eq_iff (h : Sound masters d) {sig' : Signal} {name' : Str} {mset mset' : List Str}
    (hnamed : Named d sig name) (hnamed' : Named d sig' name') (hmset : sig.members = some mset)
    (hmset' : sig'.members = some mset') : name = name' ↔ sig.ptype = sig'.ptype ∧ sig.members = sig'.members := by
  rw [Named, hmset] at hnamed
  rw [Named, hmset'] at hnamed'
  rw [hmset, hmset', Option.some_inj, ← Prod.mk_inj]
  constructor
  · intro heq
    exact congrArg Prod.fst (List.inj_on_of_nodup_map h.variantNames hnamed hnamed' heq)
  · intro heq
    exact congrArg Prod.snd (List.inj_on_of_nodup_map h.keys hnamed hnamed' heq)

end Steps

/-! ## The file -/

/-- The type names that are declared differ, each trace's is declared once, a `STRUCT` is declared with the members of
its trace, and two of them share a name just when they are of one type with the same members. -/
theorem types_faithful {masters : Str → Option Str} {notes : Option (List Str)} {signals : List Signal}
    {names : List Str} {d : Declarations} (h : types masters notes signals = .ok (names, d)) :
    (d.entries.map fun e => tname e.name).Nodup ∧
      List.Forall₂ (fun sig name => (d.entries.map fun e => tname e.name).count (tname name) = 1 ∧
        ∀ mset, sig.members = some mset → ∃ master, .struct name mset master ∈ d.entries) signals names ∧
      ∀ {i j : Nat} {sig sig' : Signal} {name name' : Str}, signals[i]? = some sig → signals[j]? = some sig' →
        names[i]? = some name → names[j]? = some name' → sig.members.isSome → sig'.members.isSome →
        (tname name = tname name' ↔ sig.ptype = sig'.ptype ∧ sig.members = sig'.members) := by
  obtain ⟨hsound, -, hall⟩ := (Sound.start notes).declareAll h
  refine ⟨?_, ?_, ?_⟩
  · have hwritten : (d.entries.map fun e => tname e.name) = d.declared.map tname := by
      rw [← hsound.names, List.map_map]
      rfl
    rw [hwritten]
    exact hsound.nodup.map tname_injective
  · refine hall.imp fun sig name hnamed => ⟨hsound.count hnamed, ?_⟩
    intro mset hmset
    rw [Named, hmset] at hnamed
    exact ⟨_, hsound.variants hnamed⟩
  · intro i j sig sig' name name' hi hj hni hnj hmset hmset'
    obtain ⟨n, hn, hnamed⟩ := Traverse.forall₂_left hall hi
    obtain ⟨n', hn', hnamed'⟩ := Traverse.forall₂_left hall hj
    rw [hni] at hn
    rw [hnj] at hn'
    cases hn
    cases hn'
    obtain ⟨mset, hmset⟩ := Option.isSome_iff_exists.mp hmset
    obtain ⟨mset', hmset'⟩ := Option.isSome_iff_exists.mp hmset'
    rw [tname_injective.eq_iff]
    exact hsound.name_eq_iff hnamed hnamed' hmset hmset'

/-- Two members sets of one type, a scalar, and a type that is named as a suffix would be. -/
def mixedSignals : List Signal :=
  [⟨str "R1", str "r", some [str "rn"]⟩, ⟨str "gain", str "V/V", none⟩, ⟨str "R2", str "r", some [str "rn", str "fn"]⟩,
    ⟨str "X", str "r_2", some [str "rn"]⟩]

theorem types_faithful_mixed : ∃ names d, types (fun _ => none) none mixedSignals = .ok (names, d) ∧
    (d.entries.map fun e => tname e.name).Nodup ∧ names = [str "r", str "V/V", str "r_3", str "r_2"] := by
  obtain ⟨names, d, h, hnames⟩ : ∃ names d, types (fun _ => none) none mixedSignals = .ok (names, d) ∧
      names = [str "r", str "V/V", str "r_3", str "r_2"] := ⟨_, _, rfl, by decide +kernel⟩
  exact ⟨names, d, h, (types_faithful h).1, hnames⟩

end Vamos.Psf
