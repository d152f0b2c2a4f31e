import Sv2ghdl.Python.Unicode
import Sv2ghdl.Syntax.Forest

/-!
# Subckt names

What the master of a subckt instance is resolved to: by the table of `vamos/netlist/spectre.py`, by its flat list of
scopes, by the SPICE regions of `vamos/netlist/spice.py`, and by the scopes of `vamos/netlist/tables.py`.
-/

open Python Forest

namespace Vamos.SubcktNames

/-! ## Netlists

The statements in a branch of an `if` count as statements of its body. -/

/-- A subckt definition, Spectre's or SPICE's. -/
structure Definition where
  name : Str
  /-- Set by a `simulator` statement; SPICE's are all case-insensitive. -/
  insensitive : Bool
  ports : Nat
  /-- The parameters that the definition declares in its header. -/
  header : List Str
  params : List Str
  noDefault : List Str
  /-- A SPICE subckt that cannot be simulated is declared, but it is not in the netlist. -/
  leftOut : Bool
  deriving DecidableEq

/-- An instance whose master is neither a primitive nor a model. -/
structure Instance where
  name : Str
  master : Str
  nodes : Nat
  params : List Str

structure Netlist where
  body : List (Tree Definition Instance)
  /-- The SPICE region of a statement of the top level. -/
  region : Nat → Option Nat

/-- A definition at its place. -/
abbrev Def := Path × Definition

variable (U : UnicodeData) (N : Netlist)

/-- The definitions of the first phase. -/
def Netlist.declared : List Def := preorders [] 0 N.body

/-- `self.scopes`: a definition is added when it ends. -/
def Netlist.scopes : List Def := postorders (fun d => !d.leftOut) [] 0 N.body

def Netlist.instances : List (Path × Instance) := leaves (fun d => !d.leftOut) [] 0 N.body

/-- The SPICE region that a place is in. -/
def Netlist.lang (p : Path) : Option Nat := p.head?.bind N.region

/-! ## Lookups -/

/-- `_Resolver.find` -/
def Netlist.find (name : Str) : Option Def :=
  (N.declared.find? fun d => d.2.name = name).or
    (N.declared.find? fun d => d.2.insensitive ∧ U.lower d.2.name = U.lower name)

/-- `next((sb for _sc, sb in self.scopes if sb.name == name), None)` -/
def Netlist.firstScope (name : Str) : Option Def := N.scopes.find? fun d => d.2.name = name

/-- `self.no_default.get(name, [])` -/
def Netlist.noDefault (name : Str) : List Str :=
  (N.scopes.filter fun d => d.2.name = name).flatMap fun d => d.2.noDefault

/-- A scope and those around it, from inside out. -/
def chain (scope : Path) : List Path := scope.inits.reverse

/-- `Scope.subckts.get(name)` -/
def Netlist.inScope (name : Str) (scope : Path) : Option Def :=
  (N.scopes.filter fun d => d.1.dropLast = scope ∧ d.2.name = name).getLast?

/-- `Scope.find_subckt` -/
def Netlist.findSubckt (scope : Path) (name : Str) : Option Def := (chain scope).findSome? (N.inScope name)

/-- The definition of a SPICE region. -/
def Netlist.inRegion (region : Nat) (name : Str) (scope : Path) : Option Def :=
  (N.declared.filter fun d => d.1.dropLast = scope ∧ d.2.name = name ∧ N.lang d.1 = some region).getLast?

/-- `find_subckt` of spice.py, for an instance at its place. -/
def Netlist.findInRegion (place : Path) (name : Str) : Option Def :=
  (N.lang place).bind fun region => (chain place.dropLast).findSome? (N.inRegion region name)

/-- The definition that the port count of an instance is checked against. -/
def Netlist.checked (place : Path) (x : Instance) : Option Def :=
  (N.findInRegion place x.master).or (N.find U x.master)

/-! ## Netlists that are accepted -/

/-- The checks of the parsers on subckts and their instances. -/
structure Netlist.Accepts : Prop where
  /-- A subckt is defined once in its scope. -/
  once : ∀ d ∈ N.scopes, ∀ e ∈ N.scopes, d.1.dropLast = e.1.dropLast → d.2.name = e.2.name → d = e
  /-- No two case-insensitive definitions differ only in case. -/
  marked : ∀ d ∈ N.declared, ∀ e ∈ N.declared, d.2.insensitive → e.2.insensitive →
    U.lower d.2.name = U.lower e.2.name → d.2.name = e.2.name
  /-- No instance is left whose subckt is left out. -/
  kept : ∀ p x, (p, x) ∈ N.instances → ∀ d, N.findInRegion p x.master = some d → d ∈ N.scopes
  ports : ∀ p x, (p, x) ∈ N.instances → ∀ d, N.checked U p x = some d → x.nodes = d.2.ports
  params : ∀ p x, (p, x) ∈ N.instances → ∀ d, N.checked U p x = some d → ∀ k ∈ x.params, k = str "m" ∨
    k ∈ d.2.header ∨ N.lang p = none ∧ ∃ sub, N.firstScope d.2.name = some sub ∧ k ∈ sub.2.params
  defaults : ∀ p x, (p, x) ∈ N.instances → ∀ d, N.checked U p x = some d → ∀ k ∈ N.noDefault d.2.name, k ∈ x.params

/-- The definitions that an instance is checked against, and that its parameters without a default and its instances
    are looked up in, are the one of its scope. -/
structure Netlist.Alike (place : Path) (d : Def) : Prop where
  ports : N.findSubckt place.dropLast d.2.name = some d
  params : N.lang place = none → N.firstScope d.2.name = N.findSubckt place.dropLast d.2.name
  defaults : ∀ e ∈ N.scopes, e.2.name = d.2.name → e.2.noDefault ≠ [] →
    N.findSubckt place.dropLast d.2.name = some e
  descends : N.firstScope d.2.name = N.findSubckt place.dropLast d.2.name

/-! ## When they are -/

/-- A definition that a written master fits: exact case first. -/
def Netlist.Fits (master : Str) (d : Def) : Prop :=
  ((∃ e ∈ N.declared, e.2.name = master) → d.2.name = master) ∧
    ((¬ ∃ e ∈ N.declared, e.2.name = master) → d.2.insensitive ∧ U.lower d.2.name = U.lower master)

/-- The nearest definition of its name that a scope sees. -/
structure Netlist.Nearest (scope : Path) (d : Def) : Prop where
  mem : d ∈ N.scopes
  visible : d.1.dropLast <+: scope
  nearest : ∀ e ∈ N.scopes, e.2.name = d.2.name → e.1.dropLast <+: scope →
    e.1.dropLast.length ≤ d.1.dropLast.length

/-- The nearest definition begins before the others that the master fits, ends before the others of its name, and is
    the only one of them that may have parameters without a default.  In a SPICE region that has the master itself,
    where it begins does not matter. -/
def Netlist.Plain (place : Path) (x : Instance) : Prop :=
  ∃ d, N.Nearest place.dropLast d ∧
    (N.findInRegion place x.master ≠ none → d.2.name = x.master) ∧
    (N.findInRegion place x.master = none →
      N.Fits U x.master d ∧ ∀ e ∈ N.declared, N.Fits U x.master e → e = d ∨ BeginsFirst d.1 e.1) ∧
    (∀ e ∈ N.scopes, e.2.name = d.2.name → e = d ∨ EndsFirst d.1 e.1) ∧
    ∀ e ∈ N.scopes, e.2.name = d.2.name → e.2.noDefault ≠ [] → e = d

variable {U} {N}

theorem declared_pairwise (N : Netlist) : N.declared.Pairwise fun d e => BeginsFirst d.1 e.1 :=
  preorders_pairwise [] 0 N.body

theorem scopes_pairwise (N : Netlist) : N.scopes.Pairwise fun d e => EndsFirst d.1 e.1 :=
  postorders_pairwise _ [] 0 N.body

theorem declared_of_scopes {d : Def} (h : d ∈ N.scopes) : d ∈ N.declared := mem_preorders_of_postorders _ h

theorem place_ne_nil {d : Def} (h : d ∈ N.declared) : d.1 ≠ [] := by
  obtain ⟨k, -, r, hr⟩ := place_of_mem_preorders h
  rw [hr]
  exact List.cons_ne_nil k r

theorem firstScope_iff {name : Str} {d : Def} : N.firstScope name = some d ↔
    d ∈ N.scopes ∧ d.2.name = name ∧ ∀ e ∈ N.scopes, e.2.name = name → e = d ∨ EndsFirst d.1 e.1 := by
  rw [Netlist.firstScope, find?_iff (scopes_pairwise N) fun a b => EndsFirst.asymm]
  simp only [decide_eq_true_eq]

theorem find_iff {master : Str} {d : Def} : N.find U master = some d ↔
    d ∈ N.declared ∧ N.Fits U master d ∧ ∀ e ∈ N.declared, N.Fits U master e → e = d ∨ BeginsFirst d.1 e.1 := by
  have hfirst := fun f => find?_iff (f := f) (a := d) (declared_pairwise N) fun a b => BeginsFirst.asymm
  unfold Netlist.find Netlist.Fits
  by_cases hexact : ∃ e ∈ N.declared, e.2.name = master
  · obtain ⟨e, he, hname⟩ := hexact
    have hne : N.declared.find? (fun d => decide (d.2.name = master)) ≠ none := by
      rw [Ne, List.find?_eq_none]
      exact fun hno => hno e he (decide_eq_true hname)
    obtain ⟨e', he'⟩ := Option.ne_none_iff_exists'.mp hne
    have hexact : ∃ e ∈ N.declared, e.2.name = master := ⟨e, he, hname⟩
    simp only [hexact, forall_const, not_true_eq_false, false_imp_iff, and_true]
    rw [he', Option.some_or, ← he', hfirst]
    simp only [decide_eq_true_eq]
  · have hnone : N.declared.find? (fun d => decide (d.2.name = master)) = none := by
      rw [List.find?_eq_none]
      exact fun e he hname => hexact ⟨e, he, of_decide_eq_true hname⟩
    simp only [hexact, false_imp_iff, not_false_eq_true, forall_const, true_and]
    rw [hnone, Option.none_or, hfirst]
    simp only [decide_eq_true_eq]

/-! ## The scopes around a place -/

theorem chain_concat (s : Path) (i : Nat) : chain (s ++ [i]) = (s ++ [i]) :: chain s := by
  simp [chain, List.inits_append]

/-- The first of the scopes around a place, from inside out, that has what is looked for. -/
theorem findSome_chain {γ : Type} {f : Path → Option γ} {s : Path} {c : γ} : (chain s).findSome? f = some c ↔
    ∃ q, q <+: s ∧ f q = some c ∧ ∀ q', q' <+: s → q.length < q'.length → f q' = none := by
  induction s using List.reverseRecOn with
  | nil =>
    have hchain : chain [] = [[]] := rfl
    rw [hchain, List.findSome?_cons, List.findSome?_nil]
    constructor
    · intro h
      refine ⟨[], List.nil_prefix, by cases hf : f [] <;> simp_all, fun q' hq' hlen => ?_⟩
      rw [List.prefix_nil.mp hq'] at hlen
      exact absurd hlen (lt_irrefl _)
    · rintro ⟨q, hq, hf, -⟩
      rw [List.prefix_nil.mp hq] at hf
      rw [hf]
  | append_singleton s i ih =>
    rw [chain_concat, List.findSome?_cons]
    have hlast : ∀ q, q <+: s ++ [i] ↔ q = s ++ [i] ∨ q <+: s := fun q => List.prefix_concat_iff
    cases hf : f (s ++ [i]) with
    | some c' =>
      dsimp only
      constructor
      · intro hc
        refine ⟨s ++ [i], List.prefix_rfl, hf.trans hc, fun q' hq' hlen => ?_⟩
        exact absurd hq'.length_le (not_le.mpr hlen)
      · rintro ⟨q, hq, hq', hnearer⟩
        rcases (hlast q).mp hq with rfl | hq
        · exact hf.symm.trans hq'
        · -- it would be nearer
          have hlen : q.length < (s ++ [i]).length := by
            have hle := hq.length_le
            rw [List.length_append, List.length_singleton]
            omega
          rw [hnearer _ List.prefix_rfl hlen] at hf
          cases hf
    | none =>
      dsimp only
      rw [ih]
      constructor
      · rintro ⟨q, hq, hc, hnearer⟩
        refine ⟨q, (hlast q).mpr (.inr hq), hc, fun q' hq' hlen => ?_⟩
        rcases (hlast q').mp hq' with rfl | hq'
        · exact hf
        · exact hnearer q' hq' hlen
      · rintro ⟨q, hq, hc, hnearer⟩
        rcases (hlast q).mp hq with rfl | hq
        · rw [hf] at hc
          cases hc
        · exact ⟨q, hq, hc, fun q' hq' => hnearer q' ((hlast q').mpr (.inr hq'))⟩

theorem inScope_mem {name : Str} {q : Path} {d : Def} (h : N.inScope name q = some d) :
    d ∈ N.scopes ∧ d.1.dropLast = q ∧ d.2.name = name := by
  have hmem := List.mem_filter.mp (List.mem_of_getLast? h)
  exact ⟨hmem.1, of_decide_eq_true hmem.2⟩

theorem inRegion_mem {name : Str} {region : Nat} {q : Path} {d : Def} (h : N.inRegion region name q = some d) :
    d ∈ N.declared ∧ d.1.dropLast = q ∧ d.2.name = name ∧ N.lang d.1 = some region := by
  have hmem := List.mem_filter.mp (List.mem_of_getLast? h)
  exact ⟨hmem.1, of_decide_eq_true hmem.2⟩

theorem inScope_ne_none {d : Def} (h : d ∈ N.scopes) : N.inScope d.2.name d.1.dropLast ≠ none := by
  intro hnone
  have hnil := List.getLast?_eq_none_iff.mp hnone
  have hmem : d ∈ N.scopes.filter fun e => e.1.dropLast = d.1.dropLast ∧ e.2.name = d.2.name :=
    List.mem_filter.mpr ⟨h, decide_eq_true ⟨rfl, rfl⟩⟩
  rw [hnil] at hmem
  cases hmem

theorem inRegion_ne_none {d : Def} {region : Nat} (h : d ∈ N.declared) (hlang : N.lang d.1 = some region) :
    N.inRegion region d.2.name d.1.dropLast ≠ none := by
  intro hnone
  have hnil := List.getLast?_eq_none_iff.mp hnone
  have hmem : d ∈ N.declared.filter fun e =>
      e.1.dropLast = d.1.dropLast ∧ e.2.name = d.2.name ∧ N.lang e.1 = some region :=
    List.mem_filter.mpr ⟨h, decide_eq_true ⟨rfl, rfl, hlang⟩⟩
  rw [hnil] at hmem
  cases hmem

/-- `find_subckt` finds the nearest definition of the name. -/
theorem findSubckt_iff (hacc : N.Accepts U) {scope : Path} {name : Str} {d : Def} :
    N.findSubckt scope name = some d ↔ d.2.name = name ∧ N.Nearest scope d := by
  rw [Netlist.findSubckt, findSome_chain]
  constructor
  · rintro ⟨q, hq, hd, hnearer⟩
    obtain ⟨hmem, rfl, rfl⟩ := inScope_mem hd
    refine ⟨rfl, hmem, hq, fun e he hname hvisible => ?_⟩
    by_contra hlen
    rw [not_le] at hlen
    have hnone := hnearer e.1.dropLast hvisible hlen
    rw [← hname] at hnone
    exact inScope_ne_none he hnone
  · rintro ⟨rfl, h⟩
    refine ⟨d.1.dropLast, h.visible, ?_, fun q' hq' hlen => ?_⟩
    · obtain ⟨e, he⟩ := Option.ne_none_iff_exists'.mp (inScope_ne_none h.mem)
      obtain ⟨hmem, hscope, hname⟩ := inScope_mem he
      rw [he, hacc.once e hmem d h.mem hscope hname]
    · by_contra hne
      obtain ⟨e, he⟩ := Option.ne_none_iff_exists'.mp hne
      obtain ⟨hmem, rfl, hname⟩ := inScope_mem he
      exact absurd (h.nearest e hmem hname hq') (not_le.mpr hlen)

/-- A definition that encloses a place, but for the top level, is in the region of the place. -/
theorem lang_of_visible {p : Path} {d : Def} (hd : d ∈ N.declared) (hvisible : d.1.dropLast <+: p.dropLast)
    (hne : d.1.dropLast ≠ []) : N.lang d.1 = N.lang p := by
  obtain ⟨k, q, hq⟩ := List.exists_cons_of_ne_nil (place_ne_nil hd)
  have hhead : ∀ {l : Path}, l.dropLast ≠ [] → l.dropLast.head? = l.head? := by
    intro l hl
    cases l with
    | nil => exact absurd rfl hl
    | cons a l =>
      cases l with
      | nil => exact absurd rfl hl
      | cons b l => rfl
  obtain ⟨r, hr⟩ := hvisible
  have hp : p.dropLast ≠ [] := by
    rw [← hr]
    exact List.append_ne_nil_of_left_ne_nil hne r
  unfold Netlist.lang
  rw [← hhead hne, ← hhead hp, ← hr, List.head?_append_of_ne_nil _ hne]

/-- What a SPICE region finds is the nearest definition. -/
theorem nearest_of_findInRegion (hacc : N.Accepts U) {p : Path} {x : Instance} (hx : (p, x) ∈ N.instances) {d : Def}
    (h : N.findInRegion p x.master = some d) : d.2.name = x.master ∧ N.Nearest p.dropLast d := by
  have hkept := hacc.kept p x hx d h
  obtain ⟨region, hlang, hfind⟩ := Option.bind_eq_some_iff.mp h
  obtain ⟨q, hq, hd, hnearer⟩ := findSome_chain.mp hfind
  obtain ⟨-, rfl, hname, -⟩ := inRegion_mem hd
  refine ⟨hname, hkept, hq, fun e he hsame hvisible => ?_⟩
  by_contra hlen
  rw [not_le] at hlen
  have hne : e.1.dropLast ≠ [] := by
    intro hnil
    rw [hnil] at hlen
    exact absurd hlen (Nat.not_lt_zero _)
  -- it is in the region too, and nearer
  have hregion := (lang_of_visible (declared_of_scopes he) hvisible hne).trans hlang
  have hnone := hnearer e.1.dropLast hvisible hlen
  rw [← hname, ← hsame] at hnone
  exact inRegion_ne_none (declared_of_scopes he) hregion hnone

/-- The lookups of an instance agree if and only if it is plain. -/
theorem alike_iff (hacc : N.Accepts U) {p : Path} {x : Instance} (hx : (p, x) ∈ N.instances) {d : Def}
    (hd : N.checked U p x = some d) : N.Alike p d ↔ N.Plain U p x := by
  constructor
  · intro h
    obtain ⟨-, hnearest⟩ := (findSubckt_iff hacc).mp h.ports
    refine ⟨d, hnearest, ?_, ?_, ?_, ?_⟩
    · intro hne
      obtain ⟨e, he⟩ := Option.ne_none_iff_exists'.mp hne
      rw [Netlist.checked, he, Option.some_or] at hd
      obtain rfl := Option.some.inj hd
      exact (nearest_of_findInRegion hacc hx he).1
    · intro hnone
      rw [Netlist.checked, hnone, Option.none_or] at hd
      exact (find_iff.mp hd).2
    · have hfirst := h.descends.trans h.ports
      exact (firstScope_iff.mp hfirst).2.2
    · intro e he hname hne
      have hfound := h.defaults e he hname hne
      rw [h.ports] at hfound
      exact (Option.some.inj hfound).symm
  · rintro ⟨e, hnearest, hinRegion, houtRegion, hends, hdefaults⟩
    -- the definition that is checked is the nearest one
    have hsame : d = e := by
      cases hregion : N.findInRegion p x.master with
      | some e' =>
        rw [Netlist.checked, hregion, Option.some_or] at hd
        obtain rfl := Option.some.inj hd
        obtain ⟨hname, hnear⟩ := nearest_of_findInRegion hacc hx hregion
        have hname' := hinRegion (by rw [hregion]; exact Option.some_ne_none _)
        have hfound := (findSubckt_iff hacc).mpr ⟨hname, hnear⟩
        rw [(findSubckt_iff hacc).mpr ⟨hname', hnearest⟩] at hfound
        exact (Option.some.inj hfound).symm
      | none =>
        rw [Netlist.checked, hregion, Option.none_or] at hd
        obtain ⟨hfits, hbegins⟩ := houtRegion hregion
        have hfound := find_iff.mpr ⟨declared_of_scopes hnearest.mem, hfits, hbegins⟩
        rw [hd] at hfound
        exact Option.some.inj hfound
    subst hsame
    have hports := (findSubckt_iff hacc).mpr ⟨rfl, hnearest⟩
    have hfirst := firstScope_iff.mpr ⟨hnearest.mem, rfl, hends⟩
    refine ⟨hports, fun _ => hfirst.trans hports.symm, fun e he hname hne => ?_, hfirst.trans hports.symm⟩
    rw [hdefaults e he hname hne]
    exact hports

/-- In a netlist that is accepted, all lookups of all subckt instances agree with `find_subckt` if and only if the
    instances are plain. -/
theorem all_alike_iff (U : UnicodeData) (N : Netlist) (hacc : N.Accepts U) :
    (∀ p x, (p, x) ∈ N.instances → ∀ d, N.checked U p x = some d → N.Alike p d) ↔
      ∀ p x, (p, x) ∈ N.instances → N.checked U p x ≠ none → N.Plain U p x := by
  refine forall_congr' fun p => forall_congr' fun x => forall_congr' fun hx => ?_
  constructor
  · intro h hne
    obtain ⟨d, hd⟩ := Option.ne_none_iff_exists'.mp hne
    exact (alike_iff hacc hx hd).mp (h d hd)
  · intro h d hd
    exact (alike_iff hacc hx hd).mpr (h (by rw [hd]; exact Option.some_ne_none d))

/-- A subckt `inner` with one port in the subckt `outer`, another one with two ports at the top level, and an instance
    with one node there. -/
def innerTwice : Netlist where
  body := [
    .node ⟨str "outer", false, 1, [], [], [], false⟩ [.node ⟨str "inner", false, 1, [], [], [], false⟩ []],
    .node ⟨str "inner", false, 2, [], [], [], false⟩ [],
    .leaf ⟨str "x1", str "inner", 1, []⟩]
  region _ := none

theorem innerTwice_accepts : innerTwice.Accepts .small := by
  have hinstances : ∀ p x, (p, x) ∈ innerTwice.instances → p = [2] ∧ x = ⟨str "x1", str "inner", 1, []⟩ := by
    intro p x hx
    have heq : (p, x) = ([2], ⟨str "x1", str "inner", 1, []⟩) := List.mem_singleton.mp hx
    exact Prod.mk.inj heq
  have hchecked : innerTwice.checked .small [2] ⟨str "x1", str "inner", 1, []⟩ =
      some ([0, 0], ⟨str "inner", false, 1, [], [], [], false⟩) := by decide
  have hscopes : innerTwice.scopes = [([0, 0], ⟨str "inner", false, 1, [], [], [], false⟩),
      ([0], ⟨str "outer", false, 1, [], [], [], false⟩), ([1], ⟨str "inner", false, 2, [], [], [], false⟩)] := rfl
  constructor
  · rw [hscopes]
    decide
  · intro d hd e _ hmark
    have hplain : ∀ d ∈ innerTwice.declared, d.2.insensitive = false := by decide
    rw [hplain d hd] at hmark
    cases hmark
  · intro p x hx d hd
    obtain ⟨rfl, rfl⟩ := hinstances p x hx
    have hnone : innerTwice.findInRegion [2] (str "inner") = none := rfl
    rw [hnone] at hd
    cases hd
  · intro p x hx d hd
    obtain ⟨rfl, rfl⟩ := hinstances p x hx
    rw [hchecked] at hd
    obtain rfl := Option.some.inj hd
    rfl
  · intro p x hx d _ k hk
    obtain ⟨rfl, rfl⟩ := hinstances p x hx
    cases hk
  · intro p x hx d hd k hk
    obtain ⟨rfl, rfl⟩ := hinstances p x hx
    rw [hchecked] at hd
    obtain rfl := Option.some.inj hd
    have hnone : innerTwice.noDefault (str "inner") = [] := by decide
    rw [hnone] at hk
    cases hk

theorem innerTwice_alike_iff :
    (∀ p x, (p, x) ∈ innerTwice.instances → ∀ d, innerTwice.checked .small p x = some d → innerTwice.Alike p d) ↔
      ∀ p x, (p, x) ∈ innerTwice.instances → innerTwice.checked .small p x ≠ none → innerTwice.Plain .small p x :=
  all_alike_iff .small innerTwice innerTwice_accepts

/-- The instance is checked against the subckt in `outer`, which it does not see. -/
theorem inner_of_other_scope : innerTwice.Accepts .small ∧ ([2], ⟨str "x1", str "inner", 1, []⟩) ∈ innerTwice.instances ∧
    innerTwice.checked .small [2] ⟨str "x1", str "inner", 1, []⟩ =
      some ([0, 0], ⟨str "inner", false, 1, [], [], [], false⟩) ∧
    innerTwice.firstScope (str "inner") = some ([0, 0], ⟨str "inner", false, 1, [], [], [], false⟩) ∧
    innerTwice.findSubckt [] (str "inner") = some ([1], ⟨str "inner", false, 2, [], [], [], false⟩) ∧
    ¬ innerTwice.Alike [2] ([0, 0], ⟨str "inner", false, 1, [], [], [], false⟩) := by
  have hfound : innerTwice.findSubckt [] (str "inner") =
      some ([1], ⟨str "inner", false, 2, [], [], [], false⟩) := by decide
  refine ⟨innerTwice_accepts, List.mem_singleton_self _, by decide, by decide, hfound, fun h => ?_⟩
  have hports : innerTwice.findSubckt [] (str "inner") =
      some ([0, 0], ⟨str "inner", false, 1, [], [], [], false⟩) := h.ports
  rw [hfound] at hports
  exact absurd hports (by decide)

end Vamos.SubcktNames
