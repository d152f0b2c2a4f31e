import Sv2ghdl.Lists.OrderedDict
import Sv2ghdl.Python.Str

/-!
# The ground of a netlist

`vamos/netlist/spectre.py`: the first node of the first `global` statement is ground.  Where it is not called `0`,
`ground_pass` renames it, and a node that is called `0` becomes `vamos_node0`.
-/

open Python

namespace Vamos.Spectre.Ground

/-! ## The parser's state -/

def zero : Str := str "0"
def node0 : Str := str "vamos_node0"

/-- An item of a body; what has no nodes is `other`. -/
inductive Item where
  | instance (nodes : List Str)
  | cond (branches : List (List Item)) (default : List Item)
  | other

structure Subckt where
  ports : List Str
  origPorts : List Str
  body : List Item

/-- An analysis, with those inside a sweep or a Monte Carlo block. -/
inductive Analysis where
  | mk (nodes : List Str) (children : List Analysis)

/-- What the parser keeps of the nodes; `V` are the values of initial conditions. -/
structure Parser (V : Type) where
  ground : Str
  groundSet : Bool
  globals : List Str
  top : List Item
  subckts : List Subckt
  analyses : List Analysis
  ics : OrderedDict Str V
  nodesets : OrderedDict Str V
  /-- The nodes that the save statements name. -/
  saves : List Str
  spelling : OrderedDict Str Str
  /-- The texts of the warnings; this pass gives them no origin. -/
  warnings : List Str

/-! ## `global` statements -/

section Globals

variable {V : Type} (s : Parser V)

/-- The nodes of a `global` statement, from position `k` on; `none` where `node` reports an error. -/
def globalNodes : Nat → List (Option Str) → Parser V → Parser V
  | _, [], s => s
  | k, none :: nodes, s => globalNodes (k + 1) nodes s
  | k, some n :: nodes, s =>
    if k = 0 ∧ s.groundSet = false then globalNodes (k + 1) nodes { s with ground := n, groundSet := true }
    else if n ∉ s.globals ∧ n ≠ s.ground then
      globalNodes (k + 1) nodes { s with globals := s.globals ++ [n] }
    else globalNodes (k + 1) nodes s

/-- `global_stmt`; a statement without nodes is an error. -/
def globalStmt (nodes : List (Option Str)) : Parser V := globalNodes 0 nodes s

end Globals

/-! ## The pass -/

def fold (g name : Str) : Str :=
  if name = g then zero
  else if name = zero then node0
  else name

mutual

/-- The nodes of the instances of an item, in the order of `flat_items`. -/
def Item.nodes : Item → List Str
  | .instance nodes => nodes
  | .cond branches default => branchNodes branches ++ bodyNodes default
  | .other => []

def bodyNodes : List Item → List Str
  | [] => []
  | item :: items => item.nodes ++ bodyNodes items

def branchNodes : List (List Item) → List Str
  | [] => []
  | branch :: branches => bodyNodes branch ++ branchNodes branches

end

mutual

def Item.rename (f : Str → Str) : Item → Item
  | .instance nodes => .instance (nodes.map f)
  | .cond branches default => .cond (renameBranches f branches) (renameBody f default)
  | .other => .other

def renameBody (f : Str → Str) : List Item → List Item
  | [] => []
  | item :: items => item.rename f :: renameBody f items

def renameBranches (f : Str → Str) : List (List Item) → List (List Item)
  | [] => []
  | branch :: branches => renameBody f branch :: renameBranches f branches

end

mutual

/-- The nodes of an analysis and of those in it: `flat_analyses`. -/
def Analysis.nodes : Analysis → List Str
  | .mk nodes children => nodes ++ analysisNodes children

def analysisNodes : List Analysis → List Str
  | [] => []
  | a :: as => a.nodes ++ analysisNodes as

end

mutual

def Analysis.rename (f : Str → Str) : Analysis → Analysis
  | .mk nodes children => .mk (nodes.map f) (renameAnalyses f children)

def renameAnalyses (f : Str → Str) : List Analysis → List Analysis
  | [] => []
  | a :: as => a.rename f :: renameAnalyses f as

end

def Subckt.rename (f : Str → Str) (sub : Subckt) : Subckt :=
  ⟨sub.ports.map f, sub.ports.map f, renameBody f sub.body⟩

/-- `{f(k): v for k, v in d.items()}` -/
def renameKeys {V : Type} (f : Str → Str) (d : OrderedDict Str V) : OrderedDict Str V :=
  (d.items.map fun e => (f e.1, e.2)).foldl (fun d e => d.set e.1 e.2) .empty

/-- The names that `ground_pass` goes through. -/
def Parser.folded {V : Type} (s : Parser V) : List Str :=
  bodyNodes s.top ++ s.subckts.flatMap (fun sub => bodyNodes sub.body ++ sub.ports) ++ analysisNodes s.analyses ++
    s.ics.keys ++ s.nodesets.keys

/-- `spelling.setdefault(k, v)` -/
def setDefault (d : OrderedDict Str Str) (k v : Str) : OrderedDict Str Str :=
  if k ∈ d.keys then d else d.set k v

/-- `ground_pass` -/
def groundPass {V : Type} (s : Parser V) : Parser V :=
  if s.ground = zero then s
  else
    let f := fold s.ground
    let renamed := zero ∈ s.folded
    { s with
      top := renameBody f s.top
      subckts := s.subckts.map (Subckt.rename f)
      analyses := renameAnalyses f s.analyses
      ics := renameKeys f s.ics
      nodesets := renameKeys f s.nodesets
      spelling := if renamed then setDefault s.spelling node0 zero else s.spelling
      warnings := if renamed then
          s.warnings ++ [str "node 0 is not ground (global " ++ s.ground ++
            str " is); it is renamed vamos_node0 (§3.4, §14 q.7)"]
        else s.warnings }

mutual

theorem Item.nodes_rename (f : Str → Str) : ∀ item : Item, (item.rename f).nodes = item.nodes.map f
  | .instance nodes => by rw [Item.rename, Item.nodes, Item.nodes]
  | .cond branches default => by
    rw [Item.rename, Item.nodes, Item.nodes, branchNodes_rename f branches, bodyNodes_rename f default,
      List.map_append]
  | .other => by rw [Item.rename, Item.nodes]; rfl

theorem bodyNodes_rename (f : Str → Str) : ∀ items : List Item,
    bodyNodes (renameBody f items) = (bodyNodes items).map f
  | [] => by rw [renameBody, bodyNodes]; rfl
  | item :: items => by
    rw [renameBody, bodyNodes, bodyNodes, item.nodes_rename f, bodyNodes_rename f items, List.map_append]

theorem branchNodes_rename (f : Str → Str) : ∀ branches : List (List Item),
    branchNodes (renameBranches f branches) = (branchNodes branches).map f
  | [] => by rw [renameBranches, branchNodes]; rfl
  | branch :: branches => by
    rw [renameBranches, branchNodes, branchNodes, bodyNodes_rename f branch, branchNodes_rename f branches,
      List.map_append]

end

mutual

theorem Analysis.nodes_rename (f : Str → Str) : ∀ a : Analysis, (a.rename f).nodes = a.nodes.map f
  | .mk nodes children => by
    rw [Analysis.rename, Analysis.nodes, Analysis.nodes, analysisNodes_rename f children, List.map_append]

theorem analysisNodes_rename (f : Str → Str) : ∀ as : List Analysis,
    analysisNodes (renameAnalyses f as) = (analysisNodes as).map f
  | [] => by rw [renameAnalyses, analysisNodes]; rfl
  | a :: as => by
    rw [renameAnalyses, analysisNodes, analysisNodes, a.nodes_rename f, analysisNodes_rename f as, List.map_append]

end

/-! ## Occurrences of nodes -/

/-- Where the hierarchical names of the netlist lead: the body of a subcircuit, and a node's name in it.  The top
    level is scope 0, the subcircuits follow. -/
structure Paths where
  inner : Str → Option (Nat × Str)
  inner_zero : inner zero = none
  inner_node0 : inner node0 = none
  inner_pos : ∀ k p, inner k = some p → 0 < p.1

/-- An occurrence of a node: one that the pass renames in its scope, a key of the initial conditions or nodesets, or
    one that the pass leaves as it is. -/
inductive Occ where
  | node (scope : Nat) (name : Str)
  | key (name : Str)
  | kept (scope : Nat) (name : Str)

variable {V : Type} (P : Paths)

/-- Where a name of the top level leads. -/
def Paths.lead (name : Str) : Nat × Str := (P.inner name).getD (0, name)

/-- The scope of an occurrence, and the name it has there after its names are renamed by `f`. -/
def Occ.place (f : Str → Str) : Occ → Nat × Str
  | .node scope name => (scope, f name)
  | .key name => P.lead (f name)
  | .kept scope name => (scope, name)

/-- The terminals and ports of all bodies, and the nodes of the analyses. -/
def Parser.nodeOccs (s : Parser V) : List Occ :=
  (bodyNodes s.top).map (.node 0) ++
    s.subckts.zipIdx.flatMap (fun e => (e.1.ports ++ bodyNodes e.1.body).map (.node (e.2 + 1))) ++
    (analysisNodes s.analyses).map (.node 0)

def Parser.keys (s : Parser V) : List Str := s.ics.keys ++ s.nodesets.keys

/-- The global nodes, in each scope, and the saved nodes. -/
def Parser.keptOccs (s : Parser V) : List Occ :=
  (List.range (s.subckts.length + 1)).flatMap (fun scope => s.globals.map (.kept scope)) ++
    s.saves.map fun name => .kept (P.lead name).1 (P.lead name).2

def Parser.occs (s : Parser V) : List Occ := s.nodeOccs ++ s.keys.map .key ++ s.keptOccs P

/-- Every occurrence with its scope and its name. -/
def Parser.occurrences (s : Parser V) : List (Nat × Str) := (s.occs P).map (Occ.place P id)

/-- Two occurrences in a scope have one name exactly when they had, and `0` is the name of ground alone. -/
structure Preserved (g : Str) (before after : List (Nat × Str)) : Prop where
  length : after.length = before.length
  scopes : ∀ p ∈ before.zip after, p.2.1 = p.1.1
  ground : ∀ p ∈ before.zip after, p.2.2 = zero ↔ p.1.2 = g
  nodes : ∀ p ∈ before.zip after, ∀ q ∈ before.zip after, p.1.1 = q.1.1 → (p.2.2 = q.2.2 ↔ p.1.2 = q.1.2)

/-- The occurrence is left as it is, and is the node `p`. -/
def Occ.KeptAt (p : Nat × Str) : Occ → Prop
  | .node _ _ => False
  | .key name => P.inner name = some p
  | .kept scope name => p = (scope, name)

/-- What the pass does not rename is neither ground nor called `0`, and no scope has both a node called `0` and one
    called `vamos_node0`, other than ground. -/
structure Apart (s : Parser V) : Prop where
  kept : ∀ o ∈ s.occs P, ∀ p, o.KeptAt P p → p.2 ≠ zero ∧ p.2 ≠ s.ground
  plain : s.ground ∈ s.keys → P.inner s.ground = none
  node0 : s.ground ≠ node0 → ∀ scope, (scope, zero) ∈ s.occurrences P → (scope, node0) ∉ s.occurrences P

theorem node0_ne_zero : node0 ≠ zero := by decide

theorem fold_eq_zero_iff (g n : Str) : fold g n = zero ↔ n = g := by
  unfold fold
  split_ifs with h1 h2
  · exact iff_of_true rfl h1
  · exact iff_of_false node0_ne_zero h1
  · exact iff_of_false h2 h1

theorem fold_inj {g m n : Str} (h : g ≠ node0 → ¬ (m = zero ∧ n = node0) ∧ ¬ (n = zero ∧ m = node0)) :
    fold g m = fold g n ↔ m = n := by
  refine ⟨fun heq => ?_, congrArg _⟩
  by_cases hm : m = g
  · rw [hm] at heq
    exact hm.trans ((fold_eq_zero_iff g n).mp (heq ▸ (fold_eq_zero_iff g g).mpr rfl)).symm
  by_cases hn : n = g
  · exact absurd ((fold_eq_zero_iff g m).mp (heq.trans ((fold_eq_zero_iff g n).mpr hn))) hm
  by_cases hg0 : g = node0
  · rw [hg0] at hm hn
    simp only [fold, hg0, hm, hn, if_false] at heq
    split_ifs at heq with h1 h2 h2
    · rw [h1, h2]
    · exact absurd heq.symm hn
    · exact absurd heq hm
    · exact heq
  · obtain ⟨h1, h2⟩ := h hg0
    simp only [fold, hm, hn, if_false] at heq
    split_ifs at heq with h3 h4 h4
    · rw [h3, h4]
    · exact absurd ⟨h3, heq.symm⟩ h1
    · exact absurd ⟨h4, heq⟩ h2
    · exact heq

variable {P}

theorem Paths.lead_zero : P.lead zero = (0, zero) := by rw [Paths.lead, P.inner_zero]; rfl

theorem Paths.lead_node0 : P.lead node0 = (0, node0) := by rw [Paths.lead, P.inner_node0]; rfl

theorem key_mem_occs {s : Parser V} {name : Str} : .key name ∈ s.occs P ↔ name ∈ s.keys := by
  simp [Parser.occs, Parser.nodeOccs, Parser.keptOccs]

/-- Where nothing is left that should be renamed, the pass renames each occurrence. -/
theorem place_fold {s : Parser V} (hkept : ∀ o ∈ s.occs P, ∀ p, o.KeptAt P p → p.2 ≠ zero ∧ p.2 ≠ s.ground)
    (hplain : s.ground ∈ s.keys → P.inner s.ground = none) {o : Occ} (ho : o ∈ s.occs P) :
    o.place P (fold s.ground) = ((o.place P id).1, fold s.ground (o.place P id).2) := by
  have hfixed : ∀ n : Str, n ≠ zero ∧ n ≠ s.ground → fold s.ground n = n := fun n hn => by
    rw [fold, if_neg hn.2, if_neg hn.1]
  cases o with
  | node scope name => rfl
  | kept scope name => rw [Occ.place, Occ.place, hfixed name (hkept _ ho (scope, name) rfl)]
  | key name =>
    show P.lead (fold s.ground name) = ((P.lead name).1, fold s.ground (P.lead name).2)
    cases hinner : P.inner name with
    | some p =>
      have hlead : P.lead name = p := by rw [Paths.lead, hinner]; rfl
      have hg : name ≠ s.ground := fun h => by
        rw [h, hplain (h ▸ key_mem_occs.mp ho)] at hinner
        cases hinner
      have hzero : name ≠ zero := fun h => by
        rw [h, P.inner_zero] at hinner
        cases hinner
      rw [hfixed name ⟨hzero, hg⟩, hlead, hfixed p.2 (hkept _ ho p hinner)]
    | none =>
      have hlead : P.lead name = (0, name) := by rw [Paths.lead, hinner]; rfl
      rw [hlead]
      unfold fold
      split_ifs
      · exact Paths.lead_zero
      · exact Paths.lead_node0
      · exact hlead

/-! ## The pass preserves the nodes -/

theorem keys_renameKeys_of_nodup {f : Str → Str} {d : OrderedDict Str V} (h : (d.keys.map f).Nodup) :
    (renameKeys f d).keys = d.keys.map f := by
  have hitems : (renameKeys f d).items = d.items.map fun e => (f e.1, e.2) := by
    have h' : (((.empty : OrderedDict Str V).items ++ d.items.map fun e => (f e.1, e.2)).map Prod.fst).Nodup := by
      simpa [OrderedDict.empty, OrderedDict.keys, Function.comp_def] using h
    rw [renameKeys, OrderedDict.items_foldl_set h']
    rfl
  simp [OrderedDict.keys, hitems, Function.comp_def]

theorem length_keys_renameKeys_le (f : Str → Str) (d : OrderedDict Str V) :
    (renameKeys f d).keys.length ≤ d.keys.length := by
  have h := OrderedDict.length_foldl_set_le (d.items.map fun e => (f e.1, e.2)) .empty
  simpa [renameKeys, OrderedDict.keys, OrderedDict.empty] using h

theorem nodup_of_length_keys_renameKeys {f : Str → Str} {d : OrderedDict Str V}
    (h : (renameKeys f d).keys.length = d.keys.length) : (d.keys.map f).Nodup := by
  have h' : (((.empty : OrderedDict Str V).items ++ d.items.map fun e => (f e.1, e.2)).map Prod.fst).Nodup :=
    OrderedDict.nodup_of_length_foldl_set (by simpa [renameKeys, OrderedDict.keys, OrderedDict.empty] using h)
  simpa [OrderedDict.empty, OrderedDict.keys, Function.comp_def] using h'

/-- The occurrences after the pass; keys that become equal are merged. -/
theorem occurrences_groundPass {s : Parser V} (hg : s.ground ≠ zero) :
    (groundPass s).occurrences P = s.nodeOccs.map (Occ.place P (fold s.ground)) ++
      ((renameKeys (fold s.ground) s.ics).keys ++ (renameKeys (fold s.ground) s.nodesets).keys).map P.lead ++
      (s.keptOccs P).map (Occ.place P (fold s.ground)) := by
  simp only [Parser.occurrences, Parser.occs, Parser.nodeOccs, Parser.keptOccs, Parser.keys, groundPass, if_neg hg,
    bodyNodes_rename, analysisNodes_rename, List.zipIdx_map, List.flatMap_map, List.map_append, List.map_map,
    List.length_map, List.map_flatMap, Prod.map_fst, Prod.map_snd, Subckt.rename]
  rfl

/-- The pass keeps the nodes of a netlist apart, and ground alone is called `0`, exactly when the nodes that it does
    not rename are neither and no scope has both `0` and `vamos_node0`. -/
theorem groundPass_preserved_iff {s : Parser V} (hg : s.ground ≠ zero) :
    Preserved s.ground (s.occurrences P) ((groundPass s).occurrences P) ↔ Apart P s := by
  -- where no keys are merged, each occurrence is renamed in its place
  have hmapped (hics : (s.ics.keys.map (fold s.ground)).Nodup) (hns : (s.nodesets.keys.map (fold s.ground)).Nodup) :
      (groundPass s).occurrences P = (s.occs P).map (Occ.place P (fold s.ground)) := by
    rw [occurrences_groundPass hg, keys_renameKeys_of_nodup hics, keys_renameKeys_of_nodup hns]
    simp only [Parser.occs, Parser.keys, List.map_append, List.map_map]
    rfl
  have hzip (hics : (s.ics.keys.map (fold s.ground)).Nodup) (hns : (s.nodesets.keys.map (fold s.ground)).Nodup) :
      (s.occurrences P).zip ((groundPass s).occurrences P) =
        (s.occs P).map fun o => (o.place P id, o.place P (fold s.ground)) := by
    rw [hmapped hics hns, Parser.occurrences, List.zip_map']
  constructor
  · intro h
    have hlen := h.length
    rw [occurrences_groundPass hg, Parser.occurrences, Parser.occs, Parser.keys] at hlen
    simp only [List.length_append, List.length_map] at hlen
    have hle := length_keys_renameKeys_le (fold s.ground) s.ics
    have hle' := length_keys_renameKeys_le (fold s.ground) s.nodesets
    have hics := nodup_of_length_keys_renameKeys (f := fold s.ground) (d := s.ics) (by omega)
    have hns := nodup_of_length_keys_renameKeys (f := fold s.ground) (d := s.nodesets) (by omega)
    have hmem : ∀ o ∈ s.occs P, (o.place P id, o.place P (fold s.ground)) ∈
        (s.occurrences P).zip ((groundPass s).occurrences P) := fun o ho => by
      rw [hzip hics hns]
      exact List.mem_map_of_mem ho
    have hplain : s.ground ∈ s.keys → P.inner s.ground = none := fun hk => by
      have hscope := h.scopes _ (hmem _ (key_mem_occs.mpr hk))
      cases hinner : P.inner s.ground with
      | none => rfl
      | some p =>
        have hpos := P.inner_pos _ _ hinner
        simp only [Occ.place, fold, if_true, id_eq, Paths.lead, hinner, Option.getD_some, P.inner_zero,
          Option.getD_none] at hscope
        omega
    have hkept : ∀ o ∈ s.occs P, ∀ p, o.KeptAt P p → p.2 ≠ zero ∧ p.2 ≠ s.ground := fun o ho p hp => by
      have hground := h.ground _ (hmem o ho)
      -- the name stands as it is on both sides
      have hsame : o.place P id = p ∧ o.place P (fold s.ground) = p := by
        cases o with
        | node scope name => exact absurd hp id
        | kept scope name => exact ⟨hp.symm, hp.symm⟩
        | key name =>
          have hinner : P.inner name = some p := hp
          have hne : name ≠ s.ground := fun h' => by
            rw [h', hplain (h' ▸ key_mem_occs.mp ho)] at hinner
            cases hinner
          have hzero : name ≠ zero := fun h' => by
            rw [h', P.inner_zero] at hinner
            cases hinner
          have hlead : P.lead name = p := by rw [Paths.lead, hinner]; rfl
          exact ⟨hlead, by rw [Occ.place, fold, if_neg hne, if_neg hzero, hlead]⟩
      rw [hsame.1, hsame.2] at hground
      exact ⟨fun h0 => hg ((hground.mp h0).symm.trans h0), fun h0 => hg (h0.symm.trans (hground.mpr h0))⟩
    refine ⟨hkept, hplain, fun hg0 scope hzero hnode => ?_⟩
    obtain ⟨o, ho, hplace⟩ := List.mem_map.mp hzero
    obtain ⟨o', ho', hplace'⟩ := List.mem_map.mp hnode
    have hnodes := h.nodes _ (hmem o ho) _ (hmem o' ho')
    rw [place_fold hkept hplain ho, place_fold hkept hplain ho', hplace, hplace'] at hnodes
    have hfold : fold s.ground zero = fold s.ground node0 := by
      rw [fold, if_neg hg.symm, if_pos rfl, fold, if_neg hg0.symm, if_neg node0_ne_zero]
    exact node0_ne_zero ((hnodes rfl).mp hfold).symm
  · intro h
    have hinj : ∀ o ∈ s.occs P, ∀ o' ∈ s.occs P, (o.place P id).1 = (o'.place P id).1 →
        (fold s.ground (o.place P id).2 = fold s.ground (o'.place P id).2 ↔
          (o.place P id).2 = (o'.place P id).2) := fun o ho o' ho' hscope => by
      refine fold_inj fun hg0 => ⟨fun hc => ?_, fun hc => ?_⟩
      · refine h.node0 hg0 (o.place P id).1 ?_ ?_
        · rw [← hc.1]; exact List.mem_map_of_mem ho
        · rw [← hc.2, hscope]; exact List.mem_map_of_mem ho'
      · refine h.node0 hg0 (o'.place P id).1 ?_ ?_
        · rw [← hc.1]; exact List.mem_map_of_mem ho'
        · rw [← hc.2, ← hscope]; exact List.mem_map_of_mem ho
    have hzero : zero ∈ s.keys → (0, zero) ∈ s.occurrences P := fun hk =>
      List.mem_map.mpr ⟨_, key_mem_occs.mpr hk, Paths.lead_zero⟩
    have hnode : node0 ∈ s.keys → (0, node0) ∈ s.occurrences P := fun hk =>
      List.mem_map.mpr ⟨_, key_mem_occs.mpr hk, Paths.lead_node0⟩
    have hkeys : ∀ d : OrderedDict Str V, d.keys ⊆ s.keys → (d.keys.map (fold s.ground)).Nodup := fun d hd => by
      refine List.Nodup.map_on (fun k hk k' hk' heq => ?_) d.nodup
      refine (fold_inj fun hg0 => ⟨fun hc => ?_, fun hc => ?_⟩).mp heq
      · exact h.node0 hg0 0 (hzero (hc.1 ▸ hd hk)) (hnode (hc.2 ▸ hd hk'))
      · exact h.node0 hg0 0 (hzero (hc.1 ▸ hd hk')) (hnode (hc.2 ▸ hd hk))
    have hics := hkeys s.ics (List.subset_append_left _ _)
    have hns := hkeys s.nodesets (List.subset_append_right _ _)
    have hplace : ∀ o ∈ s.occs P, o.place P (fold s.ground) = ((o.place P id).1, fold s.ground (o.place P id).2) :=
      fun o ho => place_fold h.kept h.plain ho
    refine ⟨?_, ?_, ?_, ?_⟩
    · rw [hmapped hics hns, Parser.occurrences, List.length_map, List.length_map]
    all_goals rw [hzip hics hns]
    · rintro p hp
      obtain ⟨o, ho, rfl⟩ := List.mem_map.mp hp
      rw [hplace o ho]
    · rintro p hp
      obtain ⟨o, ho, rfl⟩ := List.mem_map.mp hp
      rw [hplace o ho]
      exact fold_eq_zero_iff _ _
    · rintro p hp q hq hscope
      obtain ⟨o, ho, rfl⟩ := List.mem_map.mp hp
      obtain ⟨o', ho', rfl⟩ := List.mem_map.mp hq
      rw [hplace o ho, hplace o' ho']
      exact hinj o ho o' ho' hscope

/-! ## A global node called `0` -/

/-- No name is hierarchical. -/
def flat : Paths := ⟨fun _ => none, rfl, rfl, nofun⟩

/-- `global gnd 0` and an instance between the two nodes. -/
def globalZero : Parser Str where
  ground := str "gnd"
  groundSet := true
  globals := [zero]
  top := [.instance [str "gnd", zero]]
  subckts := []
  analyses := []
  ics := .empty
  nodesets := .empty
  saves := []
  spelling := .empty
  warnings := []

theorem groundPass_globalZero :
    globalStmt { globalZero with ground := zero, groundSet := false, globals := [] } [some (str "gnd"), some zero] =
      globalZero ∧
    ¬ Preserved globalZero.ground (globalZero.occurrences flat) ((groundPass globalZero).occurrences flat) := by
  refine ⟨rfl, fun h => ?_⟩
  -- the terminal is renamed, the global node is not
  have hnodes := h.nodes ((0, zero), (0, node0)) (by decide +kernel) ((0, zero), (0, zero)) (by decide +kernel) rfl
  exact node0_ne_zero (hnodes.mpr rfl)

theorem globalZero_preserved_iff :
    Preserved globalZero.ground (globalZero.occurrences flat) ((groundPass globalZero).occurrences flat) ↔
      Apart flat globalZero :=
  groundPass_preserved_iff (by decide)

end Vamos.Spectre.Ground
