import Sv2ghdl.Vamos.Ams.NetPartition

/-!
# The order of the search

The same design with its statements, its instances or the queue in another order.
-/

open Relation Classes

namespace Vamos.Ams.Nets

/-- The entries of an index in another order. -/
structure Index.Reordered (i j : Index) : Prop where
  ports : ∀ n, n ∈ i.ports ↔ n ∈ j.ports
  maps : i.maps.Perm j.maps
  joins : i.joins.Perm j.joins
  buffers : i.buffers.Perm j.buffers
  switches : i.switches.Perm j.switches
  touches : i.touches.Perm j.touches

/-- The statements of every scope and the cut instances in another order. -/
structure Reordered (d d' : Design) : Prop where
  parents : d.scopes.map Scope.parent = d'.scopes.map Scope.parent
  index : ∀ sid, (d.index sid).Reordered (d'.index sid)
  cuts : d.cuts.Perm d'.cuts

section Reordered

variable {d d' : Design} (h : Reordered d d')

include h

theorem Reordered.symm : Reordered d' d where
  parents := h.parents.symm
  index sid := by
    obtain ⟨hports, hmaps, hjoins, hbuffers, hswitches, htouches⟩ := h.index sid
    exact ⟨fun n => (hports n).symm, hmaps.symm, hjoins.symm, hbuffers.symm, hswitches.symm, htouches.symm⟩
  cuts := h.cuts.symm

theorem child_reordered (p stmt : Nat) : d.child p stmt = d'.child p stmt := by
  have hparent : ∀ (d : Design) (c : Nat), d.child p stmt = some c ↔
      (d.scopes.map Scope.parent)[c]? = some (some (p, stmt)) := by
    intro d c
    rw [child_eq_some, List.getElem?_map, Option.map_eq_some_iff]
  ext c
  rw [hparent, hparent, h.parents]

theorem portMapped_reordered (x y : Seg) : PortMapped d x y ↔ PortMapped d' x y := by
  unfold PortMapped
  simp only [child_reordered h, (h.index y.scope).maps.mem_iff]

theorem wired_reordered (x y : Seg) : Wired d x y ↔ Wired d' x y := by
  unfold Wired Copied
  simp only [portMapped_reordered h, (h.index x.scope).joins.mem_iff, (h.index y.scope).joins.mem_iff]

theorem switchAt_reordered (k : Key) (ent : Ent) (x y : Seg) : SwitchAt d k ent x y ↔ SwitchAt d' k ent x y := by
  unfold SwitchAt
  rw [(h.index k.1).switches.mem_iff]

theorem bufferAt_reordered (k : Key) (x y : Seg) : BufferAt d k x y ↔ BufferAt d' k x y := by
  unfold BufferAt
  rw [(h.index k.1).buffers.mem_iff]

theorem mem_edges_reordered (x : Seg) (e : Edge) : e ∈ d.edges x ↔ e ∈ d'.edges x := by
  cases e with
  | wire o => rw [wire_mem_edges, wire_mem_edges, wired_reordered h]
  | buffer stmt o otherIsPb =>
    rw [buffer_mem_edges, buffer_mem_edges]
    cases otherIsPb with
    | false => exact bufferAt_reordered h _ x o
    | true => exact bufferAt_reordered h _ o x
  | switch stmt o ent =>
    rw [switch_mem_edges, switch_mem_edges, switchAt_reordered h, switchAt_reordered h]

omit h in
theorem mem_portBits {pb : PortBit} : pb ∈ d.portBits ↔ ∃ ci, d.cuts[pb.ref.inst]? = some ci ∧ pb.port ∈ ci.ports ∧
    pb.ref.bit < pb.port.width ∧ pb.ref.port = pb.port.index ∧ pb.seg = ⟨ci.scope, pb.port.vname, pb.ref.bit⟩ := by
  obtain ⟨seg, ⟨i, j, off⟩, cp⟩ := pb
  simp only [Design.portBits, CutInstance.bits, List.mem_flatMap, Prod.exists, List.mem_zipIdx_iff_getElem?,
    List.mem_insertionSort, List.mem_map, List.mem_range, PortBit.mk.injEq, PortRef.mk.injEq]
  constructor
  · rintro ⟨ci, n, hci, cp, hcp, off, hoff, rfl, ⟨rfl, rfl, rfl⟩, rfl⟩
    exact ⟨ci, hci, hcp, hoff, rfl, rfl⟩
  · rintro ⟨ci, hci, hcp, hoff, rfl, rfl⟩
    exact ⟨ci, i, hci, cp, hcp, off, hoff, rfl, ⟨rfl, rfl, rfl⟩, rfl⟩

/-- The cut-port bits but for the numbers of the instances. -/
theorem portBits_reordered {pb : PortBit} (hpb : pb ∈ d.portBits) :
    ∃ pb' ∈ d'.portBits, pb'.seg = pb.seg ∧ pb'.port = pb.port ∧ pb'.ref.bit = pb.ref.bit := by
  obtain ⟨ci, hci, hcp, hoff, hport, hseg⟩ := mem_portBits.mp hpb
  obtain ⟨i, hi⟩ := List.mem_iff_getElem?.mp (h.cuts.mem_iff.mp (List.mem_of_getElem? hci))
  exact ⟨⟨pb.seg, ⟨i, pb.ref.port, pb.ref.bit⟩, pb.port⟩, mem_portBits.mpr ⟨ci, hi, hcp, hoff, hport, hseg⟩,
    rfl, rfl, rfl⟩

theorem Met.reordered {x : Seg} (hx : Met d x) : Met d' x := by
  induction hx with
  | cut hpb =>
    obtain ⟨pb', hpb', hseg, _⟩ := portBits_reordered h hpb
    exact hseg ▸ .cut hpb'
  | next _ he ih => exact ih.next ((mem_edges_reordered h _ _).mp he)

theorem met_reordered (x : Seg) : Met d x ↔ Met d' x := ⟨.reordered h, .reordered h.symm⟩

theorem wire_reordered (x y : Seg) : Wire d x y ↔ Wire d' x y := by
  rw [Wire, Wire, met_reordered h, wired_reordered h]

theorem linked_reordered : Linked d = Linked d' := by
  funext x y
  unfold Linked
  simp only [wire_reordered h, met_reordered h, switchAt_reordered h]

theorem suppliedAt_reordered (s : Seg) : suppliedAt d s = suppliedAt d' s := by
  rw [Bool.eq_iff_iff, suppliedAt, suppliedAt, List.any_eq_true, List.any_eq_true]
  simp only [mem_touching, (h.index s.scope).touches.mem_iff, (h.index s.scope).switches.mem_iff]

theorem tied_reordered (s : Seg) : tied d s = tied d' s := by
  have hup : d.up s = d'.up s := by
    ext ⟨p, a⟩
    rw [up_eq_some, up_eq_some]
    simp only [child_reordered h, (h.index p).maps.mem_iff]
  rw [tied, tied, hup]

theorem Joinable.reordered {p : Key × Seg × Seg} (hp : Joinable d p) : Joinable d' p := by
  obtain ⟨hbuf, hmet, hends, hquiet, hports⟩ := hp
  have hdrives : ∀ s, Drives d p.1 s ↔ Drives d' p.1 s := fun s => by
    unfold Drives
    simp only [tied_reordered h, (h.index s.scope).touches.mem_iff]
  have hreads : ∀ s, Reads d p.1 s ↔ Reads d' p.1 s := fun s => by
    unfold Reads
    simp only [(h.index s.scope).touches.mem_iff]
  rw [linked_reordered h] at hends hquiet hports
  refine ⟨(bufferAt_reordered h _ _ _).mp hbuf, hmet.reordered h, hends,
    fun s hs hd => hquiet s hs ((hdrives s).mpr hd), fun pb' hpb' hlink hdrivable => ?_⟩
  obtain ⟨pb, hpb, hseg, hport, hbit⟩ := portBits_reordered h.symm hpb'
  have hsame : pb.drivable = pb'.drivable := by
    rw [PortBit.drivable, PortBit.drivable, PortBit.passive, PortBit.passive, hport, hbit]
  obtain ⟨hdir, hread⟩ := hports pb hpb (hseg ▸ hlink) (hsame ▸ hdrivable)
  exact ⟨hport ▸ hdir, fun s hs hr => hread s hs ((hreads s).mpr hr)⟩

theorem fixed_reordered (q q' : Queueing) : Fixed d q = Fixed d' q' := by
  have hjoinable : ∀ p, Joinable d p ↔ Joinable d' p := fun p => ⟨.reordered h, .reordered h.symm⟩
  funext x y
  unfold Fixed Alias
  simp only [wire_reordered h, met_reordered h, switchAt_reordered h, mem_joinedBuffers, hjoinable]

theorem electrical_reordered (q q' : Queueing) (J : Key → Prop) :
    Electrical d q J = Electrical d' q' J := by
  funext x y
  unfold Electrical Joins Tran
  simp only [fixed_reordered h q q', met_reordered h, switchAt_reordered h]

theorem unsupplied_reordered (q q' : Queueing) (J : Key → Prop) :
    Unsupplied d q J ↔ Unsupplied d' q' J := by
  unfold Unsupplied Joins Tran Supplied
  simp only [fixed_reordered h q q', met_reordered h, switchAt_reordered h, suppliedAt_reordered h]

end Reordered

/-! ## The nets of the cut ports -/

theorem nodup_eraseDups {α : Type} [DecidableEq α] (l : List α) : l.eraseDups.Nodup := by
  match l with
  | [] => exact .nil
  | a :: as =>
    rw [List.eraseDups_cons, List.nodup_cons]
    refine ⟨fun ha => ?_, nodup_eraseDups _⟩
    have hne := (List.mem_filter.mp (List.mem_eraseDups.mp ha)).2
    rw [beq_self_eq_true] at hne
    cases hne
termination_by l.length
decreasing_by exact Nat.lt_succ_of_le (List.length_filter_le _ as)

section Nets

variable {d : Design} {q : Queueing}

theorem portBits_inj {pb pb' : PortBit} (h : pb ∈ d.portBits) (h' : pb' ∈ d.portBits) (href : pb.ref = pb'.ref) :
    pb = pb' := by
  obtain ⟨ci, hci, hcp, _, hport, hseg⟩ := mem_portBits.mp h
  obtain ⟨ci', hci', hcp', _, hport', hseg'⟩ := mem_portBits.mp h'
  obtain ⟨seg, ref, cp⟩ := pb
  obtain ⟨seg', ref', cp'⟩ := pb'
  obtain rfl : ref = ref' := href
  obtain rfl : ci = ci' := Option.some.inj (hci.symm.trans hci')
  obtain rfl : cp = cp' := List.inj_on_of_nodup_map ci.index_nodup hcp hcp' (hport.symm.trans hport')
  rw [PortBit.mk.injEq]
  exact ⟨hseg.trans hseg'.symm, rfl, rfl⟩

theorem mem_netOf {pb : PortBit} {r : Seg} (hpb : pb ∈ d.portBits) :
    pb.ref ∈ (netOf d q r).ports ++ (netOf d q r).passive ↔ find (classes d q) pb.seg = r := by
  simp only [netOf, List.mem_append, List.mem_map, List.mem_filter, List.mem_insertionSort, decide_eq_true_eq]
  constructor
  · rintro (⟨pb', ⟨⟨hpb', hr⟩, _⟩, href⟩ | ⟨pb', ⟨⟨hpb', hr⟩, _⟩, href⟩)
    · exact portBits_inj hpb' hpb href ▸ hr
    · exact portBits_inj hpb' hpb href ▸ hr
  · intro hr
    cases hpassive : pb.passive with
    | true => exact .inr ⟨pb, ⟨⟨hpb, hr⟩, hpassive⟩, rfl⟩
    | false => exact .inl ⟨pb, ⟨⟨hpb, hr⟩, by rw [hpassive]; rfl⟩, rfl⟩

/-- The classes with a cut port, one after another. -/
def roots (d : Design) (q : Queueing) : List Seg :=
  ((d.portBits.insertionSort fun pb pb' => pb.ref.le pb'.ref).map fun pb => find (classes d q) pb.seg).eraseDups

theorem mem_roots {r : Seg} : r ∈ roots d q ↔ ∃ pb ∈ d.portBits, find (classes d q) pb.seg = r := by
  rw [roots, List.mem_eraseDups, List.mem_map]
  simp only [List.mem_insertionSort]

theorem existsUnique_net {pb : PortBit} (hpb : pb ∈ d.portBits) :
    ∃! i : Nat, ∃ net, (nets d q)[i]? = some net ∧ pb.ref ∈ net.ports ++ net.passive := by
  have hget : ∀ (i : Nat) net, (nets d q)[i]? = some net ↔ ∃ r, (roots d q)[i]? = some r ∧ netOf d q r = net := by
    intro i net
    rw [show nets d q = (roots d q).map (netOf d q) from rfl, List.getElem?_map, Option.map_eq_some_iff]
  obtain ⟨i, hi⟩ := List.mem_iff_getElem?.mp (mem_roots.mpr ⟨pb, hpb, rfl⟩)
  refine ⟨i, ⟨_, (hget i _).mpr ⟨_, hi, rfl⟩, (mem_netOf hpb).mpr rfl⟩, ?_⟩
  rintro j ⟨net, hj, hmem⟩
  obtain ⟨r, hr, rfl⟩ := (hget j net).mp hj
  obtain rfl := (mem_netOf hpb).mp hmem
  obtain ⟨hlt, _⟩ := List.getElem?_eq_some_iff.mp hr
  exact (List.getElem?_inj hlt (nodup_eraseDups _)).mp (hr.trans hi.symm)

theorem segs_mem_groups {net : Net} (h : net ∈ nets d q) : net.segs ∈ groups d q := by
  obtain ⟨r, hr, rfl⟩ := List.mem_map.mp h
  obtain ⟨pb, hpb, rfl⟩ := mem_roots.mp hr
  refine List.mem_map.mpr ⟨_, List.mem_eraseDups.mpr (List.mem_map.mpr ⟨pb.seg, ?_, rfl⟩), rfl⟩
  exact known_found.mpr (.cut hpb)

end Nets

def cutIndex : Index := ⟨["p"], [], [], [], [], [], Index.empty.maps_nodup,
  Index.empty.switches_nodup, Index.empty.touches_stmt, Index.empty.buffers_stmt, Index.empty.supply_stmt⟩

/-- x and y are the ends of a tran, y is an alias of z and z is a supply. -/
def topIndex : Index where
  ports := []
  maps := [⟨0, ("p", 0), .bit ("x", 0)⟩, ⟨1, ("p", 0), .bit ("z", 0)⟩]
  joins := []
  buffers := []
  switches := [⟨2, .svTran, ("x", 0), ("y", 0)⟩, ⟨3, .svAlias, ("y", 0), ("z", 0)⟩]
  touches := [⟨some 4, .drv, .supply1, "z", none⟩]
  maps_nodup := by decide
  switches_nodup := by decide
  touches_stmt := by decide
  buffers_stmt := by decide
  supply_stmt := by decide

def cutAt (sid : Nat) : CutInstance where
  scope := sid
  ports := [⟨0, "p", 1, false, .inout, fun _ => false⟩]
  index_nodup := by decide
  vname_nodup := by decide

/-- A cut instance on x and one on z. -/
def aliasedSupply (first second : Nat) (h : first < 3 ∧ second < 3 ∧ first ≠ second) : Design where
  scopes := [⟨none, topIndex⟩, ⟨some (0, 0), cutIndex⟩, ⟨some (0, 1), cutIndex⟩]
  cuts := [cutAt first, cutAt second]
  parent_nodup := by decide
  parent_lt := by decide
  cuts_lt := by
    intro ci hci
    rcases List.mem_cons.mp hci with rfl | hci
    · exact h.1
    · rw [List.mem_singleton.mp hci]
      exact h.2.1
  cuts_nodup := List.nodup_cons.mpr ⟨fun hmem => h.2.2 (List.mem_singleton.mp hmem), List.nodup_singleton second⟩
  formal_port := by decide

end Vamos.Ams.Nets
