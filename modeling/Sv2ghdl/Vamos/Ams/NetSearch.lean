import Sv2ghdl.Vamos.Ams.Nets

/-!
# What the search finds

The search meets the bits that the edges lead to from the cut ports.  It joins what is wired and lists the switches
and the copies that it crosses, whatever the order of the queue.
-/

open Relation Classes

namespace Vamos.Ams.Nets

/-- A bit of a port and the bit of the parent that is associated with it. -/
def PortMapped (d : Design) (x y : Seg) : Prop :=
  ∃ m ∈ (d.index y.scope).maps, d.child y.scope m.stmt = some x.scope ∧ m.formal = x.bit ∧ m.actual = .bit y.bit

/-- Two bits joined by an alias, a shadow or a port temporary. -/
def Copied (d : Design) (x y : Seg) : Prop :=
  x.scope = y.scope ∧ (x.bit, y.bit) ∈ (d.index y.scope).joins

def SwitchAt (d : Design) (k : Key) (ent : Ent) (x y : Seg) : Prop :=
  x.scope = k.1 ∧ y.scope = k.1 ∧ ⟨k.2, ent, x.bit, y.bit⟩ ∈ (d.index k.1).switches

def BufferAt (d : Design) (k : Key) (x y : Seg) : Prop :=
  x.scope = k.1 ∧ y.scope = k.1 ∧ ⟨k.2, x.bit, y.bit⟩ ∈ (d.index k.1).buffers

/-- The bits that are next to a cut-port bit, and so on. -/
inductive Met (d : Design) : Seg → Prop
  | cut {pb : PortBit} (h : pb ∈ d.portBits) : Met d pb.seg
  | next {x : Seg} {e : Edge} (hx : Met d x) (he : e ∈ d.edges x) : Met d e.other

def Wired (d : Design) (x y : Seg) : Prop :=
  PortMapped d x y ∨ PortMapped d y x ∨ Copied d x y ∨ Copied d y x

section Edges

variable {d : Design} {x y : Seg}

theorem index_of_getElem? {sid : Nat} {sc : Scope} (h : d.scopes[sid]? = some sc) : d.index sid = sc.index := by
  rw [Design.index, h]

theorem lt_of_index {sid : Nat} (h : d.index sid ≠ .empty) : sid < d.scopes.length := by
  by_contra hge
  rw [Design.index, List.getElem?_eq_none (by omega)] at h
  exact h rfl

theorem child_eq_some {p stmt c : Nat} :
    d.child p stmt = some c ↔ ∃ sc, d.scopes[c]? = some sc ∧ sc.parent = some (p, stmt) := by
  rw [Design.child, List.findIdx?_eq_some_iff_getElem]
  constructor
  · rintro ⟨hc, hp, _⟩
    exact ⟨_, List.getElem?_eq_getElem hc, of_decide_eq_true hp⟩
  · rintro ⟨sc, hsc, hp⟩
    obtain ⟨hc, rfl⟩ := List.getElem?_eq_some_iff.mp hsc
    refine ⟨hc, decide_eq_true hp, fun j hj hpj => ?_⟩
    have hdistinct := List.pairwise_iff_getElem.mp (List.pairwise_filterMap.mp d.parent_nodup) j c (by omega) hc hj
    exact hdistinct _ (of_decide_eq_true hpj) _ hp rfl

theorem formal_eq_some {idx : Index} {stmt : Nat} {b : Bit} {a : Actual} :
    idx.formal stmt b = some a ↔ ⟨stmt, b, a⟩ ∈ idx.maps := by
  rw [Index.formal, Option.map_eq_some_iff]
  constructor
  · rintro ⟨m, hm, rfl⟩
    have hmem := List.mem_of_find?_eq_some hm
    have hkey := List.find?_some hm
    rw [Bool.and_eq_true, decide_eq_true_eq, decide_eq_true_eq] at hkey
    obtain ⟨rfl, rfl⟩ := hkey
    exact hmem
  · intro hm
    have hfound : (idx.maps.find? fun m => m.stmt = stmt && m.formal = b).isSome := by
      rw [List.find?_isSome]
      exact ⟨_, hm, by simp⟩
    obtain ⟨m, hfind⟩ := Option.isSome_iff_exists.mp hfound
    have hkey := List.find?_some hfind
    rw [Bool.and_eq_true, decide_eq_true_eq, decide_eq_true_eq] at hkey
    have hsame := List.inj_on_of_nodup_map idx.maps_nodup (List.mem_of_find?_eq_some hfind) hm
      (Prod.ext hkey.1 hkey.2)
    exact ⟨m, hfind, by rw [hsame]⟩

/-- Up through the port map of the parent and down through one's own are the same connections. -/
theorem up_eq_some {p : Nat} {a : Actual} :
    d.up x = some (p, a) ↔
      ∃ m ∈ (d.index p).maps, d.child p m.stmt = some x.scope ∧ m.formal = x.bit ∧ m.actual = a := by
  constructor
  · intro h
    unfold Design.up at h
    split at h
    · rename_i q stmt idx hsc
      split at h
      · obtain ⟨_, hformal, heq⟩ := Option.map_eq_some_iff.mp h
        cases heq
        exact ⟨_, formal_eq_some.mp hformal, child_eq_some.mpr ⟨_, hsc, rfl⟩, rfl, rfl⟩
      · cases h
    · cases h
  · rintro ⟨m, hm, hchild, hformal, rfl⟩
    obtain ⟨⟨parent, idx⟩, hsc, rfl⟩ := child_eq_some.mp hchild
    have hp := d.parent_lt _ (List.mem_of_getElem? hsc) _ rfl
    have hpsc := List.getElem?_eq_getElem hp
    have hport := d.formal_port _ (List.mem_of_getElem? hsc) _ rfl _ hpsc m (index_of_getElem? hpsc ▸ hm) rfl
    unfold Design.up
    rw [hsc]
    dsimp only
    rw [if_pos (hformal ▸ hport), ← hformal, formal_eq_some.mpr hm]
    rfl

theorem mem_across {a b c : Bit} {o : Bit × Bool} :
    o ∈ across a b c ↔ a = c ∧ o = (b, false) ∨ b = c ∧ o = (a, true) := by
  unfold across
  rw [List.mem_append]
  split <;> split <;> simp_all

theorem mem_edges {e : Edge} : e ∈ d.edges x ↔
    (∃ p b, d.up x = some (p, .bit b) ∧ e = .wire ⟨p, b⟩) ∨
    (∃ j ∈ (d.index x.scope).joins, ∃ o ∈ across j.1 j.2 x.bit, e = .wire ⟨x.scope, o.1⟩) ∨
    (∃ m ∈ (d.index x.scope).maps, ∃ c, m.actual = .bit x.bit ∧ d.child x.scope m.stmt = some c ∧
      e = .wire ⟨c, m.formal⟩) ∨
    (∃ buf ∈ (d.index x.scope).buffers, ∃ o ∈ across buf.pb buf.src x.bit,
      e = .buffer buf.stmt ⟨x.scope, o.1⟩ o.2) ∨
    (∃ sw ∈ (d.index x.scope).switches, ∃ o ∈ across sw.a sw.b x.bit,
      e = .switch sw.stmt ⟨x.scope, o.1⟩ sw.ent) := by
  have hup : e ∈ d.upEdges x ↔ ∃ p b, d.up x = some (p, .bit b) ∧ e = .wire ⟨p, b⟩ := by
    unfold Design.upEdges
    split
    · rename_i p b h
      rw [List.mem_singleton]
      constructor
      · exact fun he => ⟨p, b, h, he⟩
      · rintro ⟨_, _, heq, rfl⟩
        rw [h] at heq
        cases heq
        rfl
    · rename_i hno
      constructor
      · exact nofun
      · rintro ⟨p, b, h, _⟩
        exact absurd h (hno p b)
  have hdown : ∀ m : PortMap, e ∈ d.downEdges x m ↔
      ∃ c, m.actual = .bit x.bit ∧ d.child x.scope m.stmt = some c ∧ e = .wire ⟨c, m.formal⟩ := by
    intro m
    unfold Design.downEdges
    cases hm : m.actual with
    | expr z lit => simp
    | bit b => cases d.child x.scope m.stmt <;> simp [and_comm]
  simp only [Design.edges, List.mem_append, List.mem_flatMap, List.mem_map, hup, hdown, or_assoc,
    @eq_comm Edge _ e]

theorem wire_mem_edges : .wire y ∈ d.edges x ↔ Wired d x y := by
  rw [mem_edges]
  constructor
  · rintro (⟨p, b, hup, he⟩ | ⟨⟨a, b⟩, hj, o, ho, he⟩ | ⟨m, hm, c, hactual, hchild, he⟩ | ⟨_, _, _, _, he⟩ |
      ⟨_, _, _, _, he⟩)
    · cases he
      obtain ⟨m, hm, hmap⟩ := up_eq_some.mp hup
      exact .inl ⟨m, hm, hmap⟩
    · cases he
      rcases mem_across.mp ho with ⟨ha, rfl⟩ | ⟨hb, rfl⟩
      · exact .inr (.inr (.inl ⟨rfl, ha ▸ hj⟩))
      · exact .inr (.inr (.inr ⟨rfl, hb ▸ hj⟩))
    · cases he
      exact .inr (.inl ⟨m, hm, hchild, rfl, hactual⟩)
    · cases he
    · cases he
  · rintro (⟨m, hm, hchild, hformal, hactual⟩ | ⟨m, hm, hchild, hformal, hactual⟩ | ⟨hscope, hj⟩ | ⟨hscope, hj⟩)
    · exact .inl ⟨y.scope, y.bit, up_eq_some.mpr ⟨m, hm, hchild, hformal, hactual⟩, rfl⟩
    · exact .inr (.inr (.inl ⟨m, hm, y.scope, hactual, hchild, by rw [hformal]⟩))
    · refine .inr (.inl ⟨_, hscope ▸ hj, (y.bit, false), mem_across.mpr (.inl ⟨rfl, rfl⟩), ?_⟩)
      rw [hscope]
    · refine .inr (.inl ⟨_, hj, (y.bit, true), mem_across.mpr (.inr ⟨rfl, rfl⟩), ?_⟩)
      rw [← hscope]

theorem buffer_mem_edges {stmt : Nat} {otherIsPb : Bool} : .buffer stmt y otherIsPb ∈ d.edges x ↔
    if otherIsPb then BufferAt d (x.scope, stmt) y x else BufferAt d (x.scope, stmt) x y := by
  rw [mem_edges]
  constructor
  · rintro (⟨_, _, _, he⟩ | ⟨_, _, _, _, he⟩ | ⟨_, _, _, _, _, he⟩ | ⟨⟨s, a, b⟩, hbuf, o, ho, he⟩ |
      ⟨_, _, _, _, he⟩)
    · cases he
    · cases he
    · cases he
    · cases he
      rcases mem_across.mp ho with ⟨ha, rfl⟩ | ⟨hb, rfl⟩
      · exact ⟨rfl, rfl, ha ▸ hbuf⟩
      · exact ⟨rfl, rfl, hb ▸ hbuf⟩
    · cases he
  · intro h
    cases otherIsPb with
    | false =>
      obtain ⟨_, hy, hbuf⟩ : BufferAt d (x.scope, stmt) x y := h
      refine .inr (.inr (.inr (.inl ⟨_, hbuf, (y.bit, false), mem_across.mpr (.inl ⟨rfl, rfl⟩), ?_⟩)))
      rw [← show y.scope = x.scope from hy]
    | true =>
      obtain ⟨hy, _, hbuf⟩ : BufferAt d (x.scope, stmt) y x := h
      refine .inr (.inr (.inr (.inl ⟨_, hbuf, (y.bit, true), mem_across.mpr (.inr ⟨rfl, rfl⟩), ?_⟩)))
      rw [← show y.scope = x.scope from hy]

theorem switch_mem_edges {stmt : Nat} {ent : Ent} : .switch stmt y ent ∈ d.edges x ↔
    SwitchAt d (x.scope, stmt) ent x y ∨ SwitchAt d (x.scope, stmt) ent y x := by
  rw [mem_edges]
  constructor
  · rintro (⟨_, _, _, he⟩ | ⟨_, _, _, _, he⟩ | ⟨_, _, _, _, _, he⟩ | ⟨_, _, _, _, he⟩ |
      ⟨⟨s, ent, a, b⟩, hsw, o, ho, he⟩)
    · cases he
    · cases he
    · cases he
    · cases he
    · cases he
      rcases mem_across.mp ho with ⟨ha, rfl⟩ | ⟨hb, rfl⟩
      · exact .inl ⟨rfl, rfl, ha ▸ hsw⟩
      · exact .inr ⟨rfl, rfl, hb ▸ hsw⟩
  · rintro (⟨_, hy, hsw⟩ | ⟨hy, _, hsw⟩)
    · refine .inr (.inr (.inr (.inr ⟨_, hsw, (y.bit, false), mem_across.mpr (.inl ⟨rfl, rfl⟩), ?_⟩)))
      rw [← show y.scope = x.scope from hy]
    · refine .inr (.inr (.inr (.inr ⟨_, hsw, (y.bit, true), mem_across.mpr (.inr ⟨rfl, rfl⟩), ?_⟩)))
      rw [← show y.scope = x.scope from hy]

end Edges

/-! ## Bits that can be met -/

theorem mem_places_of_named {d : Design} {sid : Nat} {x : Seg} (h : x ∈ d.named sid) : x ∈ d.places := by
  refine List.mem_append_right _ (List.mem_flatMap.mpr ⟨sid, List.mem_range.mpr (lt_of_index fun hidx => ?_), h⟩)
  rw [Design.named, hidx] at h
  cases h

theorem mem_named_bit {d : Design} {sid : Nat} {b : Bit}
    (h : (∃ m ∈ (d.index sid).maps, m.actual = .bit b) ∨ (∃ j ∈ (d.index sid).joins, b = j.1 ∨ b = j.2) ∨
      (∃ buf ∈ (d.index sid).buffers, b = buf.pb ∨ b = buf.src) ∨
      ∃ sw ∈ (d.index sid).switches, b = sw.a ∨ b = sw.b) : ⟨sid, b⟩ ∈ d.named sid := by
  refine List.mem_append_right _ (List.mem_map_of_mem ?_)
  simp only [List.mem_append, List.mem_filterMap, List.mem_flatMap, List.mem_cons, List.not_mem_nil, or_false,
    or_assoc]
  rcases h with ⟨m, hm, hactual⟩ | hrest
  · exact .inl ⟨m, hm, by rw [hactual, Actual.bit?]⟩
  · exact .inr hrest

theorem Met.mem_places {d : Design} {x : Seg} (h : Met d x) : x ∈ d.places := by
  cases h with
  | cut h => exact List.mem_append_left _ (List.mem_map_of_mem h)
  | @next x e _ he =>
    rcases mem_edges.mp he with ⟨p, b, hup, rfl⟩ | ⟨j, hj, o, ho, rfl⟩ | ⟨m, hm, c, _, hchild, rfl⟩ |
      ⟨buf, hbuf, o, ho, rfl⟩ | ⟨sw, hsw, o, ho, rfl⟩
    · obtain ⟨m, hm, _, _, hactual⟩ := up_eq_some.mp hup
      exact mem_places_of_named (mem_named_bit (.inl ⟨m, hm, hactual⟩))
    · refine mem_places_of_named (mem_named_bit (.inr (.inl ⟨j, hj, ?_⟩)))
      rcases mem_across.mp ho with ⟨_, rfl⟩ | ⟨_, rfl⟩
      · exact .inr rfl
      · exact .inl rfl
    · have hnamed : ⟨c, m.formal⟩ ∈ d.named x.scope := by
        refine List.mem_append_left _ (List.mem_flatMap.mpr ⟨m, hm, ?_⟩)
        rw [hchild]
        exact List.mem_singleton_self _
      exact mem_places_of_named hnamed
    · refine mem_places_of_named (mem_named_bit (.inr (.inr (.inl ⟨buf, hbuf, ?_⟩))))
      rcases mem_across.mp ho with ⟨_, rfl⟩ | ⟨_, rfl⟩
      · exact .inr rfl
      · exact .inl rfl
    · refine mem_places_of_named (mem_named_bit (.inr (.inr (.inr ⟨sw, hsw, ?_⟩))))
      rcases mem_across.mp ho with ⟨_, rfl⟩ | ⟨_, rfl⟩
      · exact .inr rfl
      · exact .inl rfl

/-! ## One bit next to another -/

def Wire (d : Design) (x y : Seg) : Prop := Met d x ∧ Wired d x y

/-- A switch that was crossed, from one of its ends. -/
def IsCrossed (d : Design) (c : Crossed) : Prop :=
  Met d c.a ∧ Met d c.b ∧ (SwitchAt d c.key c.ent c.a c.b ∨ SwitchAt d c.key c.ent c.b c.a)

/-- What is in the state is in the design. -/
structure Sound (d : Design) (st : Search) : Prop where
  rooted : Rooted st.table
  nodup : st.order.Nodup
  met : ∀ x, Known st.table x → Met d x
  queue : ∀ x ∈ st.queue, Known st.table x
  same : ∀ x y, Same st.table x y → EqvGen (Wire d) x y
  sws : ∀ c ∈ st.sws, IsCrossed d c
  sws_nodup : (st.sws.map Crossed.key).Nodup
  pairs : ∀ p ∈ st.pairs, BufferAt d p.1 p.2.1 p.2.2 ∧ Met d p.2.1 ∧ Met d p.2.2

/-- An edge of a bit that the search has met. -/
def Covers (st : Search) (s : Seg) (e : Edge) : Prop :=
  Known st.table e.other ∧ match e with
    | .wire o => Same st.table s o
    | .buffer stmt o otherIsPb => ((s.scope, stmt), if otherIsPb then (o, s) else (s, o)) ∈ st.pairs
    | .switch stmt _ _ => (s.scope, stmt) ∈ st.sws.map Crossed.key

/-- A later state of the search. -/
structure Extends (st st' : Search) : Prop where
  known : ∀ x, Known st.table x → Known st'.table x
  same : ∀ x y, Same st.table x y → Same st'.table x y
  pairs : ∀ p ∈ st.pairs, p ∈ st'.pairs
  sws : ∀ k ∈ st.sws.map Crossed.key, k ∈ st'.sws.map Crossed.key
  queue : ∀ x ∈ st.queue, x ∈ st'.queue
  fresh : ∀ x, Known st'.table x → Known st.table x ∨ x ∈ st'.queue
  size : st'.order.length + st.queue.length = st.order.length + st'.queue.length

section Step

variable {d : Design} {q : Queueing} {st st' st'' : Search} {s : Seg} {e : Edge}

theorem Extends.refl (st : Search) : Extends st st :=
  ⟨fun _ h => h, fun _ _ h => h, fun _ h => h, fun _ h => h, fun _ h => h, fun _ h => .inl h, rfl⟩

theorem Extends.trans (h : Extends st st') (h' : Extends st' st'') : Extends st st'' where
  known x hx := h'.known x (h.known x hx)
  same x y hxy := h'.same x y (h.same x y hxy)
  pairs p hp := h'.pairs p (h.pairs p hp)
  sws k hk := h'.sws k (h.sws k hk)
  queue x hx := h'.queue x (h.queue x hx)
  fresh x hx := by
    rcases h'.fresh x hx with hx | hx
    · rcases h.fresh x hx with hx | hx
      · exact .inl hx
      · exact .inr (h'.queue x hx)
    · exact .inr hx
  size := by
    have hsize := h.size
    have hsize' := h'.size
    omega

theorem Covers.extend (h : Covers st s e) (hext : Extends st st') : Covers st' s e := by
  refine ⟨hext.known _ h.1, ?_⟩
  cases e with
  | wire o => exact hext.same _ _ h.2
  | buffer stmt o otherIsPb => exact hext.pairs _ h.2
  | switch stmt o ent => exact hext.sws _ h.2

theorem add_spec (h : Sound d st) (hs : Met d s) :
    Sound d (st.add q s) ∧ Extends st (st.add q s) ∧ Known (st.add q s).table s := by
  unfold Search.add
  split
  · rename_i hknown
    exact ⟨h, .refl st, hknown⟩
  · rename_i hnew
    have hmem : ∀ x, x ∈ q.put st.queue s ↔ x ∈ st.queue ∨ x = s := fun x => by
      rw [(q.perm st.queue s).mem_iff, List.mem_append, List.mem_singleton]
    have hlength : (q.put st.queue s).length = st.queue.length + 1 := (q.perm st.queue s).length_eq.trans (by simp)
    have horder : (Classes.add st.table s).map Prod.fst = st.order ++ [s] := by
      rw [Classes.add, if_neg hnew, List.map_append]
      rfl
    refine ⟨?_, ?_, known_add.mpr (.inr rfl)⟩
    · exact {
        rooted := rooted_add h.rooted
        nodup := nodup_add h.nodup
        met := fun x hx => (known_add.mp hx).elim (h.met x) fun hxs => hxs ▸ hs
        queue := fun x hx => known_add.mpr (((hmem x).mp hx).imp (h.queue x) id)
        same := fun x y hxy => h.same x y (same_add.mp hxy)
        sws := h.sws
        sws_nodup := h.sws_nodup
        pairs := h.pairs }
    · exact {
        known := fun x hx => known_add.mpr (.inl hx)
        same := fun x y hxy => same_add.mpr hxy
        pairs := fun p hp => hp
        sws := fun k hk => hk
        queue := fun x hx => (hmem x).mpr (.inl hx)
        fresh := fun x hx => (known_add.mp hx).imp id fun hxs => (hmem x).mpr (.inr hxs)
        size := by
          show ((Classes.add st.table s).map Prod.fst).length + _ = _
          rw [horder, List.length_append, List.length_singleton]
          show _ = _ + (q.put st.queue s).length
          omega }

theorem mem_pairs_addPair {l : List (Key × List (Seg × Seg))} {k : Key} {pair : Seg × Seg} {p : Key × Seg × Seg} :
    (p ∈ (addPair l k pair).flatMap fun q => q.2.map fun pair => (q.1, pair)) ↔
      (p ∈ l.flatMap fun q => q.2.map fun pair => (q.1, pair)) ∨ p = (k, pair) := by
  induction l with
  | nil => simp [addPair]
  | cons q l ih =>
    unfold addPair
    split
    · rename_i hk
      have hpairs : ∀ x, (x ∈ if pair ∈ q.2 then q.2 else q.2 ++ [pair]) ↔ x ∈ q.2 ∨ x = pair := by
        intro x
        split
        · rename_i hmem
          exact ⟨.inl, fun hx => hx.elim id fun heq => heq ▸ hmem⟩
        · rw [List.mem_append, List.mem_singleton]
      obtain ⟨k', x⟩ := p
      simp only [List.flatMap_cons, List.mem_append, List.mem_map, hpairs, Prod.mk.injEq, hk]
      aesop
    · rw [List.flatMap_cons, List.flatMap_cons, List.mem_append, List.mem_append, ih, or_assoc]

theorem keys_setDefault {sws : List Crossed} {c : Crossed} :
    c.key ∈ (setDefault sws c).map Crossed.key := by
  unfold setDefault
  split
  · assumption
  · rw [List.map_append]
    exact List.mem_append_right _ (List.mem_singleton_self _)

/-- The first crossing of a switch is the one that is kept. -/
theorem mem_setDefault {sws : List Crossed} {c c' : Crossed} (h : c' ∈ setDefault sws c) : c' ∈ sws ∨ c' = c := by
  unfold setDefault at h
  split at h
  · exact .inl h
  · exact (List.mem_append.mp h).imp id List.mem_singleton.mp

theorem sublist_setDefault {sws : List Crossed} {c : Crossed} : sws.Sublist (setDefault sws c) := by
  unfold setDefault
  split
  · exact .refl _
  · exact List.sublist_append_left _ _

theorem nodup_setDefault {sws : List Crossed} {c : Crossed} (h : (sws.map Crossed.key).Nodup) :
    ((setDefault sws c).map Crossed.key).Nodup := by
  unfold setDefault
  split
  · exact h
  · rename_i hc
    rw [List.map_append, List.map_singleton, List.nodup_append]
    refine ⟨h, List.nodup_singleton _, ?_⟩
    rintro k hk _ hk' rfl
    have heq : k = c.key := List.mem_singleton.mp hk'
    exact hc (heq ▸ hk)

theorem meet_spec (h : Sound d st) (hs : Known st.table s) (he : e ∈ d.edges s) :
    Sound d (st.meet q s e) ∧ Extends st (st.meet q s e) ∧ Covers (st.meet q s e) s e := by
  have hmet := h.met s hs
  obtain ⟨hadd, hext, hother⟩ := add_spec (q := q) h (Met.next hmet he)
  have hs' := hext.known s hs
  cases e with
  | wire o =>
    have hwire : EqvGen (Wire d) s o := .rel s o ⟨hmet, wire_mem_edges.mp he⟩
    refine ⟨?_, hext.trans ?_, known_union.mpr hother, same_union_self hadd.rooted hother⟩
    · exact {
        rooted := rooted_union hadd.rooted hs'
        nodup := by
          rw [Search.order, show (st.meet q s (.wire o)).table = union _ s o from rfl, map_fst_union]
          exact hadd.nodup
        met := fun x hx => hadd.met x (known_union.mp hx)
        queue := fun x hx => known_union.mpr (hadd.queue x hx)
        same := fun x y hxy => by
          refine eqvGen_le (fun x y hxy => ?_) ((same_union hadd.rooted hother).mp hxy)
          rcases hxy with hxy | ⟨rfl, rfl⟩
          · exact hadd.same x y hxy
          · exact hwire
        sws := hadd.sws
        sws_nodup := hadd.sws_nodup
        pairs := hadd.pairs }
    · exact {
        known := fun x hx => known_union.mpr hx
        same := fun x y hxy => same_union_mono hadd.rooted hother hxy
        pairs := fun p hp => hp
        sws := fun k hk => hk
        queue := fun x hx => hx
        fresh := fun x hx => .inl (known_union.mp hx)
        size := by
          show ((union (st.add q o).table s o).map Prod.fst).length + _ = _
          rw [map_fst_union]
          rfl }
  | buffer stmt o otherIsPb =>
    have hpair : ∀ p, p ∈ (st.meet q s (.buffer stmt o otherIsPb)).pairs ↔
        p ∈ (st.add q o).pairs ∨ p = ((s.scope, stmt), if otherIsPb then (o, s) else (s, o)) :=
      fun _ => mem_pairs_addPair
    refine ⟨?_, hext.trans ?_, hother, (hpair _).mpr (.inr rfl)⟩
    · exact {
        rooted := hadd.rooted
        nodup := hadd.nodup
        met := hadd.met
        queue := hadd.queue
        same := hadd.same
        sws := hadd.sws
        sws_nodup := hadd.sws_nodup
        pairs := fun p hp => by
          rcases (hpair p).mp hp with hp | rfl
          · exact hadd.pairs p hp
          · have hat := buffer_mem_edges.mp he
            have hmet' := hadd.met o hother
            cases otherIsPb with
            | false => exact ⟨hat, hmet, hmet'⟩
            | true => exact ⟨hat, hmet', hmet⟩ }
    · exact { Extends.refl (st.add q o) with pairs := fun p hp => (hpair p).mpr (.inl hp) }
  | switch stmt o ent =>
    refine ⟨?_, hext.trans ?_, hother, keys_setDefault (c := ⟨(s.scope, stmt), s, o, ent⟩)⟩
    · exact { hadd with
        sws := fun c hc => by
          rcases mem_setDefault hc with hc | rfl
          · exact hadd.sws c hc
          · exact ⟨hmet, hadd.met o hother, switch_mem_edges.mp he⟩
        sws_nodup := nodup_setDefault hadd.sws_nodup }
    · exact { Extends.refl (st.add q o) with
        sws := fun k hk => (sublist_setDefault.map Crossed.key).subset hk }

theorem foldl_meet_spec {l : List Edge} (h : Sound d st) (hs : Known st.table s) (hl : ∀ e ∈ l, e ∈ d.edges s) :
    Sound d (l.foldl (Search.meet q s) st) ∧ Extends st (l.foldl (Search.meet q s) st) ∧
      ∀ e ∈ l, Covers (l.foldl (Search.meet q s) st) s e := by
  induction l generalizing st with
  | nil => exact ⟨h, .refl st, nofun⟩
  | cons e l ih =>
    obtain ⟨hmeet, hext, hcovers⟩ := meet_spec (q := q) h hs (hl e List.mem_cons_self)
    obtain ⟨hfold, hext', hrest⟩ := ih hmeet (hext.known s hs) fun e he => hl e (List.mem_cons_of_mem _ he)
    refine ⟨hfold, hext.trans hext', fun e' he' => ?_⟩
    rcases List.mem_cons.mp he' with rfl | he'
    · exact hcovers.extend hext'
    · exact hrest e' he'

/-- A bit that was taken out of the queue. -/
def Visited (d : Design) (st : Search) (s : Seg) : Prop := ∀ e ∈ d.edges s, Covers st s e

/-- A bit that was met and is not in the queue was visited. -/
structure Progress (d : Design) (st : Search) : Prop extends Sound d st where
  cuts : ∀ pb ∈ d.portBits, Known st.table pb.seg
  visited : ∀ x, Known st.table x → x ∈ st.queue ∨ Visited d st x

theorem Sound.order_le (h : Sound d st) : st.order.length ≤ d.places.length :=
  (h.nodup.subperm fun x hx => (h.met x hx).mem_places).length_le

theorem run_spec {n : Nat} (h : Progress d st) (hn : d.places.length + st.queue.length ≤ st.order.length + n) :
    Progress d (Search.run d q n st) ∧ (Search.run d q n st).queue = [] := by
  induction n generalizing st with
  | zero =>
    have hle := h.order_le
    exact ⟨h, List.length_eq_zero_iff.mp (show st.queue.length = 0 by omega)⟩
  | succ n ih =>
    rw [Search.run]
    cases hq : st.queue with
    | nil => exact ⟨h, hq⟩
    | cons s rest =>
      have hs : Known st.table s := h.queue s (hq ▸ List.mem_cons_self)
      have hpop : Sound d { st with queue := rest } := { h.toSound with
        queue := fun x hx => h.queue x (hq ▸ List.mem_cons_of_mem s hx) }
      obtain ⟨hvisit, hext, hcovers⟩ := foldl_meet_spec (q := q) hpop hs fun e he => he
      have hsize := hext.size
      apply ih
      · refine { hvisit with
          cuts := fun pb hpb => hext.known _ (h.cuts pb hpb)
          visited := fun x hx => ?_ }
        rcases hext.fresh x hx with hx | hx
        · rcases h.visited x hx with hx | hx
          · rcases List.mem_cons.mp (hq ▸ hx) with rfl | hx
            · exact .inr hcovers
            · exact .inl (hext.queue x hx)
          -- what a bit covers does not mention the queue
          · exact .inr fun e he => (show Covers { st with queue := rest } x e from hx e he).extend hext
        · exact .inl hx
      · rw [hq, List.length_cons] at hn
        change (Search.visit d q { st with queue := rest } s).order.length + rest.length =
          st.order.length + (Search.visit d q { st with queue := rest } s).queue.length at hsize
        omega

theorem start_spec : Progress d (Search.start d q) ∧
    (Search.start d q).order.length = (Search.start d q).queue.length := by
  have hfold : ∀ (l : List Seg) (st : Search), (∀ s ∈ l, Met d s) → Sound d st →
      Sound d (l.foldl (Search.add q) st) ∧ Extends st (l.foldl (Search.add q) st) ∧
        ∀ s ∈ l, Known (l.foldl (Search.add q) st).table s := by
    intro l
    induction l with
    | nil => exact fun st _ h => ⟨h, .refl st, nofun⟩
    | cons s l ih =>
      intro st hl h
      obtain ⟨hadd, hext, hs⟩ := add_spec (q := q) h (hl s List.mem_cons_self)
      obtain ⟨hsound, hext', hknown⟩ := ih _ (fun s hs => hl s (List.mem_cons_of_mem _ hs)) hadd
      refine ⟨hsound, hext.trans hext', fun s' hs' => ?_⟩
      rcases List.mem_cons.mp hs' with rfl | hs'
      · exact hext'.known _ hs
      · exact hknown s' hs'
  have hempty : Sound d ⟨[], [], [], []⟩ := {
    rooted := nofun
    nodup := .nil
    met := nofun
    queue := nofun
    same := fun x y hxy => by
      rw [show x = y from hxy]
      exact .refl y
    sws := nofun
    sws_nodup := .nil
    pairs := nofun }
  obtain ⟨hsound, hext, hknown⟩ := hfold (d.portBits.map PortBit.seg) _ (fun s hs => by
    obtain ⟨pb, hpb, rfl⟩ := List.mem_map.mp hs
    exact .cut hpb) hempty
  refine ⟨{ hsound with
    cuts := fun pb hpb => hknown _ (List.mem_map_of_mem hpb)
    visited := fun x hx => .inl ((hext.fresh x hx).resolve_left nofun) }, ?_⟩
  have hsize := hext.size
  change (Search.start d q).order.length + 0 = 0 + (Search.start d q).queue.length at hsize
  omega

end Step

/-! ## The whole search -/

section Found

variable (d : Design) (q : Queueing)

theorem found_progress : Progress d (Search.found d q) ∧ (Search.found d q).queue = [] := by
  obtain ⟨hstart, hsize⟩ := start_spec (d := d) (q := q)
  exact run_spec hstart (by omega)

variable {d q}

theorem visited_of_known {x : Seg} (h : Known (Search.found d q).table x) : Visited d (Search.found d q) x := by
  obtain ⟨hprogress, hempty⟩ := found_progress d q
  exact (hprogress.visited x h).resolve_left (hempty ▸ nofun)

/-- The search meets what can be met. -/
theorem known_found {x : Seg} : Known (Search.found d q).table x ↔ Met d x := by
  constructor
  · exact (found_progress d q).1.met x
  · intro h
    induction h with
    | cut h => exact (found_progress d q).1.cuts _ h
    | next _ he ih => exact (visited_of_known ih _ he).1

/-- Before the switches and the copies, a class is what is wired. -/
theorem same_found {x y : Seg} : Same (Search.found d q).table x y ↔ EqvGen (Wire d) x y := by
  constructor
  · exact (found_progress d q).1.same x y
  · exact same_of_eqvGen fun x y hxy =>
      (visited_of_known (known_found.mpr hxy.1) _ (wire_mem_edges.mpr hxy.2)).2

theorem mem_pairs_found {p : Key × Seg × Seg} :
    p ∈ (Search.found d q).pairs ↔ BufferAt d p.1 p.2.1 p.2.2 ∧ Met d p.2.1 := by
  constructor
  · intro h
    obtain ⟨hat, hmet, _⟩ := (found_progress d q).1.pairs p h
    exact ⟨hat, hmet⟩
  · rintro ⟨hat, hmet⟩
    obtain ⟨⟨sid, stmt⟩, x, y⟩ := p
    obtain rfl : x.scope = sid := hat.1
    have he : .buffer stmt y false ∈ d.edges x := buffer_mem_edges.mpr hat
    exact (visited_of_known (known_found.mpr hmet) _ he).2

theorem SwitchAt.unique {k : Key} {ent ent' : Ent} {x y x' y' : Seg} (h : SwitchAt d k ent x y)
    (h' : SwitchAt d k ent' x' y') : ent = ent' ∧ x = x' ∧ y = y' := by
  obtain ⟨hx, hy, hsw⟩ := h
  obtain ⟨hx', hy', hsw'⟩ := h'
  have heq := List.inj_on_of_nodup_map (d.index k.1).switches_nodup hsw hsw' rfl
  obtain ⟨_, bx⟩ := x
  obtain ⟨_, bx'⟩ := x'
  obtain ⟨_, bY⟩ := y
  obtain ⟨_, bY'⟩ := y'
  cases hx
  cases hy
  cases hx'
  cases hy'
  cases heq
  exact ⟨rfl, rfl, rfl⟩

/-- Every switch with an end that was met is in the list, from one of its ends. -/
theorem crossed_of_switchAt {k : Key} {ent : Ent} {x y : Seg} (h : SwitchAt d k ent x y)
    (hmet : Met d x ∨ Met d y) :
    ∃ c ∈ (Search.found d q).sws, c.key = k ∧ c.ent = ent ∧ (c.a = x ∧ c.b = y ∨ c.a = y ∧ c.b = x) := by
  have hkey : k ∈ (Search.found d q).sws.map Crossed.key := by
    obtain ⟨sid, stmt⟩ := k
    rcases hmet with hx | hy
    · obtain rfl : x.scope = sid := h.1
      have he : .switch stmt y ent ∈ d.edges x := switch_mem_edges.mpr (.inl h)
      exact (visited_of_known (known_found.mpr hx) _ he).2
    · obtain rfl : y.scope = sid := h.2.1
      have he : .switch stmt x ent ∈ d.edges y := switch_mem_edges.mpr (.inr h)
      exact (visited_of_known (known_found.mpr hy) _ he).2
  obtain ⟨c, hc, rfl⟩ := List.mem_map.mp hkey
  refine ⟨c, hc, rfl, ?_⟩
  rcases ((found_progress d q).1.sws c hc).2.2 with hat | hat
  · obtain ⟨hent, ha, hb⟩ := hat.unique h
    exact ⟨hent, .inl ⟨ha, hb⟩⟩
  · obtain ⟨hent, hb, ha⟩ := hat.unique h
    exact ⟨hent, .inr ⟨ha, hb⟩⟩

end Found

end Vamos.Ams.Nets
