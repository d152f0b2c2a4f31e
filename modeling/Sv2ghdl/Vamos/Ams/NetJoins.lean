import Sv2ghdl.Vamos.Ams.NetSearch

/-!
# Switches and copies

The switches are joined one after another, each as the classes stand at its turn.  Whether a copy joins does not
depend on that: a copy joins only where every switch around it did.
-/

open Relation Classes

namespace Vamos.Ams.Nets

section Switches

variable (d : Design) (q : Queueing)

/-- The classes at the turn of the switch that follows. -/
def turn (pre : List Crossed) : Joining := switchJoins d (Search.found d q) pre

/-- A tran that stays a driver and a reader of each side. -/
def refuses (t : Table Seg) (c : Crossed) : Bool :=
  find t c.a ≠ find t c.b && c.ent = .svTran &&
    (hasSupply d (Search.found d q).order t (find t c.a) || hasSupply d (Search.found d q).order t (find t c.b))

variable {d q}

theorem switchStep_eq (j : Joining) (c : Crossed) : switchStep d (Search.found d q).order j c =
    if refuses d q j.table c then j else ⟨union j.table c.a c.b, j.skip ++ [(c.key, c.a), (c.key, c.b)]⟩ := by
  unfold switchStep refuses
  dsimp only
  by_cases hroot : find j.table c.a = find j.table c.b
  · rw [if_pos hroot, union, if_pos hroot, if_neg]
    simp [hroot]
  · have hends : decide (find j.table c.a ≠ find j.table c.b) = true := decide_eq_true hroot
    rw [if_neg hroot, hends, Bool.true_and]

theorem turn_append {pre : List Crossed} {c : Crossed} : turn d q (pre ++ [c]) =
    if refuses d q (turn d q pre).table c then turn d q pre
    else ⟨union (turn d q pre).table c.a c.b, (turn d q pre).skip ++ [(c.key, c.a), (c.key, c.b)]⟩ := by
  rw [← switchStep_eq]
  exact List.foldl_append

/-- The bits are those that the search met, in every turn. -/
theorem turn_table {pre : List Crossed} (hpre : ∀ c ∈ pre, c ∈ (Search.found d q).sws) :
    Rooted (turn d q pre).table ∧ (turn d q pre).table.map Prod.fst = (Search.found d q).order := by
  induction pre using List.reverseRecOn with
  | nil => exact ⟨(found_progress d q).1.rooted, rfl⟩
  | append_singleton pre c ih =>
    obtain ⟨hrooted, hkeys⟩ := ih fun c hc => hpre c (List.mem_append_left _ hc)
    have hc := hpre c (List.mem_append_right _ (List.mem_singleton_self c))
    rw [turn_append]
    split
    · exact ⟨hrooted, hkeys⟩
    · refine ⟨rooted_union hrooted ?_, map_fst_union.trans hkeys⟩
      rw [Known, hkeys]
      exact known_found.mpr ((found_progress d q).1.sws c hc).1

theorem known_turn {pre : List Crossed} (hpre : ∀ c ∈ pre, c ∈ (Search.found d q).sws) {x : Seg} :
    Known (turn d q pre).table x ↔ Met d x := by
  rw [Known, (turn_table hpre).2]
  exact known_found

theorem hasSupply_iff {t : Table Seg} {x : Seg} : hasSupply d (Search.found d q).order t (find t x) = true ↔
    ∃ s, Met d s ∧ Same t x s ∧ suppliedAt d s = true := by
  simp only [hasSupply, List.any_eq_true, Bool.and_eq_true, decide_eq_true_eq, Same, @eq_comm _ (find t x)]
  constructor
  · rintro ⟨s, hs, h⟩
    exact ⟨s, known_found.mp hs, h⟩
  · rintro ⟨s, hs, h⟩
    exact ⟨s, known_found.mpr hs, h⟩

theorem refuses_iff {t : Table Seg} {c : Crossed} : refuses d q t c = true ↔
    ¬ Same t c.a c.b ∧ c.ent = .svTran ∧ ∃ s, Met d s ∧ (Same t c.a s ∨ Same t c.b s) ∧ suppliedAt d s = true := by
  rw [refuses, Bool.and_eq_true, Bool.and_eq_true, Bool.or_eq_true, hasSupply_iff, hasSupply_iff, decide_eq_true_eq,
    decide_eq_true_eq, and_assoc]
  refine and_congr_right fun _ => and_congr_right fun _ => ⟨?_, ?_⟩
  · rintro (⟨s, hs, hsame, hsup⟩ | ⟨s, hs, hsame, hsup⟩)
    · exact ⟨s, hs, .inl hsame, hsup⟩
    · exact ⟨s, hs, .inr hsame, hsup⟩
  · rintro ⟨s, hs, hsame | hsame, hsup⟩
    · exact .inl ⟨s, hs, hsame, hsup⟩
    · exact .inr ⟨s, hs, hsame, hsup⟩

theorem turn_mono {pre post : List Crossed} (hmem : ∀ c ∈ pre ++ post, c ∈ (Search.found d q).sws) {x y : Seg}
    (h : Same (turn d q pre).table x y) : Same (turn d q (pre ++ post)).table x y := by
  induction post using List.reverseRecOn with
  | nil => rwa [List.append_nil]
  | append_singleton post c ih =>
    have hprev : ∀ c ∈ pre ++ post, c ∈ (Search.found d q).sws := fun c hc => hmem c (by
      rw [← List.append_assoc]
      exact List.mem_append_left _ hc)
    rw [← List.append_assoc, turn_append]
    split
    · exact ih hprev
    · have hc : c ∈ (Search.found d q).sws := hmem c (by simp)
      refine same_union_mono (turn_table hprev).1 ?_ (ih hprev)
      exact (known_turn hprev).mpr ((found_progress d q).1.sws c hc).2.1

/-- A switch that is not refused at its turn joins. -/
theorem same_of_not_refuses {pre post : List Crossed} {c : Crossed}
    (hsws : (Search.found d q).sws = pre ++ c :: post) (h : refuses d q (turn d q pre).table c = false) :
    Same (switched d q).table c.a c.b := by
  have hpre : ∀ c ∈ pre, c ∈ (Search.found d q).sws := fun c hc => hsws ▸ List.mem_append_left _ hc
  have hc : c ∈ (Search.found d q).sws := hsws ▸ List.mem_append_right _ List.mem_cons_self
  have hstep : Same (turn d q (pre ++ [c])).table c.a c.b := by
    rw [turn_append, if_neg (Bool.eq_false_iff.mp h)]
    exact same_union_self (turn_table hpre).1 ((known_turn hpre).mpr ((found_progress d q).1.sws c hc).2.1)
  have hsplit : switched d q = turn d q ((pre ++ [c]) ++ post) := by
    rw [switched, hsws, List.append_assoc, List.singleton_append]
    rfl
  rw [hsplit]
  refine turn_mono (fun c' hc' => ?_) hstep
  rwa [hsws, ← List.singleton_append, ← List.append_assoc]

/-- A relation holds what is joined at a turn when it holds the wires and each switch that was not refused. -/
theorem turn_le {R : Seg → Seg → Prop} (hwire : ∀ x y, Wire d x y → EqvGen R x y)
    (hstep : ∀ pre c post, (Search.found d q).sws = pre ++ c :: post →
      (∀ x y, Same (turn d q pre).table x y → EqvGen R x y) →
      refuses d q (turn d q pre).table c = false → EqvGen R c.a c.b)
    {pre post : List Crossed} (hsws : (Search.found d q).sws = pre ++ post) {x y : Seg}
    (h : Same (turn d q pre).table x y) : EqvGen R x y := by
  induction pre using List.reverseRecOn generalizing post x y with
  | nil => exact eqvGen_le hwire (same_found.mp h)
  | append_singleton pre c ih =>
    rw [List.append_assoc, List.singleton_append] at hsws
    have hpre : ∀ c ∈ pre, c ∈ (Search.found d q).sws := fun c hc => hsws ▸ List.mem_append_left _ hc
    have hc : c ∈ (Search.found d q).sws := hsws ▸ List.mem_append_right _ List.mem_cons_self
    rw [turn_append] at h
    split at h
    · exact ih hsws h
    · rename_i hrefuses
      have hb := (known_turn hpre).mpr ((found_progress d q).1.sws c hc).2.1
      refine eqvGen_le (fun x y hxy => ?_) ((same_union (turn_table hpre).1 hb).mp h)
      rcases hxy with hxy | ⟨rfl, rfl⟩
      · exact ih hsws hxy
      · exact hstep pre c post hsws (fun x y hxy => ih hsws hxy) (Bool.eq_false_iff.mpr hrefuses)

theorem mem_skip_turn {pre : List Crossed} {p : Key × Seg} : p ∈ (turn d q pre).skip ↔
    ∃ pre' c post, pre = pre' ++ c :: post ∧ refuses d q (turn d q pre').table c = false ∧
      (p = (c.key, c.a) ∨ p = (c.key, c.b)) := by
  induction pre using List.reverseRecOn with
  | nil => simp [turn, switchJoins]
  | append_singleton pre c ih =>
    rw [turn_append]
    constructor
    · intro h
      split at h
      · obtain ⟨pre', c', post, rfl, hrest⟩ := ih.mp h
        exact ⟨pre', c', post ++ [c], by simp, hrest⟩
      · rename_i hrefuses
        rcases List.mem_append.mp h with h | h
        · obtain ⟨pre', c', post, rfl, hrest⟩ := ih.mp h
          exact ⟨pre', c', post ++ [c], by simp, hrest⟩
        · exact ⟨pre, c, [], rfl, Bool.eq_false_iff.mpr hrefuses, by simpa using h⟩
    · rintro ⟨pre', c', post, heq, hnot, hp⟩
      -- the switch is the last one or it is before it
      rcases List.eq_nil_or_concat post with rfl | ⟨post, last, rfl⟩
      · obtain ⟨rfl, hlast⟩ := List.append_inj' heq rfl
        obtain rfl : c = c' := List.singleton_inj.mp hlast
        rw [if_neg (Bool.eq_false_iff.mp hnot)]
        exact List.mem_append_right _ (by simpa using hp)
      · rw [List.concat_eq_append, ← List.cons_append, ← List.append_assoc] at heq
        obtain ⟨rfl, _⟩ := List.append_inj' heq rfl
        have hmem := ih.mpr ⟨pre', c', post, rfl, hnot, hp⟩
        split
        · exact hmem
        · exact List.mem_append_left _ hmem

end Switches

/-! ## Copies -/

section Copies

variable (d : Design) (q : Queueing)

/-- All wires and all switches. -/
def Linked (x y : Seg) : Prop := Wire d x y ∨ Met d x ∧ ∃ k ent, SwitchAt d k ent x y

/-- What drives a bit beside a copy, when every switch on it has joined. -/
def Drives (k : Key) (s : Seg) : Prop :=
  tied d s = true ∨ ∃ t ∈ (d.index s.scope).touches, t.on s.bit = true ∧ t.copy s k = false ∧
    (t.what = .drv ∨ t.what = .force ∨ t.what = .release)

def Reads (k : Key) (s : Seg) : Prop :=
  ∃ t ∈ (d.index s.scope).touches, t.on s.bit = true ∧ t.copy s k = false ∧ t.what = .rd

/-- When a copy joins: nothing that any switch leads to from the buffer drives it, and no cut port there can drive
what is read, nor is an output. -/
def Joinable (p : Key × Seg × Seg) : Prop :=
  BufferAt d p.1 p.2.1 p.2.2 ∧ Met d p.2.1 ∧ ¬ EqvGen (Linked d) p.2.1 p.2.2 ∧
    (∀ s, EqvGen (Linked d) p.2.1 s → ¬ Drives d p.1 s) ∧
    ∀ pb ∈ d.portBits, EqvGen (Linked d) p.2.1 pb.seg → pb.drivable = true →
      pb.port.shellDir ≠ .output ∧ ∀ s, EqvGen (Linked d) p.2.1 s → ¬ Reads d p.1 s

variable {d q} {k : Key} {x y s : Seg} {t : Touch}

theorem wired_symm (h : Wired d x y) : Wired d y x := by
  rcases h with h | h | h | h
  · exact .inr (.inl h)
  · exact .inl h
  · exact .inr (.inr (.inr h))
  · exact .inr (.inr (.inl h))

theorem met_of_wired (h : Wired d x y) : Met d x ↔ Met d y :=
  ⟨fun hx => hx.next (wire_mem_edges.mpr h), fun hy => hy.next (wire_mem_edges.mpr (wired_symm h))⟩

theorem met_of_switchAt {ent : Ent} (h : SwitchAt d k ent x y) : Met d x ↔ Met d y := by
  obtain ⟨sid, stmt⟩ := k
  constructor
  · intro hx
    obtain rfl : x.scope = sid := h.1
    exact hx.next (switch_mem_edges.mpr (.inl h))
  · intro hy
    obtain rfl : y.scope = sid := h.2.1
    exact hy.next (switch_mem_edges.mpr (.inr h))

theorem met_of_linked (h : EqvGen (Linked d) x y) : Met d x ↔ Met d y := by
  refine eqvGen_closed (fun x y hxy => ?_) h
  rcases hxy with hxy | ⟨_, _, _, hxy⟩
  · exact met_of_wired hxy.2
  · exact met_of_switchAt hxy

theorem mem_touching : t ∈ d.touching s ↔ t.on s.bit = true ∧
    (t ∈ (d.index s.scope).touches ∨ ∃ sw ∈ (d.index s.scope).switches, t ∈ sw.touches) := by
  rw [Design.touching, Index.touching, List.mem_filter, List.mem_append, List.mem_flatMap, and_comm]

theorem touches_switch {sw : Switch} (h : t ∈ sw.touches) : t.stmt = some sw.stmt ∧ t.strength = .strong := by
  simp only [Switch.touches, List.mem_flatMap, List.mem_cons, List.not_mem_nil, or_false] at h
  obtain ⟨b, _, rfl | rfl⟩ := h
  · exact ⟨rfl, rfl⟩
  · exact ⟨rfl, rfl⟩

theorem on_switch {sw : Switch} {b : Bit} (h : t ∈ sw.touches) (hon : t.on b = true) : b = sw.a ∨ b = sw.b := by
  simp only [Switch.touches, List.mem_flatMap, List.mem_cons, List.not_mem_nil, or_false] at h
  obtain ⟨b', hb', ht⟩ := h
  have hbit : b = b' := by
    have hsame : b'.1 = b.1 ∧ b.2 = b'.2 := by
      rcases ht with rfl | rfl
      · simpa [Touch.on] using hon
      · simpa [Touch.on] using hon
    exact Prod.ext hsame.1.symm hsame.2
  exact hbit ▸ hb'

/-- A supply driver is a driver beside any copy. -/
theorem drives_of_suppliedAt {pb src : Seg} (h : suppliedAt d s = true) (hbuf : BufferAt d k pb src) :
    Drives d k s := by
  obtain ⟨t, ht, hsup⟩ := List.any_eq_true.mp h
  obtain ⟨hon, ht⟩ := mem_touching.mp ht
  have hwhat : t.what = .drv ∧ (t.strength = .supply1 ∨ t.strength = .supply0) := by
    simpa [Touch.supply] using hsup
  rcases ht with ht | ⟨sw, _, ht⟩
  · refine .inr ⟨t, ht, hon, ?_, .inl hwhat.1⟩
    by_contra hcopy
    have hboth : s.scope = k.1 ∧ t.stmt = some k.2 := by simpa [Touch.copy] using hcopy
    exact (d.index k.1).supply_stmt t (hboth.1 ▸ ht) hsup _ hbuf.2.2 hboth.2
  · rw [(touches_switch ht).2] at hwhat
    rcases hwhat.2 with h | h
    · cases h
    · cases h

/-- The switches lead nowhere that the joins do not. -/
theorem linked_of_switched (h : Same (switched d q).table x y) : EqvGen (Linked d) x y := by
  have hall : (Search.found d q).sws = (Search.found d q).sws ++ [] := (List.append_nil _).symm
  refine turn_le (fun x y hxy => .rel x y (.inl hxy)) ?_ hall h
  intro pre c post hsws _ _
  have hc : c ∈ (Search.found d q).sws := hsws ▸ List.mem_append_right _ List.mem_cons_self
  obtain ⟨ha, hb, hat | hat⟩ := (found_progress d q).1.sws c hc
  · exact .rel _ _ (.inr ⟨ha, _, _, hat⟩)
  · exact .symm _ _ (.rel _ _ (.inr ⟨hb, _, _, hat⟩))

theorem linked_of_turn {pre post : List Crossed} (hsws : (Search.found d q).sws = pre ++ post)
    (h : Same (turn d q pre).table x y) : EqvGen (Linked d) x y := by
  apply linked_of_switched (q := q)
  have hmono : Same (turn d q (pre ++ post)).table x y := turn_mono (fun c hc => hsws ▸ hc) h
  rwa [← hsws] at hmono

/-- A switch that was refused is a driver of its ends still. -/
theorem not_mem_skip {pre post : List Crossed} {c : Crossed} (hsws : (Search.found d q).sws = pre ++ c :: post)
    (h : refuses d q (turn d q pre).table c = true) : (c.key, s) ∉ (switched d q).skip := by
  intro hmem
  obtain ⟨pre', c', post', heq, hnot, hp⟩ := mem_skip_turn.mp hmem
  have hkey : c.key = c'.key := by
    rcases hp with hp | hp
    · exact congrArg Prod.fst hp
    · exact congrArg Prod.fst hp
  -- the keys are distinct, so both are the same turn
  have hnodup := (found_progress d q).1.sws_nodup
  have hlength : pre.length = pre'.length := by
    have hget : ((Search.found d q).sws.map Crossed.key)[pre.length]? = some c.key := by
      rw [hsws]
      simp
    have hget' : ((Search.found d q).sws.map Crossed.key)[pre'.length]? = some c.key := by
      rw [heq, hkey]
      simp
    have hlt : pre.length < ((Search.found d q).sws.map Crossed.key).length := by
      rw [hsws]
      simp
    exact (List.getElem?_inj hlt hnodup).mp (hget.trans hget'.symm)
  obtain ⟨rfl, hcons⟩ := List.append_inj (hsws.symm.trans heq) hlength
  obtain ⟨rfl, _⟩ := List.cons_eq_cons.mp hcons
  rw [h] at hnot
  cases hnot

theorem switched_of_wire (h : Wire d x y) : Same (switched d q).table x y := by
  have hfirst : Same (turn d q []).table x y := same_found.mpr (.rel x y h)
  exact turn_mono (fun _ hc => hc) hfirst

/-- The turn of a switch. -/
theorem exists_turn {ent : Ent} (h : SwitchAt d k ent x y) (hx : Met d x) :
    ∃ pre c post, (Search.found d q).sws = pre ++ c :: post ∧ c.key = k ∧ c.ent = ent ∧
      (c.a = x ∧ c.b = y ∨ c.a = y ∧ c.b = x) := by
  obtain ⟨c, hc, hswitch⟩ := crossed_of_switchAt (q := q) h (.inl hx)
  obtain ⟨pre, post, hsws⟩ := List.append_of_mem hc
  exact ⟨pre, c, post, hsws, hswitch⟩

theorem mem_skip_of_not_refuses {pre post : List Crossed} {c : Crossed}
    (hsws : (Search.found d q).sws = pre ++ c :: post) (h : refuses d q (turn d q pre).table c = false)
    (hs : s = c.a ∨ s = c.b) : (c.key, s) ∈ (switched d q).skip := by
  refine mem_skip_turn.mpr ⟨pre, c, post, hsws, h, ?_⟩
  rcases hs with rfl | rfl
  · exact .inl rfl
  · exact .inr rfl

/-- What no switch has done to a bit is kept. -/
theorem mem_kept_of_touches (ht : t ∈ (d.index s.scope).touches) (hon : t.on s.bit = true) :
    t ∈ kept d (switched d q).skip s := by
  refine List.mem_filter.mpr ⟨mem_touching.mpr ⟨hon, .inl ht⟩, ?_⟩
  split
  · rename_i stmt hstmt
    refine decide_eq_true fun hskip => ?_
    obtain ⟨pre, c, post, hsws, _, hp⟩ := mem_skip_turn.mp hskip
    have hc : c ∈ (Search.found d q).sws := by
      rw [show (Search.found d q).sws = _ from hsws]
      exact List.mem_append_right _ List.mem_cons_self
    have hkey : c.key = (s.scope, stmt) := by
      rcases hp with hp | hp
      · exact (congrArg Prod.fst hp).symm
      · exact (congrArg Prod.fst hp).symm
    rcases ((found_progress d q).1.sws c hc).2.2 with hat | hat
    · rw [hkey] at hat
      exact (d.index s.scope).touches_stmt t ht _ hat.2.2 hstmt
    · rw [hkey] at hat
      exact (d.index s.scope).touches_stmt t ht _ hat.2.2 hstmt
  · rfl

section Quiet

variable {pb src : Seg} (hbuf : BufferAt d k pb src) (hquiet : ∀ s, EqvGen (Linked d) pb s → ¬ Drives d k s)

include hbuf hquiet

theorem not_refuses_of_quiet {pre post : List Crossed} {c : Crossed}
    (hsws : (Search.found d q).sws = pre ++ c :: post) (hc : EqvGen (Linked d) pb c.a) :
    refuses d q (turn d q pre).table c = false := by
  rw [Bool.eq_false_iff, Ne, refuses_iff]
  rintro ⟨_, _, s, _, hsame, hsup⟩
  have hmem : c ∈ (Search.found d q).sws := hsws ▸ List.mem_append_right _ List.mem_cons_self
  have hends : EqvGen (Linked d) c.a c.b := by
    obtain ⟨ha, hb, hat | hat⟩ := (found_progress d q).1.sws c hmem
    · exact .rel _ _ (.inr ⟨ha, _, _, hat⟩)
    · exact .symm _ _ (.rel _ _ (.inr ⟨hb, _, _, hat⟩))
  refine hquiet s ?_ (drives_of_suppliedAt hsup hbuf)
  rcases hsame with hsame | hsame
  · exact hc.trans _ _ _ (linked_of_turn hsws hsame)
  · exact (hc.trans _ _ _ hends).trans _ _ _ (linked_of_turn hsws hsame)

/-- Where nothing drives, every switch joins. -/
theorem skip_of_quiet {ent : Ent} {stmt : Key} (h : SwitchAt d stmt ent x y) (hx : EqvGen (Linked d) pb x)
    (hmet : Met d x) :
    Same (switched d q).table x y ∧ (stmt, x) ∈ (switched d q).skip ∧ (stmt, y) ∈ (switched d q).skip := by
  obtain ⟨pre, c, post, hsws, rfl, rfl, hends⟩ := exists_turn (q := q) h hmet
  have hy : EqvGen (Linked d) pb y := hx.trans _ _ _ (.rel _ _ (.inr ⟨hmet, _, _, h⟩))
  have hnot : refuses d q (turn d q pre).table c = false := by
    refine not_refuses_of_quiet hbuf hquiet hsws ?_
    rcases hends with ⟨rfl, rfl⟩ | ⟨rfl, rfl⟩
    · exact hx
    · exact hy
  have hsame := same_of_not_refuses hsws hnot
  rcases hends with ⟨rfl, rfl⟩ | ⟨rfl, rfl⟩
  · exact ⟨hsame, mem_skip_of_not_refuses hsws hnot (.inl rfl), mem_skip_of_not_refuses hsws hnot (.inr rfl)⟩
  · exact ⟨hsame.symm, mem_skip_of_not_refuses hsws hnot (.inr rfl), mem_skip_of_not_refuses hsws hnot (.inl rfl)⟩

theorem same_iff_of_quiet : Same (switched d q).table pb s ↔ EqvGen (Linked d) pb s := by
  refine ⟨linked_of_switched, fun h => ?_⟩
  refine (eqvGen_closed (S := fun s => Same (switched d q).table pb s) (fun x y hxy => ?_) h).mp rfl
  rcases hxy with hxy | ⟨hmet, stmt, ent, hxy⟩
  · exact ⟨fun hx => hx.trans (switched_of_wire hxy), fun hy => hy.trans (switched_of_wire hxy).symm⟩
  · have hlink : EqvGen (Linked d) x y := .rel x y (.inr ⟨hmet, stmt, ent, hxy⟩)
    constructor
    · intro hx
      exact hx.trans (skip_of_quiet (q := q) hbuf hquiet hxy (linked_of_switched hx) hmet).1
    · intro hy
      have hx := (linked_of_switched hy).trans _ _ _ (.symm _ _ hlink)
      exact hy.trans (skip_of_quiet (q := q) hbuf hquiet hxy hx hmet).1.symm

theorem mem_kept_of_quiet (hs : EqvGen (Linked d) pb s) (hmet : Met d pb) :
    t ∈ kept d (switched d q).skip s ↔ t ∈ (d.index s.scope).touches ∧ t.on s.bit = true := by
  refine ⟨fun h => ?_, fun h => mem_kept_of_touches h.1 h.2⟩
  obtain ⟨htouch, hkeep⟩ := List.mem_filter.mp h
  obtain ⟨hon, ht | ⟨sw, hsw, ht⟩⟩ := mem_touching.mp htouch
  · exact ⟨ht, hon⟩
  · rw [(touches_switch ht).1] at hkeep
    refine absurd ?_ (of_decide_eq_true hkeep)
    have hmets := (met_of_linked hs).mp hmet
    rcases on_switch ht hon with hbit | hbit
    · have hat : SwitchAt d (s.scope, sw.stmt) sw.ent s ⟨s.scope, sw.b⟩ := ⟨rfl, rfl, hbit ▸ hsw⟩
      exact (skip_of_quiet hbuf hquiet hat hs hmets).2.1
    · have hat : SwitchAt d (s.scope, sw.stmt) sw.ent ⟨s.scope, sw.a⟩ s := ⟨rfl, rfl, hbit ▸ hsw⟩
      have hmeta := (met_of_switchAt hat).mpr hmets
      have hlink : EqvGen (Linked d) ⟨s.scope, sw.a⟩ s := .rel _ _ (.inr ⟨hmeta, _, _, hat⟩)
      exact (skip_of_quiet hbuf hquiet hat (hs.trans _ _ _ (.symm _ _ hlink)) hmeta).2.2

end Quiet

theorem pbSide_driven {skip : List (Key × Seg)} {segs : List Seg} : (pbSide d skip k segs).1 = true ↔
    ∃ s ∈ segs, tied d s = true ∨ ∃ t ∈ kept d skip s, t.copy s k = false ∧
      (t.what = .drv ∨ t.what = .force ∨ t.what = .release) := by
  simp only [pbSide, List.any_eq_true, Bool.or_eq_true, Bool.and_eq_true, Bool.not_eq_true', decide_eq_true_eq,
    or_assoc]

theorem pbSide_read {skip : List (Key × Seg)} {segs : List Seg} : (pbSide d skip k segs).2 = true ↔
    ∃ s ∈ segs, ∃ t ∈ kept d skip s, t.copy s k = false ∧ t.what = .rd := by
  simp only [pbSide, List.any_eq_true, Bool.and_eq_true, Bool.not_eq_true', decide_eq_true_eq]

/-- The bits of a class. -/
theorem mem_members : s ∈ (Search.found d q).order.filter (fun s => find (switched d q).table s =
    find (switched d q).table x) ↔ Met d s ∧ Same (switched d q).table x s := by
  rw [List.mem_filter, decide_eq_true_eq]
  exact and_congr known_found eq_comm

/-- A driver that some switch leads to drives the class, or a switch that leads there was refused and drives it. -/
theorem driven_of_drives {pb src : Seg} (hbuf : BufferAt d k pb src) (hmet : Met d pb)
    (hlink : EqvGen (Linked d) pb s) (hdrives : Drives d k s) :
    (pbSide d (switched d q).skip k ((Search.found d q).order.filter fun s =>
      find (switched d q).table s = find (switched d q).table pb)).1 = true := by
  rw [pbSide_driven]
  by_cases hsame : Same (switched d q).table pb s
  · refine ⟨s, mem_members.mpr ⟨(met_of_linked hlink).mp hmet, hsame⟩, hdrives.imp_right ?_⟩
    rintro ⟨t, ht, hon, hcopy, hwhat⟩
    exact ⟨t, mem_kept_of_touches ht hon, hcopy, hwhat⟩
  · -- some switch on the way is between the class and the rest
    have hcross : ∃ x y stmt ent, (SwitchAt d stmt ent x y ∨ SwitchAt d stmt ent y x) ∧ Met d x ∧
        Same (switched d q).table pb x ∧ ¬ Same (switched d q).table pb y := by
      by_contra hno
      refine hsame ((eqvGen_closed (S := fun s => Same (switched d q).table pb s) (fun x y hxy => ?_) hlink).mp rfl)
      rcases hxy with hxy | ⟨hx, stmt, ent, hxy⟩
      · exact ⟨fun h => h.trans (switched_of_wire hxy), fun h => h.trans (switched_of_wire hxy).symm⟩
      · constructor
        · intro hsx
          by_contra hsy
          exact hno ⟨x, y, stmt, ent, .inl hxy, hx, hsx, hsy⟩
        · intro hsy
          by_contra hsx
          exact hno ⟨y, x, stmt, ent, .inr hxy, (met_of_switchAt hxy).mp hx, hsy, hsx⟩
    obtain ⟨x, y, ⟨sid, stmt⟩, ent, hat, hx, hsx, hsy⟩ := hcross
    have hrefused : ((sid, stmt), x) ∉ (switched d q).skip := by
      obtain ⟨pre, c, post, hsws, hkey, hends⟩ : ∃ pre c post, (Search.found d q).sws = pre ++ c :: post ∧
          c.key = (sid, stmt) ∧ (c.a = x ∧ c.b = y ∨ c.a = y ∧ c.b = x) := by
        rcases hat with hat | hat
        · obtain ⟨pre, c, post, hsws, hkey, _, hends⟩ := exists_turn (q := q) hat hx
          exact ⟨pre, c, post, hsws, hkey, hends⟩
        · obtain ⟨pre, c, post, hsws, hkey, _, hends⟩ :=
            exists_turn (q := q) hat ((met_of_switchAt hat).mpr hx)
          exact ⟨pre, c, post, hsws, hkey, hends.symm⟩
      rw [← hkey]
      refine not_mem_skip hsws (Bool.not_eq_false _ ▸ fun hnot => hsy ?_)
      have hsame := same_of_not_refuses hsws hnot
      rcases hends with ⟨rfl, rfl⟩ | ⟨rfl, rfl⟩
      · exact hsx.trans hsame
      · exact hsx.trans hsame.symm
    obtain ⟨rfl, sw, hsw, rfl, hbit⟩ : x.scope = sid ∧ ∃ sw ∈ (d.index x.scope).switches, sw.stmt = stmt ∧
        x.bit ∈ [sw.a, sw.b] := by
      rcases hat with ⟨rfl, _, hsw⟩ | ⟨_, rfl, hsw⟩
      · exact ⟨rfl, _, hsw, rfl, List.mem_cons_self⟩
      · exact ⟨rfl, _, hsw, rfl, List.mem_cons_of_mem _ List.mem_cons_self⟩
    have htouch : (⟨some sw.stmt, .drv, .strong, x.bit.1, some [x.bit.2]⟩ : Touch) ∈ sw.touches :=
      List.mem_flatMap.mpr ⟨x.bit, hbit, List.mem_cons_self⟩
    refine ⟨x, mem_members.mpr ⟨hx, hsx⟩, .inr ⟨_, List.mem_filter.mpr
      ⟨mem_touching.mpr ⟨by simp [Touch.on], .inr ⟨sw, hsw, htouch⟩⟩, decide_eq_true hrefused⟩, ?_, .inl rfl⟩⟩
    by_contra hcopy
    have hboth : x.scope = k.1 ∧ sw.stmt = k.2 := by simpa [Touch.copy] using hcopy
    exact (d.index k.1).buffers_stmt _ hbuf.2.2 sw (hboth.1 ▸ hsw) hboth.2.symm

theorem pbJoin_iff {j : Joining} {p : Key × Seg × Seg} : pbJoin d (Search.found d q).order j p = true ↔
    let side := pbSide d j.skip p.1 ((Search.found d q).order.filter fun s => find j.table s = find j.table p.2.1)
    ¬ Same j.table p.2.1 p.2.2 ∧ side.1 = false ∧
      ∀ pb ∈ d.portBits, Same j.table p.2.1 pb.seg → pb.drivable = true →
        pb.port.shellDir ≠ .output ∧ side.2 = false := by
  unfold pbJoin
  dsimp only
  generalize pbSide d j.skip p.1 _ = side
  by_cases hsame : find j.table p.2.1 = find j.table p.2.2
  · rw [if_pos hsame]
    exact ⟨fun h => Bool.noConfusion h, fun h => absurd hsame h.1⟩
  · rw [if_neg hsame]
    obtain ⟨driven, reads⟩ := side
    cases driven with
    | true => exact ⟨fun h => Bool.noConfusion h, fun h => Bool.noConfusion h.2.1⟩
    | false =>
      rw [if_neg Bool.false_ne_true, List.isEmpty_iff, List.append_eq_nil_iff]
      simp only [List.filter_eq_nil_iff, List.mem_filter, decide_eq_true_eq, and_imp, Same,
        @eq_comm _ (find j.table p.2.1)]
      constructor
      · rintro ⟨houts, hbad⟩
        refine ⟨fun h => hsame h.symm, trivial, fun pb hpb hclass hdrivable => ⟨houts pb hpb hclass hdrivable, ?_⟩⟩
        cases reads with
        | false => rfl
        | true =>
          have hmem : pb ∈ (d.portBits.filter fun pb => find j.table pb.seg = find j.table p.2.1).filter
              PortBit.drivable :=
            List.mem_filter.mpr ⟨List.mem_filter.mpr ⟨hpb, decide_eq_true hclass⟩, hdrivable⟩
          rw [if_pos rfl] at hbad
          rw [hbad] at hmem
          cases hmem
      · rintro ⟨_, _, hports⟩
        refine ⟨fun pb hpb hclass hdrivable => (hports pb hpb hclass hdrivable).1, ?_⟩
        cases reads with
        | false => rfl
        | true =>
          rw [if_pos rfl, List.filter_eq_nil_iff]
          intro pb hpb hdrivable
          obtain ⟨hpb, hclass⟩ := List.mem_filter.mp hpb
          cases (hports pb hpb (of_decide_eq_true hclass) hdrivable).2

/-- Which copies join does not depend on the order of the search. -/
theorem mem_joinedBuffers {p : Key × Seg × Seg} : p ∈ joinedBuffers d q ↔ Joinable d p := by
  rw [joinedBuffers, List.mem_filter, mem_pairs_found, pbJoin_iff, Joinable, and_assoc]
  refine and_congr_right fun hbuf => and_congr_right fun hmet => ?_
  dsimp only
  by_cases hquiet : ∀ s, EqvGen (Linked d) p.2.1 s → ¬ Drives d p.1 s
  · have hsame : ∀ s, Same (switched d q).table p.2.1 s ↔ EqvGen (Linked d) p.2.1 s :=
      fun s => same_iff_of_quiet hbuf hquiet
    have hkept : ∀ s, EqvGen (Linked d) p.2.1 s → ∀ t, t ∈ kept d (switched d q).skip s ↔
        t ∈ (d.index s.scope).touches ∧ t.on s.bit = true :=
      fun s hs t => mem_kept_of_quiet hbuf hquiet hs hmet
    have hdriven : (pbSide d (switched d q).skip p.1 ((Search.found d q).order.filter fun s =>
        find (switched d q).table s = find (switched d q).table p.2.1)).1 = false := by
      rw [Bool.eq_false_iff, Ne, pbSide_driven]
      rintro ⟨s, hs, hdrives⟩
      have hlink := (hsame s).mp (mem_members.mp hs).2
      refine hquiet s hlink (hdrives.imp_right ?_)
      rintro ⟨t, ht, hcopy, hwhat⟩
      obtain ⟨ht, hon⟩ := (hkept s hlink t).mp ht
      exact ⟨t, ht, hon, hcopy, hwhat⟩
    have hread : (pbSide d (switched d q).skip p.1 ((Search.found d q).order.filter fun s =>
        find (switched d q).table s = find (switched d q).table p.2.1)).2 = false ↔
        ∀ s, EqvGen (Linked d) p.2.1 s → ¬ Reads d p.1 s := by
      rw [Bool.eq_false_iff, Ne, pbSide_read]
      constructor
      · rintro hno s hlink ⟨t, ht, hon, hcopy, hwhat⟩
        exact hno ⟨s, mem_members.mpr ⟨(met_of_linked hlink).mp hmet, (hsame s).mpr hlink⟩, t,
          (hkept s hlink t).mpr ⟨ht, hon⟩, hcopy, hwhat⟩
      · rintro hno ⟨s, hs, t, ht, hcopy, hwhat⟩
        have hlink := (hsame s).mp (mem_members.mp hs).2
        obtain ⟨ht, hon⟩ := (hkept s hlink t).mp ht
        exact hno s hlink ⟨t, ht, hon, hcopy, hwhat⟩
    rw [hdriven, hread]
    simp only [hsame]
    exact ⟨fun h => ⟨h.1, hquiet, h.2.2⟩, fun h => ⟨h.1, trivial, h.2.2⟩⟩
  · obtain ⟨s, hlink, hdrives⟩ : ∃ s, EqvGen (Linked d) p.2.1 s ∧ Drives d p.1 s := by
      by_contra hno
      exact hquiet fun s hs hdrives => hno ⟨s, hs, hdrives⟩
    have hdriven := driven_of_drives (q := q) hbuf hmet hlink hdrives
    rw [hdriven]
    exact ⟨fun h => (nomatch h.2.1), fun h => absurd h.2.1 hquiet⟩

end Copies

end Vamos.Ams.Nets
