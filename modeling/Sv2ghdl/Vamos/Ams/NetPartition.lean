import Sv2ghdl.Vamos.Ams.NetJoins

/-!
# The electrical nets

The nets that wires, aliases, joined copies and the trans away from any supply make, and when the search finds them:
no tran may be looked at before the alias that brings a supply to one of its ends.
-/

open Relation Classes

namespace Vamos.Ams.Nets

section Electrical

variable (d : Design) (q : Queueing)

def Alias (x y : Seg) : Prop := Met d x ∧ ∃ k, SwitchAt d k .svAlias x y

def Tran (k : Key) (x y : Seg) : Prop := Met d x ∧ SwitchAt d k .svTran x y

/-- What joins whatever the supplies are. -/
def Fixed (x y : Seg) : Prop := Wire d x y ∨ Alias d x y ∨ ∃ p ∈ joinedBuffers d q, p.2 = (x, y)

/-- All that joins when the trans of `J` do. -/
def Joins (J : Key → Prop) (x y : Seg) : Prop := Fixed d q x y ∨ ∃ k, J k ∧ Tran d k x y

def Supplied (R : Seg → Seg → Prop) (x : Seg) : Prop := ∃ s, EqvGen R x s ∧ suppliedAt d s = true

/-- The trans that join are those with no supply on either side, closed under everything else that joins. -/
def Unsupplied (J : Key → Prop) : Prop :=
  ∀ k x y, Tran d k x y → (J k ↔ ¬ Supplied d (Joins d q fun k' => k' ≠ k ∧ J k') x ∧
    ¬ Supplied d (Joins d q fun k' => k' ≠ k ∧ J k') y)

def Electrical (J : Key → Prop) (x y : Seg) : Prop := Met d x ∧ EqvGen (Joins d q J) x y

/-- The bits are in one group of the partition that is computed. -/
def Together (x y : Seg) : Prop := ∃ g ∈ groups d q, x ∈ g ∧ y ∈ g

/-- When a tran has its turn, a supply that reaches one of its ends has reached it, unless its ends are one net
anyway. -/
def InTime : Prop :=
  ∀ pre c post, (Search.found d q).sws = pre ++ c :: post → c.ent = .svTran →
    Supplied d (Fixed d q) c.a ∨ Supplied d (Fixed d q) c.b →
    EqvGen (Fixed d q) c.a c.b ∨
      let t := (turn d q pre).table
      hasSupply d (Search.found d q).order t (find t c.a) = true ∨
        hasSupply d (Search.found d q).order t (find t c.b) = true

variable {d q} {J J' : Key → Prop} {k : Key} {x y : Seg}

/-! ## Supplies -/

theorem Supplied.trans {R : Seg → Seg → Prop} (h : Supplied d R y) (hxy : EqvGen R x y) : Supplied d R x := by
  obtain ⟨s, hs, hsup⟩ := h
  exact ⟨s, hxy.trans _ _ _ hs, hsup⟩

/-- Trans away from any supply bring no supply. -/
theorem supplied_joins (hJ : ∀ k x y, Tran d k x y → J k →
    ¬ Supplied d (Fixed d q) x ∧ ¬ Supplied d (Fixed d q) y) :
    Supplied d (Joins d q J) x ↔ Supplied d (Fixed d q) x := by
  constructor
  · rintro ⟨s, hs, hsup⟩
    refine (eqvGen_closed (S := Supplied d (Fixed d q)) (fun x y hxy => ?_) hs).mpr ⟨s, .refl s, hsup⟩
    rcases hxy with hxy | ⟨k, hk, hxy⟩
    · exact ⟨fun h => h.trans (.symm _ _ (.rel _ _ hxy)), fun h => h.trans (.rel _ _ hxy)⟩
    · obtain ⟨hx, hy⟩ := hJ k x y hxy hk
      exact ⟨fun h => absurd h hx, fun h => absurd h hy⟩
  · rintro ⟨s, hs, hsup⟩
    exact ⟨s, eqvGen_le (fun x y hxy => .rel x y (.inl hxy)) hs, hsup⟩

/-- The trans that join are known from what joins whatever the supplies are. -/
theorem unsupplied_iff : Unsupplied d q J ↔ ∀ k x y, Tran d k x y →
    (J k ↔ ¬ Supplied d (Fixed d q) x ∧ ¬ Supplied d (Fixed d q) y) := by
  constructor
  · intro hJ
    have hfixed : ∀ k x y, Tran d k x y → J k → ¬ Supplied d (Fixed d q) x ∧ ¬ Supplied d (Fixed d q) y := by
      intro k x y hxy hk
      obtain ⟨hx, hy⟩ := (hJ k x y hxy).mp hk
      have hle : ∀ x, Supplied d (Fixed d q) x → Supplied d (Joins d q fun k' => k' ≠ k ∧ J k') x := by
        rintro x ⟨s, hs, hsup⟩
        exact ⟨s, eqvGen_le (fun x y hxy => .rel x y (.inl hxy)) hs, hsup⟩
      exact ⟨fun h => hx (hle x h), fun h => hy (hle y h)⟩
    intro k x y hxy
    rw [hJ k x y hxy, supplied_joins fun k' x y hxy hk => hfixed k' x y hxy hk.2,
      supplied_joins fun k' x y hxy hk => hfixed k' x y hxy hk.2]
  · intro hJ k x y hxy
    rw [hJ k x y hxy, supplied_joins fun k' x y hxy hk => (hJ k' x y hxy).mp hk.2,
      supplied_joins fun k' x y hxy hk => (hJ k' x y hxy).mp hk.2]

/-- A bit with a supply is joined by no tran. -/
theorem fixed_of_supplied (hJ : Unsupplied d q J) (hx : Supplied d (Fixed d q) x)
    (h : EqvGen (Joins d q J) x y) : EqvGen (Fixed d q) x y := by
  refine (eqvGen_closed (S := EqvGen (Fixed d q) x) (fun u v huv => ?_) h).mp (.refl x)
  rcases huv with huv | ⟨k, hk, huv⟩
  · exact ⟨fun h => h.trans _ _ _ (.rel _ _ huv), fun h => h.trans _ _ _ (.symm _ _ (.rel _ _ huv))⟩
  · obtain ⟨hu, hv⟩ := (unsupplied_iff.mp hJ k u v huv).mp hk
    have hfrom : ∀ z, EqvGen (Fixed d q) x z → Supplied d (Fixed d q) z := fun z hz => hx.trans (.symm _ _ hz)
    exact ⟨fun h => absurd (hfrom u h) hu, fun h => absurd (hfrom v h) hv⟩

/-! ## The partition -/

theorem switched_table :
    Rooted (switched d q).table ∧ (switched d q).table.map Prod.fst = (Search.found d q).order :=
  turn_table fun _ hc => hc

theorem known_switched : Known (switched d q).table x ↔ Met d x := known_turn fun _ hc => hc

theorem classes_spec : (∀ x, Known (classes d q) x ↔ Met d x) ∧ ∀ x y, Same (classes d q) x y ↔
    EqvGen (fun x y => Same (switched d q).table x y ∨ ∃ p ∈ joinedBuffers d q, p.2 = (x, y)) x y := by
  obtain ⟨_, hkeys, hsame⟩ := foldl_union_spec (f := fun p : Key × Seg × Seg => p.2.1) (g := fun p => p.2.2)
    (l := joinedBuffers d q) (switched_table (d := d) (q := q)).1 fun p hp => by
      obtain ⟨_, ha, hb⟩ := (found_progress d q).1.pairs p (List.mem_of_mem_filter hp)
      exact ⟨known_switched.mpr ha, known_switched.mpr hb⟩
  refine ⟨fun x => ?_, fun x y => ?_⟩
  · rw [Known, show (classes d q).map Prod.fst = _ from hkeys]
    exact known_switched
  · rw [show Same (classes d q) x y ↔ _ from hsame x y]
    simp only [Prod.ext_iff, eq_comm]

theorem together_iff : Together d q x y ↔ Met d x ∧ Met d y ∧ Same (classes d q) x y := by
  unfold Together groups
  simp only [List.mem_map, List.mem_eraseDups, exists_exists_and_eq_and, List.mem_filter, decide_eq_true_eq]
  constructor
  · rintro ⟨_, _, ⟨hx, hxr⟩, hy, hyr⟩
    exact ⟨known_found.mp hx, known_found.mp hy, hxr.trans hyr.symm⟩
  · rintro ⟨hx, hy, hsame⟩
    exact ⟨x, known_found.mpr hx, ⟨known_found.mpr hx, rfl⟩, known_found.mpr hy, hsame.symm⟩

theorem met_of_joins (h : EqvGen (Joins d q J) x y) : Met d x ↔ Met d y := by
  refine eqvGen_closed (fun x y hxy => ?_) h
  rcases hxy with (hxy | ⟨_, _, hxy⟩ | ⟨p, hp, heq⟩) | ⟨_, _, _, hxy⟩
  · exact met_of_wired hxy.2
  · exact met_of_switchAt hxy
  · obtain ⟨_, ha, hb⟩ := (found_progress d q).1.pairs p (List.mem_of_mem_filter hp)
    rw [heq] at ha hb
    exact ⟨fun _ => hb, fun _ => ha⟩
  · exact met_of_switchAt hxy

/-- What is joined at a turn is joined electrically, when every tran has its turn in time. -/
theorem joins_of_turn (hJ : Unsupplied d q J) (hin : InTime d q) {pre post : List Crossed}
    (hsws : (Search.found d q).sws = pre ++ post) (h : Same (turn d q pre).table x y) :
    EqvGen (Joins d q J) x y := by
  refine turn_le (fun x y hxy => .rel x y (.inl (.inl hxy))) (fun pre c post hsws hprev hnot => ?_) hsws h
  have hc : c ∈ (Search.found d q).sws := hsws ▸ List.mem_append_right _ List.mem_cons_self
  obtain ⟨ha, hb, hat⟩ := (found_progress d q).1.sws c hc
  cases hent : c.ent with
  | svAlias =>
    rw [hent] at hat
    rcases hat with hat | hat
    · exact .rel _ _ (.inl (.inr (.inl ⟨ha, _, hat⟩)))
    · exact .symm _ _ (.rel _ _ (.inl (.inr (.inl ⟨hb, _, hat⟩))))
  | svTran =>
    rw [hent] at hat
    by_cases hsup : Supplied d (Fixed d q) c.a ∨ Supplied d (Fixed d q) c.b
    · rcases hin pre c post hsws hent hsup with hfixed | hturn
      · exact eqvGen_le (fun x y hxy => .rel x y (.inl hxy)) hfixed
      · -- a supply at its turn and no refusal: the ends are one class already
        apply hprev
        by_contra hends
        refine Bool.eq_false_iff.mp hnot (refuses_iff.mpr ⟨hends, hent, ?_⟩)
        rcases hturn with hturn | hturn
        · obtain ⟨s, hs, hsame, hsup⟩ := hasSupply_iff.mp hturn
          exact ⟨s, hs, .inl hsame, hsup⟩
        · obtain ⟨s, hs, hsame, hsup⟩ := hasSupply_iff.mp hturn
          exact ⟨s, hs, .inr hsame, hsup⟩
    · obtain ⟨hna, hnb⟩ := not_or.mp hsup
      rcases hat with hat | hat
      · exact .rel _ _ (.inr ⟨c.key, (unsupplied_iff.mp hJ _ _ _ ⟨ha, hat⟩).mpr ⟨hna, hnb⟩, ha, hat⟩)
      · exact .symm _ _ (.rel _ _ (.inr ⟨c.key, (unsupplied_iff.mp hJ _ _ _ ⟨hb, hat⟩).mpr ⟨hnb, hna⟩, hb, hat⟩))

theorem switched_of_alias (h : Alias d x y) : Same (switched d q).table x y := by
  obtain ⟨hx, k, hat⟩ := h
  obtain ⟨pre, c, post, hsws, _, hent, hends⟩ := exists_turn (q := q) hat hx
  have hnot : refuses d q (turn d q pre).table c = false := by
    rw [Bool.eq_false_iff, Ne, refuses_iff, hent]
    exact fun h => nomatch h.2.1
  have hsame := same_of_not_refuses hsws hnot
  rcases hends with ⟨rfl, rfl⟩ | ⟨rfl, rfl⟩
  · exact hsame
  · exact hsame.symm

theorem classes_of_switched (h : Same (switched d q).table x y) : Same (classes d q) x y :=
  (classes_spec.2 x y).mpr (.rel x y (.inl h))

theorem classes_of_fixed (h : Fixed d q x y) : Same (classes d q) x y := by
  rcases h with h | h | h
  · exact classes_of_switched (switched_of_wire h)
  · exact classes_of_switched (switched_of_alias h)
  · exact (classes_spec.2 x y).mpr (.rel x y (.inr h))

/-- The groups are the electrical nets if and only if every tran has its turn in time. -/
theorem together_iff_electrical (hJ : Unsupplied d q J) :
    (∀ x y, Together d q x y ↔ Electrical d q J x y) ↔ InTime d q := by
  constructor
  · intro h pre c post hsws hent hsup
    have hc : c ∈ (Search.found d q).sws := hsws ▸ List.mem_append_right _ List.mem_cons_self
    obtain ⟨ha, hb, _⟩ := (found_progress d q).1.sws c hc
    cases hrefuses : refuses d q (turn d q pre).table c with
    | true =>
      obtain ⟨_, _, s, hs, hsame | hsame, hs'⟩ := refuses_iff.mp hrefuses
      · exact .inr (.inl (hasSupply_iff.mpr ⟨s, hs, hsame, hs'⟩))
      · exact .inr (.inr (hasSupply_iff.mpr ⟨s, hs, hsame, hs'⟩))
    | false =>
      have hsame := classes_of_switched (same_of_not_refuses hsws hrefuses)
      have hjoin := ((h c.a c.b).mp (together_iff.mpr ⟨ha, hb, hsame⟩)).2
      rcases hsup with hsup | hsup
      · exact .inl (fixed_of_supplied hJ hsup hjoin)
      · exact .inl (.symm _ _ (fixed_of_supplied hJ hsup (.symm _ _ hjoin)))
  · intro hin x y
    rw [together_iff]
    constructor
    · rintro ⟨hx, _, hsame⟩
      refine ⟨hx, eqvGen_le (fun x y hxy => ?_) ((classes_spec.2 x y).mp hsame)⟩
      rcases hxy with hxy | hxy
      · exact joins_of_turn hJ hin (List.append_nil _).symm hxy
      · exact .rel x y (.inl (.inr (.inr hxy)))
    · rintro ⟨hx, hjoin⟩
      refine ⟨hx, (met_of_joins hjoin).mp hx, ?_⟩
      refine same_of_eqvGen ?_ hjoin
      rintro x y (hxy | ⟨k, hk, hx, hat⟩)
      · exact classes_of_fixed hxy
      · obtain ⟨pre, c, post, hsws, hkey, hent, hends⟩ := exists_turn (q := q) hat hx
        have hnone := (unsupplied_iff.mp hJ k x y ⟨hx, hat⟩).mp hk
        have hnot : refuses d q (turn d q pre).table c = false := by
          rw [Bool.eq_false_iff, Ne, refuses_iff]
          rintro ⟨_, _, s, _, hsame, hsup⟩
          have hJ' : ∀ k x y, Tran d k x y → J k → ¬ Supplied d (Fixed d q) x ∧ ¬ Supplied d (Fixed d q) y :=
            fun k x y hxy hk => (unsupplied_iff.mp hJ k x y hxy).mp hk
          have hreach : Supplied d (Fixed d q) c.a ∨ Supplied d (Fixed d q) c.b := by
            rw [← supplied_joins hJ', ← supplied_joins hJ']
            rcases hsame with hsame | hsame
            · exact .inl ⟨s, joins_of_turn hJ hin hsws hsame, hsup⟩
            · exact .inr ⟨s, joins_of_turn hJ hin hsws hsame, hsup⟩
          rcases hends with ⟨rfl, rfl⟩ | ⟨rfl, rfl⟩
          · exact hreach.elim hnone.1 hnone.2
          · exact hreach.elim hnone.2 hnone.1
        have hsame := classes_of_switched (same_of_not_refuses hsws hnot)
        rcases hends with ⟨rfl, rfl⟩ | ⟨rfl, rfl⟩
        · exact hsame
        · exact hsame.symm

end Electrical

end Vamos.Ams.Nets
