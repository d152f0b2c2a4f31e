import Sv2ghdl.Vamos.Netlist.Prune

/-!
# What is left out

`prune` leaves out the subckts that have a problem, those inside them and those that instantiate them, and no others;
and it reports a cycle of instances among the subckts it keeps if there is one.
-/

open Python Relation Vamos.Netlist.Spice

namespace Vamos.Prune.Deck

variable {η : Type} (D : Deck η)

/-! ## What must be left out -/

/-- An X element of the scope has the subckt as its master. -/
def Instantiates (s : D.Scope) (j : Fin D.count) : Prop :=
  ∃ origin name master read, .call origin name master read ∈ D.elements s ∧ D.findSubckt s master = some j

/-- A subckt of the deck: no scope around it is a second definition of a name, nor is it. -/
inductive Declared : Fin D.count → Prop where
  | top {i : Fin D.count} : i ∈ D.out none → Declared i
  | nested {p i : Fin D.count} : Declared p → i ∈ D.out (some p) → Declared i

inductive LeftOut : Fin D.count → Prop where
  | deferred {i : Fin D.count} : D.deferred i ≠ [] → LeftOut i
  | nested {p i : Fin D.count} : D.parent i = some p → LeftOut p → LeftOut i
  | calls {i j : Fin D.count} : D.Instantiates (some i) j → LeftOut j → LeftOut i

/-- The definition itself or one around it. -/
def Within : Fin D.count → Fin D.count → Prop := ReflTransGen fun i p => D.parent i = some p

def Calls (i j : Fin D.count) : Prop := D.Instantiates (some i) j

/-- An instance of a kept subckt in a kept one. -/
def KeptCalls (i j : Fin D.count) : Prop := ¬ D.LeftOut i ∧ D.Calls i j ∧ ¬ D.LeftOut j

/-- The error's path goes from instance to instance through kept subckts, all different, and back to its first one,
    which the instance of the error instantiates. -/
def IsCycle (c : Instance × List (Fin D.count)) : Prop :=
  ∃ path i j, c.2 = path ++ [j] ∧ path.head? = some j ∧ path.getLast? = some i ∧ path.Nodup ∧
    (c.1, j) ∈ D.xrefs (some i) ∧ c.2.IsChain D.KeptCalls

variable {D}

theorem leftOut_of_calls {i j : Fin D.count} (h : TransGen D.Calls i j) (hj : D.LeftOut j) : D.LeftOut i := by
  induction h using TransGen.head_induction_on with
  | single hcall => exact .calls hcall hj
  | head hcall _ ih => exact .calls hcall ih

/-- A subckt is left out when it or one around it has a problem or leads to one that is left out. -/
theorem leftOut_iff {i : Fin D.count} : D.LeftOut i ↔
    ∃ e, D.Within i e ∧ (D.deferred e ≠ [] ∨ ∃ j, TransGen D.Calls e j ∧ D.LeftOut j) := by
  constructor
  · intro h
    induction h with
    | deferred hdef => exact ⟨_, .refl, .inl hdef⟩
    | nested hparent _ ih =>
      obtain ⟨e, hwithin, hwhy⟩ := ih
      exact ⟨e, .head hparent hwithin, hwhy⟩
    | calls hcall hj _ => exact ⟨_, .refl, .inr ⟨_, .single hcall, hj⟩⟩
  · rintro ⟨e, hwithin, hwhy⟩
    have he : D.LeftOut e := by
      rcases hwhy with hdef | ⟨j, hcalls, hj⟩
      · exact .deferred hdef
      · exact leftOut_of_calls hcalls hj
    induction hwithin using ReflTransGen.head_induction_on with
    | refl => exact he
    | head hparent _ ih => exact .nested hparent ih

/-! ## The scopes -/

theorem mem_out {s : D.Scope} {i : Fin D.count} :
    i ∈ D.out s ↔ D.parent i = s ∧ D.subckt s (D.name i) = some i := by
  rw [out, List.mem_filter, decide_eq_true_eq]
  exact and_iff_right (List.mem_finRange i)

theorem mem_out_of_subckt {s : D.Scope} {name : Str} {j : Fin D.count} (h : D.subckt s name = some j) :
    j ∈ D.out s := by
  have hj := List.find?_some h
  rw [decide_eq_true_eq] at hj
  exact mem_out.mpr ⟨hj.1, hj.2 ▸ h⟩

theorem Declared.parent {i p : Fin D.count} (h : D.Declared i) (hp : D.parent i = some p) : D.Declared p := by
  cases h with
  | top hout =>
    rw [(mem_out.mp hout).1] at hp
    cases hp
  | nested hdeclared hout =>
    rw [(mem_out.mp hout).1, Option.some.injEq] at hp
    exact hp ▸ hdeclared

theorem declared_of_mem_out {s : D.Scope} (hs : ∀ p, s = some p → D.Declared p) {i : Fin D.count} (h : i ∈ D.out s) :
    D.Declared i := by
  cases s with
  | none => exact .top h
  | some p => exact .nested (hs p rfl) h

theorem declared_of_mem_chain {s : D.Scope} (hs : ∀ p, s = some p → D.Declared p) :
    ∀ t ∈ D.chain s, ∀ p, t = some p → D.Declared p := by
  fun_induction D.chain s with
  | case1 =>
    intro t ht p hp
    rw [List.mem_singleton.mp ht] at hp
    cases hp
  | case2 i ih => exact List.forall_mem_cons.mpr ⟨hs, ih fun p hp => (hs i rfl).parent hp⟩

theorem declared_of_findSubckt {s : D.Scope} (hs : ∀ p, s = some p → D.Declared p) {name : Str} {j : Fin D.count}
    (h : D.findSubckt s name = some j) : D.Declared j := by
  obtain ⟨t, ht, hj⟩ := List.exists_of_findSome?_eq_some h
  exact declared_of_mem_out (declared_of_mem_chain hs t ht) (mem_out_of_subckt hj)

/-- Every scope from the top level to the subckt is walked into. -/
inductive Walked (D : Deck η) (walked : Fin D.count → Bool) : Fin D.count → Prop where
  | top {i : Fin D.count} : i ∈ D.out none → walked i → Walked D walked i
  | nested {p i : Fin D.count} : Walked D walked p → i ∈ D.out (some p) → walked i → Walked D walked i

section Below

variable {walked : Fin D.count → Bool}

theorem mem_below_succ {fuel : Nat} {s : D.Scope} {i : Fin D.count} : i ∈ D.below walked (fuel + 1) s ↔
    ∃ j ∈ D.out s, walked j ∧ (i = j ∨ i ∈ D.below walked fuel (some j)) := by
  rw [below, List.mem_flatMap]
  simp only [List.mem_cons, List.mem_filter, and_assoc]

theorem below_mono {fuel : Nat} {s : D.Scope} {i : Fin D.count} (h : i ∈ D.below walked fuel s) :
    i ∈ D.below walked (fuel + 1) s := by
  induction fuel generalizing s with
  | zero => cases h
  | succ fuel ih =>
    obtain ⟨j, hj, hwalked, hi⟩ := mem_below_succ.mp h
    exact mem_below_succ.mpr ⟨j, hj, hwalked, hi.imp_right ih⟩

theorem below_le {fuel fuel' : Nat} (hle : fuel ≤ fuel') {s : D.Scope} {i : Fin D.count}
    (h : i ∈ D.below walked fuel s) : i ∈ D.below walked fuel' s := by
  induction hle with
  | refl => exact h
  | step _ ih => exact below_mono ih

theorem below_step {fuel : Nat} {s : D.Scope} {p i : Fin D.count} (h : p ∈ D.below walked fuel s)
    (hi : i ∈ D.out (some p)) (hwalked : walked i) : i ∈ D.below walked (fuel + 1) s := by
  induction fuel generalizing s with
  | zero => cases h
  | succ fuel ih =>
    obtain ⟨j, hj, hwalked', hp⟩ := mem_below_succ.mp h
    refine mem_below_succ.mpr ⟨j, hj, hwalked', .inr ?_⟩
    rcases hp with rfl | hp
    · exact mem_below_succ.mpr ⟨i, hi, hwalked, .inl rfl⟩
    · exact ih hp

theorem walked_of_mem_below {fuel : Nat} {s : D.Scope} (hs : ∀ p, s = some p → Walked D walked p) {i : Fin D.count}
    (h : i ∈ D.below walked fuel s) : Walked D walked i := by
  induction fuel generalizing s with
  | zero => cases h
  | succ fuel ih =>
    obtain ⟨j, hj, hwalked, hi⟩ := mem_below_succ.mp h
    have hwalk : Walked D walked j := by
      cases s with
      | none => exact .top hj hwalked
      | some p => exact .nested (hs p rfl) hj hwalked
    rcases hi with rfl | hi
    · exact hwalk
    · exact ih (fun p hp => Option.some.inj hp ▸ hwalk) hi

/-- Scopes nest no deeper than there are scopes. -/
theorem mem_below {i : Fin D.count} : i ∈ D.below walked D.count none ↔ Walked D walked i := by
  constructor
  · exact walked_of_mem_below fun p hp => by cases hp
  · intro h
    have hdepth : i ∈ D.below walked (i.val + 1) none := by
      induction h with
      | top hout hwalked => exact mem_below_succ.mpr ⟨_, hout, hwalked, .inl rfl⟩
      | @nested p i _ hout hwalked ih =>
        have hlt : p.val + 1 ≤ i.val := D.parent_lt_of_eq (Deck.mem_out.mp hout).1
        exact below_le (Nat.succ_le_succ hlt) (below_step ih hout hwalked)
    exact below_le i.isLt hdepth

end Below

theorem mem_scopes {i : Fin D.count} : i ∈ D.scopes ↔ D.Declared i := by
  rw [scopes, mem_below]
  constructor
  · intro h
    induction h with
    | top hout _ => exact .top hout
    | nested _ hout _ ih => exact .nested ih hout
  · intro h
    induction h with
    | top hout => exact .top hout rfl
    | nested _ hout ih => exact .nested ih hout rfl

/-! ## Reading the elements -/

/-- What reading one element does. -/
structure Reads (s : D.Scope) (e : Element η) (r r' : Read D.count) : Prop where
  deferred : ∀ note ∈ r.deferred, note ∈ r'.deferred
  xrefs : ∀ x ∈ r.xrefs, x ∈ r'.xrefs
  target : ∀ x ∈ r'.xrefs, x ∈ r.xrefs ∨
    ∃ read master, e = .call x.1.origin x.1.name master read ∧ D.findSubckt s master = some x.2
  /-- An X element with a subckt for its master is kept, or is a problem. -/
  call : ∀ origin name master read j, e = .call origin name master read → D.findSubckt s master = some j →
    (⟨name, origin⟩, j) ∈ r'.xrefs ∨ ∃ note ∈ r'.deferred, note.severity = .error ∧ note.origin = origin

theorem mem_fail {n : Nat} (r : Read n) (origin message : Str) :
    (∀ note ∈ r.deferred, note ∈ (r.fail origin message).deferred) ∧
      ∃ note ∈ (r.fail origin message).deferred, note.severity = .error ∧ note.origin = origin :=
  ⟨fun _ h => List.mem_append_left _ h, _, List.mem_append_right _ (List.mem_singleton_self _), rfl, rfl⟩

theorem add_cases {n : Nat} (r : Read n) (origin name : Str) :
    (r.add origin name).xrefs = r.xrefs ∧ ∀ note ∈ r.deferred, note ∈ (r.add origin name).deferred := by
  unfold Read.add
  cases r.insts.lookup name with
  | some first => exact ⟨rfl, (mem_fail r origin _).1⟩
  | none => exact ⟨rfl, fun _ h => h⟩

theorem reads_element (s : D.Scope) (r : Read D.count) (e : Element η) : Reads s e r (D.readElement s r e) := by
  cases e with
  | plain origin read =>
    have hcall : ∀ o n m rd (j : Fin D.count), (Element.plain origin read : Element η) = .call o n m rd →
        D.findSubckt s m = some j → (⟨n, o⟩, j) ∈ (D.readElement s r (.plain origin read)).xrefs ∨
          ∃ note ∈ (D.readElement s r (.plain origin read)).deferred, note.severity = .error ∧ note.origin = o :=
      fun _ _ _ _ _ h => by cases h
    rcases read with message | _ | name
    · exact ⟨(mem_fail r origin message).1, fun _ h => h, fun _ h => .inl h, hcall⟩
    · exact ⟨fun _ h => h, fun _ h => h, fun _ h => .inl h, hcall⟩
    · obtain ⟨hxrefs, hdeferred⟩ := add_cases r origin name
      have heq : (D.readElement s r (.plain origin (.ok (some name)))).xrefs = r.xrefs := hxrefs
      exact ⟨hdeferred, fun _ h => heq ▸ h, fun _ h => .inl (heq ▸ h), hcall⟩
  | call origin name master read =>
    unfold readElement
    dsimp only
    cases hread : read ((D.findSubckt s master).map fun j => (D.definition j).header) with
    | error message =>
      refine ⟨(mem_fail r origin message).1, fun _ h => h, fun _ h => .inl h, ?_⟩
      intro o n m rd j heq _
      cases heq
      exact .inr (mem_fail r origin message).2
    | ok u =>
      cases htarget : D.findSubckt s master with
      | none =>
        obtain ⟨hxrefs, hdeferred⟩ := add_cases r origin name
        refine ⟨hdeferred, fun _ h => hxrefs ▸ h, fun _ h => .inl (hxrefs ▸ h), ?_⟩
        intro o n m rd j heq hj
        cases heq
        rw [htarget] at hj
        cases hj
      | some t =>
        obtain ⟨hadd, hdeferred⟩ := add_cases { r with xrefs := r.xrefs ++ [(⟨name, origin⟩, t)] } origin name
        have hmem : ∀ x, x ∈ (Read.add { r with xrefs := r.xrefs ++ [(⟨name, origin⟩, t)] } origin name).xrefs ↔
            x ∈ r.xrefs ∨ x = (⟨name, origin⟩, t) := by
          intro x
          rw [hadd, List.mem_append, List.mem_singleton]
        refine ⟨hdeferred, fun x h => (hmem x).mpr (.inl h), fun x h => ?_, ?_⟩
        · rcases (hmem x).mp h with hx | rfl
          · exact .inl hx
          · exact .inr ⟨read, master, rfl, htarget⟩
        · intro o n m rd j heq hj
          cases heq
          rw [htarget, Option.some.injEq] at hj
          exact .inl ((hmem _).mpr (.inr (hj ▸ rfl)))

/-- What reading the elements of a scope finds. -/
theorem reads_elements (s : D.Scope) (es : List (Element η)) (r : Read D.count) :
    (∀ note ∈ r.deferred, note ∈ (es.foldl (D.readElement s) r).deferred) ∧
    (∀ x ∈ r.xrefs, x ∈ (es.foldl (D.readElement s) r).xrefs) ∧
    (∀ x ∈ (es.foldl (D.readElement s) r).xrefs, x ∈ r.xrefs ∨
      ∃ read master, .call x.1.origin x.1.name master read ∈ es ∧ D.findSubckt s master = some x.2) ∧
    ∀ origin name master read j, .call origin name master read ∈ es → D.findSubckt s master = some j →
      (⟨name, origin⟩, j) ∈ (es.foldl (D.readElement s) r).xrefs ∨
        ∃ note ∈ (es.foldl (D.readElement s) r).deferred, note.severity = .error ∧ note.origin = origin := by
  induction es generalizing r with
  | nil => exact ⟨fun _ h => h, fun _ h => h, fun _ h => .inl h, fun _ _ _ _ _ h => by cases h⟩
  | cons e es ih =>
    have hfirst := reads_element s r e
    obtain ⟨hdeferred, hxrefs, htarget, hcall⟩ := ih (D.readElement s r e)
    rw [List.foldl_cons]
    refine ⟨fun n h => hdeferred n (hfirst.deferred n h), fun x h => hxrefs x (hfirst.xrefs x h), ?_, ?_⟩
    · intro x hx
      rcases htarget x hx with hx | ⟨read, master, hmem, hj⟩
      · rcases hfirst.target x hx with hx | ⟨read, master, heq, hj⟩
        · exact .inl hx
        · exact .inr ⟨read, master, heq ▸ List.mem_cons_self, hj⟩
      · exact .inr ⟨read, master, List.mem_cons_of_mem e hmem, hj⟩
    · intro origin name master read j hmem hj
      rcases List.mem_cons.mp hmem with heq | hmem
      · rcases hfirst.call origin name master read j heq.symm hj with hx | ⟨note, hnote, hsev⟩
        · exact .inl (hxrefs _ hx)
        · exact .inr ⟨note, hdeferred note hnote, hsev⟩
      · exact hcall origin name master read j hmem hj

theorem declared_of_instantiates {s : D.Scope} (hs : ∀ p, s = some p → D.Declared p) {j : Fin D.count}
    (h : D.Instantiates s j) : D.Declared j := by
  obtain ⟨_, _, master, _, _, hj⟩ := h
  exact declared_of_findSubckt hs hj

theorem declared_of_calls {i j : Fin D.count} (hi : D.Declared i) (h : D.Calls i j) : D.Declared j :=
  declared_of_instantiates (fun _ hp => Option.some.inj hp ▸ hi) h

theorem instantiates_of_xref {s : D.Scope} {x : Instance × Fin D.count} (h : x ∈ D.xrefs s) :
    D.Instantiates s x.2 := by
  rcases (reads_elements s (D.elements s) ⟨.empty, [], D.problems s⟩).2.2.1 x h with hx | ⟨read, master, hmem, hj⟩
  · cases hx
  · exact ⟨_, _, master, read, hmem, hj⟩

/-- In a scope without problems every X element with a subckt for its master is in `xrefs`. -/
theorem xref_of_calls {i j : Fin D.count} (hdef : D.deferred i = []) (h : D.Calls i j) :
    ∃ x ∈ D.xrefs (some i), x.2 = j := by
  obtain ⟨origin, name, master, read, hmem, hj⟩ := h
  rcases (reads_elements (some i) (D.elements (some i)) ⟨.empty, [], D.problems (some i)⟩).2.2.2
    origin name master read j hmem hj with hx | ⟨note, hnote, _⟩
  · exact ⟨_, hx, rfl⟩
  · have hnil : note ∈ D.deferred i := hnote
    rw [hdef] at hnil
    cases hnil

/-! ## The marks -/

theorem leftOut_of_why {bad : OrderedDict (Fin D.count) Note} (hbad : ∀ i ∈ bad.keys, D.LeftOut i) {i : Fin D.count}
    {note : Note} (h : D.why bad i = some note) : D.LeftOut i := by
  unfold why at h
  split at h
  · next d ds hdef => exact .deferred (by rw [hdef]; exact List.cons_ne_nil d ds)
  · next hdef =>
    split at h
    · next note' hparent =>
      obtain ⟨p, hp, hlookup⟩ := Option.bind_eq_some_iff.mp hparent
      exact .nested hp (hbad p (OrderedDict.mem_keys_iff.mpr ⟨_, hlookup⟩))
    · next hparent =>
      obtain ⟨x, hx, hsome⟩ := List.exists_of_findSome?_eq_some h
      split_ifs at hsome with hmem
      exact .calls (instantiates_of_xref hx) (hbad _ hmem)

theorem why_eq_none {bad : OrderedDict (Fin D.count) Note} {i : Fin D.count} (h : D.why bad i = none) :
    D.deferred i = [] ∧ (∀ p, D.parent i = some p → p ∉ bad.keys) ∧ ∀ x ∈ D.xrefs (some i), x.2 ∉ bad.keys := by
  unfold why at h
  split at h
  · cases h
  · next hdef =>
    split at h
    · cases h
    · next hparent =>
      refine ⟨hdef, fun p hp hmem => ?_, fun x hx hmem => ?_⟩
      · obtain ⟨note, hnote⟩ := OrderedDict.mem_keys_iff.mp hmem
        rw [hp, Option.bind_some, hnote] at hparent
        cases hparent
      · have hnone := List.findSome?_eq_none_iff.mp h x hx
        rw [if_pos hmem] at hnone
        cases hnone

/-- The passes end, and the scopes that they mark are those that must be left out. -/
theorem passes_spec (D : Deck η) : ∃ bad, Marks.passes D.why D.scopes (D.scopes.length + 1) .empty = some bad ∧
    ∀ i ∈ D.scopes, i ∈ bad.keys ↔ D.LeftOut i := by
  obtain ⟨bad, hbad⟩ := @Marks.passes_total _ _ _ D.why D.scopes (D.scopes.length + 1) .empty
    (fun i hi => by cases hi) (Nat.lt_succ_self _)
  obtain ⟨hsound, hnone⟩ := Marks.passes_rule (fun d => ∀ i ∈ d.keys, D.LeftOut i)
    (fun d i _ note hd _ hwhy j hj => by
      rcases OrderedDict.mem_keys_set.mp hj with rfl | hj
      · exact leftOut_of_why hd hwhy
      · exact hd j hj) (fun i hi => by cases hi) hbad
  refine ⟨bad, hbad, fun i hi => ⟨hsound i, fun hleft => ?_⟩⟩
  rw [mem_scopes] at hi
  -- the marks are closed under the three reasons
  induction hleft with
  | deferred hdef =>
    rcases hnone _ (mem_scopes.mpr hi) with hmem | hwhy
    · exact hmem
    · exact absurd (why_eq_none hwhy).1 hdef
  | @nested p i hparent _ ih =>
    rcases hnone _ (mem_scopes.mpr hi) with hmem | hwhy
    · exact hmem
    · exact absurd (ih (hi.parent hparent)) ((why_eq_none hwhy).2.1 p hparent)
  | @calls i j hcall _ ih =>
    rcases hnone _ (mem_scopes.mpr hi) with hmem | hwhy
    · exact hmem
    · obtain ⟨hdef, _, hxrefs⟩ := why_eq_none hwhy
      obtain ⟨x, hx, rfl⟩ := xref_of_calls hdef hcall
      exact absurd (ih (declared_of_calls hi hcall)) (hxrefs x hx)

/-! ## Cycles -/

section Kept

variable {bad : OrderedDict (Fin D.count) Note} (hbad : ∀ i ∈ D.scopes, i ∈ bad.keys ↔ D.LeftOut i)

include hbad

theorem mem_kept {i : Fin D.count} : i ∈ D.kept bad ↔ D.Declared i ∧ ¬ D.LeftOut i := by
  rw [kept, List.mem_filter, decide_eq_true_eq, mem_scopes]
  exact and_congr_right fun hi => not_congr (hbad i (mem_scopes.mpr hi))

theorem keptCalls_of_edge {i j : Fin D.count} (hi : i ∈ D.kept bad) (h : BackEdges.Edge (D.keptXrefs bad) i j) :
    D.KeptCalls i j ∧ j ∈ D.kept bad := by
  obtain ⟨inst, hx⟩ := h
  rw [keptXrefs, List.mem_filter, decide_eq_true_eq] at hx
  have hcall : D.Calls i j := instantiates_of_xref hx.1
  have hdeclared : D.Declared j := declared_of_calls ((mem_kept hbad).mp hi).1 hcall
  have hkept : j ∈ D.kept bad := by
    rw [kept, List.mem_filter, decide_eq_true_eq]
    exact ⟨mem_scopes.mpr hdeclared, hx.2⟩
  exact ⟨⟨((mem_kept hbad).mp hi).2, hcall, ((mem_kept hbad).mp hkept).2⟩, hkept⟩

theorem edge_of_keptCalls {i j : Fin D.count} (hi : D.Declared i) (h : D.KeptCalls i j) :
    BackEdges.Edge (D.keptXrefs bad) i j ∧ D.Declared j := by
  obtain ⟨hleft, hcall, hleft'⟩ := h
  have hdeclared : D.Declared j := declared_of_calls hi hcall
  have hdef : D.deferred i = [] := by
    by_contra hdef
    exact hleft (.deferred hdef)
  obtain ⟨x, hx, rfl⟩ := xref_of_calls hdef hcall
  refine ⟨⟨x.1, ?_⟩, hdeclared⟩
  rw [keptXrefs, List.mem_filter, decide_eq_true_eq]
  exact ⟨hx, fun hmem => hleft' ((hbad _ (mem_scopes.mpr hdeclared)).mp hmem)⟩

theorem transGen_edge_iff {i j : Fin D.count} (hi : i ∈ D.kept bad) :
    TransGen (BackEdges.Edge (D.keptXrefs bad)) i j ↔ TransGen D.KeptCalls i j := by
  constructor
  · intro h
    have hall : TransGen D.KeptCalls i j ∧ j ∈ D.kept bad := by
      induction h with
      | single hedge =>
        obtain ⟨hcall, hkept⟩ := keptCalls_of_edge hbad hi hedge
        exact ⟨.single hcall, hkept⟩
      | tail _ hedge ih =>
        obtain ⟨hcall, hkept⟩ := keptCalls_of_edge hbad ih.2 hedge
        exact ⟨ih.1.tail hcall, hkept⟩
    exact hall.1
  · intro h
    have hall : TransGen (BackEdges.Edge (D.keptXrefs bad)) i j ∧ D.Declared j := by
      induction h with
      | single hcall =>
        obtain ⟨hedge, hdeclared⟩ := edge_of_keptCalls hbad ((mem_kept hbad).mp hi).1 hcall
        exact ⟨.single hedge, hdeclared⟩
      | tail _ hcall ih =>
        obtain ⟨hedge, hdeclared⟩ := edge_of_keptCalls hbad ih.2 hcall
        exact ⟨ih.1.tail hedge, hdeclared⟩
    exact hall.1

theorem isCycle_of_closes {inst : Instance} {c path : List (Fin D.count)} {j : Fin D.count} (hc : c = path ++ [j])
    (hcloses : BackEdges.Closes (D.keptXrefs bad) inst path j) (hkept : ∀ i ∈ path, i ∈ D.kept bad) :
    D.IsCycle (inst, c) := by
  obtain ⟨i, hlast, hx⟩ := hcloses.last
  refine ⟨path, i, j, hc, hcloses.head, hlast, hcloses.nodup, (List.mem_filter.mp hx).1, ?_⟩
  subst hc
  rw [List.isChain_append]
  refine ⟨?_, List.isChain_singleton j, ?_⟩
  · have hchain := hcloses.chain
    clear hcloses hlast
    induction path with
    | nil => exact .nil
    | cons a path ih =>
      cases path with
      | nil => exact List.isChain_singleton a
      | cons b path =>
        rw [List.isChain_cons_cons] at hchain ⊢
        have hrest := List.forall_mem_cons.mp hkept
        exact ⟨(keptCalls_of_edge hbad hrest.1 hchain.1).1, ih hrest.2 hchain.2⟩
  · intro a ha b hb
    rw [hlast, Option.mem_some_iff] at ha
    rw [List.head?_cons, Option.mem_some_iff] at hb
    subst ha hb
    exact (keptCalls_of_edge hbad (hkept _ (List.mem_of_getLast? hlast)) ⟨inst, hx⟩).1

/-- The search among the kept scopes ends; what it finds are cycles, and it finds one if there is one. -/
theorem cycles_spec : ∃ cs, D.cycles bad = some cs ∧ (∀ c ∈ cs, D.IsCycle c) ∧
    (cs ≠ [] ↔ ∃ i ∈ D.scopes, ¬ D.LeftOut i ∧ TransGen D.KeptCalls i i) := by
  have hclosed : ∀ i ∈ D.kept bad, ∀ x ∈ D.keptXrefs bad i, x.2 ∈ D.kept bad :=
    fun i hi x hx => (keptCalls_of_edge hbad hi ⟨x.1, hx⟩).2
  obtain ⟨s, hs, hsound, hfound⟩ := BackEdges.search_spec hclosed
  refine ⟨s.found, by rw [cycles, hs]; rfl, ?_, hfound.trans ?_⟩
  · intro c hc
    obtain ⟨path, j, hpath, hcloses, hin⟩ := hsound c hc
    exact isCycle_of_closes hbad hpath hcloses hin
  · constructor
    · rintro ⟨i, hi, hcycle⟩
      obtain ⟨hdeclared, hleft⟩ := (mem_kept hbad).mp hi
      exact ⟨i, mem_scopes.mpr hdeclared, hleft, (transGen_edge_iff hbad hi).mp hcycle⟩
    · rintro ⟨i, hi, hleft, hcycle⟩
      have hkept : i ∈ D.kept bad := (mem_kept hbad).mpr ⟨mem_scopes.mp hi, hleft⟩
      exact ⟨i, hkept, (transGen_edge_iff hbad hkept).mpr hcycle⟩

/-! ## The kept scopes -/

/-- The kept scopes are the top level and the subckts that are not left out. -/
theorem mem_keptScopes {i : Fin D.count} : some i ∈ D.keptScopes bad ↔ D.Declared i ∧ ¬ D.LeftOut i := by
  rw [keptScopes, List.mem_cons, List.mem_map]
  simp only [reduceCtorEq, false_or, Option.some.injEq, exists_eq_right, mem_below]
  constructor
  · intro h
    induction h with
    | top hout hwalked =>
      have hdeclared : D.Declared _ := .top hout
      exact ⟨hdeclared, fun hleft => of_decide_eq_true hwalked ((hbad _ (mem_scopes.mpr hdeclared)).mpr hleft)⟩
    | nested _ hout hwalked ih =>
      have hdeclared : D.Declared _ := .nested ih.1 hout
      exact ⟨hdeclared, fun hleft => of_decide_eq_true hwalked ((hbad _ (mem_scopes.mpr hdeclared)).mpr hleft)⟩
  · rintro ⟨hdeclared, hleft⟩
    have hkeep : ∀ {i}, D.Declared i → ¬ D.LeftOut i → decide (i ∉ bad.keys) = true := by
      intro i hi hnot
      exact decide_eq_true fun hmem => hnot ((hbad i (mem_scopes.mpr hi)).mp hmem)
    induction hdeclared with
    | top hout => exact .top hout (hkeep (.top hout) hleft)
    | nested hp hout ih =>
      -- the scope around a kept scope is kept
      have hparent : ¬ D.LeftOut _ := fun h => hleft (.nested (mem_out.mp hout).1 h)
      exact .nested (ih hparent) hout (hkeep (.nested hp hout) hleft)

/-- A top-level instance of a subckt that is left out is an error, of its own or for its subckt. -/
theorem top_error {cs : List (Instance × List (Fin D.count))} {origin name master : Str}
    {read : Option η → Except Str Unit} {j : Fin D.count} (hmem : .call origin name master read ∈ D.top)
    (hj : D.findSubckt none master = some j) (hleft : D.LeftOut j) :
    ∃ note ∈ (D.pruned bad cs).notes, note.severity = .error ∧ note.origin = origin := by
  have hdeclared : D.Declared j := declared_of_findSubckt (fun p hp => by cases hp) hj
  rcases (reads_elements none D.top ⟨.empty, [], D.problems none⟩).2.2.2 origin name master read j hmem hj with
    hx | ⟨note, hnote, hsev⟩
  · obtain ⟨why, hwhy⟩ := OrderedDict.mem_keys_iff.mp ((hbad j (mem_scopes.mpr hdeclared)).mpr hleft)
    have hmem : (⟨.error, origin, name ++ str ": subckt " ++ D.name j ++ str " cannot be simulated by vamos: " ++
        why.message ++ str " (" ++ why.origin ++ str ")"⟩ : Note) ∈ (D.xrefs none).filterMap (D.topError bad) := by
      refine List.mem_filterMap.mpr ⟨_, hx, ?_⟩
      rw [topError, hwhy]
      rfl
    exact ⟨_, List.mem_append_left _ (List.mem_append_right _ hmem), rfl, rfl⟩
  · exact ⟨note, List.mem_append_left _ (List.mem_append_left _ (List.mem_append_left _ hnote)), hsev⟩

end Kept

/-! ## The result -/

/-- A subckt is left out if and only if it must be, the top level's instances of one are errors, the kept scopes
    instantiate none, and a cycle is reported if and only if the kept subckts instantiate each other in one. -/
theorem prune_exact (D : Deck η) : ∃ r, D.prune = some r ∧
    (∀ i ∈ D.scopes, i ∈ r.bad.keys ↔ D.LeftOut i) ∧
    (∀ i, D.LeftOut i ↔
      ∃ e, D.Within i e ∧ (D.deferred e ≠ [] ∨ ∃ j, TransGen D.Calls e j ∧ D.LeftOut j)) ∧
    (∀ origin name master read j, .call origin name master read ∈ D.top → D.findSubckt none master = some j →
      D.LeftOut j → ∃ note ∈ r.notes, note.severity = .error ∧ note.origin = origin) ∧
    (∀ i, some i ∈ D.keptScopes r.bad ↔ i ∈ D.scopes ∧ ¬ D.LeftOut i) ∧
    (∀ i, some i ∈ D.keptScopes r.bad → ∀ j, D.Calls i j → j ∈ D.scopes ∧ ¬ D.LeftOut j) ∧
    (r.cycles ≠ [] ↔ ∃ i ∈ D.scopes, ¬ D.LeftOut i ∧ TransGen D.KeptCalls i i) ∧
    ∀ c ∈ r.cycles, D.IsCycle c ∧ D.cycleNote c ∈ r.notes := by
  obtain ⟨bad, hpasses, hbad⟩ := passes_spec D
  obtain ⟨cs, hcs, hcycles, hfound⟩ := cycles_spec hbad
  refine ⟨D.pruned bad cs, ?_, hbad, fun i => leftOut_iff, ?_, ?_, ?_, hfound, ?_⟩
  · rw [prune, hpasses, Option.bind_eq_bind, Option.bind_some, hcs]
    rfl
  · exact fun origin name master read j hmem hj hleft => top_error hbad hmem hj hleft
  · exact fun i => (mem_keptScopes hbad).trans (and_congr_left' mem_scopes.symm)
  · intro i hi j hcall
    obtain ⟨hdeclared, hleft⟩ := (mem_keptScopes hbad).mp hi
    exact ⟨mem_scopes.mpr (declared_of_calls hdeclared hcall), fun h => hleft (.calls hcall h)⟩
  · intro c hc
    have hnote : D.cycleNote c ∈ cs.map D.cycleNote := List.mem_map_of_mem hc
    exact ⟨hcycles c hc, List.mem_append_left _ (List.mem_append_left _ (List.mem_append_right _ hnote))⟩

end Vamos.Prune.Deck
