import Sv2ghdl.Vamos.Netlist.PathParts

/-!
# The split of a path is exact

`path_parts` finds the components of every path that has them, up to its depth limit, if the masters of the instances
mean the same definitions by whatever way a body is reached.
-/

open Python

namespace Vamos.PathParts

variable {B : Type}

/-! ## Texts -/

theorem mem_cuts {s a b : Str} : (a, b) ∈ cuts s ↔ s = a ++ CodePoint.ofChar '.' :: b := by
  induction s generalizing a with
  | nil => simp [cuts]
  | cons c s ih =>
    have hlater : (a, b) ∈ (cuts s).map (fun e => (c :: e.1, e.2)) ↔
        ∃ a', a = c :: a' ∧ s = a' ++ CodePoint.ofChar '.' :: b := by
      constructor
      · intro h
        obtain ⟨⟨a', b'⟩, hmem, heq⟩ := List.mem_map.mp h
        obtain ⟨rfl, rfl⟩ := Prod.mk.inj heq
        exact ⟨a', rfl, ih.mp hmem⟩
      · rintro ⟨a', rfl, h⟩
        exact List.mem_map.mpr ⟨(a', b), ih.mpr h, rfl⟩
    rw [cuts]
    split_ifs with hdot
    · subst hdot
      rw [List.mem_cons, hlater, Prod.mk.injEq]
      cases a with
      | nil => simp [eq_comm (a := b)]
      | cons x a => simp [eq_comm (b := CodePoint.ofChar '.')]
    · rw [hlater]
      cases a with
      | nil => simp [hdot]
      | cons x a => simp [eq_comm, and_comm]

theorem joined_cons (name next : Str) (parts : List Str) :
    joined (name :: next :: parts) = name ++ CodePoint.ofChar '.' :: joined (next :: parts) := by
  simp [joined, List.intercalate, str]

@[simp] theorem joined_singleton (name : Str) : joined [name] = name := by simp [joined, List.intercalate]

variable {N : Netlist B}

/-! ## The subckts of a name -/

theorem mem_entered {sc sc' : Scope B} {name : Str} : sc' ∈ N.entered sc name ↔
    ∃ it ∈ instances (N.items sc.body), it.kind = str "x" ∧ it.name = name ∧
      ∃ found, N.where (it.master.getD []) sc = some found ∧ sc' = .child found.1 found.2 := by
  rw [Netlist.entered, List.mem_filterMap]
  refine exists_congr fun it => and_congr_right fun _ => ?_
  by_cases h : it.kind = str "x" ∧ it.name = name
  · rw [if_pos h, Option.map_eq_some_iff]
    simp only [h.1, h.2, true_and, eq_comm]
  · rw [if_neg h]
    exact ⟨fun hnone => (nomatch hnone), fun hall => absurd ⟨hall.1, hall.2.1⟩ h⟩

theorem master_of_where {sc : Scope B} {it : Instance} {found : B × Scope B} (hkind : it.kind = str "x")
    (h : N.where (it.master.getD []) sc = some found) : N.master sc it = some found.1 := by
  rw [Netlist.master, if_pos hkind, Netlist.findSubckt, h]
  rfl

theorem where_of_master {sc : Scope B} {it : Instance} {sub : B} (h : N.master sc it = some sub) :
    it.kind = str "x" ∧ ∃ defining, N.where (it.master.getD []) sc = some (sub, defining) := by
  rw [Netlist.master] at h
  split_ifs at h with hkind
  obtain ⟨⟨sub', defining⟩, hwhere, rfl⟩ := Option.map_eq_some_iff.mp h
  exact ⟨hkind, defining, hwhere⟩

variable [DecidableEq B]

theorem mem_subs_foldl {sc : Scope B} {name : Str} {sub : B} (its : List Instance) (xs : OrderedDict Str (List B)) :
    sub ∈ ((its.foldl (addInstance N sc) xs).lookup name).getD [] ↔
      sub ∈ (xs.lookup name).getD [] ∨ ∃ it ∈ its, it.name = name ∧ N.master sc it = some sub := by
  induction its generalizing xs with
  | nil => simp
  | cons it its ih =>
    have hfirst : sub ∈ ((addInstance N sc xs it).lookup name).getD [] ↔
        sub ∈ (xs.lookup name).getD [] ∨ it.name = name ∧ N.master sc it = some sub := by
      rw [addInstance]
      cases hm : N.master sc it with
      | none => simp
      | some sub' =>
        dsimp only
        by_cases hname : it.name = name
        · subst hname
          by_cases hmem : sub' ∈ (xs.lookup it.name).getD []
          · rw [if_pos hmem]
            refine ⟨.inl, fun h => h.elim id fun h => ?_⟩
            exact Option.some.inj h.2 ▸ hmem
          · rw [if_neg hmem, OrderedDict.lookup_set, if_pos rfl, Option.getD_some, List.mem_append, List.mem_singleton]
            simp [eq_comm]
        · split_ifs
          · simp [hname]
          · rw [OrderedDict.lookup_set, if_neg (Ne.symm hname)]
            simp [hname]
    rw [List.foldl_cons, ih, hfirst, List.exists_mem_cons_iff, or_assoc]

/-- The subckts that `body` has for a name. -/
theorem mem_subs {sc : Scope B} {name : Str} {sub : B} : sub ∈ (N.entry sc).subs name ↔
    ∃ it ∈ instances (N.items sc.body), it.name = name ∧ N.master sc it = some sub := by
  rw [Entry.subs, Netlist.entry, mem_subs_foldl]
  exact or_iff_right (by simp [OrderedDict.lookup, OrderedDict.empty])

omit [DecidableEq B] in
theorem mem_tries {e : Entry B} {rest head tail : Str} {sub : B} : (head, tail, sub) ∈ e.tries rest ↔
    rest = head ++ CodePoint.ofChar '.' :: tail ∧ head ≠ [] ∧ sub ∈ e.subs head := by
  rw [Entry.tries, List.mem_flatMap]
  constructor
  · rintro ⟨⟨a, b⟩, hcut, h⟩
    split_ifs at h with hne
    · cases h
    · obtain ⟨sub', hsub, heq⟩ := List.mem_map.mp h
      cases heq
      exact ⟨mem_cuts.mp hcut, hne, hsub⟩
  · rintro ⟨hrest, hne, hsub⟩
    refine ⟨(head, tail), mem_cuts.mpr hrest, ?_⟩
    rw [if_neg hne]
    exact List.mem_map_of_mem hsub

/-! ## Bodies that are reached -/

/-- The scopes that the search goes through. -/
inductive Netlist.Searched (N : Netlist B) (start : Scope B) : Scope B → Prop
  | start : Netlist.Searched N start start
  | child {sc : Scope B} {it : Instance} {sub : B} (h : Netlist.Searched N start sc)
      (hit : it ∈ instances (N.items sc.body)) (hsub : N.master sc it = some sub) :
      Netlist.Searched N start (.child sub sc)

/-- The scopes of the bodies on the paths of the netlist. -/
inductive Netlist.Reached (N : Netlist B) (start : Scope B) : Scope B → Prop
  | start : Netlist.Reached N start start
  | child {sc sc' : Scope B} {name : Str} (h : Netlist.Reached N start sc) (hsc' : sc' ∈ N.entered sc name) :
      Netlist.Reached N start sc'

/-- The masters in a body mean the same definitions in each scope that the search has for the body as in each scope
    that the body has on a path. -/
def Netlist.Settled (N : Netlist B) (start : Scope B) : Prop :=
  ∀ sc sc', N.Searched start sc → N.Reached start sc' → sc.body = sc'.body →
    ∀ it ∈ instances (N.items sc.body), N.master sc it = N.master sc' it

variable {start : Scope B}

omit [DecidableEq B] in
/-- What is searched is on a path. -/
theorem Netlist.Searched.reached {sc : Scope B} (h : N.Searched start sc) (hs : N.Settled start) :
    ∃ sc', N.Reached start sc' ∧ sc.body = sc'.body := by
  induction h with
  | start => exact ⟨start, .start, rfl⟩
  | @child sc it sub h hit hsub ih =>
    obtain ⟨sc', hsc', hbody⟩ := ih
    rw [hs sc sc' h hsc' hbody it hit] at hsub
    obtain ⟨hkind, defining, hwhere⟩ := where_of_master hsub
    rw [hbody] at hit
    exact ⟨_, hsc'.child (mem_entered.mpr ⟨it, hit, hkind, rfl, _, hwhere, rfl⟩), rfl⟩

/-- A body is the same by whatever scope it is searched. -/
theorem Netlist.Settled.entry_eq (hs : N.Settled start) {sc sc' : Scope B} (h : N.Searched start sc)
    (h' : N.Searched start sc') (hbody : sc.body = sc'.body) : N.entry sc = N.entry sc' := by
  obtain ⟨path, hpath, hpathBody⟩ := h.reached hs
  have hmaster : ∀ it ∈ instances (N.items sc.body), N.master sc it = N.master sc' it := fun it hit =>
    (hs sc path h hpath hpathBody it hit).trans
      (hs sc' path h' hpath (hbody.symm.trans hpathBody) it (hbody ▸ hit)).symm
  rw [Netlist.entry, Netlist.entry, ← hbody]
  congr 1
  refine List.foldl_ext _ _ _ fun xs it hit => ?_
  rw [addInstance, addInstance, hmaster it hit]

/-! ## The index -/

/-- What the index has of a body was found in a scope of the search. -/
def Index.Right (N : Netlist B) (start : Scope B) (ix : Index B) : Prop :=
  ∀ b e, ix.lookup b = some e → ∃ sc, N.Searched start sc ∧ sc.body = b ∧ e = N.entry sc

theorem look_spec (hs : N.Settled start) {ix : Index B} (hix : Index.Right N start ix) {sc : Scope B}
    (hsc : N.Searched start sc) : (N.look ix sc).2 = N.entry sc ∧ Index.Right N start (N.look ix sc).1 := by
  rw [Netlist.look]
  cases hl : ix.lookup sc.body with
  | some e =>
    obtain ⟨sc', hsc', hbody, rfl⟩ := hix _ _ hl
    exact ⟨hs.entry_eq hsc' hsc hbody, hix⟩
  | none =>
    refine ⟨rfl, fun b e hb => ?_⟩
    rw [OrderedDict.lookup_set] at hb
    split_ifs at hb with heq
    · exact ⟨sc, hsc, heq.symm, (Option.some.inj hb).symm⟩
    · exact hix b e hb

/-- The search without an index. -/
def Netlist.search (N : Netlist B) : Nat → Str → Scope B → Option (List Str)
  | 0, rest, sc => if rest ∈ N.names sc.body then some [rest] else none
  | left + 1, rest, sc =>
    match ((N.entry sc).tries rest).findSome? fun t => (Netlist.search N left t.2.1 (.child t.2.2 sc)).map (t.1 :: ·) with
    | some parts => some parts
    | none => if rest ∈ N.names sc.body then some [rest] else none

theorem tryEach_spec {enter : Index B → Str → B → Index B × Option (List Str)} {pure : Str → B → Option (List Str)}
    {tries : List (Str × Str × B)}
    (h : ∀ t ∈ tries, ∀ ix, Index.Right N start ix →
      (enter ix t.2.1 t.2.2).2 = pure t.2.1 t.2.2 ∧ Index.Right N start (enter ix t.2.1 t.2.2).1)
    {ix : Index B} (hix : Index.Right N start ix) :
    (tryEach enter tries ix).2 = tries.findSome? (fun t => (pure t.2.1 t.2.2).map (t.1 :: ·)) ∧
      Index.Right N start (tryEach enter tries ix).1 := by
  induction tries generalizing ix with
  | nil => exact ⟨rfl, hix⟩
  | cons t tries ih =>
    obtain ⟨head, tail, sub⟩ := t
    obtain ⟨hparts, hright⟩ := h _ List.mem_cons_self ix hix
    rw [tryEach, List.findSome?_cons, ← hparts]
    rcases hr : enter ix tail sub with ⟨ix', _ | parts⟩
    · rw [hr] at hright
      exact ih (fun t ht => h t (List.mem_cons_of_mem _ ht)) hright
    · rw [hr] at hright
      exact ⟨rfl, hright⟩

/-- The index changes nothing. -/
theorem exact_spec (hs : N.Settled start) (left : Nat) {ix : Index B} (hix : Index.Right N start ix) (rest : Str)
    {sc : Scope B} (hsc : N.Searched start sc) :
    (N.exact left ix rest sc).2 = N.search left rest sc ∧ Index.Right N start (N.exact left ix rest sc).1 := by
  induction left generalizing ix rest sc with
  | zero =>
    obtain ⟨he, hright⟩ := look_spec hs hix hsc
    rw [Netlist.exact, Netlist.search]
    dsimp only
    rw [he]
    exact ⟨rfl, hright⟩
  | succ left ih =>
    obtain ⟨he, hright⟩ := look_spec hs hix hsc
    rw [Netlist.exact, Netlist.search]
    dsimp only
    rw [he]
    have henter : ∀ t ∈ (N.entry sc).tries rest, ∀ ix, Index.Right N start ix →
        (N.exact left ix t.2.1 (.child t.2.2 sc)).2 = N.search left t.2.1 (.child t.2.2 sc) ∧
          Index.Right N start (N.exact left ix t.2.1 (.child t.2.2 sc)).1 := fun t ht ix hix => by
      obtain ⟨-, -, hsub⟩ := mem_tries.mp ht
      obtain ⟨it, hit, -, hmaster⟩ := mem_subs.mp hsub
      exact ih hix _ (hsc.child hit hmaster)
    obtain ⟨htries, hright'⟩ := @tryEach_spec _ N _ start (fun ix tail sub => N.exact left ix tail (.child sub sc))
      (fun tail sub => N.search left tail (.child sub sc)) _ henter _ hright
    rw [← htries]
    rcases hr : tryEach (fun ix tail sub => N.exact left ix tail (.child sub sc)) ((N.entry sc).tries rest)
      (N.look ix sc).1 with ⟨ix', _ | parts⟩
    · rw [hr] at hright'
      exact ⟨rfl, hright'⟩
    · rw [hr] at hright'
      exact ⟨rfl, hright'⟩

/-! ## The search -/

omit [DecidableEq B] in
theorem last_sound {b : Option B} {sc : Scope B} {rest : Str} {parts : List Str} (hbody : b = sc.body)
    (h : (if rest ∈ N.names b then some [rest] else none) = some parts) :
    N.Decomposes sc parts ∧ joined parts = rest := by
  split_ifs at h with hmem
  subst hbody
  obtain rfl := Option.some.inj h
  exact ⟨hmem, joined_singleton rest⟩

/-- What the search finds is a decomposition. -/
theorem search_sound (hs : N.Settled start) {left : Nat} {rest : Str} {sc sc' : Scope B} {parts : List Str}
    (hsc : N.Searched start sc) (hsc' : N.Reached start sc') (hbody : sc.body = sc'.body)
    (h : N.search left rest sc = some parts) : N.Decomposes sc' parts ∧ joined parts = rest := by
  induction left generalizing rest sc sc' parts with
  | zero => exact last_sound hbody h
  | succ left ih =>
    rw [Netlist.search] at h
    split at h
    · rename_i parts' hfound
      obtain rfl := Option.some.inj h
      obtain ⟨⟨head, tail, sub⟩, ht, hmap⟩ := List.exists_of_findSome?_eq_some hfound
      obtain ⟨more, hmore, rfl⟩ := Option.map_eq_some_iff.mp hmap
      obtain ⟨rfl, -, hsub⟩ := mem_tries.mp ht
      obtain ⟨it, hit, hname, hmaster⟩ := mem_subs.mp hsub
      -- The instance leads into the same body where its master is defined.
      have hmaster' := (hs sc sc' hsc hsc' hbody it hit).symm.trans hmaster
      obtain ⟨hkind, defining, hwhere⟩ := where_of_master hmaster'
      have hin : .child sub defining ∈ N.entered sc' head :=
        mem_entered.mpr ⟨it, hbody ▸ hit, hkind, hname, _, hwhere, rfl⟩
      obtain ⟨hdec, hjoined⟩ := ih (hsc.child hit hmaster) (hsc'.child hin) rfl hmore
      cases more with
      | nil => cases hdec
      | cons next more =>
        refine ⟨⟨_, hin, hdec⟩, ?_⟩
        rw [joined_cons, hjoined]
    · exact last_sound hbody h

/-- The search finds something where there is a decomposition. -/
theorem search_complete (hs : N.Settled start) {left : Nat} {sc sc' : Scope B} {parts : List Str}
    (hsc : N.Searched start sc) (hsc' : N.Reached start sc') (hbody : sc.body = sc'.body)
    (h : N.Decomposes sc' parts) (hlen : parts.length ≤ left + 1) : (N.search left (joined parts) sc).isSome := by
  induction left generalizing sc sc' parts with
  | zero =>
    match parts, hlen with
    | [name], _ =>
      have hmem : name ∈ N.names sc.body := hbody ▸ h
      rw [joined_singleton, Netlist.search, if_pos hmem]
      rfl
  | succ left ih =>
    match parts, hlen with
    | [name], _ =>
      have hmem : name ∈ N.names sc.body := hbody ▸ h
      rw [joined_singleton, Netlist.search]
      split
      · rfl
      · rw [if_pos hmem]
        rfl
    | name :: next :: parts, hlen =>
      obtain ⟨inner, hinner, hdec⟩ := h
      obtain ⟨it, hit, hkind, hname, ⟨sub, defining⟩, hwhere, rfl⟩ := mem_entered.mp hinner
      have hit' : it ∈ instances (N.items sc.body) := hbody ▸ hit
      have hmaster : N.master sc it = some sub :=
        (hs sc sc' hsc hsc' hbody it hit').trans (master_of_where hkind hwhere)
      have htry : (name, joined (next :: parts), sub) ∈ (N.entry sc).tries (joined (name :: next :: parts)) :=
        mem_tries.mpr ⟨joined_cons name next parts, hname ▸ it.name_ne_nil, mem_subs.mpr ⟨it, hit', hname, hmaster⟩⟩
      have hrest := ih (hsc.child hit' hmaster) (hsc'.child hinner) rfl hdec (Nat.le_of_succ_le_succ hlen)
      rw [Netlist.search]
      split
      · rfl
      · rename_i hnone
        have hno := List.findSome?_eq_none_iff.mp hnone _ htry
        rw [Option.map_eq_none_iff] at hno
        rw [hno] at hrest
        cases hrest

/-! ## The split -/

theorem exact_isSome (hs : N.Settled start) {parts : List Str} (h : N.Decomposes start parts)
    (hlen : parts.length ≤ maxDepth + 1) : ∃ found, (N.exact maxDepth .empty (joined parts) start).2 = some found ∧
      N.Decomposes start found ∧ joined found = joined parts := by
  have hempty : Index.Right N start .empty := fun b e hb => nomatch hb
  obtain ⟨found, hfound⟩ := Option.isSome_iff_exists.mp (search_complete hs .start .start rfl h hlen)
  refine ⟨found, ?_, search_sound hs .start .start rfl hfound⟩
  rw [(exact_spec hs maxDepth hempty (joined parts) .start).1, hfound]

/-- `path_parts` splits the text of a decomposition into a decomposition, and into this one if it is the only one. -/
theorem pathParts_decomposes {scope : Option (Scope B)} (hs : N.Settled (scope.getD .top)) {parts : List Str}
    (h : N.Decomposes (scope.getD .top) parts) (hlen : parts.length ≤ maxDepth + 1) :
    (N.Decomposes (scope.getD .top) (N.pathParts (joined parts) scope) ∧
      joined (N.pathParts (joined parts) scope) = joined parts) ∧
    ((∀ parts', N.Decomposes (scope.getD .top) parts' → joined parts' = joined parts → parts' = parts) →
      N.pathParts (joined parts) scope = parts) := by
  have hsplit : N.Decomposes (scope.getD .top) (N.pathParts (joined parts) scope) ∧
      joined (N.pathParts (joined parts) scope) = joined parts := by
    rw [Netlist.pathParts]
    split_ifs with hdot
    · obtain ⟨found, hfound, hdec⟩ := exact_isSome hs h hlen
      dsimp only
      rcases hr : N.exact maxDepth .empty (joined parts) (scope.getD .top) with ⟨ix, _ | found'⟩
      · rw [hr] at hfound
        cases hfound
      · rw [hr] at hfound
        obtain rfl := Option.some.inj hfound
        exact hdec
    · match parts with
      | [name] =>
        rw [joined_singleton]
        exact ⟨h, joined_singleton name⟩
      | name :: next :: parts =>
        rw [joined_cons] at hdot
        exact absurd (List.mem_append_right _ List.mem_cons_self) hdot
  exact ⟨hsplit, fun honly => honly _ hsplit.1 hsplit.2⟩

omit [DecidableEq B] in
/-- Without subckts inside subckts a master means the same in all scopes. -/
theorem settled_of_flat (h : ∀ sub, subckts (N.subckt sub).body = .empty) : N.Settled start := by
  have hfind : ∀ (sc : Scope B) (name : Str), N.findSubckt sc name = (subckts N.body).lookup name := by
    intro sc name
    induction sc with
    | top =>
      rw [Netlist.findSubckt, Netlist.where, Option.map_map]
      exact Option.map_id'
    | child sub parent ih =>
      rw [Netlist.findSubckt, Netlist.where, h sub]
      exact ih
  intro sc sc' _ _ _ it _
  rw [Netlist.master, Netlist.master, hfind, hfind]

/-! ## Three netlists -/

/-- A subckt instance. -/
def instanceOf (name master : String) (hname : str name ≠ []) : Item B :=
  .instance ⟨str name, str "x", [], some (str master), hname⟩

/-- A resistor. -/
def resistor (name n₁ n₂ : String) (hname : str name ≠ []) : Item B :=
  .instance ⟨str name, str "r", [str n₁, str n₂], none, hname⟩

/-- Two instances of one subckt; the name of the second begins with that of the first. -/
def halves : Netlist Unit where
  body := [.subckt (str "half") (), instanceOf "X" "half" (by decide), instanceOf "X.1" "half" (by decide)]
  subckt := fun _ =>
    ⟨[str "p", str "q"], [resistor "RA" "p" "m" (by decide), resistor "RB" "m" "q" (by decide)]⟩

theorem halves_split : halves.Decomposes .top (halves.pathParts (joined [str "X.1", str "m"]) none) ∧
    joined (halves.pathParts (joined [str "X.1", str "m"]) none) = joined [str "X.1", str "m"] :=
  have hdec : halves.Decomposes .top [str "X.1", str "m"] := by decide +kernel
  have hlen : [str "X.1", str "m"].length ≤ maxDepth + 1 := by decide
  (@pathParts_decomposes _ halves _ none (settled_of_flat fun _ => rfl) _ hdec hlen).1

/-- Subckts inside subckts, the innermost with a port. -/
def nested (depth : Nat) : Netlist Nat where
  body := [.subckt (str "s") 0, instanceOf "a" "s" (by decide)]
  subckt := fun k =>
    if k = depth then ⟨[str "m"], []⟩
    else ⟨[], [.subckt (str "s") (k + 1), instanceOf "a" "s" (by decide)]⟩

def deepPath : List Str := List.replicate 65 (str "a") ++ [str "m"]

/-- Below sixty-four instances nothing is found. -/
theorem deepPath_missed : (nested 64).Decomposes .top deepPath ∧
    ¬ (nested 64).Decomposes .top ((nested 64).pathParts (joined deepPath) none) := by
  decide +kernel

end Vamos.PathParts
