import Mathlib.Data.List.Nodup
import Sv2ghdl.Python.Str

/-!
# Instances of one name

`duplicates_pass` of `vamos/netlist/spectre.py`: two instances of a body may have one name when each of them is a
part of an if statement.  Which instances are active is decided by the truth of the conditions.
-/

open Python

namespace Vamos.Netlist.Duplicates

/-! ## Bodies -/

structure Instance where
  /-- The object. -/
  id : Nat
  name : Str
  nodes : List Str
  prim : Str
  origin : Str
  deriving DecidableEq, Repr

mutual

inductive Item where
  | instance (inst : Instance)
  | cond (branches : List Branch) (default : List Item)
  /-- A model, a parameter, a subckt or a paramtest. -/
  | other

/-- A condition, as an object, and the part that it selects. -/
inductive Branch where
  | mk (test : Nat) (body : List Item)

end

def Branch.body : Branch → List Item
  | .mk _ body => body

/-- The items after the first branch of an if statement: an else-if chain is a `cond` in the default. -/
def chain : List Branch → List Item → List Item
  | [], default => default
  | branch :: branches, default => [.cond [branch] (chain branches default)]

/-- What `cond` appends for the branches and the else part of a statement. -/
def cond : List Branch → List Item → Option Item
  | [], _ => none
  | branch :: branches, default => some (.cond [branch] (chain branches default))

mutual

def itemInstances : Item → List Instance
  | .instance inst => [inst]
  | .cond branches default => branchInstances branches ++ instances default
  | .other => []

/-- The instances of `flat_items`, in its order. -/
def instances : List Item → List Instance
  | [] => []
  | item :: items => itemInstances item ++ instances items

def branchInstances : List Branch → List Instance
  | [] => []
  | .mk _ body :: branches => instances body ++ branchInstances branches

end

mutual

def itemTests : Item → List Nat
  | .instance _ => []
  | .cond branches default => branchTests branches ++ tests default
  | .other => []

def tests : List Item → List Nat
  | [] => []
  | item :: items => itemTests item ++ tests items

def branchTests : List Branch → List Nat
  | [] => []
  | .mk test body :: branches => test :: tests body ++ branchTests branches

end

/-- The items of the top level or of a subckt; each instance and each condition is an object of its own. -/
structure Body where
  items : List Item
  ids_nodup : ((instances items).map Instance.id).Nodup
  tests_nodup : (tests items).Nodup

structure Scopes where
  top : Body
  /-- The bodies of the subckts, at any depth. -/
  subckts : List Body

def Scopes.bodies (s : Scopes) : List Body := s.top :: s.subckts

/-! ## The pass -/

/-- The id of a statement that is an instance. -/
def statementId : Item → List Nat
  | .instance inst => [inst.id]
  | _ => []

/-- `len(parts) < 2 or any(len(b) != 1 for b in parts)`, negated; an empty default is no part. -/
def singleParts (branches : List Branch) (default : List Item) : Bool :=
  let parts := branches.map Branch.body ++ if default.isEmpty then [] else [default]
  2 ≤ parts.length && parts.all (·.length = 1)

mutual

/-- `cond_duplicates`: what it adds to `allowed`. -/
def condDuplicates : Item → List Nat
  | .instance _ => []
  | .cond branches default =>
    let single := singleParts branches default
    branchDuplicates single branches ++ partDuplicates single default
  | .other => []

/-- One part; its instances count when each part is a single statement. -/
def partDuplicates (single : Bool) : List Item → List Nat
  | [] => []
  | item :: items =>
    (if single then statementId item else []) ++ condDuplicates item ++ partDuplicates single items

def branchDuplicates (single : Bool) : List Branch → List Nat
  | [] => []
  | .mk _ body :: branches => partDuplicates single body ++ branchDuplicates single branches

end

/-- An error, with the two places that it names. -/
structure Duplicate where
  name : Str
  prev : Str
  origin : Str
  deriving DecidableEq, Repr

def Duplicate.message (d : Duplicate) : Str :=
  str "instance " ++ d.name ++ str " is defined twice (" ++ d.prev ++ str " and " ++ d.origin ++
    str "); duplicates are allowed only in the if and else parts of one if statement, each a single " ++
    str "statement, on the same nodes and primitive (ref19 p.491)"

/-- The loop over `flat_items`: the errors and `scope.insts`, the first instance of each name. -/
def checkNames (allowed : List Nat) : List Instance → List Instance → List Duplicate × List Instance
  | seen, [] => ([], seen)
  | seen, it :: insts =>
    match seen.find? (·.name = it.name) with
    | none => checkNames allowed (seen ++ [it]) insts
    | some prev =>
      if it.id ∈ allowed ∧ prev.id ∈ allowed ∧ prev.nodes = it.nodes ∧ prev.prim = it.prim then
        checkNames allowed seen insts
      else
        let (errors, seen) := checkNames allowed seen insts
        (⟨it.name, prev.origin, it.origin⟩ :: errors, seen)

/-- The instances that may share a name; `duplicates_pass` starts from the if statements of the body. -/
def allowedOf (items : List Item) : List Nat := partDuplicates false items

def bodyDuplicates (body : Body) : List Duplicate × List Instance :=
  checkNames (allowedOf body.items) [] (instances body.items)

def duplicatesPass (s : Scopes) : List Duplicate := s.bodies.flatMap fun body => (bodyDuplicates body).1

/-! ## Active instances -/

section Active

variable (truth : Nat → Bool)

mutual

def activeItem : Item → List Instance
  | .instance inst => [inst]
  | .cond branches default => (activeBranch branches).getD (active default)
  | .other => []

/-- The instances outside every if, or in the part that each enclosing if selects. -/
def active : List Item → List Instance
  | [] => []
  | item :: items => activeItem item ++ active items

/-- The first branch with a true condition. -/
def activeBranch : List Branch → Option (List Instance)
  | [] => none
  | .mk test body :: branches => if truth test then some (active body) else activeBranch branches

end

/-- Only the conditions of the items decide. -/
def Agree (ts : List Nat) (truth truth' : Nat → Bool) : Prop := ∀ t ∈ ts, truth t = truth' t

end Active

theorem Agree.left {ts us : List Nat} {truth truth' : Nat → Bool} (h : Agree (ts ++ us) truth truth') :
    Agree ts truth truth' :=
  fun t ht => h t (List.mem_append_left us ht)

theorem Agree.right {ts us : List Nat} {truth truth' : Nat → Bool} (h : Agree (ts ++ us) truth truth') :
    Agree us truth truth' :=
  fun t ht => h t (List.mem_append_right ts ht)

section Agree

variable {truth truth' : Nat → Bool}

mutual

theorem activeItem_congr : ∀ item : Item, Agree (itemTests item) truth truth' →
    activeItem truth item = activeItem truth' item
  | .instance _, _ => rfl
  | .cond branches default, h => by
    rw [activeItem, activeItem, activeBranch_congr branches h.left, active_congr default h.right]
  | .other, _ => rfl

theorem active_congr : ∀ items : List Item, Agree (tests items) truth truth' →
    active truth items = active truth' items
  | [], _ => rfl
  | item :: items, h => by
    rw [active, active, activeItem_congr item h.left, active_congr items h.right]

theorem activeBranch_congr : ∀ branches : List Branch, Agree (branchTests branches) truth truth' →
    activeBranch truth branches = activeBranch truth' branches
  | [], _ => rfl
  | .mk test body :: branches, h => by
    have hrest : Agree (tests body ++ branchTests branches) truth truth' :=
      fun t ht => h t (List.mem_cons_of_mem test ht)
    rw [activeBranch, activeBranch, h test List.mem_cons_self, active_congr body hrest.left,
      activeBranch_congr branches hrest.right]

end

end Agree

mutual

theorem activeItem_sublist (truth : Nat → Bool) : ∀ item : Item,
    (activeItem truth item).Sublist (itemInstances item)
  | .instance _ => List.Sublist.refl _
  | .cond branches default => by
    rw [activeItem, itemInstances]
    cases h : activeBranch truth branches with
    | none => exact (active_sublist truth default).trans (List.sublist_append_right _ _)
    | some insts => exact (activeBranch_sublist truth branches insts h).trans (List.sublist_append_left _ _)
  | .other => List.Sublist.refl _

theorem active_sublist (truth : Nat → Bool) : ∀ items : List Item,
    (active truth items).Sublist (instances items)
  | [] => List.Sublist.refl _
  | item :: items => (activeItem_sublist truth item).append (active_sublist truth items)

theorem activeBranch_sublist (truth : Nat → Bool) : ∀ (branches : List Branch) (insts : List Instance),
    activeBranch truth branches = some insts → insts.Sublist (branchInstances branches)
  | [], _, h => nomatch h
  | .mk test body :: branches, insts, h => by
    rw [activeBranch] at h
    rw [branchInstances]
    cases htest : truth test with
    | true =>
      rw [htest, if_pos rfl, Option.some.injEq] at h
      rw [← h]
      exact (active_sublist truth body).trans (List.sublist_append_left _ _)
    | false =>
      rw [htest, if_neg Bool.false_ne_true] at h
      exact (activeBranch_sublist truth branches insts h).trans (List.sublist_append_right _ _)

end

/-! ## Choosing the conditions -/

/-- The conditions of an if statement can be chosen so that it selects any of its parts. -/
theorem exists_select (truth : Nat → Bool) (default part : List Item) : ∀ branches : List Branch,
    (branchTests branches ++ tests default).Nodup → part ∈ branches.map Branch.body ++ [default] →
      ∃ truth', (activeBranch truth' branches).getD (active truth' default) = active truth part
  | [], _, hpart => by
    rw [List.map_nil, List.nil_append, List.mem_singleton] at hpart
    exact ⟨truth, by rw [hpart]; rfl⟩
  | .mk test body :: branches, hnodup, hpart => by
    rw [branchTests, List.cons_append, List.cons_append, List.nodup_cons, List.append_assoc] at hnodup
    obtain ⟨htest, hnodup⟩ := hnodup
    rw [List.map_cons, List.cons_append, List.mem_cons] at hpart
    -- `test` is true exactly when its own part is the one, and no part asks for it
    rcases hpart with rfl | hpart
    · let truth' := fun t => if t = test then true else truth t
      have hpart : Agree (tests part) truth' truth :=
        fun t ht => if_neg fun heq : t = test => htest (heq ▸ List.mem_append_left _ ht)
      refine ⟨truth', ?_⟩
      rw [activeBranch, if_pos (if_pos rfl)]
      exact active_congr part hpart
    · obtain ⟨truth₁, hselect⟩ := exists_select truth default part branches hnodup.of_append_right hpart
      let truth' := fun t => if t = test then false else truth₁ t
      have hrest : Agree (branchTests branches ++ tests default) truth' truth₁ :=
        fun t ht => if_neg fun heq : t = test => htest (heq ▸ List.mem_append_right _ ht)
      have hfalse : ¬ truth' test = true := by
        show ¬ (if test = test then false else truth₁ test) = true
        rw [if_pos rfl]
        exact Bool.false_ne_true
      refine ⟨truth', ?_⟩
      rw [activeBranch, if_neg hfalse, activeBranch_congr branches hrest.left, active_congr default hrest.right]
      exact hselect

/-- Two lists of conditions without a common one are chosen apart. -/
theorem exists_agree {ts us : List Nat} (h : (ts ++ us).Nodup) (truth truth' : Nat → Bool) :
    ∃ both, Agree ts both truth ∧ Agree us both truth' := by
  refine ⟨fun t => if t ∈ ts then truth t else truth' t, fun t ht => if_pos ht, fun u hu => if_neg fun ht => ?_⟩
  exact List.disjoint_of_nodup_append h ht hu

mutual

/-- Each instance is active under some choice. -/
theorem exists_activeItem (inst : Instance) : ∀ item : Item, (itemTests item).Nodup → inst ∈ itemInstances item →
    ∃ truth, inst ∈ activeItem truth item
  | .instance _, _, h => ⟨fun _ => false, h⟩
  | .cond branches default, hnodup, h => by
    rw [itemTests] at hnodup
    -- the part that holds it, with a choice for the part
    obtain ⟨part, hpart, truth, hinst⟩ : ∃ part ∈ branches.map Branch.body ++ [default], ∃ truth,
        inst ∈ active truth part := by
      rcases List.mem_append.mp h with h | h
      · obtain ⟨part, hpart, hactive⟩ := exists_activePart inst branches hnodup.of_append_left h
        exact ⟨part, List.mem_append_left _ hpart, hactive⟩
      · exact ⟨default, List.mem_append_right _ (List.mem_singleton.mpr rfl),
          exists_active inst default hnodup.of_append_right h⟩
    obtain ⟨truth', hselect⟩ := exists_select truth default part branches hnodup hpart
    refine ⟨truth', ?_⟩
    rw [activeItem, hselect]
    exact hinst
  | .other, _, h => absurd h List.not_mem_nil

theorem exists_active (inst : Instance) : ∀ items : List Item, (tests items).Nodup → inst ∈ instances items →
    ∃ truth, inst ∈ active truth items
  | [], _, h => absurd h List.not_mem_nil
  | item :: items, hnodup, h => by
    rw [tests] at hnodup
    rcases List.mem_append.mp h with h | h
    · obtain ⟨truth, hinst⟩ := exists_activeItem inst item hnodup.of_append_left h
      exact ⟨truth, List.mem_append_left _ hinst⟩
    · obtain ⟨truth, hinst⟩ := exists_active inst items hnodup.of_append_right h
      exact ⟨truth, List.mem_append_right _ hinst⟩

theorem exists_activePart (inst : Instance) : ∀ branches : List Branch, (branchTests branches).Nodup →
    inst ∈ branchInstances branches → ∃ part ∈ branches.map Branch.body, ∃ truth, inst ∈ active truth part
  | [], _, h => absurd h List.not_mem_nil
  | .mk test body :: branches, hnodup, h => by
    rw [branchTests, List.cons_append, List.nodup_cons] at hnodup
    rcases List.mem_append.mp h with h | h
    · exact ⟨body, List.mem_cons_self, exists_active inst body hnodup.2.of_append_left h⟩
    · obtain ⟨part, hpart, hactive⟩ := exists_activePart inst branches hnodup.2.of_append_right h
      exact ⟨part, List.mem_cons_of_mem _ hpart, hactive⟩

end

/-! ## If statements apart -/

mutual

def itemLists : Item → List (List Item)
  | .instance _ => []
  | .cond branches default => branchLists branches ++ default :: partLists default
  | .other => []

/-- The parts of the if statements of the items, at any depth. -/
def partLists : List Item → List (List Item)
  | [] => []
  | item :: items => itemLists item ++ partLists items

def branchLists : List Branch → List (List Item)
  | [] => []
  | .mk _ body :: branches => body :: partLists body ++ branchLists branches

end

/-- The body and each part of an if statement. -/
def statementLists (items : List Item) : List (List Item) := items :: partLists items

/-- The instances of an if statement; another statement has none. -/
def ifInstances : Item → List Instance
  | .cond branches default => itemInstances (.cond branches default)
  | _ => []

def NamesApart (insts insts' : List Instance) : Prop := ∀ i ∈ insts, ∀ j ∈ insts', i.name ≠ j.name

instance (insts insts' : List Instance) : Decidable (NamesApart insts insts') :=
  inferInstanceAs (Decidable (∀ i ∈ insts, ∀ j ∈ insts', i.name ≠ j.name))

/-- No two if statements of a list have instances of one name. -/
def ListApart (items : List Item) : Prop :=
  items.Pairwise fun x y => NamesApart (ifInstances x) (ifInstances y)

instance (items : List Item) : Decidable (ListApart items) :=
  inferInstanceAs (Decidable (items.Pairwise _))

/-- No two if statements of one statement list have instances of one name. -/
def IfsApart (items : List Item) : Prop := ∀ list ∈ statementLists items, ListApart list

instance (items : List Item) : Decidable (IfsApart items) :=
  inferInstanceAs (Decidable (∀ list ∈ statementLists items, ListApart list))

/-- No choice makes two instances of one name active. -/
def DistinctNames (items : List Item) : Prop :=
  ∀ truth : Nat → Bool, ((active truth items).map Instance.name).Nodup

def DistinctItem (item : Item) : Prop :=
  ∀ truth : Nat → Bool, ((activeItem truth item).map Instance.name).Nodup

theorem ifInstances_subset : ∀ item : Item, ifInstances item ⊆ itemInstances item
  | .instance _ => List.nil_subset _
  | .cond _ _ => List.Subset.refl _
  | .other => List.Subset.refl _

theorem mem_instances {inst : Instance} {items : List Item} :
    inst ∈ instances items ↔ ∃ item ∈ items, inst ∈ itemInstances item := by
  induction items with
  | nil => simp [instances]
  | cons item items ih => simp [instances, ih]

theorem DistinctNames.head {item : Item} {items : List Item} (h : DistinctNames (item :: items)) :
    DistinctItem item := by
  intro truth
  have hall := h truth
  rw [active, List.map_append] at hall
  exact hall.of_append_left

theorem DistinctNames.tail {item : Item} {items : List Item} (h : DistinctNames (item :: items)) :
    DistinctNames items := by
  intro truth
  have hall := h truth
  rw [active, List.map_append] at hall
  exact hall.of_append_right

/-- A part of an if statement is as distinct as the statement. -/
theorem DistinctItem.part {branches : List Branch} {default part : List Item}
    (hnodup : (branchTests branches ++ tests default).Nodup) (h : DistinctItem (.cond branches default))
    (hpart : part ∈ branches.map Branch.body ++ [default]) : DistinctNames part := by
  intro truth
  obtain ⟨truth', hselect⟩ := exists_select truth default part branches hnodup hpart
  rw [← hselect]
  exact h truth'

/-- The statements of a list hold instances of different names. -/
theorem DistinctNames.pairwise {items : List Item} (hnodup : (tests items).Nodup) (h : DistinctNames items) :
    items.Pairwise fun x y => NamesApart (itemInstances x) (itemInstances y) := by
  induction items with
  | nil => exact List.Pairwise.nil
  | cons item items ih =>
    rw [tests] at hnodup
    refine List.pairwise_cons.mpr ⟨fun y hy i hi j hj heq => ?_, ih hnodup.of_append_right h.tail⟩
    obtain ⟨truth₁, hi⟩ := exists_activeItem i item hnodup.of_append_left hi
    obtain ⟨truth₂, hj⟩ := exists_active j items hnodup.of_append_right (mem_instances.mpr ⟨y, hy, hj⟩)
    -- a choice that makes both active
    obtain ⟨both, hleft, hright⟩ := exists_agree hnodup truth₁ truth₂
    have hall := h both
    rw [active, activeItem_congr item hleft, active_congr items hright, List.map_append] at hall
    exact List.disjoint_of_nodup_append hall (List.mem_map_of_mem hi) (heq ▸ List.mem_map_of_mem hj)

theorem DistinctNames.listApart {items : List Item} (hnodup : (tests items).Nodup) (h : DistinctNames items) :
    ListApart items :=
  (h.pairwise hnodup).imp fun hxy i hi j hj =>
    hxy i (ifInstances_subset _ hi) j (ifInstances_subset _ hj)

mutual

theorem listApart_of_item : ∀ item : Item, (itemTests item).Nodup → DistinctItem item →
    ∀ list ∈ itemLists item, ListApart list
  | .instance _, _, _, _, hlist => absurd hlist List.not_mem_nil
  | .cond branches default, hnodup, h, list, hlist => by
    rw [itemTests] at hnodup
    have hdefault : DistinctNames default :=
      h.part hnodup (List.mem_append_right _ (List.mem_singleton.mpr rfl))
    rcases List.mem_append.mp hlist with hlist | hlist
    · refine listApart_of_branches branches hnodup.of_append_left (fun part hpart => ?_) list hlist
      exact h.part hnodup (List.mem_append_left _ hpart)
    · rcases List.mem_cons.mp hlist with rfl | hlist
      · exact hdefault.listApart hnodup.of_append_right
      · exact listApart_of_parts default hnodup.of_append_right hdefault list hlist
  | .other, _, _, _, hlist => absurd hlist List.not_mem_nil

theorem listApart_of_parts : ∀ items : List Item, (tests items).Nodup → DistinctNames items →
    ∀ list ∈ partLists items, ListApart list
  | [], _, _, _, hlist => absurd hlist List.not_mem_nil
  | item :: items, hnodup, h, list, hlist => by
    rw [tests] at hnodup
    rcases List.mem_append.mp hlist with hlist | hlist
    · exact listApart_of_item item hnodup.of_append_left h.head list hlist
    · exact listApart_of_parts items hnodup.of_append_right h.tail list hlist

theorem listApart_of_branches : ∀ branches : List Branch, (branchTests branches).Nodup →
    (∀ part ∈ branches.map Branch.body, DistinctNames part) → ∀ list ∈ branchLists branches, ListApart list
  | [], _, _, _, hlist => absurd hlist List.not_mem_nil
  | .mk test body :: branches, hnodup, h, list, hlist => by
    rw [branchTests, List.cons_append, List.nodup_cons] at hnodup
    have hbody : DistinctNames body := h body List.mem_cons_self
    rcases List.mem_append.mp hlist with hlist | hlist
    · rcases List.mem_cons.mp hlist with rfl | hlist
      · exact hbody.listApart hnodup.2.of_append_left
      · exact listApart_of_parts body hnodup.2.of_append_left hbody list hlist
    · refine listApart_of_branches branches hnodup.2.of_append_right (fun part hpart => ?_) list hlist
      exact h part (List.mem_cons_of_mem _ hpart)

end

/-- Every choice keeps the names distinct only if the if statements have their own names. -/
theorem DistinctNames.ifsApart {items : List Item} (hnodup : (tests items).Nodup) (h : DistinctNames items) :
    IfsApart items := by
  intro list hlist
  rcases List.mem_cons.mp hlist with rfl | hlist
  · exact h.listApart hnodup
  · exact listApart_of_parts items hnodup h list hlist

/-! ## What the pass accepts -/

theorem checkNames_accepts {allowed : List Nat} {seen insts : List Instance}
    (h : (checkNames allowed seen insts).1 = []) :
    (∀ it ∈ insts, ∀ prev, seen.find? (·.name = it.name) = some prev → prev.id ∈ allowed ∧ it.id ∈ allowed) ∧
    insts.Pairwise fun i j => i.name = j.name → i.id ∈ allowed ∧ j.id ∈ allowed := by
  induction insts generalizing seen with
  | nil => exact ⟨fun it hit => absurd hit List.not_mem_nil, List.Pairwise.nil⟩
  | cons it insts ih =>
    rw [checkNames] at h
    cases hfind : seen.find? (·.name = it.name) with
    | none =>
      rw [hfind] at h
      obtain ⟨hseen, hpair⟩ := ih h
      refine ⟨fun j hj prev hprev => ?_, List.pairwise_cons.mpr ⟨fun j hj hname => ?_, hpair⟩⟩
      · rcases List.mem_cons.mp hj with rfl | hj
        · rw [hfind] at hprev
          cases hprev
        · exact hseen j hj prev (by rw [List.find?_append, hprev, Option.some_or])
      · -- `it` is the first of its name
        refine hseen j hj it ?_
        rw [← hname, List.find?_append, hfind, Option.none_or, List.find?_singleton, if_pos (by simp)]
    | some prev =>
      rw [hfind] at h
      dsimp only at h
      split at h
      · rename_i hallowed
        obtain ⟨hseen, hpair⟩ := ih h
        refine ⟨fun j hj prev' hprev => ?_, List.pairwise_cons.mpr ⟨fun j hj hname => ?_, hpair⟩⟩
        · rcases List.mem_cons.mp hj with rfl | hj
          · rw [hfind, Option.some.injEq] at hprev
            exact hprev ▸ ⟨hallowed.2.1, hallowed.1⟩
          · exact hseen j hj prev' hprev
        · exact ⟨hallowed.1, (hseen j hj prev (hname ▸ hfind)).2⟩
      · cases h

/-- Two instances of one name are among the allowed ones. -/
def SameAllowed (allowed : List Nat) (insts : List Instance) : Prop :=
  ∀ i ∈ insts, ∀ j ∈ insts, i ≠ j → i.name = j.name → i.id ∈ allowed

theorem sameAllowed_of_accepted {body : Body} (h : (bodyDuplicates body).1 = []) :
    SameAllowed (allowedOf body.items) (instances body.items) := by
  intro i hi j hj hne hname
  have hsymm : Std.Symm fun i j : Instance =>
      i.name = j.name → i.id ∈ allowedOf body.items ∧ j.id ∈ allowedOf body.items :=
    ⟨fun x y hxy hname => (hxy hname.symm).symm⟩
  exact ((checkNames_accepts h).2.forall hi hj hne hname).1

/-- What is allowed in one half of a body comes from that half. -/
theorem SameAllowed.split {as bs : List Nat} {insts insts' : List Instance}
    (hids : ((insts ++ insts').map Instance.id).Nodup) (has : as ⊆ insts.map Instance.id)
    (hbs : bs ⊆ insts'.map Instance.id) (h : SameAllowed (as ++ bs) (insts ++ insts')) :
    SameAllowed as insts ∧ SameAllowed bs insts' := by
  rw [List.map_append] at hids
  have hapart := List.disjoint_of_nodup_append hids
  constructor
  · intro i hi j hj hne hname
    rcases List.mem_append.mp (h i (List.mem_append_left _ hi) j (List.mem_append_left _ hj) hne hname) with h | h
    · exact h
    · exact absurd (hbs h) (hapart (List.mem_map_of_mem hi))
  · intro i hi j hj hne hname
    rcases List.mem_append.mp (h i (List.mem_append_right _ hi) j (List.mem_append_right _ hj) hne hname) with h | h
    · exact absurd (List.mem_map_of_mem hi) (hapart (has h))
    · exact h

theorem append_subset_ids {as bs : List Nat} {insts insts' : List Instance} (has : as ⊆ insts.map Instance.id)
    (hbs : bs ⊆ insts'.map Instance.id) : as ++ bs ⊆ (insts ++ insts').map Instance.id := by
  rw [List.map_append]
  exact List.append_subset.mpr ⟨List.subset_append_of_subset_left _ has, List.subset_append_of_subset_right _ hbs⟩

mutual

theorem condDuplicates_subset : ∀ item : Item, condDuplicates item ⊆ (itemInstances item).map Instance.id
  | .instance _ => List.nil_subset _
  | .cond branches default =>
    append_subset_ids (branchDuplicates_subset _ branches) (partDuplicates_subset _ default)
  | .other => List.nil_subset _

theorem partDuplicates_subset (single : Bool) : ∀ items : List Item,
    partDuplicates single items ⊆ (instances items).map Instance.id
  | [] => List.nil_subset _
  | item :: items => by
    refine append_subset_ids (List.append_subset.mpr ⟨?_, condDuplicates_subset item⟩)
      (partDuplicates_subset single items)
    cases single
    · exact List.nil_subset _
    · match item with
      | .instance inst => exact List.Subset.refl _
      | .cond _ _ => exact List.nil_subset _
      | .other => exact List.nil_subset _

theorem branchDuplicates_subset (single : Bool) : ∀ branches : List Branch,
    branchDuplicates single branches ⊆ (branchInstances branches).map Instance.id
  | [] => List.nil_subset _
  | .mk _ body :: branches =>
    append_subset_ids (partDuplicates_subset single body) (branchDuplicates_subset single branches)

end

theorem mem_ifInstances {inst : Instance} : ∀ {item : Item}, inst ∈ itemInstances item →
    inst.id ∈ condDuplicates item → inst ∈ ifInstances item
  | .instance _, _, h => absurd h List.not_mem_nil
  | .cond _ _, h, _ => h
  | .other, _, h => absurd h List.not_mem_nil

/-- In a list with several statements, only the if statements hold allowed instances. -/
theorem exists_ifInstances {inst : Instance} {items : List Item} (hids : ((instances items).map Instance.id).Nodup)
    (hinst : inst ∈ instances items) (hallowed : inst.id ∈ partDuplicates false items) :
    ∃ item ∈ items, inst ∈ ifInstances item := by
  induction items with
  | nil => exact absurd hinst List.not_mem_nil
  | cons item items ih =>
    rw [instances, List.map_append] at hids
    have hapart := List.disjoint_of_nodup_append hids
    rw [partDuplicates, if_neg Bool.false_ne_true, List.nil_append] at hallowed
    rcases List.mem_append.mp hinst with hinst | hinst
    · rcases List.mem_append.mp hallowed with h | h
      · exact ⟨item, List.mem_cons_self, mem_ifInstances hinst h⟩
      · exact absurd (partDuplicates_subset false items h) (hapart (List.mem_map_of_mem hinst))
    · rcases List.mem_append.mp hallowed with h | h
      · exact absurd (List.mem_map_of_mem hinst) (hapart (condDuplicates_subset item h))
      · obtain ⟨y, hy, hmem⟩ := ih hids.of_append_right hinst h
        exact ⟨y, List.mem_cons_of_mem item hy, hmem⟩

/-- A statement has names apart from the statements after it. -/
theorem namesApart_tail {single : Bool} {item : Item} {items : List Item}
    (hsingle : single = true → (item :: items).length ≤ 1)
    (hids : ((instances (item :: items)).map Instance.id).Nodup)
    (hsame : SameAllowed (partDuplicates single (item :: items)) (instances (item :: items)))
    (hlist : ListApart (item :: items)) : NamesApart (itemInstances item) (instances items) := by
  intro i hi j hj hname
  cases single with
  | true =>
    have hnil : items = [] := List.length_eq_zero_iff.mp (Nat.le_zero.mp (Nat.le_of_succ_le_succ (hsingle rfl)))
    rw [hnil] at hj
    exact absurd hj List.not_mem_nil
  | false =>
    have hi' : i ∈ instances (item :: items) := List.mem_append_left _ hi
    have hj' : j ∈ instances (item :: items) := List.mem_append_right _ hj
    rw [instances, List.map_append] at hids
    have hapart := List.disjoint_of_nodup_append hids
    have hne : i ≠ j := fun heq => hapart (List.mem_map_of_mem hi) (List.mem_map_of_mem (heq ▸ hj))
    have hallowed := hsame i hi' j hj' hne hname
    have hallowed' := hsame j hj' i hi' hne.symm hname.symm
    rw [partDuplicates, if_neg Bool.false_ne_true, List.nil_append] at hallowed hallowed'
    -- both stand in an if statement, of which the two are different
    have hleft : i ∈ ifInstances item := by
      rcases List.mem_append.mp hallowed with h | h
      · exact mem_ifInstances hi h
      · exact absurd (partDuplicates_subset false items h) (hapart (List.mem_map_of_mem hi))
    obtain ⟨y, hy, hright⟩ : ∃ y ∈ items, j ∈ ifInstances y := by
      refine exists_ifInstances hids.of_append_right hj ?_
      rcases List.mem_append.mp hallowed' with h | h
      · exact absurd (List.mem_map_of_mem hj) (hapart (condDuplicates_subset item h))
      · exact h
    exact (List.pairwise_cons.mp hlist).1 y hy i hleft j hright hname

theorem NamesApart.disjoint {insts insts' sel sel' : List Instance} (h : NamesApart insts insts')
    (hsel : sel ⊆ insts) (hsel' : sel' ⊆ insts') :
    (sel.map Instance.name).Disjoint (sel'.map Instance.name) := by
  intro name hname hname'
  obtain ⟨i, hi, rfl⟩ := List.mem_map.mp hname
  obtain ⟨j, hj, heq⟩ := List.mem_map.mp hname'
  exact h i (hsel hi) j (hsel' hj) heq.symm

/-- The statement itself is the only instance of an instance statement. -/
theorem sameAllowed_item {single : Bool} : ∀ {item : Item},
    SameAllowed ((if single then statementId item else []) ++ condDuplicates item) (itemInstances item) →
    SameAllowed (condDuplicates item) (itemInstances item)
  | .instance _, _, i, hi, j, hj, hne, _ =>
    absurd ((List.mem_singleton.mp hi).trans (List.mem_singleton.mp hj).symm) hne
  | .cond _ _, h, i, hi, j, hj, hne, hname => by
    rcases List.mem_append.mp (h i hi j hj hne hname) with h | h
    · cases single <;> exact absurd h List.not_mem_nil
    · exact h
  | .other, _, _, hi, _, _, _, _ => absurd hi List.not_mem_nil

theorem single_length {branches : List Branch} {default : List Item} (h : singleParts branches default = true) :
    ∀ part ∈ branches.map Branch.body ++ [default], part.length ≤ 1 := by
  intro part hpart
  simp only [singleParts, Bool.and_eq_true, List.all_eq_true, decide_eq_true_eq] at h
  rcases List.mem_append.mp hpart with hpart | hpart
  · exact (h.2 part (List.mem_append_left _ hpart)).le
  · rw [List.mem_singleton.mp hpart]
    cases default with
    | nil => exact Nat.zero_le 1
    | cons item items => exact (h.2 _ (List.mem_append_right _ List.mem_cons_self)).le

section Accepted

variable (truth : Nat → Bool)

mutual

theorem item_names_nodup : ∀ item : Item, ((itemInstances item).map Instance.id).Nodup →
    SameAllowed (condDuplicates item) (itemInstances item) → (∀ list ∈ itemLists item, ListApart list) →
    ((activeItem truth item).map Instance.name).Nodup
  | .instance _, _, _, _ => List.nodup_singleton _
  | .cond branches default, hids, hsame, hlists => by
    rw [itemInstances] at hids hsame
    have hsplit := hsame.split hids (branchDuplicates_subset _ branches) (partDuplicates_subset _ default)
    rw [List.map_append] at hids
    rw [activeItem]
    cases hbranch : activeBranch truth branches with
    | none =>
      refine names_nodup (singleParts branches default) default (fun h => ?_) hids.of_append_right hsplit.2
        (hlists default (List.mem_append_right _ List.mem_cons_self)) fun list hlist => ?_
      · exact single_length h default (List.mem_append_right _ (List.mem_singleton.mpr rfl))
      · exact hlists list (List.mem_append_right _ (List.mem_cons_of_mem default hlist))
    | some insts =>
      refine branch_names_nodup (singleParts branches default) branches (fun h part hpart => ?_)
        hids.of_append_left hsplit.1 (fun list hlist => ?_) insts hbranch
      · exact single_length h part (List.mem_append_left _ hpart)
      · exact hlists list (List.mem_append_left _ hlist)
  | .other, _, _, _ => List.nodup_nil

theorem names_nodup (single : Bool) : ∀ items : List Item, (single = true → items.length ≤ 1) →
    ((instances items).map Instance.id).Nodup → SameAllowed (partDuplicates single items) (instances items) →
    ListApart items → (∀ list ∈ partLists items, ListApart list) →
    ((active truth items).map Instance.name).Nodup
  | [], _, _, _, _, _ => List.nodup_nil
  | item :: items, hsingle, hids, hsame, hlist, hlists => by
    have hapart := namesApart_tail hsingle hids hsame hlist
    rw [instances] at hids hsame
    have hsubset : (if single then statementId item else []) ++ condDuplicates item ⊆
        (itemInstances item).map Instance.id := by
      have hall := partDuplicates_subset single [item]
      rw [partDuplicates, partDuplicates, List.append_nil, instances, instances, List.append_nil] at hall
      exact hall
    have hsplit := hsame.split hids hsubset (partDuplicates_subset single items)
    rw [List.map_append] at hids
    rw [active, List.map_append]
    refine List.nodup_append'.mpr ⟨?_, ?_, ?_⟩
    · exact item_names_nodup item hids.of_append_left (sameAllowed_item hsplit.1)
        fun list h => hlists list (List.mem_append_left _ h)
    · exact names_nodup single items (fun h => (Nat.le_succ _).trans (hsingle h)) hids.of_append_right hsplit.2
        (List.pairwise_cons.mp hlist).2 fun list h => hlists list (List.mem_append_right _ h)
    · exact hapart.disjoint (activeItem_sublist truth item).subset (active_sublist truth items).subset

theorem branch_names_nodup (single : Bool) : ∀ branches : List Branch,
    (single = true → ∀ part ∈ branches.map Branch.body, part.length ≤ 1) →
    ((branchInstances branches).map Instance.id).Nodup →
    SameAllowed (branchDuplicates single branches) (branchInstances branches) →
    (∀ list ∈ branchLists branches, ListApart list) →
    ∀ insts, activeBranch truth branches = some insts → (insts.map Instance.name).Nodup
  | [], _, _, _, _, _, h => nomatch h
  | .mk test body :: branches, hsingle, hids, hsame, hlists, insts, h => by
    rw [branchInstances] at hids hsame
    have hsplit := hsame.split hids (partDuplicates_subset single body) (branchDuplicates_subset single branches)
    rw [List.map_append] at hids
    rw [activeBranch] at h
    cases htest : truth test with
    | true =>
      rw [htest, if_pos rfl, Option.some.injEq] at h
      rw [← h]
      exact names_nodup single body (fun h => hsingle h body List.mem_cons_self) hids.of_append_left hsplit.1
        (hlists body (List.mem_append_left _ List.mem_cons_self))
        fun list h => hlists list (List.mem_append_left _ (List.mem_cons_of_mem body h))
    | false =>
      rw [htest, if_neg Bool.false_ne_true] at h
      exact branch_names_nodup single branches
        (fun h part hpart => hsingle h part (List.mem_cons_of_mem _ hpart)) hids.of_append_right hsplit.2
        (fun list h => hlists list (List.mem_append_right _ h)) insts h

end

end Accepted

theorem Body.distinctNames {body : Body} (h : (bodyDuplicates body).1 = []) (hapart : IfsApart body.items) :
    DistinctNames body.items := fun truth =>
  names_nodup truth false body.items (fun h => absurd h Bool.false_ne_true) body.ids_nodup
    (sameAllowed_of_accepted h) (hapart body.items List.mem_cons_self)
    fun list hlist => hapart list (List.mem_cons_of_mem _ hlist)

/-- In an accepted netlist no two active instances have one name exactly when no two if statements of one
statement list have instances of one name. -/
theorem accepted_distinct_iff (s : Scopes) (h : duplicatesPass s = []) :
    (∀ body ∈ s.bodies, DistinctNames body.items) ↔ ∀ body ∈ s.bodies, IfsApart body.items := by
  have hbody : ∀ body ∈ s.bodies, (bodyDuplicates body).1 = [] := List.flatMap_eq_nil_iff.mp h
  constructor
  · intro hdistinct body hmem
    exact (hdistinct body hmem).ifsApart body.tests_nodup
  · intro hapart body hmem
    exact Body.distinctNames (hbody body hmem) (hapart body hmem)

/-- `r1 (a b) resistor` -/
def resistor (id : Nat) (origin : String) : Instance :=
  ⟨id, str "r1", [str "a", str "b"], str "resistor", str origin⟩

/-- `if (..) r1 (a b) resistor else r1 (a b) resistor` at a line -/
def ifElse (test id : Nat) (origin origin' : String) : List Item :=
  (cond [.mk test [.instance (resistor id origin)]] [.instance (resistor (id + 1) origin')]).toList

def oneIf : Scopes := ⟨⟨ifElse 0 0 "x.scs:2" "x.scs:4", by decide, by decide⟩, []⟩

theorem oneIf_distinct : duplicatesPass oneIf = [] ∧ ∀ body ∈ oneIf.bodies, DistinctNames body.items := by
  have hpass : duplicatesPass oneIf = [] := by decide +kernel
  exact ⟨hpass, (accepted_distinct_iff oneIf hpass).mpr (by decide +kernel)⟩

/-- Two if statements one after the other, each with the instance in both parts. -/
def twoIfs : Scopes :=
  ⟨⟨ifElse 0 0 "x.scs:2" "x.scs:4" ++ ifElse 1 2 "x.scs:6" "x.scs:8", by decide, by decide⟩, []⟩

/-- Each combination of the two conditions makes two instances `r1` active. -/
theorem twoIfs_same_name : duplicatesPass twoIfs = [] ∧
    (active (fun _ => true) twoIfs.top.items).map Instance.origin = [str "x.scs:2", str "x.scs:6"] ∧
    ¬ ∀ body ∈ twoIfs.bodies, DistinctNames body.items := by
  refine ⟨by decide +kernel, by decide +kernel, fun h => ?_⟩
  have hfalse := h twoIfs.top List.mem_cons_self fun _ => true
  revert hfalse
  decide +kernel

end Vamos.Netlist.Duplicates
