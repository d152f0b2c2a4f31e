import Sv2ghdl.Yosys.BenchRun
import Sv2ghdl.Yosys.ConeFold

/-!
# A sliced cone computes its target

`yosys/cone_slice.py`: for a netlist without loops whose nets are not named like the names that the script makes
up, the cone that is written has its gates in an order in which every net is driven before it is read, and it
gives the target the value that the full netlist gives it.
-/

open Python

namespace Yosys.ConeSlice

namespace Netlist

variable (N : Netlist)

/-! ## Netlists without loops -/

/-- `rank` goes down from a gate to the gates it reads. -/
def Acyclic (rank : Str → Nat) : Prop :=
  ∀ net g, N.gateOf.lookup net = some g → net ∉ N.inputs →
    ∀ a ∈ g.args, a ∉ N.inputs → (N.gateOf.lookup a).isSome → rank a < rank net

/-- The names of the file and the target. -/
def names (target : Str) : List Str := target :: N.inputs ++ N.gateOf.keys ++ N.gateOf.keys.flatMap N.args

/-- No net is named like the names that the script makes up. -/
def Fresh (target : Str) : Prop :=
  ∀ n ∈ N.names target, (∀ b, n ≠ constName b) ∧ ∀ m ∈ N.gateOf.keys, n ≠ m ++ str "__x"

variable {N}

theorem isSome_lookup {net : Str} : (N.gateOf.lookup net).isSome ↔ net ∈ N.gateOf.keys := by
  rw [OrderedDict.mem_keys_iff, Option.isSome_iff_exists]

theorem args_of_lookup {net : Str} {g : Gate} (h : N.gateOf.lookup net = some g) : N.args net = g.args := by
  rw [args, h]
  rfl

theorem args_of_notMem {net : Str} (h : net ∉ N.gateOf.keys) : N.args net = [] := by
  rw [args, Option.not_isSome_iff_eq_none.mp fun hsome => h (isSome_lookup.mp hsome)]
  rfl

/-! ## The cone and its support -/

/-- The cone has gates, whose arguments are in the cone or in the support; the support has no gates. -/
structure ReachedOk (N : Netlist) (target : Str) (r : Reached) : Prop where
  cone : ∀ n ∈ r.cone, n ∉ N.inputs ∧ n ∈ N.gateOf.keys
  support : ∀ n ∈ r.support, n ∈ N.inputs ∨ n ∉ N.gateOf.keys
  args : ∀ n ∈ r.cone, ∀ a ∈ N.args n, a ∈ r.cone ∨ a ∈ r.support
  reaches : target ∈ r.cone ∨ target ∈ r.support
  named : ∀ n ∈ r.support, n ∈ N.names target

theorem mem_names_of_arg {net a : Str} (h : a ∈ N.args net) (target : Str) : a ∈ N.names target := by
  have hkey : net ∈ N.gateOf.keys := by
    by_contra hkey
    rw [args_of_notMem hkey] at h
    cases h
  unfold names
  simp only [List.mem_append, List.mem_flatMap]
  exact .inr ⟨net, hkey, h⟩

theorem reached_ok {target : Str} {r : Reached} (h : N.reached target = some r) : ReachedOk N target r := by
  -- what the walk has still to look at stands in for what it has reached
  let inv (seen stack : List Str) (r : Reached) : Prop :=
    (∀ n, n ∈ seen ↔ n ∈ r.cone ∨ n ∈ r.support) ∧ (∀ n ∈ r.cone, n ∉ N.inputs ∧ n ∈ N.gateOf.keys) ∧
      (∀ n ∈ r.support, n ∈ N.inputs ∨ n ∉ N.gateOf.keys) ∧
      (∀ n ∈ r.cone, ∀ a ∈ N.args n, a ∈ seen ∨ a ∈ stack) ∧ (target ∈ seen ∨ target ∈ stack) ∧
      ∀ n ∈ seen ++ stack, n ∈ N.names target
  have hstart : inv [] [target] ⟨[], []⟩ := by simp [inv, names]
  obtain ⟨seen, hseen, hcone, hsupport, hargs, htarget, hnamed⟩ := Worklist.walk_rule inv hstart
    (by
      rintro seen a stack t ha ⟨h1, h2, h3, h4, h5, h6⟩
      refine ⟨h1, h2, h3, ?_, ?_, fun n hn => h6 n ?_⟩
      · intro n hn b hb
        rcases h4 n hn b hb with hb | hb
        · exact .inl hb
        · rcases List.mem_cons.mp hb with rfl | hb
          · exact .inl ha
          · exact .inr hb
      · rcases h5 with h5 | h5
        · exact .inl h5
        · rcases List.mem_cons.mp h5 with rfl | h5
          · exact .inl ha
          · exact .inr h5
      · rcases List.mem_append.mp hn with hn | hn
        · exact List.mem_append_left _ hn
        · exact List.mem_append_right _ (List.mem_cons_of_mem _ hn))
    (by
      rintro seen a stack t ha ⟨h1, h2, h3, h4, h5, h6⟩
      have h5' : target ∈ a :: seen ∨ target ∈ stack := by
        rcases h5 with h5 | h5
        · exact .inl (List.mem_cons_of_mem _ h5)
        · rcases List.mem_cons.mp h5 with heq | h5
          · exact .inl (heq ▸ List.mem_cons_self)
          · exact .inr h5
      have h4' : ∀ n ∈ t.cone, ∀ b ∈ N.args n, b ∈ a :: seen ∨ b ∈ stack := by
        intro n hn b hb
        rcases h4 n hn b hb with hb | hb
        · exact .inl (List.mem_cons_of_mem _ hb)
        · rcases List.mem_cons.mp hb with heq | hb
          · exact .inl (heq ▸ List.mem_cons_self)
          · exact .inr hb
      have h6' : ∀ n ∈ (a :: seen) ++ stack, n ∈ N.names target := by
        intro n hn
        apply h6
        simpa [or_left_comm, or_assoc] using hn
      unfold look
      split_ifs with hleaf
      · refine ⟨?_, h2, ?_, h4', h5', by simpa using h6'⟩
        · intro n
          simp only [List.mem_cons, h1 n]
          tauto
        · intro n hn
          rcases List.mem_cons.mp hn with rfl | hn
          · refine hleaf.imp_right fun hnone hkey => ?_
            rw [Option.isNone_iff_eq_none] at hnone
            have hsome := isSome_lookup.mpr hkey
            rw [hnone] at hsome
            cases hsome
          · exact h3 n hn
      · rw [not_or, Bool.not_eq_true, Option.isNone_eq_false_iff] at hleaf
        refine ⟨?_, ?_, h3, ?_, ?_, ?_⟩
        · intro n
          simp only [List.mem_cons, h1 n]
          tauto
        · intro n hn
          rcases List.mem_cons.mp hn with rfl | hn
          · exact ⟨hleaf.1, isSome_lookup.mp hleaf.2⟩
          · exact h2 n hn
        · intro n hn b hb
          rcases List.mem_cons.mp hn with rfl | hn
          · exact .inr (List.mem_append_left _ (List.mem_reverse.mpr hb))
          · exact (h4' n hn b hb).imp_right (List.mem_append_right _)
        · exact h5'.imp_right (List.mem_append_right _)
        · intro n hn
          rcases List.mem_append.mp hn with hn | hn
          · exact h6' n (List.mem_append_left _ hn)
          · rcases List.mem_append.mp hn with hn | hn
            · exact mem_names_of_arg (List.mem_reverse.mp hn) target
            · exact h6' n (List.mem_append_right _ hn))
    h
  exact {
    cone := hcone
    support := hsupport
    args := fun n hn a ha => by
      rcases hargs n hn a ha with h | h
      · exact (hseen a).mp h
      · cases h
    reaches := by
      rcases htarget with h | h
      · exact (hseen target).mp h
      · cases h
    named := fun n hn => hnamed n (List.mem_append_left _ ((hseen n).mpr (.inr hn))) }

theorem reached_total (target : Str) : ∃ r, N.reached target = some r := by
  apply @Worklist.walk_total _ _ _ _ _ (fun net => (N.args net).length) N.gateOf.nodup
  · intro a t
    unfold look
    split_ifs <;> simp
  · intro a ha
    rw [args_of_notMem ha]
    rfl
  · unfold Worklist.pending
    rw [List.filter_eq_self.mpr (by simp)]
    rfl

theorem ReachedOk.disjoint {target n : Str} {r : Reached} (h : ReachedOk N target r) (hcone : n ∈ r.cone) :
    n ∉ r.support := by
  intro hsupport
  rcases h.support n hsupport with hn | hn
  · exact (h.cone n hcone).1 hn
  · exact hn (h.cone n hcone).2

theorem mem_names_of_key {n : Str} (h : n ∈ N.gateOf.keys) (target : Str) : n ∈ N.names target := by
  unfold names
  simp only [List.mem_append, List.mem_cons]
  exact .inl (.inr h)

/-! ## The order of the cone -/

section Order

variable {rank : Str → Nat} {target : Str} {r : Reached} (hrank : N.Acyclic rank) (hr : ReachedOk N target r)

include hrank hr

theorem rank_lt_of_mem_cone {n a : Str} (hn : n ∈ r.cone) (ha : a ∈ N.args n) (hcone : a ∈ r.cone) :
    rank a < rank n := by
  obtain ⟨hinput, hkey⟩ := hr.cone n hn
  obtain ⟨g, hg⟩ := Option.isSome_iff_exists.mp (isSome_lookup.mpr hkey)
  rw [args_of_lookup hg] at ha
  exact hrank n g hg hinput a ha (hr.cone a hcone).1 (isSome_lookup.mpr (hr.cone a hcone).2)

/-- The cone, with every net after the nets that its gate reads. -/
theorem topo_ok : ∃ t, N.topo r target = some t ∧ (∀ n ∈ t, n ∈ r.cone) ∧ (target ∈ r.cone → target ∈ t) ∧
    ∀ t₁ n t₂, t = t₁ ++ n :: t₂ → ∀ a ∈ N.args n, a ∈ t₁ ∨ a ∈ r.support := by
  unfold topo
  split_ifs with hsupport
  · exact ⟨[], rfl, by simp, fun hcone => absurd hsupport (hr.disjoint hcone), by simp⟩
  · have htarget : target ∈ r.cone := hr.reaches.resolve_right hsupport
    have hclosed : ∀ a ∈ r.cone, ∀ b ∈ N.coneArgs r a, b ∈ r.cone := by
      intro a _ b hb
      exact of_decide_eq_true (List.mem_filter.mp hb).2
    have hleft : PostOrder.State.left r.cone ⟨[], []⟩ ≤ r.cone.length := List.length_filter_le _ _
    obtain ⟨s, hs, -⟩ := PostOrder.visit_total hclosed htarget hleft
    obtain ⟨-, hroot, hreach, horder⟩ := PostOrder.visit_root hs
    have hdown : ∀ a b, a ∈ r.cone → b ∈ N.coneArgs r a → b ∈ r.cone ∧ rank b < rank a := by
      intro a b ha hb
      have hcone := hclosed a ha b hb
      exact ⟨hcone, rank_lt_of_mem_cone hrank hr ha (List.mem_filter.mp hb).1 hcone⟩
    have hmem : ∀ n ∈ s.sorted, n ∈ r.cone := by
      intro n hn
      obtain ⟨hpath, -⟩ := hreach n hn
      induction hpath with
      | refl => exact htarget
      | tail _ hedge ih => exact of_decide_eq_true (List.mem_filter.mp hedge).2
    refine ⟨s.sorted, by rw [hs]; rfl, hmem, fun _ => hroot, ?_⟩
    intro t₁ n t₂ hsplit a ha
    have hn : n ∈ r.cone := hmem n (by rw [hsplit]; simp)
    rcases hr.args n hn a ha with hcone | hsupport
    · left
      have hedge : a ∈ N.coneArgs r n := List.mem_filter.mpr ⟨ha, decide_eq_true hcone⟩
      exact horder t₁ n t₂ hsplit a hedge (PostOrder.not_reach_of_rank rank hdown hn hedge)
    · exact .inr hsupport

end Order

/-! ## The names that the script makes up -/

/-- A name without its last three characters. -/
def base (n : Str) : Str := n.take (n.length - 3)

@[simp] theorem base_append (m : Str) : base (m ++ str "__x") = m := by
  have hlength : (m ++ str "__x").length - 3 = m.length := by
    rw [List.length_append]
    exact Nat.add_sub_cancel _ 3
  rw [base, hlength, List.take_left]

theorem append_ne_constName (m : Str) (b : Bool) : m ++ str "__x" ≠ constName b := by
  intro h
  have hlast : (m ++ str "__x").getLast? = some 'x' := by
    rw [List.getLast?_append]
    rfl
  rw [h] at hlast
  cases b <;> exact absurd hlast (by decide)

theorem constName_inj {b c : Bool} : constName b = constName c ↔ b = c := by
  cases b <;> cases c <;> decide

/-- A valuation, with values for the made-up names. -/
def extend (N : Netlist) (v : Str → Bool) (n : Str) : Bool :=
  if n = constName false then false
  else if n = constName true then true
  else if n = base n ++ str "__x" ∧ base n ∈ N.gateOf.keys then !v (base n)
  else v n

/-- The rank of a name in the cone that is written. -/
def level (r : Reached) (rank : Str → Nat) (n : Str) : Nat :=
  if n = constName false then 1
  else if n = constName true then 2
  else if n ∈ r.cone then 2 * rank n + 4
  else if n = base n ++ str "__x" ∧ base n ∈ r.cone then 2 * rank (base n) + 3
  else 0

theorem extend_constName (v : Str → Bool) (b : Bool) : N.extend v (constName b) = b := by
  cases b with
  | false => exact if_pos rfl
  | true =>
    rw [extend, if_neg (by decide), if_pos rfl]

theorem level_constName (r : Reached) (rank : Str → Nat) (b : Bool) :
    level r rank (constName b) = if b then 2 else 1 := by
  cases b with
  | false => exact if_pos rfl
  | true =>
    rw [level, if_neg (by decide), if_pos rfl]
    rfl

theorem extend_append (v : Str → Bool) {m : Str} (hm : m ∈ N.gateOf.keys) :
    N.extend v (m ++ str "__x") = !v m := by
  rw [extend, if_neg (append_ne_constName m false), if_neg (append_ne_constName m true), base_append,
    if_pos ⟨rfl, hm⟩]

section Fresh

variable {target : Str} (hfresh : N.Fresh target)

include hfresh

theorem extend_of_named (v : Str → Bool) {n : Str} (hn : n ∈ N.names target) : N.extend v n = v n := by
  obtain ⟨hconst, hx⟩ := hfresh n hn
  rw [extend, if_neg (hconst false), if_neg (hconst true), if_neg]
  rintro ⟨heq, hkey⟩
  exact hx (base n) hkey heq

variable {r : Reached} (hr : ReachedOk N target r) (rank : Str → Nat)

include hr

theorem level_of_cone {n : Str} (hn : n ∈ r.cone) : level r rank n = 2 * rank n + 4 := by
  obtain ⟨hconst, -⟩ := hfresh n (mem_names_of_key (hr.cone n hn).2 target)
  rw [level, if_neg (hconst false), if_neg (hconst true), if_pos hn]

theorem level_of_leaf {n : Str} (hn : n ∈ N.names target) (hcone : n ∉ r.cone) : level r rank n = 0 := by
  obtain ⟨hconst, hx⟩ := hfresh n hn
  rw [level, if_neg (hconst false), if_neg (hconst true), if_neg hcone, if_neg]
  rintro ⟨heq, hbase⟩
  exact hx (base n) (hr.cone _ hbase).2 heq

theorem level_append {m : Str} (hm : m ∈ r.cone) : level r rank (m ++ str "__x") + 1 = level r rank m := by
  have hcone : m ++ str "__x" ∉ r.cone := by
    intro hmem
    exact (hfresh _ (mem_names_of_key (hr.cone _ hmem).2 target)).2 m (hr.cone m hm).2 rfl
  rw [level_of_cone hfresh hr rank hm, level, if_neg (append_ne_constName m false),
    if_neg (append_ne_constName m true), if_neg hcone, base_append, if_pos ⟨rfl, hm⟩]

end Fresh

/-! ## The folding loop -/

section Fold

variable {other : Str → List Bool → Bool} {v : Str → Bool} {rank : Str → Nat} {target : Str} {r : Reached}

/-- The gates of the rest of the order are folded one after the other. -/
theorem fold_ok (hargs : ∀ net g, N.gateOf.lookup net = some g → g.args ≠ []) (hrank : N.Acyclic rank)
    (hfresh : N.Fresh target) (hr : ReachedOk N target r) (hv : N.Solves other v) {t : List Str}
    (hcone : ∀ n ∈ t, n ∈ r.cone)
    (horder : ∀ t₁ n t₂, t = t₁ ++ n :: t₂ → ∀ a ∈ N.args n, a ∈ t₁ ∨ a ∈ r.support) :
    ∃ f, N.fold t = some f ∧ FoldInv other r.support (N.extend v) (level r rank) t f := by
  suffices h : ∀ t₁ t₂ f, t = t₁ ++ t₂ → FoldInv other r.support (N.extend v) (level r rank) t₁ f →
      ∃ f', t₂.foldlM (fun f net => (N.gateOf.lookup net).bind fun g => f.foldGate net g) f = some f' ∧
        FoldInv other r.support (N.extend v) (level r rank) t f' from
    h [] t _ rfl (foldInv_empty other)
  intro t₁ t₂ f hsplit h
  induction t₂ generalizing t₁ f with
  | nil =>
    rw [List.append_nil] at hsplit
    exact ⟨f, rfl, hsplit ▸ h⟩
  | cons n t₂ ih =>
    have hn : n ∈ r.cone := hcone n (by rw [hsplit]; simp)
    obtain ⟨hinput, hkey⟩ := hr.cone n hn
    obtain ⟨g, hg⟩ := Option.isSome_iff_exists.mp (isSome_lookup.mpr hkey)
    have hnamed : ∀ a ∈ g.args, a ∈ N.names target := by
      intro a ha
      exact mem_names_of_arg (by rwa [args_of_lookup hg]) target
    have hvalue : N.extend v n = gateValue other g.op (g.args.map (N.extend v)) := by
      rw [extend_of_named hfresh v (mem_names_of_key hkey target), hv n g hg hinput]
      congr 1
      exact List.map_congr_left fun a ha => (extend_of_named hfresh v (hnamed a ha)).symm
    have hlevel : ∀ a ∈ g.args, (a ∈ t₁ ∨ a ∈ r.support) ∧ level r rank a + 1 < level r rank n := by
      intro a ha
      have ha' : a ∈ N.args n := by rwa [args_of_lookup hg]
      refine ⟨horder t₁ n t₂ hsplit a ha', ?_⟩
      rw [level_of_cone hfresh hr rank hn]
      by_cases hacone : a ∈ r.cone
      · have := rank_lt_of_mem_cone hrank hr hn ha' hacone
        rw [level_of_cone hfresh hr rank hacone]
        omega
      · rw [level_of_leaf hfresh hr rank (hnamed a ha) hacone]
        omega
    have hconst : ∀ b, N.extend v (constName b) = b ∧ level r rank (constName b) < level r rank n := by
      intro b
      refine ⟨extend_constName v b, ?_⟩
      rw [level_constName, level_of_cone hfresh hr rank hn]
      cases b <;> simp
    have hhelper : N.extend v (n ++ str "__x") = !N.extend v n := by
      rw [extend_append v hkey, extend_of_named hfresh v (mem_names_of_key hkey target)]
    obtain ⟨f', hf', hinv⟩ := h.foldGate (hargs n g hg) hvalue hlevel hhelper
      (level_append hfresh hr rank hn) hconst
    rw [List.foldlM_cons, hg]
    show ∃ f'', (f.foldGate n g).bind _ = some f'' ∧ _
    rw [hf']
    exact ih (t₁ ++ [n]) f' (by rw [hsplit, List.append_assoc]; rfl) hinv

end Fold

/-! ## The gates that are written -/

/-- The gates hold, each reads names of lower rank that are leaves, or driven, or constants of an op that is not
folded. -/
structure GatesOk (other : Str → List Bool → Bool) (leaf : Str → Prop) (u : Str → Bool) (rk : Str → Nat)
    (f : Folds) : Prop where
  value : ∀ n g, f.newg.lookup n = some g → u n = gateValue other g.op (g.args.map u)
  args : ∀ n g, f.newg.lookup n = some g → ∀ a ∈ g.args,
    (leaf a ∨ (f.newg.lookup a).isSome ∨ g.op ∉ foldedOps ∧ ∃ b, a = constName b) ∧ rk a < rk n

section Gates

variable {other : Str → List Bool → Bool} {leaf : Str → Prop} {u : Str → Bool} {rk : Str → Nat} {f : Folds}

theorem GatesOk.setGate (h : GatesOk other leaf u rk f) (net : Str) (op : String) (args : List Str)
    (hu : u net = gateValue other (str op) (args.map u))
    (hargs : ∀ a ∈ args, (leaf a ∨ (f.newg.lookup a).isSome) ∧ rk a < rk net) :
    GatesOk other leaf u rk (f.setGate net op args) where
  value := by
    intro n g hg
    rw [Folds.setGate, OrderedDict.lookup_set] at hg
    split_ifs at hg with hn
    · cases hg
      rw [hn, hu]
    · exact h.value n g hg
  args := by
    intro n g hg a ha
    rw [Folds.setGate, OrderedDict.lookup_set] at hg
    split_ifs at hg with hn
    · cases hg
      rw [hn]
      exact ⟨(hargs a ha).1.imp_right fun h => .inl (lookup_newg_mono h), (hargs a ha).2⟩
    · obtain ⟨hok, hlt⟩ := h.args n g hg a ha
      exact ⟨hok.imp_right fun h => h.imp_left lookup_newg_mono, hlt⟩

theorem gateValue_one (b : Bool) : gateValue other (str "BUFF") [b] = b := gateValue_buff (.inl rfl) [b]

theorem isSome_setGate (net : Str) (op : String) (args : List Str) :
    ((f.setGate net op args).newg.lookup net).isSome := by
  rw [Folds.setGate, OrderedDict.lookup_set, if_pos rfl]
  rfl

end Gates

section Drive

variable {other : Str → List Bool → Bool} {v : Str → Bool} {rank : Str → Nat} {target : Str} {r : Reached}
  {P : Bench.Interpreter} {t : List Str} {f : Folds}

/-- A leaf of the cone that is written. -/
def Leaf (N : Netlist) (r : Reached) (n : Str) : Prop := n ∈ N.inputs ∨ n ∈ r.support

theorem Leaf.named (hr : ReachedOk N target r) {n : Str} (h : N.Leaf r n) : n ∈ N.names target := by
  rcases h with h | h
  · unfold names
    simp [h]
  · exact hr.named n h

theorem Leaf.not_mem_cone (hr : ReachedOk N target r) {n : Str} (h : N.Leaf r n) : n ∉ r.cone := by
  intro hcone
  rcases h with h | h
  · exact (hr.cone n hcone).1 h
  · exact hr.disjoint hcone h

/-- A leaf is under every cone without loops. -/
theorem support_ne_nil (hargs : ∀ net g, N.gateOf.lookup net = some g → g.args ≠ []) (hrank : N.Acyclic rank)
    (hr : ReachedOk N target r) : r.support ≠ [] := by
  have hbelow : ∀ k n, rank n = k → n ∈ r.cone → r.support ≠ [] := by
    intro k
    induction k using Nat.strong_induction_on with
    | _ k ih =>
      intro n hk hn
      obtain ⟨g, hg⟩ := Option.isSome_iff_exists.mp (isSome_lookup.mpr (hr.cone n hn).2)
      obtain ⟨a, ha⟩ := List.exists_mem_of_ne_nil _ (hargs n g hg)
      rw [← args_of_lookup hg] at ha
      rcases hr.args n hn a ha with hcone | hsupport
      · exact ih (rank a) (hk ▸ rank_lt_of_mem_cone hrank hr hn ha hcone) a rfl hcone
      · exact List.ne_nil_of_mem hsupport
  rcases hr.reaches with hcone | hsupport
  · exact hbelow _ target rfl hcone
  · exact List.ne_nil_of_mem hsupport

theorem FoldInv.gatesOk {u : Str → Bool} {rk : Str → Nat} (h : FoldInv other r.support u rk t f) :
    GatesOk other (N.Leaf r) u rk f where
  value := h.gate_value
  args n g hg a ha := (h.gate_args n g hg a ha).imp_left fun hok => hok.imp_left .inr

/-- The driver of the target reads a constant that is then made. -/
theorem constant_ok {u : Str → Bool} {rk : Str → Nat} (h : GatesOk other (N.Leaf r) u rk f) {b : Bool} {pi0 : Str}
    (hpi0 : N.Leaf r pi0) (hu : ∀ c, u (constName c) = c) (hb : u target = b) (hpos : rk pi0 < rk (constName false))
    (hlt : rk (constName false) < rk (constName true)) (htarget : ∀ c, rk (constName c) < rk target) :
    GatesOk other (N.Leaf r) u rk
      (let f := (f.setGate target "BUFF" [constName b]).setGate (constName false) "XOR" [pi0, pi0]
      if b then f.setGate (constName true) "NOT" [constName false] else f) := by
  have hne : ∀ c, constName c ≠ target := by
    intro c heq
    have := htarget c
    rw [heq] at this
    exact this.false
  have hzero := h.setGate (constName false) "XOR" [pi0, pi0]
    (by rw [hu, gateValue_xor]; cases h : u pi0 <;> simp [h])
    (by simpa using ⟨.inl hpi0, hpos⟩)
  -- the gates may be set in another order, where what they read is driven
  have hcongr : ∀ {f f' : Folds}, (∀ n, f'.newg.lookup n = f.newg.lookup n) → GatesOk other (N.Leaf r) u rk f →
      GatesOk other (N.Leaf r) u rk f' := by
    intro f f' heq hf
    constructor
    · intro n g hg
      exact hf.value n g (heq n ▸ hg)
    · intro n g hg a ha
      rw [heq a]
      exact hf.args n g (heq n ▸ hg) a ha
  cases b with
  | false =>
    have hdone := hzero.setGate target "BUFF" [constName false]
      (by rw [hb, List.map_singleton, gateValue_one, hu])
      (by simpa using ⟨.inr (isSome_setGate _ _ _), htarget false⟩)
    refine hcongr (fun n => ?_) hdone
    simp only [Folds.setGate, OrderedDict.lookup_set, Bool.false_eq_true, if_false]
    split_ifs with h1 h2 <;> simp_all
  | true =>
    have hone := hzero.setGate (constName true) "NOT" [constName false]
      (by rw [hu, gateValue_not, List.map_singleton, hu]; rfl)
      (by simpa using ⟨.inr (isSome_setGate _ _ _), hlt⟩)
    have hdone := hone.setGate target "BUFF" [constName true]
      (by rw [hb, List.map_singleton, gateValue_one, hu])
      (by simpa using ⟨.inr (isSome_setGate _ _ _), htarget true⟩)
    refine hcongr (fun n => ?_) hdone
    simp only [Folds.setGate, OrderedDict.lookup_set, if_true]
    split_ifs with h1 h2 h3 <;> simp_all [constName_inj]

/-- With the driver of the target and the sources of the constants, the target is driven or a leaf. -/
theorem drive_ok (hfresh : N.Fresh target) (hr : ReachedOk N target r) (hsupport : r.support ≠ [])
    (hinv : FoldInv other r.support (N.extend v) (level r rank) t f)
    (hcone : target ∈ r.cone → target ∈ t) (hleaf : target ∈ r.support → f.resolve target = .net target) :
    ∃ f', (f.drive target).1.addConst P N r (f.drive target).2 = some f' ∧
      GatesOk other (N.Leaf r) (N.extend v) (level r rank) f' ∧
      (N.Leaf r target ∨ (f'.newg.lookup target).isSome) := by
  have hgates : GatesOk other (N.Leaf r) (N.extend v) (level r rank) f := FoldInv.gatesOk hinv
  rcases hr.reaches with htarget | htarget
  · obtain ⟨hvalue, hnet⟩ := hinv.resolve (.inl (hcone htarget))
    unfold Folds.drive
    cases hres : f.resolve target with
    | const b =>
      rw [hres] at hvalue
      obtain ⟨pi0, hpi0⟩ : ∃ pi0, (StableSort.sortBy id r.support).head? = some pi0 := by
        apply Option.isSome_iff_exists.mp
        rw [List.isSome_head?]
        intro hnil
        have hlength := (StableSort.sortBy_perm id r.support).length_eq
        rw [hnil] at hlength
        exact hsupport (List.length_eq_zero_iff.mp hlength.symm)
      have hmem : N.Leaf r pi0 := .inr ((StableSort.mem_sortBy id).mp (List.mem_of_mem_head? hpi0))
      have hu : N.extend v target = b := hvalue.symm
      refine ⟨_, ?_, constant_ok hgates hmem (extend_constName v) hu ?_ ?_ ?_, ?_⟩
      · show Option.map _ _ = _
        rw [if_neg hsupport, hpi0]
        rfl
      · rw [level_of_leaf hfresh hr rank (hmem.named hr) (hmem.not_mem_cone hr), level_constName]
        decide
      · rw [level_constName, level_constName]
        decide
      · intro c
        rw [level_constName, level_of_cone hfresh hr rank htarget]
        cases c <;> simp
      · right
        dsimp only
        split_ifs
        · apply lookup_newg_mono
          apply lookup_newg_mono
          exact isSome_setGate _ _ _
        · apply lookup_newg_mono
          exact isSome_setGate _ _ _
    | net n =>
      obtain ⟨hdriven, -, hle⟩ := hnet n hres
      rw [hres] at hvalue
      by_cases hn : n = target
      · subst hn
        exact ⟨f, by simp [Folds.addConst], hgates, hdriven.imp_left .inr⟩
      · refine ⟨f.setGate target "BUFF" [n], by simp [Folds.addConst, hn], hgates.setGate _ _ _ ?_ ?_,
          .inr (isSome_setGate _ _ _)⟩
        · rw [List.map_singleton, gateValue_one]
          exact hvalue.symm
        · intro a ha
          obtain rfl := List.mem_singleton.mp ha
          exact ⟨hdriven.imp_left .inr, hle.resolve_left hn⟩
  · unfold Folds.drive
    rw [hleaf htarget]
    exact ⟨f, by simp [Folds.addConst], hgates, .inl (.inr htarget)⟩

end Drive

end Netlist

/-! ## The lines that are written -/

/-- Every net is driven before it is read. -/
def DrivenFirst : List Str → List Bench.Line → Prop
  | _, [] => True
  | known, l :: ls => (∀ a ∈ l.args, a ∈ known) ∧ DrivenFirst (l.target :: known) ls

/-- The gates of the lines drive their nets. -/
def Cone.Solves (other : Str → List Bool → Bool) (c : Cone) (w : Str → Bool) : Prop :=
  ∀ l ∈ c.lines, w l.target = gateValue other l.op (l.args.map w)

/-- Lines in this order leave no choice. -/
theorem DrivenFirst.agree {other : Str → List Bool → Bool} {w u : Str → Bool} {known : List Str}
    {ls : List Bench.Line} (h : DrivenFirst known ls) (hknown : ∀ a ∈ known, w a = u a)
    (hw : ∀ l ∈ ls, w l.target = gateValue other l.op (l.args.map w))
    (hu : ∀ l ∈ ls, u l.target = gateValue other l.op (l.args.map u)) : ∀ l ∈ ls, w l.target = u l.target := by
  induction ls generalizing known with
  | nil => simp
  | cons l ls ih =>
    have hfirst : w l.target = u l.target := by
      rw [hw l List.mem_cons_self, hu l List.mem_cons_self]
      congr 1
      exact List.map_congr_left fun a ha => hknown a (h.1 a ha)
    intro l' hl'
    rcases List.mem_cons.mp hl' with rfl | hl'
    · exact hfirst
    · refine ih h.2 ?_ (fun l hl => hw l (List.mem_cons_of_mem _ hl)) (fun l hl => hu l (List.mem_cons_of_mem _ hl))
        l' hl'
      intro a ha
      rcases List.mem_cons.mp ha with rfl | ha
      · exact hfirst
      · exact hknown a ha

namespace Netlist

variable {N : Netlist} {other : Str → List Bool → Bool} {target : Str} {r : Reached} {f : Folds}

/-- The cone that is written: its lines are gates that are kept, in an order in which every net is driven before
it is read, if the constants that gates of unknown ops read are there. -/
theorem emit_ok {u : Str → Bool} {rk : Str → Nat} (h : GatesOk other (N.Leaf r) u rk f)
    (htarget : N.Leaf r target ∨ (f.newg.lookup target).isSome) :
    ∃ c, N.emit r f target = some c ∧ c.target = target ∧ (∀ i ∈ c.inputs, N.Leaf r i) ∧
      (∀ l ∈ c.lines, f.newg.lookup l.target = some ⟨l.op, l.args⟩) ∧
      (target ∈ c.inputs ∨ ∃ l ∈ c.lines, l.target = target) ∧
      ((∀ l ∈ c.lines, l.op ∉ foldedOps → ∀ b, constName b ∈ l.args → ∃ l' ∈ c.lines, l'.target = constName b) →
        DrivenFirst c.inputs c.lines) := by
  have hnone : ∀ {a}, ¬ (f.newg.lookup a).isSome → f.args a = [] := by
    intro a ha
    rw [Folds.args, Option.not_isSome_iff_eq_none.mp ha]
    rfl
  have hkey : ∀ {a}, (f.newg.lookup a).isSome → a ∈ f.newg.keys := by
    intro a ha
    exact OrderedDict.mem_keys_iff.mpr (Option.isSome_iff_exists.mp ha)
  have hdown : ∀ {n a}, a ∈ f.args n → rk a < rk n := by
    intro n a ha
    cases hn : f.newg.lookup n with
    | none =>
      rw [Folds.args, hn] at ha
      cases ha
    | some g =>
      rw [Folds.args, hn] at ha
      exact (h.args n g hn a ha).2
  have hclosed : ∀ a ∈ f.nets target, ∀ b ∈ f.args a, b ∈ f.nets target := by
    intro a _ b hb
    have ha : (f.newg.lookup a).isSome := by
      by_contra ha
      rw [hnone ha] at hb
      cases hb
    unfold Folds.nets
    simp only [List.mem_append, List.mem_flatMap]
    exact .inr ⟨a, hkey ha, hb⟩
  obtain ⟨s, hs, -⟩ := PostOrder.visit_total (s := ⟨[], []⟩) hclosed
    (show target ∈ f.nets target by simp [Folds.nets]) (List.length_filter_le _ _)
  obtain ⟨hvisited, hroot, hreach, -⟩ := PostOrder.visit_root hs
  have hmarked : f.marked target = some s.visited := by
    unfold Folds.marked
    rw [hs]
    rfl
  obtain ⟨usedg, husedg⟩ : ∃ usedg, usedg = s.visited.filter fun net => (f.newg.lookup net).isSome := ⟨_, rfl⟩
  have hmem : ∀ {a}, a ∈ usedg ↔ a ∈ s.visited ∧ (f.newg.lookup a).isSome := by
    intro a
    rw [husedg, List.mem_filter]
  have horder : ∃ order, f.emitOrder usedg target = some order ∧ (∀ n ∈ order, n ∈ usedg) ∧
      (target ∈ usedg → target ∈ order) ∧
      ∀ o₁ n o₂, order = o₁ ++ n :: o₂ → ∀ a ∈ f.args n, a ∈ usedg → a ∈ o₁ := by
    unfold Folds.emitOrder
    split_ifs with hused
    · have hleft : PostOrder.State.left usedg ⟨[], []⟩ ≤ usedg.length := List.length_filter_le _ _
      have hclosed : ∀ a ∈ usedg, ∀ b ∈ (f.args a).filter (· ∈ usedg), b ∈ usedg :=
        fun _ _ b hb => of_decide_eq_true (List.mem_filter.mp hb).2
      obtain ⟨s', hs', -⟩ := PostOrder.visit_total hclosed hused hleft
      obtain ⟨-, hroot', hreach', horder'⟩ := PostOrder.visit_root hs'
      refine ⟨s'.sorted, by rw [hs']; rfl, fun n hn => ?_, fun _ => hroot', fun o₁ n o₂ hsplit a ha hin => ?_⟩
      · obtain ⟨hpath, -⟩ := hreach' n hn
        induction hpath with
        | refl => exact hused
        | tail _ hedge ih => exact of_decide_eq_true (List.mem_filter.mp hedge).2
      · have hedge : a ∈ (f.args n).filter (· ∈ usedg) := List.mem_filter.mpr ⟨ha, decide_eq_true hin⟩
        apply horder' o₁ n o₂ hsplit a hedge
        exact PostOrder.not_reach_of_rank (P := fun _ => True) rk
          (fun _ _ _ hb => ⟨trivial, hdown (List.mem_filter.mp hb).1⟩) trivial hedge
    · exact ⟨[], rfl, by simp, fun hin => absurd hin hused, by simp⟩
  obtain ⟨order, hemit, hsub, hfirst, hbefore⟩ := horder
  have hdriven : ∀ {n}, n ∈ order → ∃ g, f.newg.lookup n = some g := fun hn =>
    Option.isSome_iff_exists.mp (hmem.mp (hsub _ hn)).2
  obtain ⟨lines, hlines⟩ : ∃ lines : List Bench.Line,
      lines = order.filterMap fun net => (f.newg.lookup net).map fun g => ⟨net, g.op, g.args⟩ := ⟨_, rfl⟩
  have hline : ∀ l ∈ lines, l.target ∈ order ∧ f.newg.lookup l.target = some ⟨l.op, l.args⟩ := by
    intro l hl
    rw [hlines, List.mem_filterMap] at hl
    obtain ⟨n, hn, hg⟩ := hl
    obtain ⟨g, hlookup, rfl⟩ := Option.map_eq_some_iff.mp hg
    exact ⟨hn, hlookup⟩
  have htargets : ∀ n ∈ order, ∃ l ∈ lines, l.target = n := by
    intro n hn
    obtain ⟨g, hg⟩ := hdriven hn
    exact ⟨⟨n, g.op, g.args⟩, by rw [hlines]; exact List.mem_filterMap.mpr ⟨n, hn, by rw [hg]; rfl⟩, rfl⟩
  obtain ⟨usedpi, husedpi⟩ : ∃ usedpi, usedpi = s.visited.filter fun net =>
      (f.newg.lookup net).isNone && (decide (net ∈ N.inputs) || decide (net ∈ r.support)) := ⟨_, rfl⟩
  have hinput : ∀ {i}, i ∈ StableSort.sortBy id usedpi ↔
      i ∈ s.visited ∧ ¬ (f.newg.lookup i).isSome ∧ N.Leaf r i := by
    intro i
    rw [StableSort.mem_sortBy, husedpi, List.mem_filter, Bool.and_eq_true, Bool.or_eq_true, decide_eq_true_eq,
      decide_eq_true_eq, Bool.not_eq_true, Option.isSome_eq_false_iff]
    rfl
  refine ⟨⟨StableSort.sortBy id usedpi, target, lines⟩, ?_, rfl, fun i hi => (hinput.mp hi).2.2,
    fun l hl => (hline l hl).2, ?_, fun hconst => ?_⟩
  · unfold emit
    rw [hmarked, Option.bind_eq_bind, Option.bind_some]
    dsimp only
    rw [← husedg, hemit, ← husedpi, hlines]
    rfl
  · have hin : target ∈ s.visited := (hvisited target).mpr hroot
    by_cases hsome : (f.newg.lookup target).isSome
    · exact .inr (htargets target (hfirst (hmem.mpr ⟨hin, hsome⟩)))
    · exact .inl (hinput.mpr ⟨hin, hsome, htarget.resolve_right hsome⟩)
  · -- the gates before a gate have driven what it reads
    suffices hrest : ∀ o₁ o₂ known, order = o₁ ++ o₂ → (∀ a ∈ StableSort.sortBy id usedpi, a ∈ known) →
        (∀ a ∈ o₁, a ∈ known) →
        DrivenFirst known (o₂.filterMap fun net => (f.newg.lookup net).map fun g => ⟨net, g.op, g.args⟩) by
      dsimp only
      rw [hlines]
      exact hrest [] order _ rfl (fun _ h => h) (by simp)
    intro o₁ o₂
    induction o₂ generalizing o₁ with
    | nil => intros; trivial
    | cons n o₂ ih =>
      intro known hsplit hinputs hknown
      have hn : n ∈ order := by simp [hsplit]
      obtain ⟨g, hg⟩ := hdriven hn
      have hargs : f.args n = g.args := by
        rw [Folds.args, hg]
        rfl
      rw [List.filterMap_cons, hg, Option.map_some]
      refine ⟨fun a ha => ?_, ?_⟩
      · have ha' : a ∈ f.args n := hargs ▸ ha
        have hseen : a ∈ s.visited := by
          have hnsorted := (hvisited n).mp (hmem.mp (hsub n hn)).1
          exact (hvisited a).mpr ((hreach n hnsorted).2 a ha')
        by_cases hsome : (f.newg.lookup a).isSome
        · exact hknown a (hbefore o₁ n o₂ hsplit a ha' (hmem.mpr ⟨hseen, hsome⟩))
        · rcases (h.args n g hg a ha).1 with hleaf | hsome' | ⟨hop, b, rfl⟩
          · exact hinputs a (hinput.mpr ⟨hseen, hsome, hleaf⟩)
          · exact absurd hsome' hsome
          · obtain ⟨l', hl', heq⟩ := hconst ⟨n, g.op, g.args⟩
              (by rw [hlines]; exact List.mem_filterMap.mpr ⟨n, hn, by rw [hg]; rfl⟩) hop b ha
            have hlookup := (hline l' hl').2
            rw [heq] at hlookup
            exact absurd (by rw [hlookup]; rfl) hsome
      · apply ih (o₁ ++ [n])
        · rw [hsplit, List.append_assoc]
          rfl
        · exact fun a ha => List.mem_cons_of_mem _ (hinputs a ha)
        · intro a ha
          rcases List.mem_append.mp ha with ha | ha
          · exact List.mem_cons_of_mem _ (hknown a ha)
          · rw [List.mem_singleton.mp ha]
            exact List.mem_cons_self

/-! ## The whole script -/

/-- A gate that is read has an argument. -/
theorem args_ne_nil (P : Bench.Interpreter) (lines : List Str) :
    ∀ net g, (Netlist.read P lines).gateOf.lookup net = some g → g.args ≠ [] := by
  suffices h : ∀ N : Netlist, (∀ net g, N.gateOf.lookup net = some g → g.args ≠ []) →
      ∀ net g, (lines.foldl (Netlist.readLine P) N).gateOf.lookup net = some g → g.args ≠ [] by
    exact h _ (by simp [OrderedDict.lookup, OrderedDict.empty])
  induction lines with
  | nil => exact fun N h => h
  | cons line lines ih =>
    intro N h
    apply ih
    intro net g hg
    rw [readLine] at hg
    cases hinput : matchInput P (Str.strip line) with
    | some name =>
      rw [hinput] at hg
      exact h net g hg
    | none =>
      rw [hinput] at hg
      cases hgate : matchGate P (Str.strip line) with
      | none =>
        rw [hgate] at hg
        exact h net g hg
      | some m =>
        rw [hgate] at hg
        dsimp only at hg
        rw [OrderedDict.lookup_set] at hg
        split_ifs at hg with heq
        · cases hg
          unfold matchGate at hgate
          dsimp only at hgate
          split_ifs at hgate
          cases hgate
          simp [List.splitOn_ne_nil]
        · exact h net g hg

/-- Every choice for the nets without gates is one for a netlist without loops. -/
theorem exists_solution (other : Str → List Bool → Bool) {rank : Str → Nat} (hrank : N.Acyclic rank)
    (x : Str → Bool) : ∃ v, N.Solves other v ∧ ∀ n, n ∈ N.inputs ∨ n ∉ N.gateOf.keys → v n = x n := by
  let turn (v : Str → Bool) (n : Str) : Bool :=
    if n ∈ N.inputs then x n else (N.gateOf.lookup n).elim (x n) fun g => gateValue other g.op (g.args.map v)
  have hleaf : ∀ v n, n ∈ N.inputs ∨ n ∉ N.gateOf.keys → turn v n = x n := by
    intro v n hn
    show (if n ∈ N.inputs then x n else _) = x n
    split_ifs with hin
    · rfl
    · rw [Option.not_isSome_iff_eq_none.mp fun hsome => hn.resolve_left hin (isSome_lookup.mp hsome)]
      rfl
  -- after as many turns as its rank a net keeps its value
  have hstable : ∀ k n, rank n < k → turn^[k] x n = turn^[k + 1] x n := by
    intro k
    induction k with
    | zero => intro n hn; omega
    | succ k ih =>
      intro n hn
      rw [Function.iterate_succ_apply', Function.iterate_succ_apply']
      by_cases hn' : n ∈ N.inputs ∨ n ∉ N.gateOf.keys
      · rw [hleaf _ n hn', hleaf _ n hn']
      · rw [not_or, not_not] at hn'
        obtain ⟨g, hg⟩ := Option.isSome_iff_exists.mp (isSome_lookup.mpr hn'.2)
        show (if n ∈ N.inputs then x n else _) = if n ∈ N.inputs then x n else _
        rw [if_neg hn'.1, if_neg hn'.1, hg]
        show gateValue other g.op _ = gateValue other g.op _
        congr 1
        apply List.map_congr_left
        intro a ha
        by_cases haleaf : a ∈ N.inputs ∨ a ∉ N.gateOf.keys
        · cases k with
          | zero => rw [Function.iterate_one, hleaf _ a haleaf]; rfl
          | succ k =>
            rw [Function.iterate_succ_apply', Function.iterate_succ_apply', hleaf _ a haleaf, hleaf _ a haleaf]
        · rw [not_or, not_not] at haleaf
          have := hrank n g hg hn'.1 a ha haleaf.1 (isSome_lookup.mpr haleaf.2)
          exact ih a (by omega)
  have hlast : ∀ n k, rank n < k → turn^[k] x n = turn^[rank n + 1] x n := by
    intro n k hk
    induction k, hk using Nat.le_induction with
    | base => rfl
    | succ k hk ih => rw [← hstable k n hk, ih]
  have hleafs : ∀ k n, n ∈ N.inputs ∨ n ∉ N.gateOf.keys → turn^[k] x n = x n := by
    intro k n hn
    cases k with
    | zero => rfl
    | succ k => rw [Function.iterate_succ_apply', hleaf _ n hn]
  refine ⟨fun n => turn^[rank n + 1] x n, fun n g hg hn => ?_, fun n hn => hleafs _ n hn⟩
  dsimp only
  rw [Function.iterate_succ_apply']
  show (if n ∈ N.inputs then x n else _) = _
  rw [if_neg hn, hg]
  show gateValue other g.op _ = gateValue other g.op _
  congr 1
  apply List.map_congr_left
  intro a ha
  by_cases haleaf : a ∈ N.inputs ∨ a ∉ N.gateOf.keys
  · rw [hleafs _ a haleaf, hleafs _ a haleaf]
  · rw [not_or, not_not] at haleaf
    exact hlast a (rank n) (hrank n g hg hn a ha haleaf.1 (isSome_lookup.mpr haleaf.2))

section Slice

variable {P : Bench.Interpreter} {rank : Str → Nat} {v : Str → Bool}

/-- What is written, with a valuation of the full netlist that satisfies it. -/
theorem slice_spec (hargs : ∀ net g, N.gateOf.lookup net = some g → g.args ≠ []) (hrank : N.Acyclic rank)
    (hfresh : N.Fresh target) (hgate : target ∈ N.inputs ∨ target ∈ N.gateOf.keys) (hv : N.Solves other v) :
    ∃ c, N.slice P target = some c ∧ c.target = target ∧
      (∀ i ∈ c.inputs, i ∈ N.names target ∧ (i ∈ N.inputs ∨ i ∉ N.gateOf.keys)) ∧ c.Solves other (N.extend v) ∧
      (target ∈ c.inputs ∨ ∃ l ∈ c.lines, l.target = target) ∧
      ((∀ l ∈ c.lines, l.op ∉ foldedOps → ∀ b, constName b ∈ l.args → ∃ l' ∈ c.lines, l'.target = constName b) →
        DrivenFirst c.inputs c.lines) := by
  have hstart : ¬ ((N.gateOf.lookup target).isNone ∧ target ∉ N.inputs) := by
    rintro ⟨hnone, hinput⟩
    have hsome := isSome_lookup.mpr (hgate.resolve_left hinput)
    rw [Option.isNone_iff_eq_none.mp hnone] at hsome
    cases hsome
  obtain ⟨r, hreached⟩ := N.reached_total target
  have hr := reached_ok hreached
  obtain ⟨t, htopo, hcone, htarget, horder⟩ := topo_ok hrank hr
  obtain ⟨f, hfold, hinv⟩ := fold_ok hargs hrank hfresh hr hv hcone horder
  have hleaf : target ∈ r.support → f.resolve target = .net target := by
    intro hsupport
    rw [topo, if_pos hsupport] at htopo
    cases htopo
    cases hfold
    rfl
  have hsupport := support_ne_nil hargs hrank hr
  obtain ⟨f', hconst, hgates, hdriven⟩ := drive_ok (P := P) hfresh hr hsupport hinv htarget hleaf
  obtain ⟨c, hemit, hname, hinputs, hlines, hin, hfirst⟩ := emit_ok hgates hdriven
  refine ⟨c, ?_, hname, fun i hi => ?_, fun l hl => hgates.value l.target _ (hlines l hl), hin, hfirst⟩
  · unfold slice
    rw [if_neg hstart, hreached, Option.bind_eq_bind, Option.bind_some, htopo, Option.bind_eq_bind, Option.bind_some,
      hfold, Option.bind_eq_bind, Option.bind_some]
    dsimp only
    rw [hconst]
    exact hemit
  · refine ⟨(hinputs i hi).named hr, ?_⟩
    rcases hinputs i hi with h | h
    · exact .inl h
    · exact hr.support i h

end Slice

end Netlist

namespace Netlist

theorem acyclic_of_items {N : Netlist} {rank : Str → Nat}
    (h : ∀ e ∈ N.gateOf.items, ∀ a ∈ e.2.args, a ∈ N.gateOf.keys → rank a < rank e.1) : N.Acyclic rank :=
  fun net g hg _ a ha _ hkey => h (net, g) (OrderedDict.lookup_eq_some.mp hg) a ha (isSome_lookup.mp hkey)

end Netlist

/-- A constant that two gates read, and a buffer. -/
def foldable : List Str :=
  [str "INPUT(a)", str "INPUT(b)", str "z = XOR(a, a)", str "m = NOT(z)", str "n = AND(a, m)",
    str "y = XOR(n, m, b)"]

end Yosys.ConeSlice
