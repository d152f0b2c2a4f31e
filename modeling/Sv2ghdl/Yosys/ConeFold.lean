import Sv2ghdl.Lists.Parity
import Sv2ghdl.Yosys.ConeSlice

/-!
# Folding keeps what the nets carry

A valuation of the nets that satisfies the gates of the full netlist satisfies the gates that the folding loop
of `yosys/cone_slice.py` keeps, and gives every net that it drops the value of what stands for it.
-/

open Python

namespace Yosys.ConeSlice

/-! ## What gates compute -/

/-- The ops that the folding loop knows. -/
def foldedOps : List Str :=
  [str "BUFF", str "BUF", str "NOT", str "AND", str "NAND", str "OR", str "NOR", str "XOR"]

variable (other : Str → List Bool → Bool)

/-- The output of a gate; what the ops compute that the folding loop does not know is left open. -/
def gateValue (op : Str) (vs : List Bool) : Bool :=
  if op = str "BUFF" ∨ op = str "BUF" then vs.headD false
  else if op = str "NOT" then !vs.headD false
  else if op = str "AND" then vs.all id
  else if op = str "NAND" then !vs.all id
  else if op = str "OR" then vs.any id
  else if op = str "NOR" then !vs.any id
  else if op = str "XOR" then Parity.xorAll vs
  else other op vs

/-- The gates drive the nets that are no inputs. -/
def Netlist.Solves (N : Netlist) (v : Str → Bool) : Prop :=
  ∀ net g, N.gateOf.lookup net = some g → net ∉ N.inputs → v net = gateValue other g.op (g.args.map v)

/-- What an argument carries. -/
def Ref.value (u : Str → Bool) : Ref → Bool
  | .const b => b
  | .net n => u n

/-! ## Values of folded gates -/

section Values

variable {u : Str → Bool}

/-- Gates that one value decides. -/
def decided (decides inverts : Bool) (vs : List Bool) : Bool :=
  (if decides ∈ vs then decides else !decides) ^^ inverts

theorem decided_and (inverts : Bool) (vs : List Bool) : decided false inverts vs = (vs.all id ^^ inverts) := by
  induction vs with
  | nil => rfl
  | cons b vs ih =>
    unfold decided at ih ⊢
    cases b <;> simp_all

theorem decided_or (inverts : Bool) (vs : List Bool) : decided true inverts vs = (vs.any id ^^ inverts) := by
  induction vs with
  | nil => rfl
  | cons b vs ih =>
    unfold decided at ih ⊢
    cases b <;> simp_all

/-- Without a constant that decides, the constants do not matter. -/
theorem decided_nets {decides inverts : Bool} {r : List Ref} (h : .const decides ∉ r) :
    decided decides inverts (r.map (Ref.value u)) = decided decides inverts ((r.filterMap Ref.net?).map u) := by
  have hmem : decides ∈ r.map (Ref.value u) ↔ decides ∈ (r.filterMap Ref.net?).map u := by
    simp only [List.mem_map, List.mem_filterMap]
    constructor
    · rintro ⟨ref, href, hvalue⟩
      cases ref with
      | const b =>
        rw [Ref.value] at hvalue
        exact absurd (hvalue ▸ href) h
      | net n => exact ⟨n, ⟨.net n, href, rfl⟩, hvalue⟩
    · rintro ⟨n, ⟨ref, href, hnet⟩, hvalue⟩
      refine ⟨ref, href, ?_⟩
      cases ref with
      | const b => cases hnet
      | net m =>
        cases hnet
        exact hvalue
  unfold decided
  simp only [hmem]

theorem decided_one (decides b : Bool) : decided decides false [b] = b := by
  cases decides <;> cases b <;> rfl

theorem xorAll_refs (r : List Ref) : Parity.xorAll (r.map (Ref.value u)) =
    (Parity.xorAll (r.filterMap Ref.const?) ^^ Parity.xorAll ((r.filterMap Ref.net?).map u)) := by
  induction r with
  | nil => rfl
  | cons ref r ih =>
    rw [List.map_cons, Parity.xorAll_cons, ih]
    cases ref with
    | const b =>
      simp only [Ref.value, Ref.const?, Ref.net?, List.filterMap_cons, Parity.xorAll_cons, Bool.xor_assoc]
    | net n =>
      simp only [Ref.value, Ref.const?, Ref.net?, List.filterMap_cons, List.map_cons, Parity.xorAll_cons]
      rw [Bool.xor_left_comm]

theorem xorAll_oddNets (nets : List Str) :
    Parity.xorAll (nets.map u) = Parity.xorAll ((Folds.oddNets nets).map u) := by
  apply Parity.xorAll_odd
  · have hnodup := StableSort.nodup_map_firsts id nets
    rw [List.map_id] at hnodup
    exact hnodup.filter _
  · intro a
    have hfirst := @StableSort.mem_map_firsts _ _ _ id nets a
    simp only [List.map_id] at hfirst
    rw [Folds.oddNets, List.mem_filter, hfirst, decide_eq_true_eq]
    constructor
    · exact fun h => h.2
    · exact fun h => ⟨List.count_pos_iff.mp (by omega), h⟩

theorem mem_oddNets {nets : List Str} {a : Str} (h : a ∈ Folds.oddNets nets) : a ∈ nets := by
  have hfirst := @StableSort.mem_map_firsts _ _ _ id nets a
  simp only [List.map_id] at hfirst
  exact hfirst.mp (List.mem_filter.mp h).1

end Values

theorem mem_nets {r : List Ref} {n : Str} : n ∈ r.filterMap Ref.net? ↔ .net n ∈ r := by
  rw [List.mem_filterMap]
  constructor
  · rintro ⟨ref, href, hnet⟩
    cases ref with
    | const b => cases hnet
    | net m =>
      cases hnet
      exact href
  · exact fun h => ⟨.net n, h, rfl⟩

/-! ## The invariant of the loop -/

/-- What an argument of a gate that was kept may be. -/
def ArgOk (support : List Str) (f : Folds) (op a : Str) : Prop :=
  a ∈ support ∨ (f.newg.lookup a).isSome ∨ op ∉ foldedOps ∧ ∃ b, a = constName b

/-- The nets of `done` are folded: `u` is a valuation of all names, and every name stands for names of lower rank. -/
structure FoldInv (support : List Str) (u : Str → Bool) (rk : Str → Nat) (done : List Str) (f : Folds) : Prop where
  val : ∀ n b, f.val.lookup n = some b → u n = b
  alias_value : ∀ n m, f.aliases.lookup n = some m → u n = u m
  alias_rank : ∀ n m, f.aliases.lookup n = some m → rk m < rk n
  alias_known : ∀ n m, f.aliases.lookup n = some m → m ∈ done ∨ m ∈ support
  gate_value : ∀ n g, f.newg.lookup n = some g → u n = gateValue other g.op (g.args.map u)
  gate_args : ∀ n g, f.newg.lookup n = some g → ∀ a ∈ g.args, ArgOk support f g.op a ∧ rk a < rk n
  covered : ∀ n ∈ done, (f.val.lookup n).isSome ∨ (f.aliases.lookup n).isSome ∨ (f.newg.lookup n).isSome

theorem foldInv_empty {support : List Str} {u : Str → Bool} {rk : Str → Nat} :
    FoldInv other support u rk [] ⟨.empty, .empty, .empty⟩ := by
  constructor <;> simp [OrderedDict.lookup, OrderedDict.empty]

section Resolve

variable {u : Str → Bool} {rk : Str → Nat}

/-- The chain of aliases goes down, so the loop of `R` ends at a name that is none, within the fuel it is given. -/
theorem follow_spec {aliases : OrderedDict Str Str} {known : Str → Prop}
    (hvalue : ∀ n m, aliases.lookup n = some m → u n = u m)
    (hrank : ∀ n m, aliases.lookup n = some m → rk m < rk n)
    (hknown : ∀ n m, aliases.lookup n = some m → known m) {fuel : Nat} {seen : List Str} {a : Str} (ha : known a)
    (hseen : ∀ s ∈ seen, s ∈ aliases.keys ∧ rk a < rk s) (hnodup : seen.Nodup)
    (hfuel : aliases.keys.length < fuel + seen.length) :
    aliases.lookup (Folds.follow aliases fuel seen a) = none ∧ u a = u (Folds.follow aliases fuel seen a) ∧
      known (Folds.follow aliases fuel seen a) ∧
      (Folds.follow aliases fuel seen a = a ∨ rk (Folds.follow aliases fuel seen a) < rk a) := by
  induction fuel generalizing seen a with
  | zero =>
    have hlength := (List.subperm_of_subset hnodup fun s hs => (hseen s hs).1).length_le
    omega
  | succ fuel ih =>
    rw [Folds.follow]
    cases hlookup : aliases.lookup a with
    | none => exact ⟨hlookup, rfl, ha, .inl rfl⟩
    | some b =>
      have hnew : a ∉ seen := fun hmem => (hseen a hmem).2.false
      have hlt := hrank a b hlookup
      dsimp only
      rw [if_neg hnew]
      have hseen' : ∀ s ∈ a :: seen, s ∈ aliases.keys ∧ rk b < rk s := by
        intro s hs
        rcases List.mem_cons.mp hs with rfl | hs
        · exact ⟨OrderedDict.mem_keys_iff.mpr ⟨b, hlookup⟩, hlt⟩
        · exact ⟨(hseen s hs).1, hlt.trans (hseen s hs).2⟩
      obtain ⟨hnone, hu, hend, hrk⟩ := ih (hknown a b hlookup) hseen' (List.nodup_cons.mpr ⟨hnew, hnodup⟩)
        (by rw [List.length_cons]; omega)
      refine ⟨hnone, (hvalue a b hlookup).trans hu, hend, .inr ?_⟩
      rcases hrk with heq | hrk
      · rwa [heq]
      · exact hrk.trans hlt

variable {other} {support done : List Str} {f : Folds}

/-- What `R` gives for a net whose gate was folded. -/
theorem FoldInv.resolve (h : FoldInv other support u rk done f) {a : Str} (ha : a ∈ done ∨ a ∈ support) :
    (f.resolve a).value u = u a ∧ ∀ n, f.resolve a = .net n →
      (n ∈ support ∨ (f.newg.lookup n).isSome) ∧ (n ∈ done ∨ n ∈ support) ∧ (n = a ∨ rk n < rk a) := by
  have hfuel : f.aliases.keys.length < f.aliases.keys.length + 1 + ([] : List Str).length := Nat.lt_succ_self _
  obtain ⟨hnone, hu, hknown, hrk⟩ := @follow_spec _ _ _ (fun m => m ∈ done ∨ m ∈ support) h.alias_value
    h.alias_rank h.alias_known _ [] a ha (by simp) List.nodup_nil hfuel
  unfold Folds.resolve
  generalize Folds.follow f.aliases (f.aliases.keys.length + 1) [] a = n at hnone hu hknown hrk ⊢
  dsimp only
  cases hval : f.val.lookup n with
  | some b => exact ⟨(h.val n b hval).symm.trans hu.symm, by simp⟩
  | none =>
    refine ⟨hu.symm, fun m hm => ?_⟩
    cases hm
    refine ⟨?_, hknown, hrk⟩
    rcases hknown with hdone | hsupport
    · right
      have hcovered := h.covered n hdone
      rw [hval, hnone] at hcovered
      simpa using hcovered
    · exact .inl hsupport

/-! ## One turn of the loop -/

theorem FoldInv.cover (h : FoldInv other support u rk done f) {net : Str}
    (hnet : (f.val.lookup net).isSome ∨ (f.aliases.lookup net).isSome ∨ (f.newg.lookup net).isSome) :
    FoldInv other support u rk (done ++ [net]) f where
  val := h.val
  alias_value := h.alias_value
  alias_rank := h.alias_rank
  alias_known n m hm := (h.alias_known n m hm).imp_left fun hdone => List.mem_append_left _ hdone
  gate_value := h.gate_value
  gate_args := h.gate_args
  covered n hn := by
    rcases List.mem_append.mp hn with hn | hn
    · exact h.covered n hn
    · rwa [List.mem_singleton.mp hn]

theorem FoldInv.setVal (h : FoldInv other support u rk done f) {net : Str} {b : Bool} (hb : u net = b) :
    FoldInv other support u rk (done ++ [net]) (f.setVal net b) := by
  have hlookup : ∀ n, (f.setVal net b).val.lookup n = if n = net then some b else f.val.lookup n :=
    OrderedDict.lookup_set f.val net b
  have hkept : FoldInv other support u rk done (f.setVal net b) := {
    val := by
      intro n c hc
      rw [hlookup] at hc
      split_ifs at hc with hn
      · cases hc
        rw [hn, hb]
      · exact h.val n c hc
    alias_value := h.alias_value
    alias_rank := h.alias_rank
    alias_known := h.alias_known
    gate_value := h.gate_value
    gate_args := h.gate_args
    covered := by
      intro n hn
      refine (h.covered n hn).imp_left fun hval => ?_
      rw [hlookup]
      split_ifs
      · rfl
      · exact hval }
  apply hkept.cover
  rw [hlookup, if_pos rfl]
  exact .inl rfl

theorem FoldInv.setAlias (h : FoldInv other support u rk done f) {net n : Str} (hu : u net = u n)
    (hrk : rk n < rk net) (hn : n ∈ done ∨ n ∈ support) :
    FoldInv other support u rk (done ++ [net]) (f.setAlias net n) := by
  have hlookup : ∀ m, (f.setAlias net n).aliases.lookup m = if m = net then some n else f.aliases.lookup m :=
    OrderedDict.lookup_set f.aliases net n
  have hcases : ∀ m m', (f.setAlias net n).aliases.lookup m = some m' →
      m = net ∧ m' = n ∨ f.aliases.lookup m = some m' := by
    intro m m' hm
    rw [hlookup] at hm
    split_ifs at hm with heq
    · cases hm
      exact .inl ⟨heq, rfl⟩
    · exact .inr hm
  have hkept : FoldInv other support u rk done (f.setAlias net n) := {
    val := h.val
    alias_value := by
      intro m m' hm
      rcases hcases m m' hm with ⟨rfl, rfl⟩ | hm
      · exact hu
      · exact h.alias_value m m' hm
    alias_rank := by
      intro m m' hm
      rcases hcases m m' hm with ⟨rfl, rfl⟩ | hm
      · exact hrk
      · exact h.alias_rank m m' hm
    alias_known := by
      intro m m' hm
      rcases hcases m m' hm with ⟨rfl, rfl⟩ | hm
      · exact hn
      · exact h.alias_known m m' hm
    gate_value := h.gate_value
    gate_args := h.gate_args
    covered := by
      intro m hm
      refine (h.covered m hm).imp_right fun hcov => hcov.imp_left fun halias => ?_
      rw [hlookup]
      split_ifs
      · rfl
      · exact halias }
  apply hkept.cover
  rw [hlookup, if_pos rfl]
  exact .inr (.inl rfl)

theorem lookup_newg_mono {net a : Str} {g : Gate} (h : (f.newg.lookup a).isSome) :
    ((f.newg.set net g).lookup a).isSome := by
  rw [OrderedDict.lookup_set]
  split_ifs
  · rfl
  · exact h

theorem FoldInv.addGate (h : FoldInv other support u rk done f) {net : Str} {g : Gate}
    (hu : u net = gateValue other g.op (g.args.map u))
    (hargs : ∀ a ∈ g.args, ArgOk support { f with newg := f.newg.set net g } g.op a ∧ rk a < rk net) :
    FoldInv other support u rk done { f with newg := f.newg.set net g } where
  val := h.val
  alias_value := h.alias_value
  alias_rank := h.alias_rank
  alias_known := h.alias_known
  gate_value := by
    intro n g' hg
    rw [OrderedDict.lookup_set] at hg
    split_ifs at hg with hn
    · cases hg
      rw [hn, hu]
    · exact h.gate_value n g' hg
  gate_args := by
    intro n g' hg a ha
    rw [OrderedDict.lookup_set] at hg
    split_ifs at hg with hn
    · cases hg
      rw [hn]
      exact hargs a ha
    · obtain ⟨hok, hlt⟩ := h.gate_args n g' hg a ha
      exact ⟨hok.imp_right fun hok => hok.imp_left lookup_newg_mono, hlt⟩
  covered n hn := (h.covered n hn).imp_right fun hcov => hcov.imp_right lookup_newg_mono

theorem FoldInv.setGate (h : FoldInv other support u rk done f) {net : Str} {g : Gate}
    (hu : u net = gateValue other g.op (g.args.map u))
    (hargs : ∀ a ∈ g.args, ArgOk support { f with newg := f.newg.set net g } g.op a ∧ rk a < rk net) :
    FoldInv other support u rk (done ++ [net]) { f with newg := f.newg.set net g } := by
  apply (h.addGate hu hargs).cover
  right
  right
  show ((f.newg.set net g).lookup net).isSome
  rw [OrderedDict.lookup_set, if_pos rfl]
  rfl

/-- What is known of the resolved arguments of the gate of `net`. -/
structure RefsOk (support done : List Str) (rk : Str → Nat) (f : Folds) (net : Str) (r : List Ref) : Prop where
  driven : ∀ n, .net n ∈ r → n ∈ support ∨ (f.newg.lookup n).isSome
  known : ∀ n, .net n ∈ r → n ∈ done ∨ n ∈ support
  rank : ∀ n, .net n ∈ r → rk n + 1 < rk net

variable {net : Str} {r : List Ref}

theorem RefsOk.argOk (hr : RefsOk support done rk f net r) {nets : List Str} (hnets : ∀ n ∈ nets, .net n ∈ r)
    (op : Str) (g : Gate) : ∀ a ∈ nets, ArgOk support { f with newg := f.newg.set net g } op a ∧ rk a < rk net := by
  intro a ha
  refine ⟨(hr.driven a (hnets a ha)).imp_right fun h => .inl (lookup_newg_mono h), ?_⟩
  have := hr.rank a (hnets a ha)
  omega

theorem FoldInv.setRef (h : FoldInv other support u rk done f) (hr : RefsOk support done rk f net r) {ref : Ref}
    (href : ref ∈ r) (hu : u net = ref.value u) : FoldInv other support u rk (done ++ [net]) (f.setRef net ref) := by
  cases ref with
  | const b => exact h.setVal hu
  | net n =>
    have := hr.rank n href
    exact h.setAlias hu (by omega) (hr.known n href)

theorem FoldInv.foldDecided (h : FoldInv other support u rk done f) (hr : RefsOk support done rk f net r)
    {op : String} {decides inverts : Bool}
    (hop : ∀ vs, gateValue other (str op) vs = decided decides inverts vs)
    (hu : u net = gateValue other (str op) (r.map (Ref.value u))) :
    FoldInv other support u rk (done ++ [net]) (f.foldDecided op decides inverts net r) := by
  rw [hop] at hu
  unfold Folds.foldDecided
  split_ifs with hconst
  · apply h.setVal
    have hmem : decides ∈ r.map (Ref.value u) := List.mem_map.mpr ⟨_, hconst, rfl⟩
    rw [hu, decided, if_pos hmem]
  · rw [decided_nets hconst] at hu
    have hnets : ∀ n ∈ r.filterMap Ref.net?, .net n ∈ r := fun n hn => mem_nets.mp hn
    split
    · next heq =>
      rw [heq] at hu
      exact h.setVal hu
    · next n heq =>
      rw [heq] at hu hnets
      rw [List.map_singleton, decided_one] at hu
      exact h.setRef hr (hnets n (by simp)) hu
    · refine h.setGate ?_ (hr.argOk hnets _ _)
      rw [hu, ← hop]

theorem gateValue_xor (vs : List Bool) : gateValue other (str "XOR") vs = Parity.xorAll vs := by
  have h : ¬ (str "XOR" = str "BUFF" ∨ str "XOR" = str "BUF") := by decide
  rw [gateValue, if_neg h, if_neg (by decide), if_neg (by decide), if_neg (by decide), if_neg (by decide),
    if_neg (by decide), if_pos rfl]

theorem gateValue_not (vs : List Bool) : gateValue other (str "NOT") vs = !vs.headD false := by
  have h : ¬ (str "NOT" = str "BUFF" ∨ str "NOT" = str "BUF") := by decide
  rw [gateValue, if_neg h, if_pos rfl]

theorem FoldInv.foldXor (h : FoldInv other support u rk done f) (hr : RefsOk support done rk f net r)
    (hu : u net = Parity.xorAll (r.map (Ref.value u)))
    (hx : u (net ++ str "__x") = !u net) (hrank : rk (net ++ str "__x") + 1 = rk net) :
    FoldInv other support u rk (done ++ [net]) (f.foldXor net r) := by
  rw [xorAll_refs, xorAll_oddNets] at hu
  have hnets : ∀ n ∈ Folds.oddNets (r.filterMap Ref.net?), .net n ∈ r := fun n hn => mem_nets.mp (mem_oddNets hn)
  unfold Folds.foldXor
  have hparity : (r.filterMap Ref.const?).foldl (· ^^ ·) false = Parity.xorAll (r.filterMap Ref.const?) := rfl
  dsimp only
  rw [hparity]
  split
  · next heq =>
    rw [heq] at hu
    apply h.setVal
    rw [hu, List.map_nil, Parity.xorAll_nil, Bool.xor_false]
  · next n hp heq =>
    rw [hp, heq, Bool.false_xor] at hu
    rw [heq] at hnets
    apply h.setRef hr (hnets n (by simp))
    simpa [Ref.value] using hu
  · next n hp heq =>
    rw [hp, heq] at hu
    rw [heq] at hnets
    refine h.setGate ?_ (hr.argOk hnets _ _)
    rw [hu, gateValue_not]
    simp
  · next hp _ _ =>
    rw [hp, Bool.false_xor] at hu
    refine h.setGate ?_ (hr.argOk hnets _ _)
    rw [hu, gateValue_xor]
  · next hp _ _ =>
    -- the helper gate carries the inverse of the net
    rw [hp, Bool.true_xor] at hu
    have hhelper : FoldInv other support u rk done (f.setGate (net ++ str "__x") "XOR"
        (Folds.oddNets (r.filterMap Ref.net?))) := by
      apply h.addGate
      · rw [hx, hu, Bool.not_not, gateValue_xor]
      · intro a ha
        refine ⟨(hr.driven a (hnets a ha)).imp_right fun hn => .inl (lookup_newg_mono hn), ?_⟩
        have := hr.rank a (hnets a ha)
        omega
    apply hhelper.setGate
    · rw [gateValue_not]
      simp [hx]
    · intro a ha
      obtain rfl := List.mem_singleton.mp ha
      refine ⟨.inr (.inl (lookup_newg_mono ?_)), by omega⟩
      show ((f.newg.set _ _).lookup _).isSome
      rw [OrderedDict.lookup_set, if_pos rfl]
      rfl

theorem gateValue_buff {op : Str} (hop : op = str "BUFF" ∨ op = str "BUF") (vs : List Bool) :
    gateValue other op vs = vs.headD false := if_pos hop

/-- The four ops that one value decides. -/
theorem gateValue_decided (other : Str → List Bool → Bool) (vs : List Bool) :
    gateValue other (str "AND") vs = decided false false vs ∧
      gateValue other (str "NAND") vs = decided false true vs ∧
      gateValue other (str "OR") vs = decided true false vs ∧
      gateValue other (str "NOR") vs = decided true true vs := by
  simp only [decided_and, decided_or, Bool.xor_false, Bool.xor_true]
  refine ⟨?_, ?_, ?_, ?_⟩ <;> simp +decide only [gateValue, if_true, if_false]

/-- A gate whose arguments are folded is folded. -/
theorem FoldInv.foldGate (h : FoldInv other support u rk done f) {g : Gate} (hne : g.args ≠ [])
    (hu : u net = gateValue other g.op (g.args.map u))
    (hargs : ∀ a ∈ g.args, (a ∈ done ∨ a ∈ support) ∧ rk a + 1 < rk net)
    (hx : u (net ++ str "__x") = !u net) (hrank : rk (net ++ str "__x") + 1 = rk net)
    (hconst : ∀ b, u (constName b) = b ∧ rk (constName b) < rk net) :
    ∃ f', f.foldGate net g = some f' ∧ FoldInv other support u rk (done ++ [net]) f' := by
  have hvalue : (g.args.map f.resolve).map (Ref.value u) = g.args.map u := by
    rw [List.map_map]
    exact List.map_congr_left fun a ha => (h.resolve (hargs a ha).1).1
  have hr : RefsOk support done rk f net (g.args.map f.resolve) := by
    have hspec : ∀ n, .net n ∈ g.args.map f.resolve →
        (n ∈ support ∨ (f.newg.lookup n).isSome) ∧ (n ∈ done ∨ n ∈ support) ∧ rk n + 1 < rk net := by
      intro n hn
      obtain ⟨a, ha, heq⟩ := List.mem_map.mp hn
      obtain ⟨hdriven, hknown, hle⟩ := (h.resolve (hargs a ha).1).2 n heq
      have := (hargs a ha).2
      refine ⟨hdriven, hknown, ?_⟩
      rcases hle with rfl | hle
      · exact this
      · omega
    exact ⟨fun n hn => (hspec n hn).1, fun n hn => (hspec n hn).2.1, fun n hn => (hspec n hn).2.2⟩
  rw [← hvalue] at hu
  unfold Folds.foldGate
  generalize hrefs : g.args.map f.resolve = r at hvalue hr hu ⊢
  obtain ⟨ref, rest, rfl⟩ : ∃ ref rest, r = ref :: rest := by
    cases r with
    | nil => exact absurd (List.map_eq_nil_iff.mp hrefs) hne
    | cons ref rest => exact ⟨ref, rest, rfl⟩
  obtain ⟨hand, hnand, hor, hnor⟩ : (∀ vs, _) ∧ (∀ vs, _) ∧ (∀ vs, _) ∧ ∀ vs, _ :=
    ⟨fun vs => (gateValue_decided other vs).1, fun vs => (gateValue_decided other vs).2.1,
      fun vs => (gateValue_decided other vs).2.2.1, fun vs => (gateValue_decided other vs).2.2.2⟩
  dsimp only
  split_ifs with hbuff hnot hand' hnand' hor' hnor' hxor
  · refine ⟨_, rfl, h.setRef hr List.mem_cons_self ?_⟩
    rw [hu, gateValue_buff hbuff]
    rfl
  · rw [hnot, gateValue_not] at hu
    cases ref with
    | const b => exact ⟨_, rfl, h.setVal hu⟩
    | net n =>
      have hnets : ∀ m ∈ [n], .net m ∈ Ref.net n :: rest := by simp
      refine ⟨_, rfl, h.setGate ?_ (hr.argOk hnets _ _)⟩
      rw [gateValue_not]
      exact hu
  · rw [hand'] at hu
    exact ⟨_, rfl, h.foldDecided hr hand hu⟩
  · rw [hnand'] at hu
    exact ⟨_, rfl, h.foldDecided hr hnand hu⟩
  · rw [hor'] at hu
    exact ⟨_, rfl, h.foldDecided hr hor hu⟩
  · rw [hnor'] at hu
    exact ⟨_, rfl, h.foldDecided hr hnor hu⟩
  · rw [hxor, gateValue_xor] at hu
    exact ⟨_, rfl, h.foldXor hr hu hx hrank⟩
  · have hop : g.op ∉ foldedOps := by
      simp only [foldedOps, List.mem_cons, List.not_mem_nil, or_false]
      tauto
    refine ⟨_, rfl, h.setGate ?_ ?_⟩
    · rw [hu, List.map_map]
      congr 1
      apply List.map_congr_left
      intro ref' _
      cases ref' with
      | const b => exact (hconst b).1.symm
      | net n => rfl
    · intro a ha
      obtain ⟨ref', href', rfl⟩ := List.mem_map.mp ha
      cases ref' with
      | const b => exact ⟨.inr (.inr ⟨hop, b, rfl⟩), (hconst b).2⟩
      | net n =>
        refine ⟨(hr.driven n href').imp_right fun hn => .inl (lookup_newg_mono hn), ?_⟩
        have := hr.rank n href'
        exact Nat.lt_of_succ_lt this

end Resolve

end Yosys.ConeSlice
