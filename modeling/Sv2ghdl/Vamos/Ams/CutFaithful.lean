import Sv2ghdl.Vamos.Ams.CutTables
import Mathlib.Data.List.Sort

/-!
# What the tables of the cut say

Each instance finds its own row, and the row has the role and the levels of the node on each of its bits.
-/

open Python Traverse

namespace Vamos.Ams.Cut

/-! ## Reals -/

/-- The literal with a fraction. -/
def withFraction (l : Literal) : Literal where
  whole := l.whole
  frac := some (l.frac.getD [0])
  exp := l.exp
  ne_nil := l.ne_nil
  whole_lt := l.whole_lt
  frac_lt := by
    intro fs hfs d hd
    obtain rfl := Option.mem_some_iff.mp hfs
    cases hl : l.frac with
    | none =>
      rw [hl] at hd
      rw [List.mem_singleton.mp hd]
      decide
    | some gs =>
      rw [hl] at hd
      exact l.frac_lt gs hl d hd

theorem withFraction_value (l : Literal) : (withFraction l).value = l.value := by
  show decimalFloat (l.whole ++ l.frac.getD [0]) (l.exp.getD 0 - (l.frac.getD [0]).length) = l.value
  rw [Literal.value, Literal.digits]
  cases hl : l.frac with
  | some fs => rfl
  | none =>
    show decimalFloat (l.whole ++ [0]) (l.exp.getD 0 - 1) = decimalFloat (l.whole ++ []) (l.exp.getD 0 - 0)
    rw [List.append_nil, sub_zero]
    exact decimalFloat_trailingZeros l.whole 1 (l.exp.getD 0)

theorem not_mem_digitText {ds : List Nat} (h : ∀ d ∈ ds, d < 10) {c : CodePoint} (hc : c.isAsciiDigit = false) :
    c ∉ digitText ds := by
  intro hmem
  rw [isAsciiDigit_digitText h c hmem] at hc
  cases hc

/-- The mantissa as it is printed, after a sign. -/
def mantissaText (sign : Str) (l : Literal) : Str := sign ++ (digitText l.whole ++ l.fracText)

section Mantissa

variable {sign : Str} {l : Literal}

theorem exponent_not_mem (hsign : ('e' : CodePoint) ∉ sign) : ('e' : CodePoint) ∉ mantissaText sign l := by
  have hdigit : ('e' : CodePoint).isAsciiDigit = false := by decide
  rw [mantissaText, List.mem_append, List.mem_append]
  rintro (h | h | h)
  · exact hsign h
  · exact not_mem_digitText l.whole_lt hdigit h
  · rw [Literal.fracText] at h
    cases hf : l.frac with
    | none =>
      rw [hf] at h
      cases h
    | some fs =>
      rw [hf] at h
      rcases List.mem_cons.mp h with h | h
      · exact absurd h (by decide)
      · exact not_mem_digitText (l.frac_lt fs hf) hdigit h

theorem point_mem (hsign : ('.' : CodePoint) ∉ sign) :
    ('.' : CodePoint) ∈ mantissaText sign l ↔ l.frac.isSome = true := by
  have hdigit : ('.' : CodePoint).isAsciiDigit = false := by decide
  rw [mantissaText, List.mem_append, List.mem_append, Literal.fracText]
  cases hf : l.frac with
  | none =>
    constructor
    · rintro (h | h | h)
      · exact absurd h hsign
      · exact absurd h (not_mem_digitText l.whole_lt hdigit)
      · cases h
    · intro h
      cases h
  | some fs => exact ⟨fun _ => rfl, fun _ => .inr (.inr List.mem_cons_self)⟩

/-- A point is put where the mantissa has none. -/
theorem pointed (hsign : ('.' : CodePoint) ∉ sign) :
    (if ('.' : CodePoint) ∈ mantissaText sign l then mantissaText sign l else mantissaText sign l ++ str ".0") =
      mantissaText sign (withFraction l) := by
  have hfrac : (withFraction l).fracText = ('.' : CodePoint) :: digitText (l.frac.getD [0]) := rfl
  have hwhole : (withFraction l).whole = l.whole := rfl
  rw [mantissaText.eq_1 sign (withFraction l), hfrac, hwhole]
  cases hf : l.frac with
  | some fs =>
    rw [if_pos ((point_mem hsign).mpr (by rw [hf]; rfl)), mantissaText, Literal.fracText, hf]
    rfl
  | none =>
    rw [if_neg (by rw [point_mem hsign, hf]; exact Bool.false_ne_true), mantissaText, Literal.fracText, hf,
      List.append_nil, List.append_assoc]
    rfl

end Mantissa

theorem vreal_text {x : Float} (hx : x.isFinite = true) {sign : Str} {l : Literal} (hs : reprFloat x = sign ++ l.text)
    (he : ('e' : CodePoint) ∉ sign) (hpoint : ('.' : CodePoint) ∉ sign) :
    vreal x = some (sign ++ (withFraction l).text) := by
  have hmant : reprFloat x = mantissaText sign l ++ l.expText := by
    rw [hs, mantissaText, Literal.text]
    simp only [List.append_assoc]
  have htext : sign ++ (withFraction l).text = mantissaText sign (withFraction l) ++ l.expText := by
    rw [mantissaText, Literal.text]
    simp only [List.append_assoc]
    rfl
  have hkeep : ∀ c ∈ mantissaText sign l, decide (c ≠ ('e' : CodePoint)) = true := fun c hc =>
    decide_eq_true fun h => exponent_not_mem he (h ▸ hc)
  rw [vreal, if_pos hx, hmant, htext, Literal.expText]
  dsimp only
  cases l.exp with
  | none =>
    rw [List.append_nil, if_neg (exponent_not_mem he), pointed hpoint, List.append_nil]
  | some e =>
    have htake : (mantissaText sign l ++ ('e' : CodePoint) :: exponentText e).takeWhile (· ≠ ('e' : CodePoint)) =
        mantissaText sign l := by
      rw [List.takeWhile_append_of_pos hkeep, List.takeWhile_cons_of_neg (by simp), List.append_nil]
    have hdrop : (mantissaText sign l ++ ('e' : CodePoint) :: exponentText e).dropWhile (· ≠ ('e' : CodePoint)) =
        ('e' : CodePoint) :: exponentText e := by
      rw [List.dropWhile_append_of_pos hkeep, List.dropWhile_cons_of_neg (by simp)]
    rw [if_pos (List.mem_append_right _ List.mem_cons_self), htake, hdrop, pointed hpoint]
    rfl

theorem isFinite_of_vreal {x : Float} {s : Str} (h : vreal x = some s) : x.isFinite = true := by
  by_contra hx
  rw [vreal, if_neg hx] at h
  cases h

/-- A real literal denotes the float. -/
theorem asciiFloat_vreal {x : Float} {s : Str} (h : vreal x = some s) : asciiFloat s = some x := by
  have hx := isFinite_of_vreal h
  obtain ⟨l, ⟨hs, hvalue⟩ | ⟨hs, hvalue⟩⟩ := reprFloat_cases hx
  · have hprinted : vreal x = some ([] ++ (withFraction l).text) := vreal_text hx hs List.not_mem_nil List.not_mem_nil
    rw [hprinted] at h
    rw [← Option.some.inj h, List.nil_append, Literal.asciiFloat_text, withFraction_value, hvalue]
  · have hprinted : vreal x = some ([('-' : CodePoint)] ++ (withFraction l).text) :=
      vreal_text hx hs (by decide) (by decide)
    rw [hprinted] at h
    obtain ⟨c, rest, htext, hc⟩ := (withFraction l).text_head
    have hread := (withFraction l).unsignedFloat_text
    rw [htext] at hread
    rw [← Option.some.inj h, List.singleton_append, asciiFloat, if_pos rfl, htext, magnitudeFloat_of_digit hc, hread,
      withFraction_value, ← hvalue]
    rfl

theorem unpacked_beq_self {u : Float.Model.UnpackedFloat} (h : u.isFinite = true) : u.beq u = true := by
  cases u with
  | notANumber => exact absurd h (by decide)
  | infinity s => exact absurd h (by simp [Float.Model.UnpackedFloat.isFinite])
  | zero s => rfl
  | finite s m e hm => cases s <;> simp [Float.Model.UnpackedFloat.beq, Float.Model.UnpackedFloat.compare]

theorem beq_self_of_isFinite {x : Float} (hx : x.isFinite = true) : (x == x) = true :=
  unpacked_beq_self (u := x.toModel.unpack) hx

theorem tupleEq_getElem? {a b : List Float} (h : tupleEq a b = true) {key : Nat} {x : Float} (hx : b[key]? = some x) :
    ∃ y, a[key]? = some y ∧ (y == x) = true := by
  obtain ⟨hlen, hall⟩ := (Bool.and_eq_true _ _).mp h
  obtain ⟨hlt, _⟩ := List.getElem?_eq_some_iff.mp hx
  have hlta : key < a.length := (of_decide_eq_true hlen) ▸ hlt
  obtain ⟨y, hy⟩ : ∃ y, a[key]? = some y := ⟨_, List.getElem?_eq_getElem hlta⟩
  have hzip : (y, x) ∈ a.zip b := List.mem_of_getElem? (List.getElem?_zip_eq_some.mpr ⟨hy, hx⟩)
  exact ⟨y, hy, List.all_eq_true.mp hall (y, x) hzip⟩

/-- The set is in the list, or one that is equal as a tuple. -/
theorem intern_spec (sets : List (List Float)) (set : List Float) :
    sets <+: (intern sets set).1 ∧ ∃ set', (intern sets set).1[(intern sets set).2]? = some set' ∧
      (set' = set ∨ tupleEq set' set = true) := by
  rw [intern]
  cases h : sets.findIdx? fun s => tupleEq s set with
  | none => exact ⟨List.prefix_append _ _, set, List.getElem?_concat_length, .inl rfl⟩
  | some j =>
    obtain ⟨hlt, heq, _⟩ := List.findIdx?_eq_some_iff_getElem.mp h
    exact ⟨List.prefix_rfl, sets[j], List.getElem?_eq_getElem hlt, .inr heq⟩

/-! ## The rows of a table -/

namespace Plan

variable {U : UnicodeData} (p : Plan U)

theorem path_eq {i : Nat} {ci : CutInstance} (h : p.analysis.instances[i]? = some ci) :
    p.path i = pathName U p.analysis.top ci.labels := by
  rw [path, h]

theorem path_printable (i : Nat) : ∀ c ∈ p.path i, (' ' : CodePoint) ≤ c := by
  intro c hc
  cases h : p.analysis.instances[i]? with
  | none =>
    rw [path, h] at hc
    cases hc
  | some ci =>
    rw [p.path_eq h] at hc
    exact p.analysis.paths_printable ci (List.mem_of_getElem? h) c hc

/-- A path ends in a colon. -/
theorem path_getLast (i : Nat) : (p.path i).getLast? ≠ some (' ' : CodePoint) := by
  cases h : p.analysis.instances[i]? with
  | none =>
    rw [path, h]
    exact nofun
  | some ci =>
    rw [p.path_eq h, pathName, ← List.cons_append, List.getLast?_append]
    exact fun heq => absurd (Option.some.inj heq) (by decide)

theorem path_injective {i j : Nat} {ci cj : CutInstance} (hi : p.analysis.instances[i]? = some ci)
    (hj : p.analysis.instances[j]? = some cj) (h : p.path i = p.path j) : i = j := by
  have hlt := (List.getElem?_eq_some_iff.mp hi).1
  rw [p.path_eq hi, p.path_eq hj] at h
  refine (List.getElem?_inj ?_ p.analysis.paths_nodup).mp ?_
  · rwa [List.length_map]
  · rw [List.getElem?_map, List.getElem?_map, hi, hj, Option.map_some, Option.map_some, h]

theorem mem_insts {w i : Nat} :
    i ∈ p.insts w ↔ ∃ ci, p.analysis.instances[i]? = some ci ∧ ci.variant = w := by
  rw [insts, List.mem_filter, List.mem_range, Option.any_eq_true]
  constructor
  · rintro ⟨_, ci, hci, hw⟩
    exact ⟨ci, hci, of_decide_eq_true hw⟩
  · rintro ⟨ci, hci, hw⟩
    exact ⟨(List.getElem?_eq_some_iff.mp hci).1, ci, hci, decide_eq_true hw⟩

theorem mem_rows {w : Nat} {r : Str × Nat} : r ∈ p.rows w ↔ r.2 ∈ p.insts w ∧ r.1 = p.path r.2 := by
  rw [rows, List.mem_insertionSort, List.mem_map]
  constructor
  · rintro ⟨i, hi, rfl⟩
    exact ⟨hi, rfl⟩
  · rintro ⟨hi, hpath⟩
    exact ⟨r.2, hi, by rw [← hpath]⟩

/-- The paths of the rows are strictly sorted. -/
theorem rows_sorted (w : Nat) : (p.rows w).Pairwise fun a b => a.1 < b.1 := by
  let le (a b : Str × Nat) : Prop := a.1 < b.1 ∨ a.1 = b.1 ∧ a.2 ≤ b.2
  have htotal : Std.Total le := ⟨fun a b => by
    rcases lt_trichotomy a.1 b.1 with h | h | h
    · exact .inl (.inl h)
    · rcases Nat.le_total a.2 b.2 with h' | h'
      · exact .inl (.inr ⟨h, h'⟩)
      · exact .inr (.inr ⟨h.symm, h'⟩)
    · exact .inr (.inl h)⟩
  have htrans : IsTrans (Str × Nat) le := ⟨fun a b c => by
    rintro (h | ⟨h, h'⟩) (g | ⟨g, g'⟩)
    · exact .inl (h.trans g)
    · exact .inl (g ▸ h)
    · exact .inl (h ▸ g)
    · exact .inr ⟨h.trans g, h'.trans g'⟩⟩
  have hsorted : (p.rows w).Pairwise le := List.pairwise_insertionSort le _
  -- no two rows have one path
  have hnodup : ((p.rows w).map Prod.fst).Nodup := by
    have hperm : ((p.rows w).map Prod.fst).Perm ((p.insts w).map p.path) := by
      have h := (List.perm_insertionSort le ((p.insts w).map fun i => (p.path i, i))).map Prod.fst
      rwa [List.map_map] at h
    refine hperm.nodup_iff.mpr (List.Nodup.map_on ?_ (List.nodup_range.filter _))
    intro i hi j hj h
    obtain ⟨ci, hci, _⟩ := p.mem_insts.mp hi
    obtain ⟨cj, hcj, _⟩ := p.mem_insts.mp hj
    exact p.path_injective hci hcj h
  refine (hsorted.and (List.pairwise_map.mp hnodup)).imp ?_
  rintro a b ⟨h | ⟨h, _⟩, hne⟩
  · exact h
  · exact absurd h hne

/-- The width of the paths of a variant. -/
def width (w : Nat) : Nat := ((p.rows w).map fun r => r.1.length).foldl max 0

theorem length_le_width {w : Nat} {r : Str × Nat} (h : r ∈ p.rows w) : r.1.length ≤ p.width w := by
  have hmem : r.1.length ∈ (p.rows w).map fun r => r.1.length := List.mem_map_of_mem h
  rw [width, List.foldl_max_eq_max (List.ne_nil_of_mem hmem)]
  exact (List.le_max_of_mem hmem).trans (le_max_right 0 _)

/-- The padded paths are strictly sorted, as the paths are. -/
theorem padded_sorted (w : Nat) :
    ((p.rows w).map fun r => PaddedSearch.ljust (' ' : CodePoint) (p.width w) r.1).Pairwise (· < ·) := by
  rw [List.pairwise_map]
  refine (p.rows_sorted w).imp_of_mem fun {a b} _ hb h => ?_
  obtain ⟨_, hpath⟩ := p.mem_rows.mp hb
  exact PaddedSearch.ljust_lt h (hpath ▸ p.path_printable b.2) (hpath ▸ p.path_getLast b.2) (p.length_le_width hb)

/-! ## The cells of a row -/

/-- The role of the node on a bit, or passive where no node is. -/
def roleAt (at_ : PortRef) : Nat := ((p.host at_).bind fun n => roleCode n.assigned.role).getD rolePassive

/-- A cell has the role of the node on its bit, and its level set is among those so far. -/
def CellOk (sets : List (List Float)) (i : Nat) (slot cell : Nat × Nat) : Prop :=
  cell.1 = p.roleAt ⟨i, slot.1, slot.2⟩ ∧ ∀ n, p.host ⟨i, slot.1, slot.2⟩ = some n →
    ∃ set set', levels U n = some set ∧ sets[cell.2]? = some set' ∧ (set' = set ∨ tupleEq set' set = true)

theorem CellOk.mono {sets sets' : List (List Float)} {i : Nat} {slot cell : Nat × Nat} (hle : sets <+: sets')
    (h : p.CellOk sets i slot cell) : p.CellOk sets' i slot cell := by
  refine ⟨h.1, fun n hn => ?_⟩
  obtain ⟨set, set', hset, hset', heq⟩ := h.2 n hn
  obtain ⟨rest, rfl⟩ := hle
  exact ⟨set, set', hset, (List.getElem?_append_left (List.getElem?_eq_some_iff.mp hset').1).trans hset', heq⟩

theorem slotCell_spec {i : Nat} {sets sets' : List (List Float)} {slot cell : Nat × Nat}
    (h : p.slotCell i sets slot = some (sets', cell)) : sets <+: sets' ∧ p.CellOk sets' i slot cell := by
  rw [slotCell] at h
  cases hhost : p.host ⟨i, slot.1, slot.2⟩ with
  | none =>
    rw [hhost] at h
    cases h
    refine ⟨List.prefix_rfl, ?_, fun n hn => ?_⟩
    · rw [roleAt, hhost]
      rfl
    · rw [hhost] at hn
      cases hn
  | some n =>
    rw [hhost] at h
    obtain ⟨set, hset, h⟩ := Option.bind_eq_some_iff.mp h
    obtain ⟨code, hcode, h⟩ := Option.bind_eq_some_iff.mp h
    cases h
    obtain ⟨hle, set', hset', heq⟩ := intern_spec sets set
    refine ⟨hle, ?_, fun n' hn' => ?_⟩
    · rw [roleAt, hhost, Option.bind_some, hcode]
      rfl
    · rw [hhost] at hn'
      cases hn'
      exact ⟨set, set', hset, hset', heq⟩

/-- A row has a cell for each slot. -/
def RowOk (v : Variant) (sets : List (List Float)) (r : Str × Nat) (cells : List (Nat × Nat)) : Prop :=
  ∀ (k : Nat) slot, v.slots[k]? = some slot → ∃ cell, cells[k]? = some cell ∧ p.CellOk sets r.2 slot cell

theorem row_spec {v : Variant} {sets sets' : List (List Float)} {r : Str × Nat} {cells : List (Nat × Nat)}
    (h : p.row v sets r = some (sets', cells)) : sets <+: sets' ∧ p.RowOk v sets' r cells := by
  rw [row] at h
  obtain ⟨⟨sets₁, cells₁⟩, hcells, h⟩ := Option.bind_eq_some_iff.mp h
  cases h
  obtain ⟨hle, hall⟩ := mapAccum_forall₂ (r := (· <+: ·)) (P := fun s slot cell => p.CellOk s r.2 slot cell)
    (fun _ => List.prefix_rfl) List.IsPrefix.trans (CellOk.mono p) p.slotCell_spec hcells
  refine ⟨hle, fun k slot hk => ?_⟩
  have hne : v.slots.isEmpty ≠ true := fun hempty => by
    rw [List.isEmpty_iff.mp hempty] at hk
    cases hk
  rw [if_neg hne]
  exact forall₂_left hall hk

/-! ## The functions of a table -/

theorem table_cases {w : Nat} {t : Table} (h : p.table w = some t) :
    ∃ v sets cells lvls, p.analysis.variants[w]? = some v ∧ List.Forall₂ (p.RowOk v sets) (p.rows w) cells ∧
      sets.mapM (fun set => set.mapM vreal) = some lvls ∧ t = {
        n := (p.rows w).length
        len := p.width w
        paths := (p.rows w).map fun r => PaddedSearch.ljust (' ' : CodePoint) (p.width w) r.1
        roles := cells.map fun row => row.map Prod.fst
        lidx := cells.map fun row => row.map Prod.snd
        lvls := lvls } := by
  rw [table] at h
  obtain ⟨v, hv, h⟩ := Option.bind_eq_some_iff.mp h
  obtain ⟨⟨sets, cells⟩, hcells, h⟩ := Option.bind_eq_some_iff.mp h
  obtain ⟨lvls, hlvls, h⟩ := Option.bind_eq_some_iff.mp h
  have hkeep : ∀ {s s' : List (List Float)} {r : Str × Nat} {c}, s <+: s' → p.RowOk v s r c → p.RowOk v s' r c := by
    intro s s' r c hle hrow k slot hk
    obtain ⟨cell, hcell, hok⟩ := hrow k slot hk
    exact ⟨cell, hcell, CellOk.mono p hle hok⟩
  obtain ⟨_, hall⟩ := mapAccum_forall₂ (r := (· <+: ·)) (P := p.RowOk v) (fun _ => List.prefix_rfl)
    List.IsPrefix.trans hkeep p.row_spec hcells
  exact ⟨v, sets, cells, lvls, hv, hall, hlvls, (Option.some.inj h).symm⟩

section Functions

variable {p} {w i r : Nat} {t : Table}

/-- The search finds the row of the instance. -/
theorem vamsIndex_eq (ht : p.table w = some t) (hr : (p.rows w)[r]? = some (p.path i, i)) :
    t.vamsIndex (p.path i) = some r := by
  obtain ⟨v, sets, cells, lvls, _, _, _, rfl⟩ := p.table_cases ht
  have hlen := p.length_le_width (List.mem_of_getElem? hr)
  have hrlt := (List.getElem?_eq_some_iff.mp hr).1
  rw [Table.vamsIndex, if_pos hlen]
  show PaddedSearch.search _ _ (p.rows w).length 0 ((p.rows w).length - 1) = some r
  refine PaddedSearch.search_eq_some (p.padded_sorted w) ?_ le_rfl (by omega) (by omega) ?_ (by omega)
  · rw [List.getElem?_map, hr]
    rfl
  · rw [List.length_map]
    omega

/-- A row is of one path. -/
theorem path_of_vamsIndex {j : Nat} (hi : t.vamsIndex (p.path i) = some r) (hj : t.vamsIndex (p.path j) = some r) :
    p.path i = p.path j := by
  have hfound : ∀ {k}, t.vamsIndex (p.path k) = some r → (p.path k).length ≤ t.len ∧
      t.paths[r]? = some (PaddedSearch.ljust (' ' : CodePoint) t.len (p.path k)) := by
    intro k hk
    rw [Table.vamsIndex] at hk
    split_ifs at hk with hlen
    exact ⟨hlen, PaddedSearch.getElem?_of_search hk⟩
  obtain ⟨hleni, hgeti⟩ := hfound hi
  obtain ⟨hlenj, hgetj⟩ := hfound hj
  exact PaddedSearch.ljust_inj (p.path_printable i) (p.path_getLast i) hleni (p.path_printable j) (p.path_getLast j)
    hlenj (Option.some.inj (hgeti.symm.trans hgetj))

theorem exists_row (hi : i ∈ p.insts w) : ∃ r : Nat, (p.rows w)[r]? = some (p.path i, i) :=
  List.mem_iff_getElem?.mp (p.mem_rows.mpr ⟨hi, rfl⟩)

theorem vamsRole_eq (ht : p.table w = some t) {v : Variant} (hv : p.analysis.variants[w]? = some v)
    (hr : (p.rows w)[r]? = some (p.path i, i)) {slot : Nat} {kb : Nat × Nat} (hslot : v.slots[slot]? = some kb) :
    t.vamsRole r slot = some (p.roleAt ⟨i, kb.1, kb.2⟩) := by
  obtain ⟨v', sets, cells, lvls, hv', hall, _, rfl⟩ := p.table_cases ht
  obtain rfl : v' = v := Option.some.inj (hv'.symm.trans hv)
  obtain ⟨row, hrow, hok⟩ := forall₂_left hall hr
  obtain ⟨cell, hcell, hcellOk⟩ := hok slot kb hslot
  rw [Table.vamsRole, List.getElem?_map, hrow, Option.map_some, Option.bind_some, List.getElem?_map, hcell, ← hcellOk.1]
  rfl

/-- A level is read from the table as the number it is. -/
theorem vamsLvl_eq (ht : p.table w = some t) {v : Variant} (hv : p.analysis.variants[w]? = some v)
    (hr : (p.rows w)[r]? = some (p.path i, i)) {slot : Nat} {kb : Nat × Nat} (hslot : v.slots[slot]? = some kb)
    {n : AnalogNode} (hn : p.host ⟨i, kb.1, kb.2⟩ = some n) :
    ∃ set, levels U n = some set ∧ ∀ (key : Nat) x, set[key]? = some x →
      ∃ y, t.vamsLvl r slot key = some y ∧ (y == x) = true := by
  obtain ⟨v', sets, cells, lvls, hv', hall, hlvls, rfl⟩ := p.table_cases ht
  obtain rfl : v' = v := Option.some.inj (hv'.symm.trans hv)
  obtain ⟨row, hrow, hok⟩ := forall₂_left hall hr
  obtain ⟨cell, hcell, hcellOk⟩ := hok slot kb hslot
  obtain ⟨set, set', hset, hset', heq⟩ := hcellOk.2 n hn
  refine ⟨set, hset, fun key x hx => ?_⟩
  obtain ⟨ls, hls, hprinted⟩ := forall₂_left (mapM_forall₂ hlvls) hset'
  have hread : ∀ {y}, set'[key]? = some y → y.isFinite = true ∧ Table.vamsLvl {
        n := (p.rows w).length
        len := p.width w
        paths := (p.rows w).map fun r => PaddedSearch.ljust (' ' : CodePoint) (p.width w) r.1
        roles := cells.map fun row => row.map Prod.fst
        lidx := cells.map fun row => row.map Prod.snd
        lvls := lvls } r slot key = some y := by
    intro y hy
    obtain ⟨literal, hliteral, hy⟩ := forall₂_left (mapM_forall₂ hprinted) hy
    refine ⟨isFinite_of_vreal hy, ?_⟩
    simp [Table.vamsLvl, hrow, hcell, hls, hliteral, asciiFloat_vreal hy]
  rcases heq with rfl | heq
  · obtain ⟨hfinite, hlvl⟩ := hread hx
    exact ⟨x, hlvl, beq_self_of_isFinite hfinite⟩
  · obtain ⟨y, hy, hyx⟩ := tupleEq_getElem? heq hx
    exact ⟨y, (hread hy).2, hyx⟩

end Functions

end Plan

/-! ## Hosts -/

namespace Variant

variable (v : Variant)

theorem mem_slots {k b : Nat} (h : (k, b) ∈ v.slots) : ∃ cp, v.ports[k]? = some cp := by
  obtain ⟨cp, hcp, hb⟩ := List.mem_flatMap.mp h
  obtain ⟨_, _, heq⟩ := List.mem_map.mp hb
  obtain ⟨j, hj⟩ := List.mem_iff_getElem?.mp ((List.mem_insertionSort _).mp hcp)
  have hindex : k = j := (Prod.ext_iff.mp heq).1.symm.trans (v.index_eq j cp hj)
  exact ⟨cp, hindex ▸ hj⟩

theorem modes_getElem? {k : Nat} {cp : CutPort} (h : v.ports[k]? = some cp) :
    v.modes[k]? = some (modeOfDir cp.shellDir) := by
  rw [v.modes_eq, List.getElem?_map, h]
  rfl

/-- No two slots are of one bit. -/
theorem slots_nodup : v.slots.Nodup := by
  have hports : v.ports.Pairwise fun a b => a.index ≠ b.index := by
    refine List.pairwise_iff_getElem.mpr fun i j hi hj hij => ?_
    rw [v.index_eq i _ (List.getElem?_eq_getElem hi), v.index_eq j _ (List.getElem?_eq_getElem hj)]
    exact hij.ne
  have hsorted : (v.ports.insertionSort fun p p' => p.index ≤ p'.index).Pairwise fun a b => a.index ≠ b.index :=
    ((List.perm_insertionSort _ _).pairwise_iff Ne.symm).mpr hports
  refine List.nodup_flatMap.mpr ⟨fun cp _ => ?_, hsorted.imp fun hne => ?_⟩
  · exact List.nodup_range.map fun b b' h => (Prod.ext_iff.mp h).2
  · intro slot ha hb
    obtain ⟨_, _, rfl⟩ := List.mem_map.mp ha
    obtain ⟨_, _, heq⟩ := List.mem_map.mp hb
    exact hne (Prod.ext_iff.mp heq).1.symm

end Variant

/-- What a port needs for the processes of a role. -/
def Role.usable (r : Role) (real : Bool) (mode : Mode) : Prop :=
  real = decide (r = .rd2a ∨ r = .ra2d) ∧ (r = .d2a ∨ r = .bidir ∨ r = .rd2a → mode.reads = true) ∧
    (r = .a2d ∨ r = .bidir ∨ r = .ra2d → mode.drives = true)

instance (r : Role) (real : Bool) (mode : Mode) : Decidable (r.usable real mode) := inferInstanceAs (Decidable (_ ∧ _))

theorem needed_blocks {r : Role} {real : Bool} {mode : Mode} (h : r.usable real mode) {code : Nat}
    (hcode : roleCode r = some code) : ∀ b ∈ needed r, b ∈ blocks real mode code := by
  obtain rfl := h.1
  cases r with
  | d2a | a2d | bidir | rd2a | ra2d =>
    cases hcode
    cases mode <;> revert h <;> decide
  | through | powernet | removed | disabled | none => cases hcode

theorem head_filter {α : Type} {l : List α} {f : α → Bool} (h : (!(l.filter f).isEmpty) = true) :
    ∃ a ∈ l, f a = true ∧ (l.filter f).head? = some a := by
  cases hl : l.filter f with
  | nil =>
    rw [hl] at h
    cases h
  | cons a rest =>
    obtain ⟨ha, hf⟩ := List.mem_filter.mp (hl ▸ List.mem_cons_self : a ∈ l.filter f)
    exact ⟨a, ha, hf, rfl⟩

namespace Analysis

variable {U : UnicodeData} {A : Analysis U} {c : Choices} {net : Net}

theorem has_spec {test : CutPort → Bool} {p : PortRef} (h : A.has test p = true) :
    ∃ cp, A.port p = some cp ∧ test cp = true := by
  rwa [has, Option.any_eq_true] at h

theorem port_cases (hnet : net ∈ A.nets) {p : PortRef} (hp : p ∈ net.ports) :
    ∃ ci v cp, A.instances[p.inst]? = some ci ∧ A.variants[ci.variant]? = some v ∧ (p.port, p.bit) ∈ v.slots ∧
      v.ports[p.port]? = some cp ∧ A.port p = some cp := by
  obtain ⟨ci, v, hci, hv, hslot⟩ := A.ports_bit net hnet p hp
  obtain ⟨cp, hcp⟩ := v.mem_slots hslot
  refine ⟨ci, v, cp, hci, hv, hslot, hcp, ?_⟩
  rw [port, hci, Option.bind_some, hv, Option.bind_some, hcp]

theorem not_real {p : PortRef} {cp : CutPort} (h : ¬(!(net.ports.filter (A.has CutPort.real)).isEmpty) = true)
    (hp : p ∈ net.ports) (hcp : A.port p = some cp) : cp.real = false := by
  rw [Bool.not_eq_true, Bool.not_eq_false', List.isEmpty_iff, List.filter_eq_nil_iff] at h
  have hnot := h p hp
  rw [has, hcp, Option.any_some, Bool.not_eq_true] at hnot
  exact hnot

theorem reads_of_ne_output {cp : CutPort} (h : cp.shellDir ≠ .output) : (modeOfDir cp.shellDir).reads = true := by
  revert h
  cases cp.shellDir <;> decide

theorem drives_of_output {cp : CutPort} (h : cp.shellDir = .output ∨ cp.shellDir = .inout) :
    (modeOfDir cp.shellDir).drives = true := by
  revert h
  cases cp.shellDir <;> decide

/-- The first of the bits that pass a test about their ports. -/
theorem first_bit {l : List PortRef} {f : PortRef → Bool} {t : CutPort → Bool} (hl : ∀ p ∈ l, p ∈ net.ports)
    (hf : ∀ p, f p = true → A.has t p = true) (h : (!(l.filter f).isEmpty) = true) :
    ∃ p ∈ net.ports, p ∈ l ∧ (l.filter f).head? = some p ∧ ∃ cp, A.port p = some cp ∧ t cp = true := by
  obtain ⟨p, hp, hpass, hhead⟩ := head_filter h
  exact ⟨p, hl p hp, hp, hhead, has_spec (hf p hpass)⟩

/-- A bidirectional port has an inout shell, declared so or found to be. -/
theorem bidir_host (hreals : ¬(!(net.ports.filter (A.has CutPort.real)).isEmpty) = true) {read : Bool}
    (hports : (!(net.ports.filter fun p => !A.oneWay p && A.has (fun cp => cp.declared = .inout ||
      cp.declared = .auto && cp.shellDir = .inout && read) p).isEmpty) = true) :
    ∃ p ∈ net.ports, (net.ports.filter fun p => !A.oneWay p && A.has (fun cp => cp.declared = .inout ||
      cp.declared = .auto && cp.shellDir = .inout && read) p).head? = some p ∧
      ∃ cp, A.port p = some cp ∧ Role.bidir.usable cp.real (modeOfDir cp.shellDir) := by
  obtain ⟨p, hp, _, hhead, cp, hcp, htest⟩ := first_bit (l := net.ports)
    (t := fun cp => cp.declared = .inout || cp.declared = .auto && cp.shellDir = .inout && read) (fun _ => id)
    (fun p hp => ((Bool.and_eq_true _ _).mp hp).2) hports
  have hshell : cp.shellDir = .inout := by
    rw [Bool.or_eq_true, Bool.and_eq_true, Bool.and_eq_true] at htest
    rcases htest with h | h
    · have hdeclared : cp.declared = .inout := of_decide_eq_true h
      rw [cp.shellDir_eq (by rw [hdeclared]; decide), hdeclared]
    · exact of_decide_eq_true h.1.2
  refine ⟨p, hp, hhead, cp, hcp, not_real hreals hp hcp, fun _ => reads_of_ne_output ?_, fun _ =>
    drives_of_output (.inr hshell)⟩
  rw [hshell]
  decide

/-- The host of a role is a bit of the net, on a port that the role can use. -/
theorem role_host {a : Assigned} (h : role A c net = some a) {code : Nat} (hcode : roleCode a.role = some code) :
    ∃ p ∈ net.ports, a.host = some p ∧ ∃ cp, A.port p = some cp ∧ a.role.usable cp.real (modeOfDir cp.shellDir) := by
  rw [role] at h
  split_ifs at h with hdisabled hreals hlogics hdriven houts hra hsupplies hsupply hdrivers hbidir hpulled hpulls hup
    hdriven' hins ha2d hdrivable
  -- a disabled net has no host
  · cases h
    cases hcode
  -- RD2A: no real port is an output
  · cases h
    obtain ⟨p, hp, _, hhead, cp, hcp, hreal⟩ := first_bit (l := net.ports) (fun _ => id) (fun _ => id) hreals
    refine ⟨p, hp, hhead, cp, hcp, hreal, fun _ => reads_of_ne_output fun hout => houts ?_, by simp⟩
    rw [Bool.not_eq_true', List.isEmpty_eq_false_iff_exists_mem]
    have hpass : A.has (fun cp => cp.shellDir = .output) p = true := by
      rw [has, hcp, Option.any_some, hout]
      rfl
    have hmem : p ∈ net.ports.filter (A.has CutPort.real) := List.mem_of_mem_head? hhead
    exact ⟨p, List.mem_filter.mpr ⟨hmem, hpass⟩⟩
  -- RA2D: the host is a real port
  · cases h
    have hreals' : ∀ p ∈ net.ports.filter (A.has CutPort.real), p ∈ net.ports := fun p hp => (List.mem_filter.mp hp).1
    obtain ⟨p, hp, hmem, hhead, cp, hcp, hout⟩ :=
      first_bit (t := fun cp => cp.shellDir = .output) hreals' (fun _ => id) ((Bool.and_eq_true _ _).mp hra).1
    obtain ⟨cp', hcp', hreal⟩ := has_spec (List.mem_filter.mp hmem).2
    obtain rfl : cp' = cp := Option.some.inj (hcp'.symm.trans hcp)
    exact ⟨p, hp, hhead, cp', hcp, hreal, by simp, fun _ => drives_of_output (.inl (of_decide_eq_true hout))⟩
  · cases h
    cases hcode
  · cases h
    cases hcode
  -- BIDIR, with and without a pull
  · cases h
    exact bidir_host hreals ((Bool.and_eq_true _ _).mp hbidir).2
  · cases h
    exact bidir_host hreals ((Bool.and_eq_true _ _).mp hbidir).2
  · cases h
    exact bidir_host hreals ((Bool.and_eq_true _ _).mp hbidir).2
  -- D2A
  · cases h
    rw [Bool.not_eq_true, ← Bool.not_eq_true'] at hins
    obtain ⟨p, hp, _, hhead, cp, hcp, hin⟩ := first_bit (l := net.ports) (fun _ => id) (fun _ => id) hins
    exact ⟨p, hp, hhead, cp, hcp, not_real hreals hp hcp, fun _ => hin, by simp⟩
  -- A2D
  · cases h
    obtain ⟨p, hp, _, hhead, cp, hcp, hout⟩ := first_bit (l := net.ports)
      (t := fun cp => cp.shellDir = .output || cp.shellDir = .inout) (fun _ => id)
      (fun p hp => ((Bool.and_eq_true _ _).mp hp).1) ((Bool.and_eq_true _ _).mp ha2d).1
    refine ⟨p, hp, hhead, cp, hcp, not_real hreals hp hcp, by simp, fun _ => drives_of_output ?_⟩
    rwa [Bool.or_eq_true, decide_eq_true_eq, decide_eq_true_eq] at hout
  · cases h
    cases hcode
  · cases h
    cases hcode

end Analysis

theorem remove_eq {c : Choices} {net : Net} {a a' : Assigned} (h : remove c net a = some a') {code : Nat}
    (hcode : roleCode a'.role = some code) : a' = a := by
  rw [remove] at h
  split_ifs at h
  · exact (Option.some.inj h).symm
  · split at h
    · cases h
      cases hcode
    · cases h
    · exact (Option.some.inj h).symm

namespace Plan

variable {U : UnicodeData} {p : Plan U}

/-- The nets with a cut port. -/
def nodeNets (p : Plan U) : List Net := p.analysis.nets.filter fun net => !net.ports.isEmpty

/-- A node with a code has a host on its net, on a port that its role can use. -/
theorem node_host {m : Nat} {n : AnalogNode} (hn : p.nodes[m]? = some n) {code : Nat}
    (hcode : roleCode n.assigned.role = some code) :
    ∃ net, p.nodeNets[m]? = some net ∧ ∃ at_ ∈ net.ports, n.assigned.host = some at_ ∧
      ∃ cp, p.analysis.port at_ = some cp ∧ n.assigned.role.usable cp.real (modeOfDir cp.shellDir) := by
  have hassigned : (p.nodes.map AnalogNode.assigned)[m]? = some n.assigned := by rw [List.getElem?_map, hn, Option.map_some]
  obtain ⟨net, hnet, hrole⟩ := forall₂_right (mapM_forall₂ p.assigned) hassigned
  obtain ⟨a, ha, hremove⟩ := Option.bind_eq_some_iff.mp hrole
  have heq := remove_eq hremove hcode
  rw [heq] at hcode ⊢
  exact ⟨net, hnet, Analysis.role_host ha hcode⟩

/-- No bit hosts two nodes. -/
theorem host_unique {m m' : Nat} {n n' : AnalogNode} (hn : p.nodes[m]? = some n) (hn' : p.nodes[m']? = some n')
    {code code' : Nat} (hcode : roleCode n.assigned.role = some code) (hcode' : roleCode n'.assigned.role = some code')
    (hhost : n.assigned.host = n'.assigned.host) : m = m' := by
  obtain ⟨net, hnet, at_, hat, hhost₁, _⟩ := node_host hn hcode
  obtain ⟨net', hnet', at', hat', hhost₂, _⟩ := node_host hn' hcode'
  obtain rfl : at_ = at' := Option.some.inj (hhost₁.symm.trans (hhost.trans hhost₂))
  obtain ⟨hlt, rfl⟩ := List.getElem?_eq_some_iff.mp hnet
  obtain ⟨hlt', rfl⟩ := List.getElem?_eq_some_iff.mp hnet'
  have hdisjoint := (List.nodup_flatMap.mp p.analysis.ports_nodup).2.filter fun net => !net.ports.isEmpty
  rcases lt_trichotomy m m' with h | h | h
  · exact absurd hat' (List.pairwise_iff_getElem.mp hdisjoint m m' hlt hlt' h hat)
  · exact h
  · exact absurd hat (List.pairwise_iff_getElem.mp hdisjoint m' m hlt' hlt h hat')

/-- The table has a node on a bit if and only if the bit is its host. -/
theorem host_eq_some {at_ : PortRef} {n : AnalogNode} : p.host at_ = some n ↔
    n ∈ p.nodes ∧ n.assigned.host = some at_ ∧ (roleCode n.assigned.role).isSome = true := by
  have hfound : ∀ {n'}, p.host at_ = some n' →
      n' ∈ p.nodes ∧ n'.assigned.host = some at_ ∧ (roleCode n'.assigned.role).isSome = true := by
    intro n' h
    have htest := List.find?_some h
    rw [Bool.and_eq_true, decide_eq_true_eq] at htest
    exact ⟨List.mem_reverse.mp (List.mem_of_find?_eq_some h), htest.1, htest.2⟩
  refine ⟨hfound, ?_⟩
  rintro ⟨hmem, hhost, hcoded⟩
  obtain ⟨n', hn'⟩ : ∃ n', p.host at_ = some n' := by
    refine Option.isSome_iff_exists.mp (List.find?_isSome.mpr ⟨n, List.mem_reverse.mpr hmem, ?_⟩)
    rw [Bool.and_eq_true, decide_eq_true_eq]
    exact ⟨hhost, hcoded⟩
  obtain ⟨hmem', hhost', hcoded'⟩ := hfound hn'
  obtain ⟨m, hm⟩ := List.mem_iff_getElem?.mp hmem
  obtain ⟨m', hm'⟩ := List.mem_iff_getElem?.mp hmem'
  obtain ⟨code, hcode⟩ := Option.isSome_iff_exists.mp hcoded
  obtain ⟨code', hcode'⟩ := Option.isSome_iff_exists.mp hcoded'
  obtain rfl := host_unique hm hm' hcode hcode' (hhost.trans hhost'.symm)
  rw [hn', Option.some.inj (hm'.symm.trans hm)]

/-! ## The clones -/

/-- The clone of an instance is of a variant and reads its table. -/
def CloneOf (p : Plan U) (tables : List (Nat × Table)) (i : Nat) (v : Variant) (t : Table) : Prop :=
  ∃ ci, p.analysis.instances[i]? = some ci ∧ p.analysis.variants[ci.variant]? = some v ∧ (ci.variant, t) ∈ tables

/-- A slot of an instance is of the bit that hosts a node. -/
def Crosses (p : Plan U) (tables : List (Nat × Table)) (n : AnalogNode) (i slot : Nat) : Prop :=
  ∃ v t kb, p.CloneOf tables i v t ∧ v.slots[slot]? = some kb ∧ p.host ⟨i, kb.1, kb.2⟩ = some n

section Clones

variable {tables : List (Nat × Table)} {i slot : Nat} {v : Variant} {t : Table} {kb : Nat × Nat}

theorem table_of_mem (h : p.package = some tables) {w : Nat} (hw : (w, t) ∈ tables) : p.table w = some t := by
  obtain ⟨k, hk⟩ := List.mem_iff_getElem?.mp hw
  obtain ⟨w', _, heq⟩ := forall₂_right (mapM_forall₂ h) hk
  obtain ⟨t', ht', heq⟩ := Option.map_eq_some_iff.mp heq
  cases heq
  exact ht'

theorem exists_clone (h : p.package = some tables) (hi : i < p.analysis.instances.length) :
    ∃ v t, p.CloneOf tables i v t := by
  have hci : p.analysis.instances[i]? = some p.analysis.instances[i] := List.getElem?_eq_getElem hi
  have hmem : p.analysis.instances[i].variant ∈ (p.analysis.instances.map CutInstance.variant).eraseDups :=
    List.mem_eraseDups.mpr (List.mem_map_of_mem (List.getElem_mem hi))
  obtain ⟨k, hk⟩ := List.mem_iff_getElem?.mp hmem
  obtain ⟨wt, hwt, heq⟩ := forall₂_left (mapM_forall₂ h) hk
  obtain ⟨t, _, rfl⟩ := Option.map_eq_some_iff.mp heq
  have hlt := p.analysis.variant_lt _ (List.getElem_mem hi)
  exact ⟨_, t, _, hci, List.getElem?_eq_getElem hlt, List.mem_of_getElem? hwt⟩

/-- The row of an instance, with what the functions of its table say there. -/
theorem CloneOf.row (h : p.package = some tables) (hc : p.CloneOf tables i v t) :
    ∃ ci, ∃ r : Nat, p.analysis.instances[i]? = some ci ∧ p.analysis.variants[ci.variant]? = some v ∧
      p.table ci.variant = some t ∧ (p.rows ci.variant)[r]? = some (p.path i, i) := by
  obtain ⟨ci, hci, hv, ht⟩ := hc
  obtain ⟨r, hr⟩ := exists_row (p.mem_insts.mpr ⟨ci, hci, rfl⟩)
  exact ⟨ci, r, hci, hv, table_of_mem h ht, hr⟩

theorem elaborated_eq (h : p.package = some tables) (hc : p.CloneOf tables i v t) (hslot : v.slots[slot]? = some kb)
    {cp : CutPort} (hcp : v.ports[kb.1]? = some cp) : p.elaborated t v i slot =
      some (blocks cp.real (modeOfDir cp.shellDir) (p.roleAt ⟨i, kb.1, kb.2⟩)) := by
  obtain ⟨ci, r, _, hv, ht, hr⟩ := hc.row h
  rw [elaborated, vamsIndex_eq ht hr, Option.bind_eq_bind, Option.bind_some, vamsRole_eq ht hv hr hslot]
  simp only [Option.bind_eq_bind, Option.bind_some, hslot, hcp, v.modes_getElem? hcp]
  rfl

end Clones

end Plan

theorem roleCode_injective {r r' : Role} {code : Nat} (h : roleCode r = some code) (h' : roleCode r' = some code) :
    r = r' := by
  cases r <;> cases h <;> cases r' <;> first | rfl | cases h'

/-- A process other than the release is there for a role that needs it. -/
theorem blocks_needed {real : Bool} {mode : Mode} {code : Nat} {b : Block} (hb : b ∈ blocks real mode code)
    (hz : b ≠ .z) : ∃ r, roleCode r = some code ∧ b ∈ needed r := by
  have hone : ∀ {c : Bool} {x : Block}, b ∈ (if c then [x] else []) → c = true ∧ b = x := by
    intro c x h
    cases c with
    | true => exact ⟨rfl, List.mem_singleton.mp h⟩
    | false => cases h
  have hrole : ∀ {c : Bool} {r : Role}, (c && decide (roleCode r = some code)) = true → roleCode r = some code :=
    fun h => of_decide_eq_true ((Bool.and_eq_true _ _).mp h).2
  cases real with
  | true =>
    rcases List.mem_append.mp hb with hb | hb
    · obtain ⟨htest, rfl⟩ := hone hb
      exact ⟨.rd2a, hrole htest, List.mem_singleton_self _⟩
    · obtain ⟨htest, rfl⟩ := hone hb
      exact ⟨.ra2d, hrole htest, List.mem_singleton_self _⟩
  | false =>
    rcases List.mem_append.mp hb with hb | hb
    · rcases List.mem_append.mp hb with hb | hb
      · obtain ⟨htest, rfl⟩ := hone hb
        rcases (Bool.or_eq_true _ _).mp ((Bool.and_eq_true _ _).mp htest).2 with h | h
        · exact ⟨.d2a, of_decide_eq_true h, by decide⟩
        · exact ⟨.bidir, of_decide_eq_true h, by decide⟩
      · obtain ⟨htest, rfl⟩ := hone hb
        rcases (Bool.or_eq_true _ _).mp ((Bool.and_eq_true _ _).mp htest).2 with h | h
        · exact ⟨.a2d, of_decide_eq_true h, by decide⟩
        · exact ⟨.bidir, of_decide_eq_true h, by decide⟩
    · exact absurd (hone hb).2 hz

/-- A logic port that drives is released where it is not read. -/
theorem released_blocks {mode : Mode} {code : Nat} (hmode : mode.drives = true) (ha : roleCode .a2d ≠ some code)
    (hb : roleCode .bidir ≠ some code) : .z ∈ blocks false mode code := by
  simp [blocks, hmode, ha, hb]

theorem levels_length {U : UnicodeData} {n : AnalogNode} {set : List Float} (h : levels U n = some set) :
    set.length = Plan.keys := by
  rw [levels] at h
  obtain ⟨drive, _, h⟩ := Option.bind_eq_some_iff.mp h
  obtain ⟨sense, _, h⟩ := Option.bind_eq_some_iff.mp h
  cases h
  rfl

namespace Plan

variable {U : UnicodeData}

/-- What the generated tables and clones do. -/
structure Faithful (p : Plan U) (tables : List (Nat × Table)) : Prop where
  /-- An instance has one clone, with one table. -/
  clones : ∀ i < p.analysis.instances.length, ∃! vt : Variant × Table, p.CloneOf tables i vt.1 vt.2
  /-- The search finds a row for the path of the instance, which is the row of no other instance. -/
  index : ∀ i v t, p.CloneOf tables i v t → ∃ row, t.vamsIndex (p.path i) = some row ∧
    ∀ j < p.analysis.instances.length, t.vamsIndex (p.path j) = some row → j = i
  /-- The role of a slot is that of the node on its bit. -/
  role : ∀ i v t row slot kb, p.CloneOf tables i v t → t.vamsIndex (p.path i) = some row → v.slots[slot]? = some kb →
    t.vamsRole row slot = some (p.roleAt ⟨i, kb.1, kb.2⟩)
  /-- The levels of a slot are those of the node on its bit. -/
  levels : ∀ i v t row slot kb n, p.CloneOf tables i v t → t.vamsIndex (p.path i) = some row →
    v.slots[slot]? = some kb → p.host ⟨i, kb.1, kb.2⟩ = some n → ∃ set, levels U n = some set ∧ set.length = keys ∧
      ∀ (key : Nat) x, set[key]? = some x → ∃ y, t.vamsLvl row slot key = some y ∧ (y == x) = true
  /-- The value of a node with a code crosses at one slot. -/
  crosses : ∀ n ∈ p.nodes, (roleCode n.assigned.role).isSome = true →
    ∃! s : Nat × Nat, p.Crosses tables n s.1 s.2
  /-- There the port has a mode that the role can use, and the clone has the processes of the role. -/
  usable : ∀ n i v t slot kb, p.CloneOf tables i v t → v.slots[slot]? = some kb →
    p.host ⟨i, kb.1, kb.2⟩ = some n → ∃ cp mode bs, v.ports[kb.1]? = some cp ∧ v.modes[kb.1]? = some mode ∧
      n.assigned.role.usable cp.real mode ∧ p.elaborated t v i slot = some bs ∧ ∀ b ∈ needed n.assigned.role, b ∈ bs
  /-- A process that carries a value is one that the node on the bit needs. -/
  only : ∀ i v t slot kb bs b, p.CloneOf tables i v t → v.slots[slot]? = some kb →
    p.elaborated t v i slot = some bs → b ∈ bs → b ≠ .z →
      ∃ n, p.host ⟨i, kb.1, kb.2⟩ = some n ∧ b ∈ needed n.assigned.role
  /-- A logic output bit is released unless its role is A2D or BIDIR. -/
  released : ∀ i v t slot kb cp mode, p.CloneOf tables i v t → v.slots[slot]? = some kb →
    v.ports[kb.1]? = some cp → v.modes[kb.1]? = some mode → cp.real = false → mode.drives = true →
    (∀ n, p.host ⟨i, kb.1, kb.2⟩ = some n → n.assigned.role ≠ .a2d ∧ n.assigned.role ≠ .bidir) →
      ∃ bs, p.elaborated t v i slot = some bs ∧ .z ∈ bs

variable {p : Plan U} {tables : List (Nat × Table)}

theorem roleAt_of_host {at_ : PortRef} {n : AnalogNode} (h : p.host at_ = some n) :
    roleCode n.assigned.role = some (p.roleAt at_) := by
  obtain ⟨code, hcode⟩ := Option.isSome_iff_exists.mp (host_eq_some.mp h).2.2
  rw [roleAt, h, Option.bind_some, hcode]
  rfl

/-- Only the node on a bit gives the bit a role with a code. -/
theorem host_of_roleAt {at_ : PortRef} {r : Role} (h : roleCode r = some (p.roleAt at_)) :
    ∃ n, p.host at_ = some n ∧ n.assigned.role = r := by
  cases hn : p.host at_ with
  | none =>
    rw [roleAt, hn] at h
    cases r <;> cases h
  | some n => exact ⟨n, rfl, roleCode_injective (roleAt_of_host hn) h⟩

/-- The port of a host, seen from the clone. -/
theorem host_port {n : AnalogNode} {at_ : PortRef} (hn : p.host at_ = some n) {ci : CutInstance} {v : Variant}
    (hci : p.analysis.instances[at_.inst]? = some ci) (hv : p.analysis.variants[ci.variant]? = some v) :
    ∃ cp, v.ports[at_.port]? = some cp ∧ n.assigned.role.usable cp.real (modeOfDir cp.shellDir) := by
  obtain ⟨hmem, hhost, _⟩ := host_eq_some.mp hn
  obtain ⟨m, hm⟩ := List.mem_iff_getElem?.mp hmem
  obtain ⟨_, _, at', _, hhost', cp, hcp, husable⟩ := node_host hm (roleAt_of_host hn)
  obtain rfl : at' = at_ := Option.some.inj (hhost'.symm.trans hhost)
  rw [Analysis.port, hci, Option.bind_some, hv, Option.bind_some] at hcp
  exact ⟨cp, hcp, husable⟩

/-- A node with a code is on a slot of a clone, and on no other. -/
theorem exists_unique_slot (h : p.package = some tables) {n : AnalogNode} (hn : n ∈ p.nodes)
    (hcoded : (roleCode n.assigned.role).isSome = true) : ∃! s : Nat × Nat, p.Crosses tables n s.1 s.2 := by
  obtain ⟨m, hm⟩ := List.mem_iff_getElem?.mp hn
  obtain ⟨code, hcode⟩ := Option.isSome_iff_exists.mp hcoded
  obtain ⟨net, hnet, at_, hat, hhost, _⟩ := node_host hm hcode
  have hnets : net ∈ p.analysis.nets := (List.mem_filter.mp (List.mem_of_getElem? hnet)).1
  obtain ⟨ci, v, cp, hci, hv, hslot, _, _⟩ := Analysis.port_cases hnets hat
  obtain ⟨v', t, hclone⟩ := exists_clone h (List.getElem?_eq_some_iff.mp hci).1
  obtain ⟨slot, hslot⟩ := List.mem_iff_getElem?.mp hslot
  have hclone' := hclone
  obtain ⟨ci', hci', hv', _⟩ := hclone'
  obtain rfl : ci' = ci := Option.some.inj (hci'.symm.trans hci)
  obtain rfl : v' = v := Option.some.inj (hv'.symm.trans hv)
  have hon : p.host at_ = some n := host_eq_some.mpr ⟨hn, hhost, hcoded⟩
  refine ⟨(at_.inst, slot), ⟨v', t, _, hclone, hslot, hon⟩, ?_⟩
  rintro ⟨i, slot'⟩ ⟨v'', t', ⟨k, b⟩, ⟨ci'', hci'', hv'', _⟩, hslot', hon'⟩
  -- the host gives the instance and the bit, and the bit gives the slot
  obtain rfl : at_ = ⟨i, k, b⟩ := Option.some.inj (hhost.symm.trans (host_eq_some.mp hon').2.1)
  obtain rfl : ci'' = ci' := Option.some.inj (hci''.symm.trans hci')
  obtain rfl : v'' = v' := Option.some.inj (hv''.symm.trans hv')
  have heq : slot' = slot :=
    (List.getElem?_inj (List.getElem?_eq_some_iff.mp hslot').1 v''.slots_nodup).mp (hslot'.trans hslot.symm)
  rw [heq]

/-- Whatever plan is emitted, its tables give each instance its own roles and levels, and each node with a role crosses
the boundary at one slot, where the clone has the processes of the role. -/
theorem cut_tables_faithful (p : Plan U) (tables : List (Nat × Table)) (h : p.package = some tables) :
    p.Faithful tables where
  clones i hi := by
    obtain ⟨v, t, hclone⟩ := exists_clone h hi
    refine ⟨(v, t), hclone, ?_⟩
    rintro ⟨v', t'⟩ hclone'
    obtain ⟨ci, _, hci, hv, ht, _⟩ := hclone.row h
    obtain ⟨ci', _, hci', hv', ht', _⟩ := hclone'.row h
    obtain rfl : ci' = ci := Option.some.inj (hci'.symm.trans hci)
    exact Prod.ext (Option.some.inj (hv'.symm.trans hv)) (Option.some.inj (ht'.symm.trans ht))
  index i v t hclone := by
    obtain ⟨ci, r, hci, _, ht, hr⟩ := hclone.row h
    have hi := vamsIndex_eq ht hr
    refine ⟨r, hi, fun j hlt hj => ?_⟩
    exact (p.path_injective hci (List.getElem?_eq_getElem hlt) (path_of_vamsIndex hi hj)).symm
  role i v t row slot kb hclone hrow hslot := by
    obtain ⟨ci, r, _, hv, ht, hr⟩ := hclone.row h
    obtain rfl : r = row := Option.some.inj ((vamsIndex_eq ht hr).symm.trans hrow)
    exact vamsRole_eq ht hv hr hslot
  levels i v t row slot kb n hclone hrow hslot hn := by
    obtain ⟨ci, r, _, hv, ht, hr⟩ := hclone.row h
    obtain rfl : r = row := Option.some.inj ((vamsIndex_eq ht hr).symm.trans hrow)
    obtain ⟨set, hset, hlvl⟩ := vamsLvl_eq ht hv hr hslot hn
    exact ⟨set, hset, levels_length hset, hlvl⟩
  crosses n hn hcoded := exists_unique_slot h hn hcoded
  usable n i v t slot kb hclone hslot hn := by
    obtain ⟨ci, _, hci, hv, _⟩ := hclone.row h
    obtain ⟨cp, hcp, husable⟩ := host_port hn hci hv
    exact ⟨cp, _, _, hcp, v.modes_getElem? hcp, husable, elaborated_eq h hclone hslot hcp,
      needed_blocks husable (roleAt_of_host hn)⟩
  only i v t slot kb bs b hclone hslot hbs hb hz := by
    obtain ⟨cp, hcp⟩ := v.mem_slots (List.mem_of_getElem? hslot)
    rw [elaborated_eq h hclone hslot hcp] at hbs
    cases hbs
    obtain ⟨r, hr, hneeded⟩ := blocks_needed hb hz
    obtain ⟨n, hn, rfl⟩ := host_of_roleAt hr
    exact ⟨n, hn, hneeded⟩
  released i v t slot kb cp mode hclone hslot hcp hmode hreal hdrives hrole := by
    refine ⟨_, elaborated_eq h hclone hslot hcp, ?_⟩
    have hnot : ∀ {r}, r = .a2d ∨ r = .bidir → roleCode r ≠ some (p.roleAt ⟨i, kb.1, kb.2⟩) := by
      intro r hr heq
      obtain ⟨n, hn, rfl⟩ := host_of_roleAt heq
      exact hr.elim (hrole n hn).1 (hrole n hn).2
    obtain rfl := Option.some.inj (hmode.symm.trans (v.modes_getElem? hcp))
    rw [hreal]
    exact released_blocks hdrives (hnot (.inl rfl)) (hnot (.inr rfl))

end Plan

/-- A port of one bit. -/
def inverterPort (k : Nat) (dir : Dir) (h : dir ≠ .auto) : CutPort where
  index := k
  real := false
  declared := dir
  shellDir := dir
  shellDir_ne := h
  shellDir_eq _ := rfl

def inverter : Variant where
  ports := [inverterPort 0 .input (by decide), inverterPort 1 .output (by decide)]
  ranges := [none, none]
  modes := [.inMode, .outMode]
  index_eq k cp h := by
    match k, h with
    | 0, h => cases h; rfl
    | 1, h => cases h; rfl
  modes_eq := rfl

/-- The input of the first instance is driven and its output read; the second has its output on its input. -/
def bench : Analysis UnicodeData.small where
  top := str "tb"
  variants := [inverter]
  instances := [⟨[str "u1"], 0⟩, ⟨[str "u10"], 0⟩]
  nets := [⟨[⟨0, 0, 0⟩], [.strong], 0⟩, ⟨[⟨0, 1, 0⟩], [], 1⟩, ⟨[⟨1, 0, 0⟩, ⟨1, 1, 0⟩], [], 0⟩]
  oneWay _ := false
  variant_lt := by decide
  paths_nodup := by decide +kernel
  paths_printable := by
    intro ci hci
    have h : (pathName UnicodeData.small (str "tb") ci.labels).all (fun c => 32 ≤ c.val) = true := by
      revert ci
      decide +kernel
    intro c hc
    exact of_decide_eq_true (List.all_eq_true.mp h c hc)
  ports_nodup := by decide
  ports_bit := by
    simp only [List.forall_mem_cons]
    exact ⟨⟨⟨_, _, rfl, rfl, by decide⟩, nofun⟩, ⟨⟨_, _, rfl, rfl, by decide⟩, nofun⟩,
      ⟨⟨_, _, rfl, rfl, by decide⟩, ⟨_, _, rfl, rfl, by decide⟩, nofun⟩, nofun⟩

def benchPlan : Plan UnicodeData.small where
  analysis := bench
  choices := ⟨fun _ => false, fun _ => false, fun _ => false⟩
  nodes := [⟨⟨.d2a, some ⟨0, 0, 0⟩, none⟩, some ⟨.ofNat 3, .ofNat 0, .ofNat 0, .ofNat 0, 2, .ofNat 0⟩, none⟩,
    ⟨⟨.a2d, some ⟨0, 1, 0⟩, none⟩, none, some ⟨.ofNat 1, .ofNat 2, none, none, str "x"⟩⟩,
    ⟨⟨.through, none, none⟩, none, none⟩]
  assigned := by rfl

/-- Two instances of an inverter, one path a prefix of the other but for its colon. -/
theorem bench_tables_faithful : ∃ tables, benchPlan.package = some tables ∧ benchPlan.Faithful tables := by
  have hpackage : benchPlan.package.isSome = true := by decide +kernel
  obtain ⟨tables, h⟩ := Option.isSome_iff_exists.mp hpackage
  exact ⟨tables, h, Plan.cut_tables_faithful benchPlan tables h⟩

end Vamos.Ams.Cut
