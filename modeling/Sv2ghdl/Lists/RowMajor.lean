import Mathlib.Algebra.BigOperators.Group.List.Basic
import Mathlib.Data.List.Basic
import Mathlib.Data.List.SplitBy
import Mathlib.Tactic

/-!
# Row-major order

The tuples of indices below given counts in the order in which the last index runs fastest, the place of
a tuple in that order, and lists that are cut into pieces: of one length, or where an order restarts.
-/

namespace RowMajor

/-! ## Tuples of indices -/

def indices : List Nat → List (List Nat)
  | [] => [[]]
  | n :: ns => (List.range n).flatMap fun i => (indices ns).map (i :: ·)

/-- The place of a tuple, when `g` is the place of what stands before it. -/
def rankFrom (g : Nat) (ns idx : List Nat) : Nat := (idx.zip ns).foldl (fun g p => g * p.2 + p.1) g

theorem mem_indices {ns idx : List Nat} : idx ∈ indices ns ↔ List.Forall₂ (· < ·) idx ns := by
  induction ns generalizing idx with
  | nil => simp [indices]
  | cons n ns ih =>
    unfold indices
    rw [List.mem_flatMap]
    constructor
    · intro ⟨i, hi, hidx⟩
      obtain ⟨rest, hrest, rfl⟩ := List.mem_map.mp hidx
      exact .cons (List.mem_range.mp hi) (ih.mp hrest)
    · intro h
      cases h with
      | cons hi hrest =>
        exact ⟨_, List.mem_range.mpr hi, List.mem_map.mpr ⟨_, ih.mpr hrest, rfl⟩⟩

theorem nodup_indices (ns : List Nat) : (indices ns).Nodup := by
  induction ns with
  | nil => exact List.nodup_singleton _
  | cons n ns ih =>
    unfold indices
    rw [List.nodup_flatMap]
    constructor
    · exact fun i _ => ih.map fun _ _ h => (List.cons.inj h).2
    · apply List.Nodup.pairwise_of_forall_ne List.nodup_range
      intro i _ j _ hij idx hi hj
      obtain ⟨_, _, rfl⟩ := List.mem_map.mp hi
      obtain ⟨_, _, heq⟩ := List.mem_map.mp hj
      exact hij (List.cons.inj heq).1.symm

/-- A list that is made of pieces of one length. -/
theorem getElem?_flatMap {α β : Type} {m : Nat} {l : List α} {f : α → List β}
    (hf : ∀ a ∈ l, (f a).length = m) {i j : Nat} (hj : j < m) :
    (l.flatMap f)[i * m + j]? = l[i]?.bind fun a => (f a)[j]? := by
  induction l generalizing i with
  | nil => simp
  | cons a l ih =>
    have hlen := hf a List.mem_cons_self
    rw [List.flatMap_cons]
    cases i with
    | zero =>
      rw [Nat.zero_mul, Nat.zero_add, List.getElem?_append_left (by omega)]
      rfl
    | succ i =>
      have hle : (f a).length ≤ (i + 1) * m + j := by
        rw [hlen, Nat.succ_mul]
        omega
      have hrest : (i + 1) * m + j - (f a).length = i * m + j := by
        rw [hlen, Nat.succ_mul]
        omega
      rw [List.getElem?_append_right hle, hrest, ih fun b hb => hf b (List.mem_cons_of_mem a hb)]
      rfl

theorem length_flatMap {α β : Type} {m : Nat} {l : List α} {f : α → List β}
    (hf : ∀ a ∈ l, (f a).length = m) : (l.flatMap f).length = l.length * m := by
  induction l with
  | nil => simp
  | cons a l ih =>
    rw [List.flatMap_cons, List.length_append, hf a List.mem_cons_self,
      ih fun b hb => hf b (List.mem_cons_of_mem a hb), List.length_cons, Nat.succ_mul, Nat.add_comm]

theorem length_indices (ns : List Nat) : (indices ns).length = ns.prod := by
  induction ns with
  | nil => rfl
  | cons n ns ih =>
    unfold indices
    rw [length_flatMap fun i _ => (List.length_map _).trans ih, List.length_range, List.prod_cons]

theorem rankFrom_lt {ns idx : List Nat} (h : List.Forall₂ (· < ·) idx ns) (g : Nat) :
    ∃ r < ns.prod, rankFrom g ns idx = g * ns.prod + r ∧ (indices ns)[r]? = some idx := by
  induction h generalizing g with
  | nil =>
    refine ⟨0, Nat.one_pos, ?_, rfl⟩
    simp [rankFrom]
  | @cons i n idx ns hi hrest ih =>
    obtain ⟨r, hr, hrank, hget⟩ := ih (g * n + i)
    have hlt : i * ns.prod + r < n * ns.prod := by
      calc i * ns.prod + r < i * ns.prod + ns.prod := by omega
        _ = (i + 1) * ns.prod := (Nat.succ_mul _ _).symm
        _ ≤ n * ns.prod := Nat.mul_le_mul_right _ hi
    refine ⟨i * ns.prod + r, ?_, ?_, ?_⟩
    · rwa [List.prod_cons]
    · show rankFrom (g * n + i) ns idx = _
      rw [hrank, List.prod_cons]
      ring
    · unfold indices
      rw [getElem?_flatMap (fun i _ => (List.length_map _).trans (length_indices ns)) hr,
        List.getElem?_range hi, Option.bind_some, List.getElem?_map, hget]
      rfl

/-- The place of a tuple is where it stands in the list of the tuples. -/
theorem getElem?_indices {ns idx : List Nat} (h : idx ∈ indices ns) :
    (indices ns)[rankFrom 0 ns idx]? = some idx := by
  obtain ⟨r, _, hrank, hget⟩ := rankFrom_lt (mem_indices.mp h) 0
  rw [hrank, Nat.zero_mul, Nat.zero_add]
  exact hget

theorem rankFrom_append (g : Nat) {ns ms idx jdx : List Nat} (h : idx.length = ns.length) :
    rankFrom g (ns ++ ms) (idx ++ jdx) = rankFrom (rankFrom g ns idx) ms jdx := by
  unfold rankFrom
  rw [List.zip_append h, List.foldl_append]

theorem indices_concat (ns : List Nat) (n : Nat) :
    indices (ns ++ [n]) = (indices ns).flatMap fun idx => (List.range n).map fun i => idx ++ [i] := by
  induction ns with
  | nil => simp [indices, ← List.map_eq_flatMap]
  | cons m ns ih =>
    show (List.range m).flatMap (fun i => (indices (ns ++ [n])).map (i :: ·)) =
      ((List.range m).flatMap fun i => (indices ns).map (i :: ·)).flatMap _
    rw [ih, List.flatMap_assoc]
    apply List.flatMap_congr
    intro i _
    rw [List.map_flatMap, List.flatMap_map]
    apply List.flatMap_congr
    intro idx _
    rw [List.map_map]
    rfl

theorem dropLast_mem_indices {ns idx : List Nat} (h : idx ∈ indices ns) :
    idx.dropLast ∈ indices ns.dropLast := by
  rcases List.eq_nil_or_concat ns with rfl | ⟨ns, n, rfl⟩
  · cases List.mem_singleton.mp h
    exact List.mem_singleton_self _
  · rw [List.concat_eq_append, indices_concat] at h
    obtain ⟨jdx, hj, h⟩ := List.mem_flatMap.mp h
    obtain ⟨i, _, rfl⟩ := List.mem_map.mp h
    rwa [List.concat_eq_append, List.dropLast_concat, List.dropLast_concat]

/-- Only one element of a list has a part in what is put together. -/
theorem flatMap_eq_of_nodup {α β : Type} {l : List α} (hl : l.Nodup) {a : α} (ha : a ∈ l) {f : α → List β}
    (hf : ∀ b ∈ l, b ≠ a → f b = []) : l.flatMap f = f a := by
  induction l with
  | nil => cases ha
  | cons b l ih =>
    obtain ⟨hb, hl⟩ := List.nodup_cons.mp hl
    rw [List.flatMap_cons]
    rcases List.mem_cons.mp ha with rfl | ha
    · rw [List.flatMap_eq_nil_iff.mpr, List.append_nil]
      intro c hc
      apply hf c (List.mem_cons_of_mem _ hc)
      rintro rfl
      exact hb hc
    · rw [hf b List.mem_cons_self (fun h => hb (h ▸ ha)), List.nil_append,
        ih hl ha fun c hc => hf c (List.mem_cons_of_mem _ hc)]

/-- A property that no element has behind one that does not have it. -/
theorem filter_eq_takeWhile {α : Type} {r : α → α → Prop} {l : List α} (hl : l.Pairwise r) {p : α → Bool}
    (hp : ∀ a b, r a b → p b = true → p a = true) : l.filter p = l.takeWhile p := by
  induction l with
  | nil => rfl
  | cons a l ih =>
    obtain ⟨ha, hl⟩ := List.pairwise_cons.mp hl
    cases hpa : p a with
    | true => rw [List.filter_cons_of_pos hpa, List.takeWhile_cons_of_pos hpa, ih hl]
    | false =>
      rw [List.takeWhile_cons_of_neg (by simp [hpa]), List.filter_eq_nil_iff]
      intro b hb hpb
      rcases List.mem_cons.mp hb with rfl | hb
      · rw [hpa] at hpb
        cases hpb
      · rw [hp a b (ha b hb) hpb] at hpa
        cases hpa

theorem filter_range {n : Nat} {p : Nat → Bool} (hp : ∀ i j, i < j → p j = true → p i = true) :
    (List.range n).filter p = List.range ((List.range n).takeWhile p).length := by
  rw [filter_eq_takeWhile List.pairwise_lt_range hp]
  have hstart : (List.range n).takeWhile p <+: List.range n := List.takeWhile_prefix p
  have htake := List.prefix_iff_eq_take.mp hstart
  have hle := hstart.length_le
  rw [List.length_range] at hle
  rw [List.take_range, Nat.min_eq_left hle] at htake
  exact htake

/-! ## Pieces of one length -/

/-- The pieces of a list are cut out of it again. -/
theorem slice_flatten {α : Type} {m : Nat} {l : List (List α)} (hl : ∀ a ∈ l, a.length = m) {g : Nat}
    {a : List α} (ha : l[g]? = some a) : (l.flatten.drop (g * m)).take m = a := by
  induction l generalizing g with
  | nil => cases ha
  | cons b l ih =>
    have hlen := hl b List.mem_cons_self
    rw [List.flatten_cons]
    cases g with
    | zero =>
      cases ha
      rw [Nat.zero_mul, List.drop_zero, ← hlen, List.take_left]
    | succ g =>
      have hdrop : (g + 1) * m = b.length + g * m := by
        rw [hlen, Nat.succ_mul, Nat.add_comm]
      rw [hdrop, List.drop_append, List.drop_eq_nil_of_le (by omega), List.nil_append,
        Nat.add_sub_cancel_left]
      exact ih (fun c hc => hl c (List.mem_cons_of_mem b hc)) ha

theorem length_flatten {α : Type} {m : Nat} {l : List (List α)} (hl : ∀ a ∈ l, a.length = m) :
    l.flatten.length = l.length * m := by
  rw [← length_flatMap hl, List.flatMap_id']

/-- What is cut out of the start of the list. -/
theorem slice_take {α : Type} {m : Nat} {l : List (List α)} (hl : ∀ a ∈ l, a.length = m) {rows : List α}
    (hrows : rows <+: l.flatten) {g : Nat} {a : List α} (ha : l[g]? = some a) :
    (rows.drop (g * m)).take m = a.take (rows.length - g * m) := by
  rw [List.prefix_iff_eq_take.mp hrows, List.drop_take, List.take_take, Nat.min_comm, ← List.take_take,
    slice_flatten hl ha, ← List.prefix_iff_eq_take.mp hrows]

/-! ## Pieces of any length -/

section Cut

variable {α : Type}

/-- Pieces that are whole, but for the last, which may be cut. -/
inductive Cut : List (List α) → List (List α) → Prop
  | nil (full : List (List α)) : Cut full []
  | last {piece whole : List α} (h : piece <+: whole) (rest : List (List α)) : Cut (whole :: rest) [piece]
  | cons (whole : List α) {rest pieces : List (List α)} (h : Cut rest pieces) :
    Cut (whole :: rest) (whole :: pieces)

variable {full pieces : List (List α)}

theorem Cut.length_le (h : Cut full pieces) : pieces.length ≤ full.length := by
  induction h with
  | nil full => exact Nat.zero_le _
  | last _ rest => exact Nat.succ_le_succ (Nat.zero_le _)
  | cons _ _ ih => exact Nat.succ_le_succ ih

theorem Cut.piece (h : Cut full pieces) {g : Nat} {piece : List α} (hg : pieces[g]? = some piece) :
    ∃ whole, full[g]? = some whole ∧ piece <+: whole := by
  induction h generalizing g with
  | nil full => cases hg
  | last hpiece rest =>
    cases g with
    | zero =>
      cases hg
      exact ⟨_, rfl, hpiece⟩
    | succ g => cases hg
  | cons whole _ ih =>
    cases g with
    | zero =>
      cases hg
      exact ⟨_, rfl, List.prefix_rfl⟩
    | succ g => exact ih hg

/-- The pieces before the last are whole. -/
theorem Cut.take_eq (h : Cut full pieces) {n : Nat} (hn : n < pieces.length) :
    pieces.take n = full.take n := by
  induction h generalizing n with
  | nil full => exact absurd hn (Nat.not_lt_zero n)
  | last _ rest =>
    obtain rfl : n = 0 := by
      rw [List.length_singleton] at hn
      omega
    rfl
  | cons whole _ ih =>
    cases n with
    | zero => rfl
    | succ n => rw [List.take_succ_cons, List.take_succ_cons, ih (Nat.lt_of_succ_lt_succ hn)]

theorem cut_of_getElem? (hlen : pieces.length ≤ full.length)
    (h : ∀ g piece whole, pieces[g]? = some piece → full[g]? = some whole →
      piece <+: whole ∧ (g + 1 < pieces.length → piece = whole)) : Cut full pieces := by
  induction full generalizing pieces with
  | nil =>
    obtain rfl := List.length_eq_zero_iff.mp (Nat.le_zero.mp hlen)
    exact .nil _
  | cons whole rest ih =>
    cases pieces with
    | nil => exact .nil _
    | cons piece pieces =>
      have hfirst := h 0 piece whole rfl rfl
      cases pieces with
      | nil => exact .last hfirst.1 rest
      | cons next pieces =>
        rw [hfirst.2 (by simp)]
        apply Cut.cons whole
        apply ih (Nat.le_of_succ_le_succ hlen)
        intro g p w hp hw
        obtain ⟨hstart, hwhole⟩ := h (g + 1) p w hp hw
        exact ⟨hstart, fun hg => hwhole (Nat.succ_lt_succ hg)⟩

/-- Pieces of one length of which the first `len` elements are there. -/
theorem cut_window {m len n : Nat} (hfull : ∀ whole ∈ full, whole.length = m) (hn : n ≤ full.length)
    (hlen : ∀ g, g + 1 < n → (g + 1) * m ≤ len) :
    Cut full ((List.range n).map fun g => (full.getD g []).take (len - g * m)) := by
  apply cut_of_getElem?
  · rwa [List.length_map, List.length_range]
  · intro g piece whole hpiece hwhole
    have hg : g < n := by
      have := (List.getElem?_eq_some_iff.mp hpiece).1
      rwa [List.length_map, List.length_range] at this
    have hgetD : full.getD g [] = whole := by rw [List.getD_eq_getElem?_getD, hwhole, Option.getD_some]
    rw [List.getElem?_map, List.getElem?_range hg, Option.map_some, hgetD] at hpiece
    rw [← Option.some.inj hpiece]
    refine ⟨List.take_prefix _ _, fun hnext => List.take_of_length_le ?_⟩
    rw [List.length_map, List.length_range] at hnext
    have hle := hlen g hnext
    rw [Nat.succ_mul] at hle
    rw [hfull whole (List.mem_of_getElem? hwhole)]
    omega

theorem exists_cut {rows : List α} (h : rows <+: full.flatten) (hfull : ∀ whole ∈ full, whole ≠ []) :
    ∃ pieces, Cut full pieces ∧ pieces.flatten = rows ∧ ∀ piece ∈ pieces, piece ≠ [] := by
  induction full generalizing rows with
  | nil =>
    obtain rfl := List.prefix_nil.mp h
    exact ⟨[], .nil _, rfl, fun _ hp => absurd hp List.not_mem_nil⟩
  | cons whole rest ih =>
    rw [List.flatten_cons] at h
    by_cases hle : rows.length ≤ whole.length
    · cases rows with
      | nil => exact ⟨[], .nil _, rfl, fun _ hp => absurd hp List.not_mem_nil⟩
      | cons a rows =>
        have hcut := List.prefix_of_prefix_length_le h (List.prefix_append whole rest.flatten) hle
        refine ⟨[a :: rows], .last hcut rest, List.flatten_singleton, ?_⟩
        intro piece hp
        cases List.mem_singleton.mp hp
        exact List.cons_ne_nil a rows
    · obtain ⟨tail, rfl⟩ := List.prefix_of_prefix_length_le (List.prefix_append whole rest.flatten) h
        (by omega)
      obtain ⟨pieces, hcut, hflat, hne⟩ := ih ((List.prefix_append_right_inj whole).mp h)
        fun w hw => hfull w (List.mem_cons_of_mem whole hw)
      refine ⟨whole :: pieces, .cons whole hcut, ?_, ?_⟩
      · rw [List.flatten_cons, hflat]
      · intro piece hp
        rcases List.mem_cons.mp hp with rfl | hp
        · exact hfull piece List.mem_cons_self
        · exact hne piece hp

/-- A whole piece that lies within the pieces is one of them. -/
theorem Cut.piece_of_prefix (h : Cut full pieces) (hfull : ∀ whole ∈ full, whole ≠ []) {g : Nat}
    (hg : g < full.length) (hwithin : (full.take (g + 1)).flatten <+: pieces.flatten) :
    pieces[g]? = full[g]? := by
  induction h generalizing g with
  | nil full =>
    obtain ⟨whole, rest, rfl⟩ := List.exists_cons_of_length_pos (Nat.zero_lt_of_lt hg)
    have hnil := List.prefix_nil.mp hwithin
    rw [List.take_succ_cons, List.flatten_cons, List.append_eq_nil_iff] at hnil
    exact absurd hnil.1 (hfull whole List.mem_cons_self)
  | @last piece whole hpiece rest =>
    rw [List.take_succ_cons, List.flatten_cons, List.flatten_singleton] at hwithin
    have hwhole : piece = whole :=
      hpiece.eq_of_length_le ((List.prefix_append whole _).trans hwithin).length_le
    cases g with
    | zero => rw [hwhole]; rfl
    | succ g =>
      -- the next piece would have to be empty
      have hnil : (rest.take (g + 1)).flatten = [] := by
        have hle := hwithin.length_le
        rw [List.length_append, hwhole] at hle
        exact List.length_eq_zero_iff.mp (by omega)
      obtain ⟨next, more, rfl⟩ := List.exists_cons_of_length_pos (Nat.zero_lt_of_lt
        (Nat.lt_of_succ_lt_succ hg))
      rw [List.take_succ_cons, List.flatten_cons, List.append_eq_nil_iff] at hnil
      exact absurd hnil.1 (hfull next (List.mem_cons_of_mem _ List.mem_cons_self))
  | cons whole _ ih =>
    cases g with
    | zero => rfl
    | succ g =>
      rw [List.take_succ_cons, List.flatten_cons, List.flatten_cons,
        List.prefix_append_right_inj] at hwithin
      exact ih (fun w hw => hfull w (List.mem_cons_of_mem whole hw)) (Nat.lt_of_succ_lt_succ hg) hwithin

/-- Where the pieces start and end, the first of them at `i`. -/
def spans (i : Nat) : List (List α) → List (Nat × Nat)
  | [] => []
  | piece :: pieces => (i, i + piece.length) :: spans (i + piece.length) pieces

/-- Where the pieces start, and where the last one ends. -/
def starts (i : Nat) : List (List α) → List Nat
  | [] => [i]
  | piece :: pieces => i :: starts (i + piece.length) pieces

theorem zip_starts (i : Nat) : (starts i pieces).zip (starts i pieces).tail = spans i pieces := by
  induction pieces generalizing i with
  | nil => rfl
  | cons piece pieces ih =>
    unfold spans
    rw [← ih]
    cases pieces <;> rfl

theorem length_spans (i : Nat) : (spans i pieces).length = pieces.length := by
  induction pieces generalizing i with
  | nil => rfl
  | cons piece pieces ih => exact congrArg Nat.succ (ih _)

theorem slice_spans {l : List α} {i : Nat} (h : l.drop i = pieces.flatten) :
    (spans i pieces).map (fun s => (l.drop s.1).take (s.2 - s.1)) = pieces := by
  induction pieces generalizing i with
  | nil => rfl
  | cons piece pieces ih =>
    rw [List.flatten_cons] at h
    have hnext : l.drop (i + piece.length) = pieces.flatten := by
      rw [← List.drop_drop, h, List.drop_left]
    unfold spans
    rw [List.map_cons, ih hnext, h, Nat.add_sub_cancel_left, List.take_left]

end Cut

end RowMajor
