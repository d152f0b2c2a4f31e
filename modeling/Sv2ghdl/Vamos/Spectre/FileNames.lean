import Sv2ghdl.Vamos.Spectre.Points
import Sv2ghdl.Vamos.WrittenName

/-!
# The files of the results

`vamos/spectre/results.py`: the names of the files and the keys of the results, which spell the sweeps around an
analysis with the indices of the point.
-/

open Python

namespace Vamos.Spectre

open Vamos.Names (writtenName)

/-! ## Spelling -/

/-- `_count_width`: three digits, or as many as the last index has. -/
def countWidth (n : Nat) : Nat := max 3 (Nat.toDigits 10 (n - 1)).length

/-- `"%0*d" % (_count_width(n), i)` -/
def indexText (n i : Nat) : Str :=
  let digits := Nat.toDigits 10 i
  (List.replicate (countWidth n - digits.length) '0' ++ digits).map CodePoint.ofChar

/-- `"_".join` -/
def join : List Str → Str
  | [] => []
  | [part] => part
  | part :: parts => part ++ CodePoint.ofChar '_' :: join parts

/-- What stands between the name of a sweep and an index. -/
def separator (legacy : Bool) : CodePoint := if legacy then CodePoint.ofChar '_' else CodePoint.ofChar '-'

section Names

variable {K : Type}

def written (name : Str) : Str := writtenName .file name

/-- The points of sweeps, each as its name and the index. -/
def pointParts (legacy : Bool) (context : List (SweepLevel K)) (idx : List Nat) : List Str :=
  (context.zip idx).map fun p => written p.1.name ++ separator legacy :: indexText p.1.values.length p.2

def AnalysisStep.leafName (s : AnalysisStep K) (legacy : Bool) (idx : List Nat) : Str :=
  join (pointParts legacy s.context idx ++ [written s.name])

def AnalysisStep.parentName (s : AnalysisStep K) (depth : Nat) (idx : List Nat) : Str :=
  join (pointParts false (s.context.take depth) idx ++
    [((s.context[depth]?).map fun level => written level.name).getD [], written s.name])

/-- An operating point is a `dc` result. -/
def Kind.atype : Kind → Str
  | op => str "dc"
  | dc => str "dc"
  | ac => str "ac"
  | noise => str "noise"
  | xf => str "xf"
  | tran => str "tran"

def AnalysisStep.extension (s : AnalysisStep K) (legacy : Bool) : Str :=
  if s.kind = .tran then (if legacy then str "tran" else str "tran.tran") else s.kind.atype

def Entry.atype : Entry K → Str
  | unswept s => s.kind.atype
  | parent .. => str "sweep"
  | leaf s _ => s.kind.atype

/-- The "analysis name": the key without its type. -/
def Entry.analysisName (legacy : Bool) : Entry K → Str
  | unswept s => written s.name
  | parent s depth idx => s.parentName depth idx
  | leaf s idx => s.leafName legacy idx

def Entry.key (legacy : Bool) (e : Entry K) : Str :=
  e.analysisName legacy ++ CodePoint.ofChar '-' :: e.atype

def Entry.file (legacy : Bool) (e : Entry K) : Str :=
  e.analysisName legacy ++ CodePoint.ofChar '.' :: match e with
    | unswept s => s.extension legacy
    | parent .. => str "sweep"
    | leaf s _ => s.extension legacy

end Names

/-! ## Indices -/

theorem length_toDigits_le {i n : Nat} (h : i < n) :
    (Nat.toDigits 10 i).length ≤ (Nat.toDigits 10 (n - 1)).length := by
  rw [Nat.length_toDigits_le_iff (by decide) Nat.length_toDigits_pos]
  have hlast := (Nat.length_toDigits_le_iff (b := 10) (n := n - 1) (by decide) Nat.length_toDigits_pos).mp
    (Nat.le_refl _)
  omega

theorem length_indexText {n i : Nat} (h : i < n) : (indexText n i).length = countWidth n := by
  have hle := length_toDigits_le h
  unfold indexText countWidth
  rw [List.length_map, List.length_append, List.length_replicate]
  omega

theorem indexText_inj {n i j : Nat} (h : indexText n i = indexText n j) : i = j := by
  have hchars := List.map_injective_iff.mpr (fun a b => (CodePoint.ofChar_inj a b).mp) h
  have hvalue (k : Nat) : Nat.ofDigitChars 10
      (List.replicate (countWidth n - (Nat.toDigits 10 k).length) '0' ++ Nat.toDigits 10 k) 0 = k := by
    rw [Nat.ofDigitChars_append, Nat.ofDigitChars_replicate_zero, Nat.mul_zero, Nat.ofDigitChars_ten_toDigits]
  rw [← hvalue i, ← hvalue j]
  exact congrArg (Nat.ofDigitChars 10 · 0) hchars

/-! ## The sweeps in a name -/

section Texts

variable {K : Type}

/-- The points of sweeps as the names spell them, with the `_` behind each. -/
def pointsText (legacy : Bool) (context : List (SweepLevel K)) (idx : List Nat) : Str :=
  (pointParts legacy context idx).flatMap (· ++ [CodePoint.ofChar '_'])

theorem join_concat (parts : List Str) (last : Str) :
    join (parts ++ [last]) = parts.flatMap (· ++ [CodePoint.ofChar '_']) ++ last := by
  induction parts with
  | nil => rfl
  | cons part parts ih =>
    cases parts with
    | nil => simp [join]
    | cons next parts =>
      show part ++ CodePoint.ofChar '_' :: join (next :: parts ++ [last]) = _
      rw [ih]
      simp

theorem AnalysisStep.leafName_eq (s : AnalysisStep K) (legacy : Bool) (idx : List Nat) :
    s.leafName legacy idx = pointsText legacy s.context idx ++ written s.name := join_concat _ _

/-- What a parent's name has before the name of the analysis. -/
def AnalysisStep.parentText (s : AnalysisStep K) (depth : Nat) (idx : List Nat) : Str :=
  pointsText false (s.context.take depth) idx ++
    (((s.context[depth]?).map fun level => written level.name).getD [] ++ [CodePoint.ofChar '_'])

theorem AnalysisStep.parentName_eq (s : AnalysisStep K) (depth : Nat) (idx : List Nat) :
    s.parentName depth idx = s.parentText depth idx ++ written s.name := by
  unfold parentName parentText pointsText
  rw [← List.singleton_append, ← List.append_assoc, join_concat, List.flatMap_append, List.flatMap_singleton]

theorem pointsText_cons (legacy : Bool) (level : SweepLevel K) (context : List (SweepLevel K)) (i : Nat)
    (idx : List Nat) : pointsText legacy (level :: context) (i :: idx) =
      written level.name ++ separator legacy :: (indexText level.values.length i ++
        CodePoint.ofChar '_' :: pointsText legacy context idx) := by
  unfold pointsText pointParts
  rw [List.zip_cons_cons, List.map_cons, List.flatMap_cons]
  simp only [List.append_assoc, List.cons_append, List.nil_append]

/-- The indices of sweeps can be read off a name. -/
theorem pointsText_inj {legacy : Bool} {context : List (SweepLevel K)} {idx jdx : List Nat} {x y : Str}
    (hi : List.Forall₂ (· < ·) idx (context.map fun l => l.values.length))
    (hj : List.Forall₂ (· < ·) jdx (context.map fun l => l.values.length))
    (h : pointsText legacy context idx ++ x = pointsText legacy context jdx ++ y) : idx = jdx ∧ x = y := by
  induction context generalizing idx jdx with
  | nil =>
    cases hi
    cases hj
    exact ⟨rfl, h⟩
  | cons level context ih =>
    cases hi with
    | @cons i _ idx _ hlt hi =>
      cases hj with
      | @cons j _ jdx _ hlt' hj =>
        rw [pointsText_cons, pointsText_cons, List.append_assoc, List.append_assoc, List.append_cancel_left_eq,
          List.cons_append, List.cons_append, List.cons.injEq, List.append_assoc, List.append_assoc] at h
        obtain ⟨htext, hrest⟩ := List.append_inj h.2
          ((length_indexText hlt).trans (length_indexText hlt').symm)
        obtain ⟨rfl, rfl⟩ := ih hi hj (List.cons.inj hrest).2
        exact ⟨by rw [indexText_inj htext], rfl⟩

theorem pointsText_append (legacy : Bool) {context : List (SweepLevel K)} {idx : List Nat}
    (h : idx.length = context.length) (context' : List (SweepLevel K)) (idx' : List Nat) :
    pointsText legacy (context ++ context') (idx ++ idx') =
      pointsText legacy context idx ++ pointsText legacy context' idx' := by
  unfold pointsText pointParts
  rw [List.zip_append h.symm, List.map_append, List.flatMap_append]

theorem AnalysisStep.counts_take (s : AnalysisStep K) (d : Nat) :
    s.counts.take d = (s.context.take d).map fun l => l.values.length := List.map_take.symm

/-- A nested parent has an index where an outer one has the name of the analysis. -/
theorem AnalysisStep.parentText_ne {s : AnalysisStep K} {d d' : Nat} {idx jdx : List Nat} (hlt : d < d')
    (hd' : d' < s.context.length) (hi : idx ∈ RowMajor.indices (s.counts.take d))
    (hj : jdx ∈ RowMajor.indices (s.counts.take d')) : s.parentText d idx ≠ s.parentText d' jdx := by
  intro h
  have hd : d < s.context.length := hlt.trans hd'
  obtain ⟨level, hlevel⟩ : ∃ level, s.context[d]? = some level := ⟨_, List.getElem?_eq_getElem hd⟩
  rw [counts_take] at hi hj
  have hi' := RowMajor.mem_indices.mp hi
  have hj' := RowMajor.mem_indices.mp hj
  have hlen : jdx.length = d' := by
    rw [hj'.length_eq, List.length_map, List.length_take]
    omega
  -- the sweeps up to `d'` start with those up to `d`
  obtain ⟨more, hmore⟩ : ∃ more, s.context.take d' = s.context.take d ++ level :: more := by
    refine ⟨(s.context.take d').drop (d + 1), ?_⟩
    have hsplit := List.take_append_drop d (s.context.take d')
    rw [List.take_take, Nat.min_eq_left hlt.le] at hsplit
    have hdrop : (s.context.take d').drop d = level :: (s.context.take d').drop (d + 1) := by
      rw [List.drop_eq_getElem_cons (by rw [List.length_take]; omega), List.getElem_take,
        (List.getElem?_eq_some_iff.mp hlevel).2]
    rw [← hdrop]
    exact hsplit.symm
  obtain ⟨j, rest, hrest⟩ : ∃ j rest, jdx = jdx.take d ++ j :: rest :=
    ⟨jdx[d], jdx.drop (d + 1), by
      rw [← List.drop_eq_getElem_cons (by omega), List.take_append_drop]⟩
  unfold parentText at h
  rw [hlevel, hmore, hrest, pointsText_append _ (by rw [List.length_take, List.length_take]; omega),
    pointsText_cons, List.append_assoc] at h
  have hj'' : List.Forall₂ (· < ·) (jdx.take d) ((s.context.take d).map fun l => l.values.length) := by
    have htake := List.forall₂_take d hj'
    rwa [← List.map_take, List.take_take, Nat.min_eq_left hlt.le] at htake
  have hchar := (pointsText_inj (RowMajor.mem_indices.mp hi) hj'' h).2
  rw [Option.map_some, Option.getD_some, List.append_assoc, List.append_cancel_left_eq] at hchar
  exact absurd (List.cons.inj hchar).1 (by decide)

/-- The parents of one step have different names. -/
theorem AnalysisStep.parentText_inj {s : AnalysisStep K} {d d' : Nat} {idx jdx : List Nat}
    (hd : d < s.context.length) (hd' : d' < s.context.length)
    (hi : idx ∈ RowMajor.indices (s.counts.take d)) (hj : jdx ∈ RowMajor.indices (s.counts.take d'))
    (h : s.parentText d idx = s.parentText d' jdx) : d = d' ∧ idx = jdx := by
  rcases Nat.lt_trichotomy d d' with hlt | rfl | hlt
  · exact absurd h (parentText_ne hlt hd' hi hj)
  · rw [counts_take] at hi hj
    exact ⟨rfl, (pointsText_inj (RowMajor.mem_indices.mp hi) (RowMajor.mem_indices.mp hj) h).1⟩
  · exact absurd h.symm (parentText_ne hlt hd hj hi)

theorem AnalysisStep.leafName_inj {s : AnalysisStep K} {legacy : Bool} {idx jdx : List Nat}
    (hi : idx ∈ RowMajor.indices s.counts) (hj : jdx ∈ RowMajor.indices s.counts)
    (h : s.leafName legacy idx = s.leafName legacy jdx) : idx = jdx := by
  rw [leafName_eq, leafName_eq] at h
  exact (pointsText_inj (RowMajor.mem_indices.mp hi) (RowMajor.mem_indices.mp hj) h).1

end Texts

/-! ## Texts before a name -/

section Closed

/-- A text that is empty or ends in `_`, as the texts before a name are. -/
def Closed (text : Str) : Prop := ∀ c ∈ text.getLast?, c = CodePoint.ofChar '_'

theorem closed_nil : Closed [] := fun _ hc => nomatch hc

theorem closed_append {x y : Str} (hx : Closed x) (hy : Closed y) : Closed (x ++ y) := by
  intro c hc
  rw [List.getLast?_append] at hc
  rcases Option.or_eq_some_iff.mp hc with hc | ⟨_, hc⟩
  · exact hy c hc
  · exact hx c hc

theorem closed_concat (x : Str) : Closed (x ++ [CodePoint.ofChar '_']) := by
  intro c hc
  rw [List.getLast?_concat] at hc
  exact (Option.some.inj hc).symm

theorem Closed.exists_concat {x : Str} (h : Closed x) (hx : x ≠ []) :
    ∃ c, x = c ++ [CodePoint.ofChar '_'] := by
  have hlast := h (x.getLast hx) (List.getLast?_eq_some_getLast hx)
  exact ⟨x.dropLast, by rw [← hlast, List.dropLast_append_getLast]⟩

theorem Closed.of_append {x y : Str} (h : Closed (x ++ y)) : Closed y := by
  intro c hc
  apply h c
  rw [List.getLast?_append, hc]
  rfl

/-- Of two names in one text one ends the other, behind a `_`. -/
theorem Closed.append_eq {x y a b : Str} (hx : Closed x) (hy : Closed y) (hab : a ≠ b)
    (h : x ++ a = y ++ b) :
    (∃ c, b = c ++ CodePoint.ofChar '_' :: a ∧ x = y ++ (c ++ [CodePoint.ofChar '_'])) ∨
      ∃ c, a = c ++ CodePoint.ofChar '_' :: b ∧ y = x ++ (c ++ [CodePoint.ofChar '_']) := by
  have hcut {x y a b more : Str} (hx : Closed x) (hab : a ≠ b) (hxy : x = y ++ more) (hb : b = more ++ a) :
      ∃ c, b = c ++ CodePoint.ofChar '_' :: a ∧ x = y ++ (c ++ [CodePoint.ofChar '_']) := by
    have hmore : more ≠ [] := by
      intro hnil
      rw [hnil] at hb
      exact hab hb.symm
    obtain ⟨c, rfl⟩ := (hxy ▸ hx).of_append.exists_concat hmore
    exact ⟨c, by rw [hb, List.append_assoc, List.singleton_append], hxy⟩
  rcases List.append_eq_append_iff.mp h with ⟨more, hyx, ha⟩ | ⟨more, hxy, hb⟩
  · exact .inr (hcut hy hab.symm hyx ha)
  · exact .inl (hcut hx hab hxy hb)

/-- A longer name that ends a text ends in the name there. -/
theorem Closed.suffix_iff {x a b : Str} (hx : Closed x) (hlt : a.length < b.length) :
    CodePoint.ofChar '_' :: b <:+ x ++ a ↔
      ∃ c, b = c ++ CodePoint.ofChar '_' :: a ∧
        CodePoint.ofChar '_' :: (c ++ [CodePoint.ofChar '_']) <:+ x := by
  constructor
  · intro ⟨y, hy⟩
    rcases List.append_eq_append_iff.mp hy with ⟨more, hxy, hb⟩ | ⟨more, hyx, ha⟩
    · have hmore : more ≠ [] := by
        rintro rfl
        rw [show a = CodePoint.ofChar '_' :: b from hb.symm] at hlt
        exact absurd hlt (by simp)
      obtain ⟨c, rfl⟩ := (hxy ▸ hx).of_append.exists_concat hmore
      rw [List.append_assoc, List.singleton_append] at hb
      cases c with
      | nil =>
        exact absurd (congrArg List.length (List.cons.inj hb).2) (by omega)
      | cons d c =>
        obtain ⟨rfl, hb'⟩ := List.cons.inj hb
        exact ⟨c, hb', y, hxy.symm⟩
    · have hlen := congrArg List.length ha
      rw [List.length_append, List.length_cons] at hlen
      omega
  · rintro ⟨c, rfl, y, rfl⟩
    exact ⟨y, by simp⟩

variable {K : Type}

theorem closed_pointsText (legacy : Bool) (context : List (SweepLevel K)) (idx : List Nat) :
    Closed (pointsText legacy context idx) := by
  unfold pointsText
  induction pointParts legacy context idx with
  | nil => exact closed_nil
  | cons part parts ih => exact closed_append (closed_concat part) ih

theorem AnalysisStep.closed_parentText (s : AnalysisStep K) (d : Nat) (idx : List Nat) :
    Closed (s.parentText d idx) := closed_append (closed_pointsText _ _ _) (closed_concat _)

end Closed

/-! ## Files and keys -/

section Files

variable {K : Type}

theorem cons_append_inj {α : Type} {c : α} {a b x y : List α} (ha : c ∉ a) (hb : c ∉ b)
    (h : a ++ c :: x = b ++ c :: y) : a = b ∧ x = y := by
  induction a generalizing b with
  | nil =>
    cases b with
    | nil => exact ⟨rfl, (List.cons.inj h).2⟩
    | cons d b => exact absurd ((List.cons.inj h).1 ▸ List.mem_cons_self) hb
  | cons d a ih =>
    cases b with
    | nil => exact absurd ((List.cons.inj h).1 ▸ List.mem_cons_self) ha
    | cons d' b =>
      obtain ⟨rfl, hrest⟩ := List.cons.inj h
      obtain ⟨rfl, hxy⟩ :=
        ih (fun hc => ha (List.mem_cons_of_mem _ hc)) (fun hc => hb (List.mem_cons_of_mem _ hc)) hrest
      exact ⟨rfl, hxy⟩

theorem append_cons_inj {α : Type} {c : α} {x y a b : List α} (ha : c ∉ a) (hb : c ∉ b)
    (h : x ++ c :: a = y ++ c :: b) : x = y ∧ a = b := by
  have hrev := congrArg List.reverse h
  simp only [List.reverse_append, List.reverse_cons, List.append_assoc, List.singleton_append] at hrev
  obtain ⟨hab, hxy⟩ := cons_append_inj (mt List.mem_reverse.mp ha) (mt List.mem_reverse.mp hb) hrev
  exact ⟨List.reverse_injective hxy, List.reverse_injective hab⟩

theorem Entry.atype_plain (e : Entry K) : CodePoint.ofChar '-' ∉ e.atype ∧ CodePoint.ofChar '.' ∉ e.atype := by
  have hkind : ∀ kind : Kind, CodePoint.ofChar '-' ∉ kind.atype ∧ CodePoint.ofChar '.' ∉ kind.atype := by
    intro kind
    cases kind <;> decide
  cases e with
  | unswept s => exact hkind s.kind
  | parent s d idx =>
    show CodePoint.ofChar '-' ∉ str "sweep" ∧ CodePoint.ofChar '.' ∉ str "sweep"
    decide
  | leaf s idx => exact hkind s.kind

theorem Entry.key_inj {legacy : Bool} {e e' : Entry K} :
    e.key legacy = e'.key legacy ↔ e.analysisName legacy = e'.analysisName legacy ∧ e.atype = e'.atype := by
  constructor
  · exact append_cons_inj e.atype_plain.1 e'.atype_plain.1
  · intro ⟨hname, htype⟩
    unfold key
    rw [hname, htype]

/-- What the type of a result adds to the file's name in front of the type. -/
def extensionStart (legacy : Bool) (atype : Str) : Str :=
  if legacy = false ∧ atype = str "tran" then str ".tran" else []

theorem AnalysisStep.extension_eq (s : AnalysisStep K) (legacy : Bool) :
    CodePoint.ofChar '.' :: s.extension legacy =
      extensionStart legacy s.kind.atype ++ CodePoint.ofChar '.' :: s.kind.atype := by
  unfold extension
  cases s.kind <;> cases legacy <;> rfl

theorem Entry.file_eq (legacy : Bool) (e : Entry K) : e.file legacy =
    (e.analysisName legacy ++ extensionStart legacy e.atype) ++ CodePoint.ofChar '.' :: e.atype := by
  cases e with
  | unswept s =>
    show _ ++ CodePoint.ofChar '.' :: s.extension legacy = _
    rw [s.extension_eq, ← List.append_assoc]
    rfl
  | parent s d idx =>
    have hnone : extensionStart legacy (str "sweep") = [] := if_neg fun h => absurd h.2 (by decide)
    show _ ++ CodePoint.ofChar '.' :: str "sweep" = (_ ++ extensionStart legacy (str "sweep")) ++ _
    rw [hnone, List.append_nil]
    rfl
  | leaf s idx =>
    show _ ++ CodePoint.ofChar '.' :: s.extension legacy = _
    rw [s.extension_eq, ← List.append_assoc]
    rfl

theorem Entry.file_inj {legacy : Bool} {e e' : Entry K} :
    e.file legacy = e'.file legacy ↔ e.analysisName legacy = e'.analysisName legacy ∧ e.atype = e'.atype := by
  rw [file_eq, file_eq]
  constructor
  · intro h
    obtain ⟨hname, htype⟩ := append_cons_inj e.atype_plain.2 e'.atype_plain.2 h
    rw [htype] at hname
    exact ⟨List.append_cancel_right hname, htype⟩
  · intro ⟨hname, htype⟩
    rw [hname, htype]

end Files

end Vamos.Spectre
