import Mathlib.Tactic

/-!
# Cutting a word into pieces

A word cut at the first occurrence of a letter, and a word cut at every separator that stands outside all brackets.
-/

namespace Pieces

variable {α : Type} [DecidableEq α]

/-! ## The first occurrence -/

def cut (c : α) : List α → Option (List α × List α)
  | [] => none
  | d :: t => if d = c then some ([], t) else (cut c t).map fun r => (d :: r.1, r.2)

theorem cut_eq_some {c : α} {t u v : List α} : cut c t = some (u, v) ↔ t = u ++ c :: v ∧ c ∉ u := by
  induction t generalizing u with
  | nil => simp [cut]
  | cons d t ih =>
    rw [cut]
    split_ifs with hd
    · subst hd
      cases u with
      | nil => simp [eq_comm]
      | cons e u => simp +contextual [eq_comm]
    · cases u with
      | nil => simp [hd]
      | cons e u =>
        have hcons : (cut c t).map (fun r => (d :: r.1, r.2)) = some (e :: u, v) ↔
            d = e ∧ cut c t = some (u, v) := by
          constructor
          · intro h
            obtain ⟨⟨u', v'⟩, hr, heq⟩ := Option.map_eq_some_iff.mp h
            cases heq
            exact ⟨rfl, hr⟩
          · rintro ⟨rfl, hr⟩
            rw [hr]
            rfl
        rw [hcons, ih]
        constructor
        · rintro ⟨rfl, rfl, hu⟩
          refine ⟨rfl, ?_⟩
          rw [List.mem_cons, not_or]
          exact ⟨fun h => hd h.symm, hu⟩
        · rintro ⟨heq, hu⟩
          cases heq
          exact ⟨rfl, rfl, fun h => hu (List.mem_cons_of_mem _ h)⟩

theorem cut_eq_none {c : α} {t : List α} : cut c t = none ↔ c ∉ t := by
  induction t with
  | nil => simp [cut]
  | cons d t ih =>
    rw [cut]
    split_ifs with hd
    · simp [hd]
    · rw [Option.map_eq_none_iff, ih, List.mem_cons, not_or]
      exact ⟨fun h => ⟨fun h' => hd h'.symm, h⟩, And.right⟩

/-- A piece of a split word holds no separator. -/
theorem not_mem_of_mem_splitOn {c : α} {t u : List α} (hu : u ∈ t.splitOn c) : c ∉ u := by
  induction t generalizing u with
  | nil =>
    rw [List.splitOn_nil, List.mem_singleton] at hu
    simp [hu]
  | cons d t ih =>
    rw [List.splitOn_cons_eq_if_modifyHead] at hu
    split_ifs at hu with hd
    · rcases List.mem_cons.mp hu with rfl | hu
      · simp
      · exact ih hu
    · have hne := List.splitOn_ne_nil c t
      generalize t.splitOn c = ls at hne hu ih
      cases ls with
      | nil => exact absurd rfl hne
      | cons v vs =>
        rcases List.mem_cons.mp hu with rfl | hu
        · rw [List.mem_cons, not_or]
          exact ⟨fun h => hd (beq_iff_eq.mpr h.symm), ih List.mem_cons_self⟩
        · exact ih (List.mem_cons_of_mem _ hu)

/-! ## Separators outside brackets -/

section Brackets

variable (opening closing sep : α)

/-- The brackets that a word opens, less those that it closes. -/
def level (t : List α) : Int := t.count opening - t.count closing

/-- A word in which no separator stands outside all brackets. -/
def Unsplit (t : List α) : Prop := ∀ u v, t = u ++ sep :: v → level opening closing u ≠ 0

/-- The pieces between the separators outside all brackets, the first with `cur` in front, and the level at the end. -/
def pieces : List α → List α → Int → List (List α) × Int
  | [], cur, d => ([cur], d)
  | c :: t, cur, d =>
    let d := if c = opening then d + 1 else if c = closing then d - 1 else d
    if c = sep ∧ d = 0 then
      let rest := pieces t [] d
      (cur :: rest.1, rest.2)
    else pieces t (cur ++ [c]) d

variable {opening closing sep}

theorem level_append (t u : List α) :
    level opening closing (t ++ u) = level opening closing t + level opening closing u := by
  simp only [level, List.count_append]
  omega

theorem level_singleton (hne : opening ≠ closing) (c : α) :
    level opening closing [c] = if c = opening then 1 else if c = closing then -1 else 0 := by
  simp only [level, List.count_singleton, beq_iff_eq]
  split_ifs with h h' h'
  · exact absurd (h.symm.trans h') hne
  · rfl
  · rfl
  · rfl

theorem level_snoc (hne : opening ≠ closing) (cur : List α) (c : α) :
    level opening closing (cur ++ [c]) =
      if c = opening then level opening closing cur + 1
      else if c = closing then level opening closing cur - 1 else level opening closing cur := by
  rw [level_append, level_singleton hne]
  split_ifs <;> omega

theorem Unsplit.nil : Unsplit opening closing sep [] := by
  intro u v h
  simp at h

theorem Unsplit.snoc {cur : List α} {c : α} (h : Unsplit opening closing sep cur)
    (hc : c = sep → level opening closing cur ≠ 0) : Unsplit opening closing sep (cur ++ [c]) := by
  intro u v heq
  rcases List.eq_nil_or_concat' v with rfl | ⟨v, d, rfl⟩
  · obtain ⟨rfl, hcs⟩ := List.append_inj' heq rfl
    exact hc (List.singleton_inj.mp hcs)
  · rw [← List.cons_append, ← List.append_assoc] at heq
    exact h u v (List.append_inj' heq rfl).1

/-- A separator leaves the level as it is. -/
theorem level_sep (hne : opening ≠ closing) (ho : sep ≠ opening) (hc : sep ≠ closing) (cur : List α) :
    level opening closing (cur ++ [sep]) = level opening closing cur := by
  rw [level_snoc hne, if_neg ho, if_neg hc]

/-- The pieces are those of the word, and they are not to be cut further. -/
theorem pieces_spec (hne : opening ≠ closing) (ho : sep ≠ opening) (hc : sep ≠ closing) {t cur : List α}
    {ts : List (List α)} {e : Int} (hcur : Unsplit opening closing sep cur)
    (h : pieces opening closing sep t cur (level opening closing cur) = (ts, e)) :
    ∃ us u, ts = us ++ [u] ∧ [sep].intercalate ts = cur ++ t ∧ (∀ v ∈ us, Unsplit opening closing sep v ∧
      level opening closing v = 0) ∧ Unsplit opening closing sep u ∧ level opening closing u = e := by
  induction t generalizing cur ts with
  | nil =>
    cases h
    exact ⟨[], cur, rfl, by simp, by simp, hcur, rfl⟩
  | cons c t ih =>
    rw [pieces, ← level_snoc hne] at h
    dsimp only at h
    split_ifs at h with hsplit
    · obtain ⟨rfl, hlevel⟩ := hsplit
      have hnil : level opening closing (cur ++ [c]) = level opening closing ([] : List α) := hlevel
      rw [level_sep hne ho hc] at hlevel
      rw [hnil] at h
      cases h
      obtain ⟨us, u, hts, hjoin, hus, hu, he⟩ := ih .nil rfl
      refine ⟨cur :: us, u, by rw [hts]; rfl, ?_, ?_, hu, he⟩
      · rw [hts] at hjoin ⊢
        rw [List.intercalate_cons_of_ne_nil (by simp), hjoin]
        simp
      · intro v hv
        rcases List.mem_cons.mp hv with rfl | hv
        · exact ⟨hcur, hlevel⟩
        · exact hus v hv
    · have hnext : Unsplit opening closing sep (cur ++ [c]) := by
        refine hcur.snoc ?_
        rintro rfl hlevel
        exact hsplit ⟨rfl, by rw [level_sep hne ho hc, hlevel]⟩
      obtain ⟨us, u, hts, hjoin, hrest⟩ := ih hnext h
      exact ⟨us, u, hts, by rw [hjoin]; simp, hrest⟩

/-- Letters that are no separator outside all brackets are added to the piece. -/
theorem pieces_append (hne : opening ≠ closing) (ho : sep ≠ opening) (hc : sep ≠ closing) (v t cur : List α)
    (h : Unsplit opening closing sep (cur ++ v)) :
    pieces opening closing sep (v ++ t) cur (level opening closing cur) =
      pieces opening closing sep t (cur ++ v) (level opening closing (cur ++ v)) := by
  induction v generalizing cur with
  | nil => rw [List.nil_append, List.append_nil]
  | cons c v ih =>
    have hkeep : ¬ (c = sep ∧ level opening closing (cur ++ [c]) = 0) := by
      rintro ⟨rfl, hlevel⟩
      rw [level_sep hne ho hc] at hlevel
      exact h cur v rfl hlevel
    rw [List.cons_append, pieces, ← level_snoc hne]
    dsimp only
    rw [if_neg hkeep, ih (cur ++ [c]) (by rwa [List.append_assoc]), List.append_assoc, List.singleton_append]

/-- A piece between separators: every bracket is closed in it. -/
structure Piece (opening closing sep : α) (t : List α) : Prop where
  unsplit : Unsplit opening closing sep t
  level : level opening closing t = 0

theorem pieces_intercalate (hne : opening ≠ closing) (ho : sep ≠ opening) (hc : sep ≠ closing) {ts : List (List α)}
    (hts : ts ≠ []) (h : ∀ t ∈ ts, Piece opening closing sep t) :
    pieces opening closing sep ([sep].intercalate ts) [] 0 = (ts, 0) := by
  induction ts with
  | nil => exact absurd rfl hts
  | cons v ts ih =>
    obtain ⟨hv, hlevel⟩ := h v List.mem_cons_self
    have happend := fun t => pieces_append hne ho hc v t [] hv
    rw [List.nil_append, hlevel] at happend
    by_cases hnil : ts = []
    · subst hnil
      have hone := happend []
      rw [List.append_nil] at hone
      rw [List.intercalate_singleton]
      exact hone
    · rw [List.intercalate_cons_of_ne_nil hnil, List.append_assoc, List.singleton_append]
      refine (happend _).trans ?_
      rw [pieces, if_neg ho, if_neg hc]
      dsimp only
      rw [if_pos ⟨rfl, rfl⟩, ih hnil fun t ht => h t (List.mem_cons_of_mem _ ht)]

/-- A word is cut into its pieces in one way. -/
theorem pieces_eq_iff (hne : opening ≠ closing) (ho : sep ≠ opening) (hc : sep ≠ closing) {t : List α}
    {ts : List (List α)} :
    pieces opening closing sep t [] 0 = (ts, 0) ↔
      ts ≠ [] ∧ t = [sep].intercalate ts ∧ ∀ u ∈ ts, Piece opening closing sep u := by
  constructor
  · intro h
    obtain ⟨us, u, rfl, hjoin, hus, hu, hlevel⟩ := pieces_spec hne ho hc (Unsplit.nil : Unsplit opening closing sep []) h
    refine ⟨by simp, hjoin.symm, ?_⟩
    intro v hv
    rcases List.mem_append.mp hv with hv | hv
    · exact ⟨(hus v hv).1, (hus v hv).2⟩
    · rw [List.mem_singleton.mp hv]
      exact ⟨hu, hlevel⟩
  · rintro ⟨hts, rfl, hpieces⟩
    exact pieces_intercalate hne ho hc hts hpieces

omit [DecidableEq α] in
theorem length_le_intercalate (ts : List (List α)) {u : List α} (hu : u ∈ ts) :
    u.length ≤ ([sep].intercalate ts).length := by
  induction ts with
  | nil => cases hu
  | cons v ts ih =>
    by_cases hnil : ts = []
    · subst hnil
      rw [List.mem_singleton.mp hu, List.intercalate_singleton]
    · rw [List.intercalate_cons_of_ne_nil hnil, List.length_append, List.length_append]
      rcases List.mem_cons.mp hu with rfl | hu
      · omega
      · have := ih hu
        omega

/-- No piece is longer than the word. -/
theorem length_pieces_le (hne : opening ≠ closing) (ho : sep ≠ opening) (hc : sep ≠ closing) {t u : List α}
    (hu : u ∈ (pieces opening closing sep t [] 0).1) : u.length ≤ t.length := by
  obtain ⟨-, -, -, hjoin, -⟩ := pieces_spec hne ho hc (t := t) (Unsplit.nil : Unsplit opening closing sep []) rfl
  have hle : u.length ≤ ([sep].intercalate _).length := length_le_intercalate _ hu
  rwa [show (0 : Int) = level opening closing [] from rfl, hjoin, List.nil_append] at hle

omit [DecidableEq α] in
theorem mem_intercalate {ts : List (List α)} {u : List α} (hu : u ∈ ts) {c : α} (hc : c ∈ u) :
    c ∈ [sep].intercalate ts := by
  induction ts with
  | nil => cases hu
  | cons v ts ih =>
    by_cases hnil : ts = []
    · subst hnil
      rw [List.intercalate_singleton, ← List.mem_singleton.mp hu]
      exact hc
    · rw [List.intercalate_cons_of_ne_nil hnil, List.mem_append, List.mem_append]
      rcases List.mem_cons.mp hu with rfl | hu
      · exact .inl (.inl hc)
      · exact .inr (ih hu)

/-- The letters of a piece are letters of the word. -/
theorem mem_of_mem_pieces (hne : opening ≠ closing) (ho : sep ≠ opening) (hc : sep ≠ closing) {t u : List α}
    (hu : u ∈ (pieces opening closing sep t [] 0).1) {c : α} (hcu : c ∈ u) : c ∈ t := by
  obtain ⟨-, -, -, hjoin, -⟩ := pieces_spec hne ho hc (t := t) (Unsplit.nil : Unsplit opening closing sep []) rfl
  have hmem : c ∈ [sep].intercalate _ := mem_intercalate hu hcu
  rwa [show (0 : Int) = level opening closing [] from rfl, hjoin, List.nil_append] at hmem

end Brackets

end Pieces
