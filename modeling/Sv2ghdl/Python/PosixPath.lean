import Sv2ghdl.Python.Str

/-!
# Paths

The functions of `posixpath` on the texts of paths.
-/

namespace Python.PosixPath

def slash : CodePoint := '/'
def dot : CodePoint := '.'

/-- `isabs` -/
def isAbs (p : Str) : Bool := p.head? = some slash

/-- `join` of two paths. -/
def join (a b : Str) : Str :=
  if isAbs b then b
  else if a = [] ∨ a.getLast? = some slash then a ++ b
  else a ++ slash :: b

/-- One turn of `normpath`, on the components so far, the last one first. -/
def normComponent (abs : Bool) (comps : List Str) (c : Str) : List Str :=
  if c = [] ∨ c = str "." then comps
  else if c ≠ str ".." ∨ (abs = false ∧ comps = []) ∨ comps.head? = some (str "..") then c :: comps
  else comps.tail

/-- Two slashes at the start stay, other numbers of slashes become one. -/
def initialSlashes (p : Str) : Nat :=
  if isAbs p then if (str "//").isPrefixOf p && !(str "///").isPrefixOf p then 2 else 1 else 0

/-- `normpath` -/
def normpath (p : Str) : Str :=
  let n := initialSlashes p
  let comps := (p.splitOn slash).foldl (normComponent (n ≠ 0)) []
  let path := List.replicate n slash ++ [slash].intercalate comps.reverse
  if path = [] then str "." else path

/-- `dirname` -/
def dirname (p : Str) : Str :=
  let head := p.rdropWhile (· ≠ slash)
  if head.all (· = slash) then head else head.rdropWhile (· = slash)

/-- What `splitext` splits off. -/
def ext (p : Str) : Str :=
  let name := (p.rtakeWhile (· ≠ slash)).dropWhile (· = dot)
  if dot ∈ name then dot :: name.rtakeWhile (· ≠ dot) else []

theorem isAbs_join {a : Str} (h : isAbs a = true) (b : Str) : isAbs (join a b) = true := by
  unfold join
  split_ifs with hb
  · exact hb
  all_goals
    cases a with
    | nil => cases h
    | cons c a => exact h

theorem initialSlashes_of_isAbs {p : Str} (h : isAbs p = true) : ∃ n, initialSlashes p = n + 1 := by
  unfold initialSlashes
  rw [if_pos h]
  split_ifs
  · exact ⟨1, rfl⟩
  · exact ⟨0, rfl⟩

theorem isAbs_normpath {p : Str} (h : isAbs p = true) : isAbs (normpath p) = true := by
  obtain ⟨n, hn⟩ := initialSlashes_of_isAbs h
  unfold normpath
  simp only [hn, List.replicate_succ, List.cons_append]
  rw [if_neg (List.cons_ne_nil _ _)]
  rfl

/-- The part of an absolute path up to its last slash is absolute. -/
theorem isAbs_rdropWhile {p : Str} (h : isAbs p = true) {q : CodePoint → Bool} (hq : p.rdropWhile q ≠ []) :
    isAbs (p.rdropWhile q) = true := by
  obtain ⟨t, ht⟩ := List.rdropWhile_prefix q (l := p)
  cases hd : p.rdropWhile q with
  | nil => exact absurd hd hq
  | cons c s =>
    rw [hd] at ht
    rw [← ht] at h
    exact h

theorem isAbs_dirname {p : Str} (h : isAbs p = true) : isAbs (dirname p) = true := by
  have hne : p.rdropWhile (· ≠ slash) ≠ [] := fun hnil => by
    cases p with
    | nil => cases h
    | cons c p =>
      have hc : c = slash := by simpa [isAbs] using h
      have hall := List.rdropWhile_eq_nil_iff.mp hnil c List.mem_cons_self
      simp [hc] at hall
  have habs := isAbs_rdropWhile h hne
  unfold dirname
  simp only
  split_ifs with hall
  · exact habs
  · refine isAbs_rdropWhile habs fun hnil => hall (List.all_eq_true.mpr fun c hc => ?_)
    exact List.rdropWhile_eq_nil_iff.mp hnil c hc

/-! ## Names of one character -/

theorem intercalate_snoc (comps : List Str) (last : Str) :
    [slash].intercalate (comps ++ [last]) = last ∨ ∃ p, [slash].intercalate (comps ++ [last]) = p ++ slash :: last := by
  induction comps with
  | nil => exact .inl (by simp)
  | cons u comps ih =>
    obtain ⟨w, ws, hw⟩ := List.exists_cons_of_ne_nil (l := comps ++ [last]) (by simp)
    have hcons : [slash].intercalate (u :: comps ++ [last]) = u ++ slash :: [slash].intercalate (comps ++ [last]) := by
      rw [List.cons_append, hw, List.intercalate_cons_cons, List.append_assoc]
      rfl
    rw [hcons]
    rcases ih with h | ⟨p, h⟩
    · exact .inr ⟨u, by rw [h]⟩
    · exact .inr ⟨u ++ slash :: p, by rw [h]; simp⟩

theorem join_singleton {a : Str} (h : isAbs a = true) {c : CodePoint} (hc : c ≠ slash) :
    ∃ p, join a [c] = p ++ slash :: [c] := by
  unfold join
  rw [if_neg (by simpa [isAbs] using hc)]
  split_ifs with hlast
  · rcases hlast with rfl | hlast
    · cases h
    · obtain ⟨p, rfl⟩ := List.getLast?_eq_some_iff.mp hlast
      exact ⟨p, by simp⟩
  · exact ⟨a, rfl⟩

/-- A name of one character has no extension in any directory. -/
theorem ext_normpath_join {a : Str} (h : isAbs a = true) {c : CodePoint} (hc : c ≠ slash) (hdot : c ≠ dot) :
    ext (normpath (join a [c])) = [] := by
  obtain ⟨p, hp⟩ := join_singleton h hc
  have hsplit : (join a [c]).splitOn slash = p.splitOn slash ++ [[c]] := by
    have hlast : [c].splitOn slash = [[c]] := List.splitOn_eq_singleton (by simpa using hc.symm)
    rw [hp, List.splitOn_append_cons_self, hlast]
  have hcomp : ∀ comps, normComponent (initialSlashes (join a [c]) ≠ 0) comps [c] = [c] :: comps := by
    intro comps
    have hne : [c] ≠ str "." := fun h => hdot (List.singleton_inj.mp h)
    have hne' : [c] ≠ str ".." := fun h => nomatch (List.cons.inj h).2
    rw [normComponent, if_neg (by simp [hne]), if_pos (.inl hne')]
  have hlast : ∃ q, normpath (join a [c]) = q ++ slash :: [c] := by
    obtain ⟨n, hn⟩ := initialSlashes_of_isAbs (isAbs_join h [c])
    unfold normpath
    simp only [hsplit, List.foldl_append, List.foldl_cons, List.foldl_nil, hcomp, List.reverse_cons]
    rcases intercalate_snoc (List.foldl (normComponent (initialSlashes (join a [c]) ≠ 0)) [] (p.splitOn slash)).reverse
      [c] with hi | ⟨q, hi⟩
    · rw [hi, if_neg (by simp), hn, List.replicate_succ']
      exact ⟨List.replicate n slash, by simp⟩
    · rw [hi, if_neg (by simp)]
      exact ⟨List.replicate (initialSlashes (join a [c])) slash ++ q, by simp⟩
  obtain ⟨q, hq⟩ := hlast
  have hname : (q ++ slash :: [c]).rtakeWhile (· ≠ slash) = [c] := by
    rw [show q ++ slash :: [c] = (q ++ [slash]) ++ [c] by simp, List.rtakeWhile_concat, if_pos (by simpa using hc),
      List.rtakeWhile_concat_neg _ _ _ (by simp)]
    rfl
  rw [hq, ext, hname]
  simp [hdot, hdot.symm]

end Python.PosixPath
