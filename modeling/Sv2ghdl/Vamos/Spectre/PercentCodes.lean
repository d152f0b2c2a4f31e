import Sv2ghdl.Vamos.WrittenName
import Sv2ghdl.Lists.Traverse

/-!
# Percent codes

A `%` code with its colon modifiers, as `vamos/spectre/percent.py` expands it in a job's options and as the parser
of `vamos/netlist/spectre.py` expands it in a netlist's quoted strings and include names.
-/

open Python

namespace Vamos.Percent

/-- `s.rfind(c)`, with `none` for -1. -/
def rfind (c : CodePoint) : Str → Option Nat
  | [] => none
  | d :: rest => match rfind c rest with
    | some i => some (i + 1)
    | none => if d = c then some 0 else none

/-- The part of a path name that a modifier keeps. -/
inductive Part where
  | root | extension | head | tail
  deriving DecidableEq, Repr

/-- A modifier of `MODIFIERS`. -/
inductive Modifier where
  | part (p : Part)
  | colon
  deriving DecidableEq, Repr

def Modifier.letter : Modifier → CodePoint
  | part .root => 'r'
  | part .extension => 'e'
  | part .head => 'h'
  | part .tail => 't'
  | colon => ':'

def modifier? (c : CodePoint) : Option Modifier :=
  if c = 'r' then some (.part .root)
  else if c = 'e' then some (.part .extension)
  else if c = 'h' then some (.part .head)
  else if c = 't' then some (.part .tail)
  else if c = ':' then some .colon
  else none

/-- The text of a chain of modifiers. -/
def spell (mods : List Modifier) : Str := mods.flatMap fun m => [(':' : CodePoint), m.letter]

/-- The codes that have a value. -/
abbrev Table := CodePoint → Option Str

/-! ## percent.py -/

def split (p : Str) : Str × Str :=
  match rfind '/' p with
  | some i => (p.take (i + 1), p.drop (i + 1))
  | none => ([], p)

def modify (value : Str) : Part → Str
  | .root => match rfind '.' (split value).2 with
    | some i => (split value).1 ++ (split value).2.take i
    | none => value
  | .extension => match rfind '.' (split value).2 with
    | some i => (split value).2.drop (i + 1)
    | none => []
  | .head => if (split value).1 ≠ [] then (split value).1.dropLast else str "."
  | .tail => (split value).2

/-- The inner loop of `expand`: the value that the modifiers at the start of the text leave, and the rest of the
    text. -/
def expandModifiers (value : Str) : Str → Str × Str
  | c :: m :: rest =>
    if c = ':' then
      match modifier? m with
      | some .colon => (value ++ [(':' : CodePoint)], rest)
      | some (.part p) => expandModifiers (modify value p) rest
      | none => (value, c :: m :: rest)
    else (value, c :: m :: rest)
  | text => (value, text)

theorem length_expandModifiers (value text : Str) : (expandModifiers value text).2.length ≤ text.length := by
  fun_induction expandModifiers value text with
  | case1 value m rest hm => exact (Nat.le_succ _).trans (Nat.le_succ _)
  | case2 value m rest p hm ih => exact ih.trans ((Nat.le_succ _).trans (Nat.le_succ _))
  | case3 => exact Nat.le_refl _
  | case4 => exact Nat.le_refl _
  | case5 => exact Nat.le_refl _

def expand (codes : Table) : Str → Str
  | [] => []
  | [c] => [c]
  | c :: x :: rest =>
    if c ≠ '%' then c :: expand codes (x :: rest)
    else if x = '%' then '%' :: expand codes rest
    else if !x.isAsciiLetter then c :: expand codes (x :: rest)
    else
      (expandModifiers ((codes x).getD []) rest).1 ++ expand codes (expandModifiers ((codes x).getD []) rest).2
termination_by text => text.length
decreasing_by
  all_goals simp only [List.length_cons]
  · omega
  · omega
  · omega
  · have := length_expandModifiers ((codes x).getD []) rest
    omega

/-! ## The parser -/

/-- `(?::[reht:])*` at the start of a text, and the rest of the text. -/
def takeModifiers : Str → List Modifier × Str
  | c :: m :: rest =>
    if c = ':' then
      match modifier? m with
      | some k => (k :: (takeModifiers rest).1, (takeModifiers rest).2)
      | none => ([], c :: m :: rest)
    else ([], c :: m :: rest)
  | text => ([], text)

theorem length_takeModifiers (text : Str) : (takeModifiers text).2.length ≤ text.length := by
  fun_induction takeModifiers text with
  | case1 m rest k hm ih => exact ih.trans ((Nat.le_succ _).trans (Nat.le_succ _))
  | case2 => exact Nat.le_refl _
  | case3 => exact Nat.le_refl _
  | case4 => exact Nat.le_refl _

/-- What `_PERCENT` finds in a text: a match, with its two groups, or a character that is in no match. -/
inductive Piece where
  | char (c : CodePoint)
  | code (x : CodePoint) (mods : List Modifier)
  deriving DecidableEq, Repr

def pieces : Str → List Piece
  | [] => []
  | [c] => [.char c]
  | c :: x :: rest =>
    if c = '%' ∧ (x.isAsciiLetter ∨ x = '%') then
      .code x (takeModifiers rest).1 :: pieces (takeModifiers rest).2
    else .char c :: pieces (x :: rest)
termination_by text => text.length
decreasing_by
  · have := length_takeModifiers rest
    simp only [List.length_cons]
    omega
  · simp only [List.length_cons]
    omega

/-- `os.path.basename` -/
def basename (p : Str) : Str :=
  match rfind '/' p with
  | some i => p.drop (i + 1)
  | none => p

/-- `s[:s.rfind(c)]` -/
def before (c : CodePoint) (s : Str) : Str :=
  match rfind c s with
  | some i => s.take i
  | none => s.dropLast

/-- `s[s.rfind(c) + 1:]` -/
def after (c : CodePoint) (s : Str) : Str :=
  match rfind c s with
  | some i => s.drop (i + 1)
  | none => s

def applyModifier (out : Str) : Modifier → Str
  | .part .root => if ('.' : CodePoint) ∈ basename out then before '.' out else out
  | .part .extension => if ('.' : CodePoint) ∈ basename out then after '.' out else []
  | .part .head => if ('/' : CodePoint) ∈ out then before '/' out else str "."
  | .part .tail => after '/' out
  | .colon => out ++ [(':' : CodePoint)]

/-- `_modifiers` -/
def modifiers (val : Str) (mods : List Modifier) : Str := mods.foldl applyModifier val

/-- What `percent` puts in the place of a match. -/
def sub (codes : Table) (inAnalysis : Str) (x : CodePoint) (mods : List Modifier) : Str :=
  if x = '%' then [('%' : CodePoint)]
  else
    let val := if x = 'A' ∧ ((codes x).getD [] = [] ∧ inAnalysis ≠ []) then
      some (Names.writtenName .file inAnalysis) else codes x
    match val with
    | none => ('%' : CodePoint) :: x :: spell mods
    | some val => modifiers val mods

def percent (codes : Table) (inAnalysis text : Str) : Str :=
  if ('%' : CodePoint) ∉ text then text
  else (pieces text).flatMap fun
    | .char c => [c]
    | .code x mods => sub codes inAnalysis x mods

/-! ## Modifiers -/

theorem rfind_eq_none {c : CodePoint} {s : Str} : rfind c s = none ↔ c ∉ s := by
  induction s with
  | nil => simp [rfind]
  | cons d s ih =>
    rw [rfind, List.mem_cons, not_or, ← ih]
    cases rfind c s with
    | some i => simp
    | none => simp [eq_comm]

theorem mem_of_rfind {c : CodePoint} {i : Nat} {s : Str} (h : rfind c s = some i) : c ∈ s := by
  by_contra hnot
  rw [rfind_eq_none.mpr hnot] at h
  cases h

theorem rfind_append {c : CodePoint} {i : Nat} {t : Str} (h : rfind c t = some i) (s : Str) :
    rfind c (s ++ t) = some (s.length + i) := by
  induction s with
  | nil => rw [List.nil_append, h, List.length_nil, Nat.zero_add]
  | cons d s ih =>
    rw [List.cons_append, rfind, ih, List.length_cons]
    show some (s.length + i + 1) = _
    rw [Nat.add_right_comm]

theorem length_of_rfind {c : CodePoint} {i : Nat} {s : Str} (h : rfind c s = some i) : i < s.length := by
  induction s generalizing i with
  | nil => cases h
  | cons d s ih =>
    rw [rfind] at h
    rw [List.length_cons]
    cases hs : rfind c s with
    | some j =>
      rw [hs] at h
      cases h
      exact Nat.succ_lt_succ (ih hs)
    | none =>
      rw [hs] at h
      dsimp only at h
      split_ifs at h
      cases h
      exact Nat.succ_pos _

theorem split_append (p : Str) : (split p).1 ++ (split p).2 = p := by
  unfold split
  cases rfind '/' p with
  | some i => exact List.take_append_drop (i + 1) p
  | none => rfl

theorem basename_eq (p : Str) : basename p = (split p).2 := by
  unfold basename split
  cases rfind '/' p <;> rfl

/-- A dot in the last part of a path is the last dot of the path. -/
theorem rfind_dot {p : Str} {i : Nat} (h : rfind '.' (split p).2 = some i) :
    rfind '.' p = some ((split p).1.length + i) := by
  conv_lhs => rw [← split_append p]
  exact rfind_append h _

theorem applyModifier_eq_modify (value : Str) (p : Part) : applyModifier value (.part p) = modify value p := by
  cases p with
  | root =>
    rw [applyModifier, modify, basename_eq]
    cases hdot : rfind '.' (split value).2 with
    | none => exact if_neg (rfind_eq_none.mp hdot)
    | some i =>
      have htake := @List.take_length_add_append _ (split value).1 (split value).2 i
      rw [split_append] at htake
      rw [if_pos (mem_of_rfind hdot), before, rfind_dot hdot]
      exact htake
  | extension =>
    rw [applyModifier, modify, basename_eq]
    cases hdot : rfind '.' (split value).2 with
    | none => exact if_neg (rfind_eq_none.mp hdot)
    | some i =>
      have hdrop := @List.drop_length_add_append _ (split value).1 (split value).2 (i + 1)
      rw [split_append] at hdrop
      rw [if_pos (mem_of_rfind hdot), after, rfind_dot hdot]
      exact hdrop
  | head =>
    rw [applyModifier, modify, before, split]
    cases hslash : rfind '/' value with
    | none => exact if_neg (rfind_eq_none.mp hslash)
    | some i =>
      have hlen := length_of_rfind hslash
      have hhead : (value.take (i + 1)).length = i + 1 := by
        rw [List.length_take]
        exact Nat.min_eq_left hlen
      rw [if_pos (mem_of_rfind hslash), if_pos (List.ne_nil_of_length_eq_add_one hhead)]
      show value.take i = (value.take (i + 1)).dropLast
      rw [List.dropLast_eq_take, hhead, Nat.add_sub_cancel, List.take_take, Nat.min_eq_left (Nat.le_succ i)]
  | tail =>
    rw [applyModifier, modify, after, split]
    cases rfind '/' value <;> rfl

/-! ## What `expand` puts in the place of a match -/

theorem letter_of_modifier? {c : CodePoint} {m : Modifier} (h : modifier? c = some m) : m.letter = c := by
  unfold modifier? at h
  split_ifs at h with hr he hh ht hcolon <;> cases h
  · exact hr.symm
  · exact he.symm
  · exact hh.symm
  · exact ht.symm
  · exact hcolon.symm

theorem spell_cons (m : Modifier) (mods : List Modifier) :
    spell (m :: mods) = (':' : CodePoint) :: m.letter :: spell mods := rfl

theorem spell_takeModifiers (text : Str) : spell (takeModifiers text).1 ++ (takeModifiers text).2 = text := by
  fun_induction takeModifiers text with
  | case1 m rest k hm ih =>
    rw [spell_cons, letter_of_modifier? hm, List.cons_append, List.cons_append, ih]
  | case2 => rfl
  | case3 => rfl
  | case4 => rfl

theorem letter_ne_percent (m : Modifier) : m.letter ≠ '%' := by
  rcases m with (_ | _ | _ | _) | _ <;> decide

theorem expand_cons {c : CodePoint} (hc : c ≠ '%') (codes : Table) (text : Str) :
    expand codes (c :: text) = c :: expand codes text := by
  cases text with
  | nil => rw [expand, expand]
  | cons x rest => rw [expand, if_pos hc]

theorem expand_spell (codes : Table) (mods : List Modifier) (text : Str) :
    expand codes (spell mods ++ text) = spell mods ++ expand codes text := by
  induction mods with
  | nil => rfl
  | cons m mods ih =>
    rw [spell_cons, List.cons_append, List.cons_append, expand_cons (by decide),
      expand_cons (letter_ne_percent m), ih]
    rfl

/-- A value with the modifiers that follow it, as `expand` leaves them: what comes after `::` stays text. -/
def expandChain (value : Str) : List Modifier → Str
  | [] => value
  | .part p :: mods => expandChain (modify value p) mods
  | .colon :: mods => value ++ (':' : CodePoint) :: spell mods

theorem expandModifiers_eq (codes : Table) (value text : Str) :
    (expandModifiers value text).1 ++ expand codes (expandModifiers value text).2 =
      expandChain value (takeModifiers text).1 ++ expand codes (takeModifiers text).2 := by
  fun_induction expandModifiers value text with
  | case1 value m rest hm =>
    rw [takeModifiers, if_pos rfl, hm]
    show (value ++ [(':' : CodePoint)]) ++ expand codes rest =
      (value ++ (':' : CodePoint) :: spell (takeModifiers rest).1) ++ expand codes (takeModifiers rest).2
    conv_lhs => rw [← spell_takeModifiers rest, expand_spell]
    simp only [List.append_assoc, List.cons_append, List.nil_append]
  | case2 value m rest p hm ih =>
    rw [takeModifiers, if_pos rfl, hm]
    exact ih
  | case3 value m rest hm =>
    rw [takeModifiers, if_pos rfl, hm]
    rfl
  | case4 value c m rest hc =>
    rw [takeModifiers, if_neg hc]
    rfl
  | case5 value text htext =>
    have hnone : takeModifiers text = ([], text) := by
      unfold takeModifiers
      split
      · next c m rest => exact absurd rfl (htext c m rest)
      · rfl
    rw [hnone]
    rfl

/-- What `expand` makes of a piece of the text. -/
def Piece.expanded (codes : Table) : Piece → Str
  | .char c => [c]
  | .code x mods =>
    if x = '%' then ('%' : CodePoint) :: spell mods else expandChain ((codes x).getD []) mods

theorem expand_eq_flatMap (codes : Table) (text : Str) :
    expand codes text = (pieces text).flatMap (Piece.expanded codes) := by
  fun_induction pieces text with
  | case1 => rw [expand]; rfl
  | case2 c => rw [expand]; rfl
  | case3 c x rest h ih =>
    obtain ⟨rfl, hx⟩ := h
    rw [List.flatMap_cons, ← ih, Piece.expanded, expand, if_neg (by simp)]
    by_cases hpercent : x = '%'
    · rw [if_pos hpercent, if_pos hpercent]
      conv_lhs => rw [← spell_takeModifiers rest, expand_spell]
      rfl
    · have hletter : x.isAsciiLetter = true := hx.resolve_right hpercent
      rw [if_neg hpercent, if_neg hpercent, hletter]
      exact expandModifiers_eq codes _ rest
  | case4 c x rest h ih =>
    rw [List.flatMap_cons, ← ih, expand]
    by_cases hc : c = '%'
    · have hx : x ≠ '%' ∧ x.isAsciiLetter = false := by
        constructor
        · exact fun hx => h ⟨hc, .inr hx⟩
        · exact Bool.eq_false_iff.mpr fun hx => h ⟨hc, .inl hx⟩
      rw [if_neg (not_not.mpr hc), if_neg hx.1, hx.2]
      rfl
    · rw [if_pos hc]
      rfl

/-! ## The two expansions -/

/-- What the parser makes of a piece of the text. -/
def Piece.percented (codes : Table) (inAnalysis : Str) : Piece → Str
  | .char c => [c]
  | .code x mods => sub codes inAnalysis x mods

theorem pieces_of_no_percent {text : Str} (h : ('%' : CodePoint) ∉ text) : pieces text = text.map .char := by
  fun_induction pieces text with
  | case1 => rfl
  | case2 c => rfl
  | case3 c x rest hcode ih => exact absurd (hcode.1 ▸ List.mem_cons_self) h
  | case4 c x rest hcode ih =>
    rw [ih fun hmem => h (List.mem_cons_of_mem c hmem)]
    rfl

theorem percent_eq_flatMap (codes : Table) (inAnalysis text : Str) :
    percent codes inAnalysis text = (pieces text).flatMap (Piece.percented codes inAnalysis) := by
  by_cases h : ('%' : CodePoint) ∈ text
  · rw [percent, if_neg (not_not.mpr h)]
    congr 1
  · rw [percent, if_pos h, pieces_of_no_percent h, List.flatMap_map]
    exact (List.flatMap_singleton' text).symm

/-- The codes that a text uses have a value. -/
def Defined (codes : Table) (text : Str) : Prop :=
  ∀ (x : CodePoint) mods, .code x mods ∈ pieces text → x ≠ '%' → (codes x).isSome

/-- A `%%` without modifiers, and a code with no modifier after its `::`. -/
def Piece.Plain : Piece → Prop
  | .char _ => True
  | .code x mods => (x = '%' → mods = []) ∧ (x ≠ '%' → .colon ∉ mods.dropLast)

theorem length_before (c : CodePoint) (s : Str) : (before c s).length ≤ s.length := by
  unfold before
  cases rfind c s with
  | some i => exact List.length_take_le' i s
  | none =>
    rw [List.length_dropLast]
    exact Nat.sub_le _ _

theorem length_after (c : CodePoint) (s : Str) : (after c s).length ≤ s.length := by
  unfold after
  cases rfind c s with
  | some i =>
    rw [List.length_drop]
    exact Nat.sub_le _ _
  | none => exact Nat.le_refl _

theorem length_applyModifier (value : Str) (m : Modifier) : (applyModifier value m).length ≤ value.length + 1 := by
  have hbefore := fun c => (length_before c value).trans (Nat.le_succ _)
  have hafter := fun c => (length_after c value).trans (Nat.le_succ _)
  rcases m with (_ | _ | _ | _) | _
  · rw [applyModifier]
    split_ifs
    · exact hbefore '.'
    · exact Nat.le_succ _
  · rw [applyModifier]
    split_ifs
    · exact hafter '.'
    · exact Nat.zero_le _
  · rw [applyModifier]
    split_ifs
    · exact hbefore '/'
    · exact Nat.succ_le_succ (Nat.zero_le _)
  · exact hafter '/'
  · rw [applyModifier, List.length_append]
    exact Nat.le_refl _

theorem length_modifiers (value : Str) (mods : List Modifier) :
    (modifiers value mods).length ≤ value.length + mods.length := by
  induction mods generalizing value with
  | nil => exact Nat.le_refl _
  | cons m mods ih =>
    have hfirst := length_applyModifier value m
    have hrest := ih (applyModifier value m)
    rw [List.length_cons]
    show (modifiers (applyModifier value m) mods).length ≤ _
    omega

theorem length_spell (mods : List Modifier) : (spell mods).length = 2 * mods.length := by
  induction mods with
  | nil => rfl
  | cons m mods ih =>
    rw [spell_cons, List.length_cons, List.length_cons, List.length_cons, ih]
    omega

theorem modifiers_eq_expandChain {mods : List Modifier} (h : .colon ∉ mods.dropLast) (value : Str) :
    modifiers value mods = expandChain value mods := by
  induction mods generalizing value with
  | nil => rfl
  | cons m mods ih =>
    cases mods with
    | nil =>
      cases m with
      | part p => exact applyModifier_eq_modify value p
      | colon => rfl
    | cons m' mods =>
      rw [List.dropLast_cons_cons, List.mem_cons, not_or] at h
      cases m with
      | part p =>
        show modifiers (applyModifier value (.part p)) (m' :: mods) = _
        rw [applyModifier_eq_modify]
        exact ih h.2 _
      | colon => exact absurd rfl h.1

/-- The modifiers after a `::` take more room as text than they add to the value. -/
theorem length_modifiers_lt {mods : List Modifier} (h : .colon ∈ mods.dropLast) (value : Str) :
    (modifiers value mods).length < (expandChain value mods).length := by
  induction mods generalizing value with
  | nil => cases h
  | cons m mods ih =>
    cases mods with
    | nil => cases h
    | cons m' mods =>
      cases m with
      | part p =>
        rw [List.dropLast_cons_cons, List.mem_cons] at h
        show (modifiers (applyModifier value (.part p)) (m' :: mods)).length < _
        rw [applyModifier_eq_modify]
        exact ih (h.resolve_left (by simp)) _
      | colon =>
        have hlen := length_modifiers (value ++ [(':' : CodePoint)]) (m' :: mods)
        show (modifiers (value ++ [(':' : CodePoint)]) (m' :: mods)).length <
          (value ++ (':' : CodePoint) :: spell (m' :: mods)).length
        rw [List.length_append, List.length_cons, length_spell]
        rw [List.length_append, List.length_singleton] at hlen
        rw [List.length_cons] at hlen ⊢
        omega

theorem percented_code {codes : Table} {x : CodePoint} (hx : x ≠ '%') (hval : (codes x).isSome)
    (mods : List Modifier) : Piece.percented codes [] (.code x mods) = modifiers ((codes x).getD []) mods := by
  obtain ⟨val, hval⟩ := Option.isSome_iff_exists.mp hval
  rw [Piece.percented, sub, if_neg hx, if_neg (by simp), hval]
  rfl

/-- The parser's piece is never the longer one, and it is the shorter one unless the two are equal. -/
theorem percented_cases {codes : Table} {p : Piece}
    (h : ∀ (x : CodePoint) mods, p = .code x mods → x ≠ '%' → (codes x).isSome) :
    (p.Plain ∧ p.percented codes [] = p.expanded codes) ∨
      (¬ p.Plain ∧ (p.percented codes []).length < (p.expanded codes).length) := by
  cases p with
  | char c => exact .inl ⟨trivial, rfl⟩
  | code x mods =>
    by_cases hx : x = '%'
    · subst hx
      cases mods with
      | nil => exact .inl ⟨⟨fun _ => rfl, fun hne => absurd rfl hne⟩, rfl⟩
      | cons m mods =>
        refine .inr ⟨fun hplain => List.cons_ne_nil _ _ (hplain.1 rfl), ?_⟩
        show 1 < (('%' : CodePoint) :: spell (m :: mods)).length
        rw [List.length_cons, length_spell, List.length_cons]
        omega
    · have hexpanded : Piece.expanded codes (.code x mods) = expandChain ((codes x).getD []) mods := if_neg hx
      rw [percented_code hx (h x mods rfl hx), hexpanded]
      by_cases hcolon : .colon ∈ mods.dropLast
      · exact .inr ⟨fun hplain => hplain.2 hx hcolon, length_modifiers_lt hcolon _⟩
      · exact .inl ⟨⟨fun heq => absurd heq hx, fun _ => hcolon⟩, modifiers_eq_expandChain hcolon _⟩

/-- Outside an analysis the parser expands a text as the job's options are expanded, unless a modifier stands after
    a `%%` or after a `::`: the parser drops it or applies it, and `expand` leaves it in the text. -/
theorem percent_eq_expand_iff {codes : Table} {text : Str} (h : Defined codes text) :
    percent codes [] text = expand codes text ↔ ∀ p ∈ pieces text, p.Plain := by
  have hpiece : ∀ p ∈ pieces text, (p.Plain ∧ p.percented codes [] = p.expanded codes) ∨
      (¬ p.Plain ∧ (p.percented codes []).length < (p.expanded codes).length) := by
    intro p hp
    exact percented_cases fun x mods hcode => h x mods (hcode ▸ hp)
  have hlen : ∀ p ∈ pieces text, (p.percented codes []).length ≤ (p.expanded codes).length := by
    intro p hp
    rcases hpiece p hp with ⟨_, heq⟩ | ⟨_, hlt⟩
    · rw [heq]
    · exact hlt.le
  rw [percent_eq_flatMap, expand_eq_flatMap, Traverse.flatMap_eq_iff hlen]
  refine forall₂_congr fun p hp => ?_
  rcases hpiece p hp with ⟨hplain, heq⟩ | ⟨hplain, hlt⟩
  · exact iff_of_true heq hplain
  · exact iff_of_false (fun heq => hlt.ne (congrArg List.length heq)) hplain

/-- `%C` is the netlist of an amplifier. -/
def amplifier : Table := fun x => if x = 'C' then some (str "lib/amp.scs") else none

theorem isAsciiLetter_C : (CodePoint.ofChar 'C').isAsciiLetter = true := by decide

theorem percent_results : percent amplifier [] (str "%%/%C:t:r.raw") = expand amplifier (str "%%/%C:t:r.raw") := by
  have hpieces : pieces (str "%%/%C:t:r.raw") =
      [.code '%' [], .char '/', .code 'C' [.part .tail, .part .root], .char '.', .char 'r', .char 'a',
        .char 'w'] := by
    have htext : str "%%/%C:t:r.raw" =
        (['%', '%', '/', '%', 'C', ':', 't', ':', 'r', '.', 'r', 'a', 'w'] : List CodePoint) := rfl
    simp [htext, pieces, takeModifiers, modifier?, isAsciiLetter_C]
  refine (percent_eq_expand_iff ?_).mpr ?_
  · intro x mods hmem hx
    simp only [hpieces, List.mem_cons, Piece.code.injEq, List.not_mem_nil, reduceCtorEq, or_false, false_or] at hmem
    rcases hmem with ⟨rfl, _⟩ | ⟨rfl, _⟩
    · exact absurd rfl hx
    · rfl
  · simp [hpieces, Piece.Plain]

/-- The parser drops the modifier of `%%:r` and applies the one after `::` in `%C:::t`. -/
theorem modifier_kept :
    (Defined amplifier (str "%%:r") ∧ percent amplifier [] (str "%%:r") = str "%" ∧
      expand amplifier (str "%%:r") = str "%:r") ∧
    (Defined amplifier (str "%C:::t") ∧ percent amplifier [] (str "%C:::t") = str "amp.scs:" ∧
      expand amplifier (str "%C:::t") = str "lib/amp.scs::t") := by
  have hroot : pieces (str "%%:r") = [.code '%' [.part .root]] := by
    have htext : str "%%:r" = (['%', '%', ':', 'r'] : List CodePoint) := rfl
    simp [htext, pieces, takeModifiers, modifier?]
  have htail : pieces (str "%C:::t") = [.code 'C' [.colon, .part .tail]] := by
    have htext : str "%C:::t" = (['%', 'C', ':', ':', ':', 't'] : List CodePoint) := rfl
    simp [htext, pieces, takeModifiers, modifier?, isAsciiLetter_C]
  rw [Defined, Defined, percent_eq_flatMap, percent_eq_flatMap, expand_eq_flatMap, expand_eq_flatMap, hroot, htail]
  refine ⟨⟨?_, by decide, by decide⟩, ?_, by decide, by decide⟩
  · intro x mods hmem hx
    rw [List.mem_singleton, Piece.code.injEq] at hmem
    exact absurd hmem.1 hx
  · intro x mods hmem hx
    rw [List.mem_singleton, Piece.code.injEq] at hmem
    rw [hmem.1]
    rfl

end Vamos.Percent
