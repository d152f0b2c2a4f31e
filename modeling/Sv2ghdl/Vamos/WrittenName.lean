import Sv2ghdl.Vamos.Names

/-!
# Written names

`vamos/names.py`: a name as a results file writes it.  Its components are escaped where the format of the file
cannot hold one of their characters.
-/

open Python

namespace Vamos.Names

/-- What a results file uses a name for. -/
inductive Use where
  | psf | nutmeg | file
  deriving DecidableEq, Repr

/-- `_ODD`: the characters that the format cannot hold, if there are any. -/
def Use.odd : Use → Option (CodePoint → Bool)
  | psf => none
  | nutmeg => some fun c => c.isSpace || c = ','
  | file => some fun c => c = '/'

def isSeparator (c : CodePoint) : Bool := c = '.' || c = ':'

/-- `p in (".", ":")` -/
def isMark (part : Str) : Bool := part == str "." || part == str ":"

/-- `_NAME_PARTS.split`: the components with the separators between them. -/
def nameParts : Str → List Str
  | [] => [[]]
  | c :: rest =>
    if isSeparator c then [] :: [c] :: nameParts rest
    else match nameParts rest with
      | part :: parts => (c :: part) :: parts
      | [] => [[c]]

/-- `_odd_escaped`.  Every decoding is shorter than its form, so that the length of the component is enough
    fuel. -/
def oddEscapedFuel (odd : CodePoint → Bool) : Nat → Str → Bool
  | 0, _ => false
  | fuel + 1, part =>
    part.any odd ||
      (isEscaped part && match decodeForm part with
        | .ok name => oddEscapedFuel odd fuel name
        | .error _ => false)

def oddEscaped (odd : CodePoint → Bool) (part : Str) : Bool := oddEscapedFuel odd part.length part

/-- A component, or a separator, as it is written. -/
def writtenPart (odd : CodePoint → Bool) (part : Str) : Str :=
  if isMark part || !oddEscaped odd part then part else escapeName part

def writtenName (use : Use) (name : Str) : Str :=
  match use.odd with
  | none => name
  | some odd =>
    if CodePoint.ofChar '_' ∉ name ∧ !name.any odd then name
    else (nameParts name).flatMap (writtenPart odd)

def unwrittenPart (odd : CodePoint → Bool) (part : Str) : Str :=
  if !isMark part && isEscaped part then
    match decodeForm part with
    | .ok name => if oddEscaped odd name then name else part
    | .error _ => part
  else part

def writtenUnname (use : Use) (written : Str) : Str :=
  match use.odd with
  | none => written
  | some odd =>
    if CodePoint.ofChar '_' ∉ written then written
    else (nameParts written).flatMap (unwrittenPart odd)

/-! ## Components -/

theorem length_encodeChar (c : CodePoint) : 1 ≤ (Utf8.encodeChar c).length := by
  unfold Utf8.encodeChar
  split_ifs <;> exact Nat.le_add_left 1 _

theorem length_escapeByte (b : Byte) : 1 ≤ (escapeByte b).length := by
  unfold escapeByte octalGroup
  split_ifs <;> exact Nat.le_add_left 1 _

theorem length_le_flatMap {α β : Type} {f : α → List β} (h : ∀ a, 1 ≤ (f a).length) (l : List α) :
    l.length ≤ (l.flatMap f).length := by
  induction l with
  | nil => exact Nat.le_refl 0
  | cons a l ih =>
    rw [List.flatMap_cons, List.length_append, List.length_cons, Nat.add_comm]
    exact Nat.add_le_add (h a) ih

/-- An escaped form is longer than the name it stands for. -/
theorem length_lt_escapeName {name : Str} (h : isPlain name = false) :
    name.length < (escapeName name).length := by
  rw [escapeName_of_not_plain h, List.length_cons]
  have hbytes := length_le_flatMap length_encodeChar name
  have hform := length_le_flatMap length_escapeByte (Utf8.encode name)
  exact Nat.lt_succ_of_le (hbytes.trans hform)

theorem decodeForm_escapeName {name : Str} (h : isPlain name = false) :
    decodeForm (escapeName name) = .ok name := by
  rw [escapeName_of_not_plain h]
  exact decodeForm_escape name

theorem oddEscapedFuel_eq {odd : CodePoint → Bool} {fuel : Nat} {part : Str} (h : part.length ≤ fuel) :
    oddEscapedFuel odd fuel part = oddEscapedFuel odd (fuel + 1) part := by
  induction fuel generalizing part with
  | zero =>
    obtain rfl := List.length_eq_zero_iff.mp (Nat.le_zero.mp h)
    rfl
  | succ fuel ih =>
    rw [oddEscapedFuel, oddEscapedFuel]
    congr 1
    cases hescaped : isEscaped part with
    | false => rfl
    | true =>
      obtain ⟨name, hplain, rfl⟩ := (isEscaped_iff part).mp hescaped
      rw [decodeForm_escapeName hplain]
      dsimp only
      rw [ih (by have := length_lt_escapeName hplain; omega)]

/-- Fuel beyond the length of the component changes nothing. -/
theorem oddEscapedFuel_of_le {odd : CodePoint → Bool} {part : Str} {fuel : Nat} (h : part.length ≤ fuel) :
    oddEscapedFuel odd fuel part = oddEscaped odd part := by
  induction fuel, h using Nat.le_induction with
  | base => rfl
  | succ fuel h ih => rw [← oddEscapedFuel_eq h, ih]

theorem length_lt_of_decodeForm {part name : Str} (h : isEscaped part = true) (hname : decodeForm part = .ok name) :
    name.length < part.length := by
  obtain ⟨name', hplain, rfl⟩ := (isEscaped_iff part).mp h
  rw [decodeForm_escapeName hplain] at hname
  cases hname
  exact length_lt_escapeName hplain

/-- A component is escaped when it has an odd character, or is the escaped form of one that is escaped. -/
theorem oddEscaped_iff {odd : CodePoint → Bool} {part : Str} : oddEscaped odd part = true ↔
    part.any odd = true ∨ ∃ name, isPlain name = false ∧ part = escapeName name ∧ oddEscaped odd name = true := by
  have heq : oddEscaped odd part = oddEscapedFuel odd (part.length + 1) part := oddEscapedFuel_eq (Nat.le_refl _)
  rw [heq, oddEscapedFuel, Bool.or_eq_true, Bool.and_eq_true, isEscaped_iff]
  apply or_congr_right
  constructor
  · intro ⟨⟨name, hplain, hpart⟩, hodd⟩
    subst hpart
    rw [decodeForm_escapeName hplain] at hodd
    dsimp only at hodd
    rw [oddEscapedFuel_of_le (length_lt_escapeName hplain).le] at hodd
    exact ⟨name, hplain, rfl, hodd⟩
  · intro ⟨name, hplain, hpart, hodd⟩
    subst hpart
    refine ⟨⟨name, hplain, rfl⟩, ?_⟩
    rw [decodeForm_escapeName hplain]
    dsimp only
    rwa [oddEscapedFuel_of_le (length_lt_escapeName hplain).le]

/-! ## Reading a written name -/

/-- Components without a separator, with the separators between them. -/
inductive Parts : List Str → Prop
  | single {part : Str} (h : ∀ c ∈ part, isSeparator c = false) : Parts [part]
  | cons {part : Str} {mark : CodePoint} {parts : List Str} (h : ∀ c ∈ part, isSeparator c = false)
    (hmark : isSeparator mark = true) (hparts : Parts parts) : Parts (part :: [mark] :: parts)

theorem parts_nameParts (name : Str) : Parts (nameParts name) ∧ (nameParts name).flatten = name := by
  induction name with
  | nil => exact ⟨.single fun _ h => absurd h List.not_mem_nil, rfl⟩
  | cons c rest ih =>
    obtain ⟨hparts, hflat⟩ := ih
    unfold nameParts
    cases hc : isSeparator c with
    | true =>
      rw [if_pos rfl]
      refine ⟨.cons (fun _ h => absurd h List.not_mem_nil) hc hparts, ?_⟩
      rw [List.flatten_cons, List.flatten_cons, hflat]
      rfl
    | false =>
      rw [if_neg Bool.false_ne_true]
      have hcons {part : Str} (h : ∀ d ∈ part, isSeparator d = false) : ∀ d ∈ c :: part, isSeparator d = false := by
        intro d hd
        rcases List.mem_cons.mp hd with rfl | hd
        · exact hc
        · exact h d hd
      cases hrest : nameParts rest with
      | nil =>
        rw [hrest] at hparts
        cases hparts
      | cons part parts =>
        rw [hrest] at hparts hflat
        rw [← hflat]
        refine ⟨?_, rfl⟩
        cases hparts with
        | single h => exact .single (hcons h)
        | cons h hmark hparts => exact .cons (hcons h) hmark hparts

theorem nameParts_append {part : Str} (h : ∀ c ∈ part, isSeparator c = false) {rest part' : Str}
    {parts : List Str} (hrest : nameParts rest = part' :: parts) :
    nameParts (part ++ rest) = (part ++ part') :: parts := by
  induction part with
  | nil => exact hrest
  | cons c part ih =>
    rw [List.cons_append, nameParts, h c List.mem_cons_self, if_neg Bool.false_ne_true,
      ih fun d hd => h d (List.mem_cons_of_mem c hd)]
    rfl

theorem nameParts_flatten {parts : List Str} (h : Parts parts) : nameParts parts.flatten = parts := by
  induction h with
  | @single part h =>
    have hrest : nameParts [] = [] :: [] := rfl
    rw [List.flatten_singleton, ← List.append_nil part, nameParts_append h hrest, List.append_nil]
  | @cons part mark parts h hmark hparts ih =>
    have hrest : nameParts (mark :: parts.flatten) = [] :: [mark] :: parts := by
      rw [nameParts, if_pos hmark, ih]
    have hflat : (part :: [mark] :: parts).flatten = part ++ mark :: parts.flatten := by
      rw [List.flatten_cons, List.flatten_cons]
      rfl
    rw [hflat, nameParts_append h hrest, List.append_nil]

theorem isMark_singleton {mark : CodePoint} (h : isSeparator mark = true) : isMark [mark] = true := by
  unfold isSeparator at h
  unfold isMark
  rcases Bool.or_eq_true_iff.mp h with h | h
  · rw [of_decide_eq_true h]
    rfl
  · rw [of_decide_eq_true h]
    rfl

theorem not_isMark {part : Str} (h : ∀ c ∈ part, isSeparator c = false) : isMark part = false := by
  unfold isMark
  rw [Bool.or_eq_false_iff, beq_eq_false_iff_ne, beq_eq_false_iff_ne]
  constructor
  · rintro rfl
    exact absurd (h '.' (List.mem_singleton_self _)) (by decide)
  · rintro rfl
    exact absurd (h ':' (List.mem_singleton_self _)) (by decide)

theorem Parts.mem {parts : List Str} (h : Parts parts) {part : Str} (hp : part ∈ parts) :
    (∀ c ∈ part, isSeparator c = false) ∨ ∃ mark, isSeparator mark = true ∧ part = [mark] := by
  induction h with
  | single h =>
    cases List.mem_singleton.mp hp
    exact .inl h
  | cons h hmark _ ih =>
    rcases List.mem_cons.mp hp with rfl | hp
    · exact .inl h
    · rcases List.mem_cons.mp hp with rfl | hp
      · exact .inr ⟨_, hmark, rfl⟩
      · exact ih hp

theorem writtenPart_mark (odd : CodePoint → Bool) {mark : CodePoint} (h : isSeparator mark = true) :
    writtenPart odd [mark] = [mark] := by
  unfold writtenPart
  rw [isMark_singleton h]
  rfl

theorem unwrittenPart_mark (odd : CodePoint → Bool) {mark : CodePoint} (h : isSeparator mark = true) :
    unwrittenPart odd [mark] = [mark] := by
  unfold unwrittenPart
  rw [isMark_singleton h]
  rfl

theorem not_isSeparator_escapeName (name : Str) : ∀ c ∈ escapeName name, isSeparator c = false := by
  intro c hc
  have hname := isNameChar_escapeName name c hc
  by_contra hsep
  rw [Bool.not_eq_false] at hsep
  rcases Bool.or_eq_true_iff.mp hsep with h | h
  · rw [of_decide_eq_true h] at hname
    cases hname
  · rw [of_decide_eq_true h] at hname
    cases hname

theorem Parts.written {parts : List Str} (h : Parts parts) (odd : CodePoint → Bool) :
    Parts (parts.map (writtenPart odd)) := by
  induction h with
  | @single part h =>
    apply Parts.single
    unfold writtenPart
    split
    · exact h
    · exact not_isSeparator_escapeName part
  | @cons part mark parts h hmark hparts ih =>
    rw [List.map_cons, List.map_cons, writtenPart_mark odd hmark]
    apply Parts.cons _ hmark ih
    unfold writtenPart
    split
    · exact h
    · exact not_isSeparator_escapeName part

theorem not_isNameChar_odd {use : Use} {odd : CodePoint → Bool} (h : use.odd = some odd) {c : CodePoint}
    (hc : odd c = true) : isNameChar c = false := by
  have hspace (hc : c.isSpace = true) : isNameChar c = false := by
    by_contra hname
    rw [Bool.not_eq_false] at hname
    simp only [isNameChar, CodePoint.isAsciiAlnum, CodePoint.isAsciiLetter, CodePoint.isUpperAscii,
      CodePoint.isLowerAscii, CodePoint.isAsciiDigit, CodePoint.isSpace, Bool.or_eq_true, Bool.and_eq_true,
      decide_eq_true_eq, beq_iff_eq, CodePoint.eq_ofChar_iff] at hc hname
    have : '_'.toNat = 95 := rfl
    omega
  cases use with
  | psf => cases h
  | nutmeg =>
    cases h
    rcases Bool.or_eq_true_iff.mp hc with hc | hc
    · exact hspace hc
    · rw [of_decide_eq_true hc]
      rfl
  | file =>
    cases h
    rw [of_decide_eq_true hc]
    rfl

theorem isPlain_of_oddEscaped {use : Use} {odd : CodePoint → Bool} (h : use.odd = some odd) {part : Str}
    (hpart : oddEscaped odd part = true) : isPlain part = false := by
  rcases oddEscaped_iff.mp hpart with hany | ⟨name, hplain, rfl, _⟩
  · obtain ⟨c, hc, hodd⟩ := List.any_eq_true.mp hany
    have hname := not_isNameChar_odd h hodd
    by_contra hplain
    rw [Bool.not_eq_false] at hplain
    have hall := isNameChar_escapeName part c (by rwa [escapeName, if_pos hplain])
    rw [hname] at hall
    cases hall
  · rw [isPlain_escapeName, hplain]

theorem unwrittenPart_writtenPart {use : Use} {odd : CodePoint → Bool} (h : use.odd = some odd) {part : Str}
    (hpart : ∀ c ∈ part, isSeparator c = false) : unwrittenPart odd (writtenPart odd part) = part := by
  unfold writtenPart
  rw [not_isMark hpart, Bool.false_or]
  cases hodd : oddEscaped odd part with
  | true =>
    have hplain := isPlain_of_oddEscaped h hodd
    rw [if_neg (by simp)]
    unfold unwrittenPart
    rw [not_isMark (not_isSeparator_escapeName part), (isEscaped_iff _).mpr ⟨part, hplain, rfl⟩,
      decodeForm_escapeName hplain]
    exact if_pos hodd
  | false =>
    rw [Bool.not_false, if_pos rfl]
    unfold unwrittenPart
    split
    · rename_i hescaped
      rw [not_isMark hpart, Bool.not_false, Bool.true_and] at hescaped
      obtain ⟨name, hplain, rfl⟩ := (isEscaped_iff part).mp hescaped
      rw [decodeForm_escapeName hplain]
      -- the form of an escaped component would be escaped too
      have hname : ¬oddEscaped odd name = true := by
        intro hname
        rw [oddEscaped_iff.mpr (.inr ⟨name, hplain, rfl, hname⟩)] at hodd
        cases hodd
      exact if_neg hname
    · rfl

/-- A written name is read back. -/
theorem writtenUnname_writtenName (use : Use) (name : Str) :
    writtenUnname use (writtenName use name) = name := by
  unfold writtenName
  cases hodd : use.odd with
  | none =>
    unfold writtenUnname
    rw [hodd]
  | some odd =>
    dsimp only
    obtain ⟨hparts, hflat⟩ := parts_nameParts name
    unfold writtenUnname
    rw [hodd]
    dsimp only
    by_cases hplain : CodePoint.ofChar '_' ∉ name ∧ (!name.any odd) = true
    · rw [if_pos hplain, if_pos hplain.1]
    rw [if_neg hplain, List.flatMap_def, nameParts_flatten (hparts.written odd), List.flatMap_map]
    split
    · -- nothing is escaped, since an escaped form starts with `_`
      rename_i hnone
      have hsame : (nameParts name).map (writtenPart odd) = (nameParts name).map id := by
        apply List.map_congr_left
        intro part hpart
        by_contra hne
        have hwritten : writtenPart odd part ∈ (nameParts name).map (writtenPart odd) :=
          List.mem_map_of_mem hpart
        apply hnone
        apply List.mem_flatten.mpr ⟨_, hwritten, _⟩
        unfold writtenPart at hne ⊢
        split at hne
        · exact absurd rfl hne
        · rename_i hodd'
          rw [if_neg hodd']
          have hescaped : oddEscaped odd part = true := by
            by_contra h
            exact hodd' (by simp [h])
          rw [escapeName_of_not_plain (isPlain_of_oddEscaped hodd hescaped)]
          exact List.mem_cons_self
      rw [hsame, List.map_id, hflat]
    · conv_rhs => rw [← hflat, ← List.flatMap_id']
      apply List.flatMap_congr
      intro part hpart
      rcases hparts.mem hpart with hclean | ⟨mark, hmark, rfl⟩
      · exact unwrittenPart_writtenPart hodd hclean
      · show unwrittenPart odd (writtenPart odd [mark]) = [mark]
        rw [writtenPart_mark odd hmark, unwrittenPart_mark odd hmark]

theorem writtenName_injective (use : Use) : Function.Injective (writtenName use) :=
  Function.LeftInverse.injective (writtenUnname_writtenName use)

/-! ## What a written name holds -/

theorem not_odd_separator {use : Use} {odd : CodePoint → Bool} (h : use.odd = some odd) {mark : CodePoint}
    (hmark : isSeparator mark = true) : odd mark = false := by
  rcases Bool.or_eq_true_iff.mp hmark with hmark | hmark
  · rw [of_decide_eq_true hmark]
    cases use <;> cases h <;> rfl
  · rw [of_decide_eq_true hmark]
    cases use <;> cases h <;> rfl

/-- A component that is left as it is has no odd character, and an escaped form has none. -/
theorem not_odd_writtenPart {use : Use} {odd : CodePoint → Bool} (h : use.odd = some odd) {part : Str}
    (hpart : (∀ c ∈ part, isSeparator c = false) ∨ ∃ mark, isSeparator mark = true ∧ part = [mark]) :
    ∀ c ∈ writtenPart odd part, odd c = false := by
  intro c hc
  rcases hpart with hclean | ⟨mark, hmark, rfl⟩
  · unfold writtenPart at hc
    rw [not_isMark hclean, Bool.false_or] at hc
    split at hc
    · rename_i hkept
      by_contra hodd
      have hany : part.any odd = true := List.any_eq_true.mpr ⟨c, hc, Bool.not_eq_false _ ▸ hodd⟩
      rw [oddEscaped_iff.mpr (.inl hany)] at hkept
      cases hkept
    · by_contra hodd
      have hname := isNameChar_escapeName part c hc
      rw [not_isNameChar_odd h (Bool.not_eq_false _ ▸ hodd)] at hname
      cases hname
  · rw [writtenPart_mark odd hmark, List.mem_singleton] at hc
    rw [hc]
    exact not_odd_separator h hmark

/-- A written name has no character that the format of its file cannot hold. -/
theorem not_odd_writtenName {use : Use} {odd : CodePoint → Bool} (h : use.odd = some odd) (name : Str) :
    ∀ c ∈ writtenName use name, odd c = false := by
  intro c hc
  unfold writtenName at hc
  rw [h] at hc
  dsimp only at hc
  split at hc
  · rename_i hsame
    by_contra hodd
    have hany : name.any odd = true := List.any_eq_true.mpr ⟨c, hc, Bool.not_eq_false _ ▸ hodd⟩
    rw [hany] at hsame
    exact absurd hsame.2 (by decide)
  · obtain ⟨part, hpart, hc⟩ := List.mem_flatMap.mp hc
    exact not_odd_writtenPart h ((parts_nameParts name).1.mem hpart) c hc

/-- Written names are read back and told apart, they hold what their file can hold, and to find out whether a component
is escaped takes as many decodings as it has characters at most. -/
theorem writtenName_reversible_safe :
    (∀ use name, writtenUnname use (writtenName use name) = name) ∧
    (∀ use name name', name ≠ name' → writtenName use name ≠ writtenName use name') ∧
    (∀ name, ∀ c ∈ writtenName .nutmeg name, c.isSpace = false ∧ c ≠ CodePoint.ofChar ',') ∧
    (∀ name, ∀ c ∈ writtenName .file name, c ≠ CodePoint.ofChar '/') ∧
    (∀ part name, isEscaped part = true → decodeForm part = .ok name → name.length < part.length) ∧
    ∀ odd part fuel, part.length ≤ fuel → oddEscapedFuel odd fuel part = oddEscaped odd part := by
  refine ⟨writtenUnname_writtenName, fun use name name' hne heq => hne (writtenName_injective use heq), ?_, ?_,
    fun part name => length_lt_of_decodeForm, fun odd part fuel => oddEscapedFuel_of_le⟩
  · intro name c hc
    have hodd := not_odd_writtenName (show Use.nutmeg.odd = _ from rfl) name c hc
    exact ⟨(Bool.or_eq_false_iff.mp hodd).1, of_decide_eq_false (Bool.or_eq_false_iff.mp hodd).2⟩
  · intro name c hc
    exact of_decide_eq_false (not_odd_writtenName (show Use.file.odd = _ from rfl) name c hc)

end Vamos.Names
