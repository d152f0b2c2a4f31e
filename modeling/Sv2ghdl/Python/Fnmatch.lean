import Sv2ghdl.Python.Str

/-!
# Shell patterns

`fnmatch.fnmatchcase`: `*` is any text, `?` any one character, `[seq]` a character in `seq` and `[!seq]`
one that is not; a `[` that no `]` closes is a character like the others.
-/

namespace Python.Fnmatch

/-- A part of a pattern. -/
inductive Item where
  | star
  | any
  | lit (c : CodePoint)
  | cls (negated : Bool) (seq : Str)
  deriving DecidableEq, Repr

/-- A character that may come first, and what follows it. -/
def skip (c : CodePoint) (pat : Str) : Str × Str :=
  if pat.head? = some c then ([c], pat.tail) else ([], pat)

/-- What stands between the brackets, and the pattern after them.  A `]` that comes first is in the sequence. -/
def closing (pat : Str) : Option (Str × Str) :=
  let bang := skip '!' pat
  let first := skip ']' bang.2
  match first.2.dropWhile (· ≠ (']' : CodePoint)) with
  | [] => none
  | _ :: rest => some (bang.1 ++ first.1 ++ first.2.takeWhile (· ≠ (']' : CodePoint)), rest)

/-- Whether a character is in a sequence of characters and ranges. -/
def inSeq : Str → CodePoint → Bool
  | a :: d :: b :: rest, c =>
    if d = '-' then (a ≤ c && c ≤ b) || inSeq rest c else a == c || inSeq (d :: b :: rest) c
  | a :: rest, c => a == c || inSeq rest c
  | [], _ => false

def cls (stuff : Str) : Item :=
  if stuff.head? = some ('!' : CodePoint) then .cls true stuff.tail else .cls false stuff

theorem length_skip (c : CodePoint) (pat : Str) : (skip c pat).2.length ≤ pat.length := by
  rw [skip]
  split_ifs
  · exact (List.length_tail).trans_le (Nat.sub_le _ 1)
  · exact le_rfl

theorem length_closing {pat stuff rest : Str} (h : closing pat = some (stuff, rest)) :
    rest.length < pat.length := by
  rw [closing] at h
  split at h
  · cases h
  · rename_i c rest' hdrop
    cases h
    have hlen := congrArg List.length hdrop
    have hdropped := (List.dropWhile_suffix (· ≠ (']' : CodePoint)) (l := (skip ']' (skip '!' pat).2).2)).length_le
    have hfirst := length_skip ']' (skip '!' pat).2
    have hbang := length_skip '!' pat
    rw [List.length_cons] at hlen
    omega

/-- `fnmatch.translate` -/
def translate (pat : Str) : List Item :=
  match pat with
  | [] => []
  | c :: rest =>
    if c = '*' then .star :: translate rest
    else if c = '?' then .any :: translate rest
    else if c = '[' then
      match _hclosing : closing rest with
      | some (stuff, rest') => cls stuff :: translate rest'
      | none => .lit c :: translate rest
    else .lit c :: translate rest
termination_by pat.length
decreasing_by
  all_goals simp only [List.length_cons]
  case _ => omega
  case _ => omega
  case _ => have := length_closing _hclosing; omega
  case _ => omega
  case _ => omega

def matchItems : List Item → Str → Bool
  | [], s => s.isEmpty
  | .star :: items, s => s.tails.any (matchItems items)
  | _ :: _, [] => false
  | .any :: items, _ :: s => matchItems items s
  | .lit c :: items, d :: s => c == d && matchItems items s
  | .cls negated seq :: items, d :: s => (inSeq seq d != negated) && matchItems items s

def fnmatchcase (name pat : Str) : Bool := matchItems (translate pat) name

/-! ## What a pattern accepts -/

/-- The texts of one part. -/
def Item.Accepts : Item → Str → Prop
  | .star, _ => True
  | .any, s => ∃ c, s = [c]
  | .lit c, s => s = [c]
  | .cls negated seq, s => ∃ c, s = [c] ∧ inSeq seq c ≠ negated

theorem matchItems_iff (items : List Item) (s : Str) :
    matchItems items s = true ↔ ∃ parts, List.Forall₂ Item.Accepts items parts ∧ parts.flatten = s := by
  induction items generalizing s with
  | nil =>
    rw [matchItems, List.isEmpty_iff]
    constructor
    · rintro rfl
      exact ⟨[], .nil, rfl⟩
    · rintro ⟨parts, hparts, rfl⟩
      cases hparts
      rfl
  | cons item items ih =>
    have hcons : (∃ parts, List.Forall₂ Item.Accepts (item :: items) parts ∧ parts.flatten = s) ↔
        ∃ t u, item.Accepts t ∧ matchItems items u = true ∧ t ++ u = s := by
      constructor
      · rintro ⟨parts, hparts, rfl⟩
        cases hparts with
        | cons hitem hrest => exact ⟨_, _, hitem, (ih _).mpr ⟨_, hrest, rfl⟩, rfl⟩
      · rintro ⟨t, u, hitem, hrest, rfl⟩
        obtain ⟨parts, hparts, rfl⟩ := (ih u).mp hrest
        exact ⟨t :: parts, .cons hitem hparts, rfl⟩
    rw [hcons]
    -- All parts but `*` take one character.
    have hone : ∀ (p : CodePoint → Prop), (∀ t, item.Accepts t ↔ ∃ c, t = [c] ∧ p c) →
        ((∃ t u, item.Accepts t ∧ matchItems items u = true ∧ t ++ u = s) ↔
          ∃ c u, s = c :: u ∧ p c ∧ matchItems items u = true) := by
      intro p hp
      constructor
      · rintro ⟨t, u, hitem, hrest, rfl⟩
        obtain ⟨c, rfl, hc⟩ := (hp t).mp hitem
        exact ⟨c, u, rfl, hc, hrest⟩
      · rintro ⟨c, u, rfl, hc, hrest⟩
        exact ⟨[c], u, (hp [c]).mpr ⟨c, rfl, hc⟩, hrest, rfl⟩
    cases item with
    | star =>
      rw [matchItems, List.any_eq_true]
      constructor
      · rintro ⟨u, hu, hrest⟩
        obtain ⟨t, ht⟩ := (List.mem_tails u s).mp hu
        exact ⟨t, u, trivial, hrest, ht⟩
      · rintro ⟨t, u, -, hrest, ht⟩
        exact ⟨u, (List.mem_tails u s).mpr ⟨t, ht⟩, hrest⟩
    | any =>
      rw [hone (fun _ => True) (by simp [Item.Accepts])]
      cases s with
      | nil => simp [matchItems]
      | cons d s => simp [matchItems]
    | lit c =>
      rw [hone (fun d => d = c) (by simp [Item.Accepts])]
      cases s with
      | nil => simp [matchItems]
      | cons d s =>
        simp only [matchItems, Bool.and_eq_true, beq_iff_eq, List.cons.injEq]
        constructor
        · rintro ⟨rfl, h⟩
          exact ⟨c, s, ⟨rfl, rfl⟩, rfl, h⟩
        · rintro ⟨e, u, ⟨rfl, rfl⟩, rfl, h⟩
          exact ⟨rfl, h⟩
    | cls negated seq =>
      rw [hone (fun d => inSeq seq d ≠ negated) (by simp [Item.Accepts])]
      cases s with
      | nil => simp [matchItems]
      | cons d s =>
        simp only [matchItems, Bool.and_eq_true, bne_iff_ne, List.cons.injEq]
        constructor
        · rintro ⟨hd, h⟩
          exact ⟨d, s, ⟨rfl, rfl⟩, hd, h⟩
        · rintro ⟨e, u, ⟨rfl, rfl⟩, hd, h⟩
          exact ⟨hd, h⟩

theorem fnmatchcase_iff (name pat : Str) : fnmatchcase name pat = true ↔
    ∃ parts, List.Forall₂ Item.Accepts (translate pat) parts ∧ parts.flatten = name :=
  matchItems_iff (translate pat) name

/-! ## Characters in brackets -/

/-- A character in brackets is itself. -/
theorem translate_bracket {c : CodePoint} (hc : c ≠ '!') (pat : Str) :
    translate ('[' :: c :: ']' :: pat) = .cls false [c] :: translate pat := by
  have hclosing : closing (c :: ']' :: pat) = some ([c], pat) := by
    by_cases hbracket : c = ']'
    · subst hbracket
      simp [closing, skip]
    · simp [closing, skip, hc, hbracket]
  rw [translate, if_neg (by decide), if_neg (by decide), if_pos rfl]
  split
  · rename_i stuff rest heq
    rw [hclosing] at heq
    cases heq
    rw [cls, if_neg (by simpa using hc)]
  · rename_i heq
    rw [hclosing] at heq
    cases heq

theorem translate_star (pat : Str) : translate ('*' :: pat) = .star :: translate pat := by
  rw [translate, if_pos rfl]

theorem translate_any (pat : Str) : translate ('?' :: pat) = .any :: translate pat := by
  rw [translate, if_neg (by decide), if_pos rfl]

theorem translate_lit {c : CodePoint} (hstar : c ≠ '*') (hany : c ≠ '?') (hopen : c ≠ '[') (pat : Str) :
    translate (c :: pat) = .lit c :: translate pat := by
  rw [translate, if_neg hstar, if_neg hany, if_neg hopen]

theorem accepts_bracket (c : CodePoint) (s : Str) : (Item.cls false [c]).Accepts s ↔ s = [c] := by
  constructor
  · rintro ⟨d, rfl, hd⟩
    have heq : c = d := by simpa [inSeq] using hd
    rw [heq]
  · rintro rfl
    exact ⟨c, rfl, by simp [inSeq]⟩

end Python.Fnmatch
