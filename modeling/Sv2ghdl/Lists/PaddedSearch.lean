import Mathlib.Data.List.Lex
import Mathlib.Tactic

/-!
# Search in a list of padded names

Binary search in a strictly sorted list, and the order of names that blanks are appended to.
-/

namespace PaddedSearch

section Search

variable {α : Type} [LinearOrder α]

/-- Binary search between two positions, both included. -/
def search (l : List α) (key : α) : Nat → Int → Int → Option Nat
  | 0, _, _ => none
  | fuel + 1, lo, hi =>
    if lo ≤ hi then
      let mid := (lo + hi).tdiv 2
      match l[mid.toNat]? with
      | none => none
      | some x =>
        if x = key then some mid.toNat
        else if x < key then search l key fuel (mid + 1) hi
        else search l key fuel lo (mid - 1)
    else none

variable {l : List α} {key : α}

/-- What is found is at the position. -/
theorem getElem?_of_search {fuel : Nat} {lo hi : Int} {r : Nat} (h : search l key fuel lo hi = some r) :
    l[r]? = some key := by
  induction fuel generalizing lo hi with
  | zero => cases h
  | succ fuel ih =>
    rw [search] at h
    split at h
    · dsimp only at h
      split at h
      · cases h
      · rename_i x hx
        split at h
        · rename_i heq
          rw [← Option.some.inj h, hx, heq]
        · split at h
          · exact ih h
          · exact ih h
    · cases h

/-- The search ends at the position of the key. -/
theorem search_eq_some (hl : l.Pairwise (· < ·)) {r : Nat} (hr : l[r]? = some key) {fuel : Nat} {lo hi : Int}
    (hlo : 0 ≤ lo) (hlor : lo ≤ r) (hrhi : r ≤ hi) (hhi : hi < l.length) (hfuel : hi - lo < fuel) :
    search l key fuel lo hi = some r := by
  obtain ⟨hrl, hkey⟩ := List.getElem?_eq_some_iff.mp hr
  induction fuel generalizing lo hi with
  | zero => omega
  | succ fuel ih =>
    rw [search, if_pos (by omega)]
    dsimp only
    have hmid : (lo + hi).tdiv 2 = (lo + hi) / 2 := Int.tdiv_eq_ediv_of_nonneg (by omega)
    rw [hmid]
    obtain ⟨mid, hmidNat⟩ : ∃ mid : Nat, (lo + hi) / 2 = mid := ⟨((lo + hi) / 2).toNat, by omega⟩
    rw [hmidNat, Int.toNat_natCast]
    have hlt : mid < l.length := by omega
    rw [List.getElem?_eq_getElem hlt]
    dsimp only
    -- the list is sorted, so the element in the middle says on which side the key is
    rcases lt_trichotomy mid r with hmr | rfl | hmr
    · have hless : l[mid] < key := hkey ▸ List.pairwise_iff_getElem.mp hl mid r hlt hrl hmr
      rw [if_neg hless.ne, if_pos hless]
      exact ih (by omega) (by omega) hrhi hhi (by omega)
    · rw [if_pos hkey]
    · have hless : key < l[mid] := hkey ▸ List.pairwise_iff_getElem.mp hl r mid hrl hlt hmr
      rw [if_neg hless.ne', if_neg hless.asymm]
      exact ih hlo hlor (by omega) (by omega) (by omega)

end Search

section Padding

variable {α : Type} [LinearOrder α] {blank : α}

/-- The name with blanks after it. -/
def ljust (blank : α) (width : Nat) (p : List α) : List α := p ++ List.replicate (width - p.length) blank

/-- Blanks do not change the order, when no name has less than a blank in it or ends in one. -/
theorem ljust_lt {p q : List α} {width : Nat} (h : p < q) (hq : ∀ c ∈ q, blank ≤ c)
    (hlast : q.getLast? ≠ some blank) (hwidth : q.length ≤ width) : ljust blank width p < ljust blank width q := by
  induction q generalizing p width with
  | nil => exact absurd h (List.not_lt_nil p)
  | cons c q ih =>
    obtain ⟨width, rfl⟩ : ∃ w, width = w + 1 := ⟨width - 1, by
      rw [List.length_cons] at hwidth
      omega⟩
    have hrest : q.getLast? ≠ some blank ∨ q = [] := by
      cases q with
      | nil => exact .inr rfl
      | cons c' q => exact .inl (by rwa [List.getLast?_cons_cons] at hlast)
    rw [List.length_cons] at hwidth
    cases p with
    | nil =>
      have hpad : ljust blank (width + 1) [] = blank :: ljust blank width [] := rfl
      have hcons : ljust blank (width + 1) (c :: q) = c :: ljust blank width q := by
        rw [ljust, List.length_cons, Nat.add_sub_add_right]
        rfl
      rw [hpad, hcons, List.cons_lt_cons_iff]
      rcases (hq c List.mem_cons_self).lt_or_eq with hlt | rfl
      · exact .inl hlt
      · refine .inr ⟨rfl, ?_⟩
        -- the name goes on, as it does not end here
        have hne : q ≠ [] := fun hnil => hlast (by rw [hnil]; rfl)
        obtain ⟨c', q', rfl⟩ := List.exists_cons_of_ne_nil hne
        exact ih (List.nil_lt_cons c' q') (fun d hd => hq d (List.mem_cons_of_mem _ hd))
          (hrest.resolve_right hne) (by omega)
    | cons a p =>
      have hcons : ∀ (x : α) (y : List α), ljust blank (width + 1) (x :: y) = x :: ljust blank width y := by
        intro x y
        rw [ljust, List.length_cons, Nat.add_sub_add_right]
        rfl
      rw [hcons, hcons, List.cons_lt_cons_iff]
      rcases List.cons_lt_cons_iff.mp h with hlt | ⟨rfl, hlt⟩
      · exact .inl hlt
      · have hne : q ≠ [] := fun hnil => List.not_lt_nil p (hnil ▸ hlt)
        exact .inr ⟨rfl, ih hlt (fun d hd => hq d (List.mem_cons_of_mem _ hd)) (hrest.resolve_right hne) (by omega)⟩

/-- Nor do they make two names one. -/
theorem ljust_inj {p q : List α} {width : Nat} (hp : ∀ c ∈ p, blank ≤ c) (hplast : p.getLast? ≠ some blank)
    (hpwidth : p.length ≤ width) (hq : ∀ c ∈ q, blank ≤ c) (hqlast : q.getLast? ≠ some blank)
    (hqwidth : q.length ≤ width) (h : ljust blank width p = ljust blank width q) : p = q := by
  rcases lt_trichotomy p q with hlt | heq | hlt
  · exact absurd h (ljust_lt hlt hq hqlast hqwidth).ne
  · exact heq
  · exact absurd h (ljust_lt hlt hp hplast hpwidth).ne'

end Padding

end PaddedSearch
