import Mathlib.Algebra.BigOperators.Group.Finset.Basic
import Mathlib.Data.List.Dedup
import Mathlib.Tactic

/-!
# Parities

The exclusive or of a list of values, and what is left of it when pairs of equal terms are dropped.
-/

namespace Parity

def xorAll (bs : List Bool) : Bool := bs.foldl (· ^^ ·) false

theorem foldl_xor (bs : List Bool) (b : Bool) : bs.foldl (· ^^ ·) b = (b ^^ xorAll bs) := by
  induction bs generalizing b with
  | nil => simp [xorAll]
  | cons c bs ih =>
    unfold xorAll
    rw [List.foldl_cons, List.foldl_cons, ih, ih (false ^^ c), Bool.false_xor, Bool.xor_assoc]

@[simp] theorem xorAll_nil : xorAll [] = false := rfl

@[simp] theorem xorAll_cons (b : Bool) (bs : List Bool) : xorAll (b :: bs) = (b ^^ xorAll bs) := by
  rw [xorAll, List.foldl_cons, foldl_xor, Bool.false_xor]

variable {α : Type}

/-- The number of terms that hold. -/
def total (u : α → Bool) (l : List α) : Nat := (l.map fun a => if u a then 1 else 0).sum

theorem xorAll_map (u : α → Bool) (l : List α) : xorAll (l.map u) = decide (total u l % 2 = 1) := by
  induction l with
  | nil => rfl
  | cons a l ih =>
    have htotal : total u (a :: l) = (if u a then 1 else 0) + total u l := rfl
    rw [List.map_cons, xorAll_cons, ih, htotal]
    rcases Nat.mod_two_eq_zero_or_one (total u l) with h | h <;> cases u a <;> simp [h, Nat.add_mod]

/-- What is left when pairs of equal terms are dropped. -/
theorem xorAll_odd [beq : BEq α] [LawfulBEq α] (u : α → Bool) {l odd : List α} (hodd : odd.Nodup)
    (h : ∀ a, a ∈ odd ↔ l.count a % 2 = 1) : xorAll (l.map u) = xorAll (odd.map u) := by
  classical
  obtain rfl : beq = instBEqOfDecidableEq := lawful_beq_subsingleton _ _
  have hmod : total u l % 2 = total u odd % 2 := by
    have hset : odd.toFinset = l.toFinset.filter fun a => l.count a % 2 = 1 := by
      ext a
      rw [List.mem_toFinset, h, Finset.mem_filter, List.mem_toFinset]
      constructor
      · intro ha
        exact ⟨List.count_pos_iff.mp (by omega), ha⟩
      · exact fun ha => ha.2
    unfold total
    rw [Finset.sum_list_map_count, ← List.sum_toFinset _ hodd, hset, Finset.sum_filter, Finset.sum_nat_mod,
      Finset.sum_nat_mod l.toFinset 2 fun a => if l.count a % 2 = 1 then if u a then 1 else 0 else 0]
    congr 1
    apply Finset.sum_congr rfl
    intro a _
    rcases Nat.mod_two_eq_zero_or_one (l.count a) with hcount | hcount <;> cases u a <;> simp [hcount]
  rw [xorAll_map, xorAll_map, hmod]

end Parity
