import Mathlib.Data.Nat.Digits.Lemmas
import Mathlib.Tactic

/-!
# Counted loops and limb arrays

C loops over arrays of unsigned words.  An access outside an array, or a sum that its type does not
hold, makes the model fail, so that a run that succeeds has neither.  The words of an array are the
digits of a number, the least significant first.
-/

namespace Clang

/-! ## Loops -/

variable {σ : Type}

/-- `for (i = 0; i < n; i++)` -/
def forUp (body : Nat → σ → Option σ) : Nat → σ → Option σ
  | 0, s => some s
  | n + 1, s => (forUp body n s).bind (body n)

/-- `for (i = n - 1; i >= 0; i--)` -/
def forDown (body : Nat → σ → Option σ) : Nat → σ → Option σ
  | 0, s => some s
  | n + 1, s => (body n s).bind (forDown body n)

/-- An invariant that holds before the loop and that each round keeps. -/
theorem forUp_rule (inv : Nat → σ → Prop) (body : Nat → σ → Option σ) {n : Nat} {s : σ}
    (h : inv 0 s)
    (hstep : ∀ i s, i < n → inv i s → ∃ s', body i s = some s' ∧ inv (i + 1) s') :
    ∃ s', forUp body n s = some s' ∧ inv n s' := by
  induction n with
  | zero => exact ⟨s, rfl, h⟩
  | succ n ih =>
    obtain ⟨s₁, hrun, hinv⟩ := ih fun i s hi => hstep i s (Nat.lt_succ_of_lt hi)
    obtain ⟨s₂, hbody, hinv'⟩ := hstep n s₁ (Nat.lt_succ_self n) hinv
    exact ⟨s₂, by rw [forUp, hrun, Option.bind_some, hbody], hinv'⟩

theorem forDown_rule (inv : Nat → σ → Prop) (body : Nat → σ → Option σ) {n : Nat} {s : σ}
    (h : inv n s)
    (hstep : ∀ i s, i < n → inv (i + 1) s → ∃ s', body i s = some s' ∧ inv i s') :
    ∃ s', forDown body n s = some s' ∧ inv 0 s' := by
  induction n generalizing s with
  | zero => exact ⟨s, rfl, h⟩
  | succ n ih =>
    obtain ⟨s₁, hbody, hinv⟩ := hstep n s (Nat.lt_succ_self n) h
    obtain ⟨s₂, hrun, hinv'⟩ := ih hinv fun i s hi => hstep i s (Nat.lt_succ_of_lt hi)
    exact ⟨s₂, by rw [forDown, hbody, Option.bind_some, hrun], hinv'⟩

/-- A round that fails in every state makes the loop fail. -/
theorem forUp_none {body : Nat → σ → Option σ} {n i : Nat} (hi : i < n)
    (h : ∀ s, body i s = none) (s : σ) : forUp body n s = none := by
  induction n with
  | zero => omega
  | succ n ih =>
    rw [forUp]
    by_cases hin : i = n
    · subst hin
      cases forUp body i s with
      | none => rfl
      | some s' => exact h s'
    · rw [ih (by omega)]
      rfl

/-! ## Words and arrays -/

/-- A value of an unsigned type of `bits` bits. -/
def fits (bits x : Nat) : Option Nat := if x < 2 ^ bits then some x else none

/-- `d[i] = x` -/
def store (d : List Nat) (i x : Nat) : Option (List Nat) :=
  if i < d.length then some (d.set i x) else none

theorem fits_of_lt {bits x : Nat} (h : x < 2 ^ bits) : fits bits x = some x := if_pos h

theorem store_of_lt {d : List Nat} {i : Nat} (h : i < d.length) (x : Nat) :
    store d i x = some (d.set i x) := if_pos h

theorem load_of_lt {a : List Nat} {i : Nat} (h : i < a.length) : a[i]? = some (a.getD i 0) := by
  rw [List.getElem?_eq_getElem h, List.getD_eq_getElem?_getD, List.getElem?_eq_getElem h,
    Option.getD_some]

theorem getD_set {d : List Nat} {i : Nat} (h : i < d.length) (j x : Nat) :
    (d.set i x).getD j 0 = if j = i then x else d.getD j 0 := by
  rw [List.getD_eq_getElem?_getD, List.getElem?_set, List.getD_eq_getElem?_getD]
  by_cases hj : j = i
  · subst hj
    simp [h]
  · rw [if_neg (Ne.symm hj), if_neg hj]

/-- An array of `n` words of `W` bits. -/
structure Limbs (W n : Nat) where
  limbs : List Nat
  length_eq : limbs.length = n
  lt : ∀ x ∈ limbs, x < 2 ^ W

/-- The number an array spells, its first word the least significant. -/
def Limbs.value {W n : Nat} (a : Limbs W n) : Nat := Nat.ofDigits (2 ^ W) a.limbs

/-- The number the first `n` words of an array spell. -/
def prefixValue (W : Nat) (a : List Nat) : Nat → Nat
  | 0 => 0
  | n + 1 => prefixValue W a n + a.getD n 0 * 2 ^ (W * n)

section PrefixValue

variable {W n : Nat} {a : List Nat}

theorem getD_lt (h : ∀ x ∈ a, x < 2 ^ W) (i : Nat) : a.getD i 0 < 2 ^ W := by
  rw [List.getD_eq_getElem?_getD]
  cases hi : a[i]? with
  | none => exact Nat.two_pow_pos W
  | some x => exact h x (List.mem_of_getElem? hi)

theorem mem_set_lt (h : ∀ x ∈ a, x < 2 ^ W) {i x : Nat} (hx : x < 2 ^ W) :
    ∀ y ∈ a.set i x, y < 2 ^ W := by
  intro y hy
  rcases List.mem_or_eq_of_mem_set hy with hy | hy
  · exact h y hy
  · rw [hy]
    exact hx

theorem two_pow_limb_succ (W n : Nat) : 2 ^ (W * (n + 1)) = 2 ^ (W * n) * 2 ^ W := by
  rw [Nat.mul_succ, Nat.pow_add]

theorem prefixValue_lt (h : ∀ x ∈ a, x < 2 ^ W) (n : Nat) : prefixValue W a n < 2 ^ (W * n) := by
  induction n with
  | zero => simp [prefixValue]
  | succ n ih =>
    have hlimb : (a.getD n 0 + 1) * 2 ^ (W * n) ≤ 2 ^ W * 2 ^ (W * n) :=
      Nat.mul_le_mul_right _ (getD_lt h n)
    rw [Nat.add_mul, Nat.one_mul] at hlimb
    rw [prefixValue, two_pow_limb_succ, Nat.mul_comm (2 ^ (W * n))]
    omega

theorem prefixValue_congr {a' : List Nat} (h : ∀ i, i < n → a.getD i 0 = a'.getD i 0) :
    prefixValue W a n = prefixValue W a' n := by
  induction n with
  | zero => rfl
  | succ n ih =>
    rw [prefixValue, prefixValue, ih fun i hi => h i (Nat.lt_succ_of_lt hi),
      h n (Nat.lt_succ_self n)]

/-- Storing the next word extends the number stored so far. -/
theorem prefixValue_set_succ {i : Nat} (hi : i < a.length) (x : Nat) :
    prefixValue W (a.set i x) (i + 1) = prefixValue W a i + x * 2 ^ (W * i) := by
  rw [prefixValue, getD_set hi, if_pos rfl]
  congr 1
  refine prefixValue_congr fun j hj => ?_
  rw [getD_set hi, if_neg (by omega)]

theorem prefixValue_eq_ofDigits (hn : n ≤ a.length) :
    prefixValue W a n = Nat.ofDigits (2 ^ W) (a.take n) := by
  induction n with
  | zero => simp [prefixValue]
  | succ n ih =>
    rw [prefixValue, ih (by omega), List.take_add_one, load_of_lt (by omega), Option.toList_some,
      Nat.ofDigits_append, List.length_take, Nat.min_eq_left (by omega), Nat.ofDigits_singleton,
      ← Nat.pow_mul, Nat.mul_comm (2 ^ (W * n))]

theorem Limbs.value_eq (a : Limbs W n) : a.value = prefixValue W a.limbs n := by
  rw [prefixValue_eq_ofDigits (Nat.le_of_eq a.length_eq.symm),
    List.take_of_length_le (Nat.le_of_eq a.length_eq), Limbs.value]

theorem Limbs.value_lt (a : Limbs W n) : a.value < 2 ^ (W * n) := by
  rw [a.value_eq]
  exact prefixValue_lt a.lt n

/-- The words below `m` are the number modulo a power of the base. -/
theorem prefixValue_mod (h : ∀ x ∈ a, x < 2 ^ W) {m n : Nat} (hmn : m ≤ n) :
    prefixValue W a n % 2 ^ (W * m) = prefixValue W a m := by
  induction hmn with
  | refl => exact Nat.mod_eq_of_lt (prefixValue_lt h m)
  | @step n hmn ih =>
    have hpow : 2 ^ (W * n) = 2 ^ (W * m) * 2 ^ (W * (n - m)) := by
      rw [← Nat.pow_add, ← Nat.mul_add, Nat.add_sub_cancel' hmn]
    rw [prefixValue, hpow, Nat.mul_left_comm, Nat.add_mul_mod_self_left, ih]

/-- Bit `k` of the number is a bit of one of its words. -/
theorem testBit_prefixValue (hW : 0 < W) (h : ∀ x ∈ a, x < 2 ^ W) (n k : Nat) :
    (prefixValue W a n).testBit k =
      (decide (k / W < n) && (a.getD (k / W) 0).testBit (k % W)) := by
  induction n with
  | zero => simp [prefixValue]
  | succ n ih =>
    rw [prefixValue, Nat.add_comm, Nat.mul_comm,
      Nat.testBit_two_pow_mul_add _ (prefixValue_lt h n), ih]
    have hdiv : W * (k / W) + k % W = k := Nat.div_add_mod k W
    have hmod : k % W < W := Nat.mod_lt k hW
    by_cases hk : k < W * n
    · have hlt : k / W < n := by
        rw [Nat.div_lt_iff_lt_mul hW, Nat.mul_comm]
        exact hk
      rw [if_pos hk]
      simp [hlt, Nat.lt_succ_of_lt hlt]
    · rw [if_neg hk]
      by_cases hlt : k / W < n + 1
      · have hn : k / W = n := by
          have : n ≤ k / W := by
            rw [Nat.le_div_iff_mul_le hW, Nat.mul_comm]
            omega
          omega
        have hkmod : k - W * n = k % W := by rw [← hn]; omega
        simp [hn, hkmod]
      · have hbig : W ≤ k - W * n := by
          have hle : W * (n + 1) ≤ W * (k / W) := Nat.mul_le_mul_left W (by omega)
          rw [Nat.mul_succ] at hle
          omega
        rw [Nat.testBit_lt_two_pow (Nat.lt_of_lt_of_le (getD_lt h n)
          (Nat.pow_le_pow_right (by decide) hbig))]
        simp [hlt]

/-- An array whose words are those of `x` spells `x`, as far as it goes. -/
theorem prefixValue_of_limbs (hW : 0 < W) (h : ∀ x ∈ a, x < 2 ^ W) {x : Nat}
    (hbits : ∀ i, i < n → ∀ k, k < W → (a.getD i 0).testBit k = x.testBit (W * i + k)) :
    prefixValue W a n = x % 2 ^ (W * n) := by
  apply Nat.eq_of_testBit_eq
  intro k
  have hdiv : W * (k / W) + k % W = k := Nat.div_add_mod k W
  rw [testBit_prefixValue hW h, Nat.testBit_mod_two_pow]
  by_cases hk : k / W < n
  · have hlt : k < W * n := by
      rw [Nat.mul_comm, ← Nat.div_lt_iff_lt_mul hW]
      exact hk
    rw [hbits _ hk _ (Nat.mod_lt k hW), hdiv]
    simp [hk, hlt]
  · have hge : ¬ k < W * n := by
      rw [Nat.mul_comm, ← Nat.div_lt_iff_lt_mul hW]
      exact hk
    simp [hk, hge]

end PrefixValue

end Clang
