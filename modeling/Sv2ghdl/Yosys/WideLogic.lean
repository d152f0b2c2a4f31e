import Sv2ghdl.Yosys.WidePlace

/-!
# Bitwise and reduction functions of the runtime

The rest of `WIDE_RT` and `WIDE_RT64`: copies, bitwise operations, equality and reductions.
-/

open Clang

namespace Yosys.WideRt

/-- `for (i...) d[i] = f(a[i]);` -/
def mapWords (f : Nat → Nat) (d a : List Nat) (n : Nat) : Option (List Nat) :=
  forUp (fun i d => do
    let x ← a[i]?
    store d i (f x)) n d

/-- `for (i...) d[i] = f(a[i], b[i]);` -/
def zipWords (f : Nat → Nat → Nat) (d a b : List Nat) (n : Nat) : Option (List Nat) :=
  forUp (fun i d => do
    let x ← a[i]?
    let y ← b[i]?
    store d i (f x y)) n d

def wcopy := mapWords id
def wnot (W : Nat) := mapWords (complement W)
def wand := zipWords (· &&& ·)
def wor := zipWords (· ||| ·)
def wxor := zipWords (· ^^^ ·)

/-- `for (i...) if (test(i)) return true;`, `k` rounds from `i` on. -/
def anyUp (test : Nat → Option Bool) : (k i : Nat) → Option Bool
  | 0, _ => some false
  | k + 1, i => (test i).bind fun b => if b then some true else anyUp test k (i + 1)

def weq (a b : List Nat) (n : Nat) : Option Bool :=
  (anyUp (fun i => a[i]?.bind fun x => b[i]?.map fun y => x != y) n 0).map not

/-- `wred_or` -/
def wredOr (a : List Nat) (n : Nat) : Option Bool := anyUp (fun i => a[i]?.map (· != 0)) n 0

/-- The bits of the word `i` that belong to a number of `width` bits in `n` words. -/
def widthMask (W width n i : Nat) : Nat :=
  if i = n - 1 ∧ width % W ≠ 0 then 2 ^ (width % W) - 1 else 2 ^ W - 1

/-- `wred_and` -/
def wredAnd (W : Nat) (a : List Nat) (width n : Nat) : Option Bool :=
  (anyUp (fun i => a[i]?.map fun x =>
    (x &&& widthMask W width n i) != widthMask W width n i) n 0).map not

/-- `x^=x>>16; x^=x>>8; ...; x^=x>>1;` from the shift `2 ^ k` on -/
def foldHalves (x : Nat) : Nat → Nat
  | 0 => x ^^^ x >>> 1
  | k + 1 => foldHalves (x ^^^ x >>> 2 ^ (k + 1)) k

/-- `wred_xor` -/
def wredXor (size : LimbSize) (a : List Nat) (n : Nat) : Option Bool :=
  (forUp (fun i x => a[i]?.map fun y => x ^^^ y) n 0).map fun x =>
    match size with
    | .w32 => (foldHalves x 4).testBit 0
    | .w64 => (foldHalves x 5).testBit 0

/-! ## Bitwise operations -/

variable {W n : Nat}

theorem mapWords_spec {f : Nat → Nat} (hf : ∀ x, x < 2 ^ W → f x < 2 ^ W) {d a : List Nat}
    (hd : Holds W n d) (ha : Holds W n a) :
    ∃ r, mapWords f d a n = some r ∧ Holds W n r ∧ ∀ i, i < n → r.getD i 0 = f (a.getD i 0) := by
  refine forUp_rule (fun j r => Holds W n r ∧ ∀ i, i < j → r.getD i 0 = f (a.getD i 0)) _
    ⟨hd, fun i hi => absurd hi (Nat.not_lt_zero i)⟩ ?_
  rintro j r hj ⟨hr, hwords⟩
  have hjr : j < r.length := by rw [hr.1]; exact hj
  have hja : j < a.length := by rw [ha.1]; exact hj
  refine ⟨_, ?_, hr.set (i := j) (hf _ (getD_lt ha.2 j)), fun i hi => ?_⟩
  · rw [load_of_lt hja, Option.bind_eq_bind, Option.bind_some, store_of_lt hjr]
  · rw [getD_set hjr]
    by_cases hij : i = j
    · rw [if_pos hij, hij]
    · rw [if_neg hij, hwords i (by omega)]

theorem zipWords_spec {f : Nat → Nat → Nat} (hf : ∀ x y, x < 2 ^ W → y < 2 ^ W → f x y < 2 ^ W)
    {d a b : List Nat} (hd : Holds W n d) (ha : Holds W n a) (hb : Holds W n b) :
    ∃ r, zipWords f d a b n = some r ∧ Holds W n r ∧
      ∀ i, i < n → r.getD i 0 = f (a.getD i 0) (b.getD i 0) := by
  refine forUp_rule (fun j r => Holds W n r ∧
    ∀ i, i < j → r.getD i 0 = f (a.getD i 0) (b.getD i 0)) _
    ⟨hd, fun i hi => absurd hi (Nat.not_lt_zero i)⟩ ?_
  rintro j r hj ⟨hr, hwords⟩
  have hjr : j < r.length := by rw [hr.1]; exact hj
  have hja : j < a.length := by rw [ha.1]; exact hj
  have hjb : j < b.length := by rw [hb.1]; exact hj
  refine ⟨_, ?_, hr.set (i := j) (hf _ _ (getD_lt ha.2 j) (getD_lt hb.2 j)), fun i hi => ?_⟩
  · rw [load_of_lt hja, load_of_lt hjb, Option.bind_eq_bind, Option.bind_some, Option.bind_some,
      store_of_lt hjr]
  · rw [getD_set hjr]
    by_cases hij : i = j
    · rw [if_pos hij, hij]
    · rw [if_neg hij, hwords i (by omega)]

/-- A bit within the array, by its word. -/
theorem div_lt_of_lt {k : Nat} (hk : k < W * n) : k / W < n := Nat.div_lt_of_lt_mul hk

theorem wcopy_spec {d a : List Nat} (hd : Holds W n d) (ha : Holds W n a) :
    ∃ r, wcopy d a n = some r ∧ Holds W n r ∧ ∀ k, k < W * n → bitAt W r k = bitAt W a k := by
  obtain ⟨r, hrun, hr, hwords⟩ := mapWords_spec (f := id) (fun _ hx => hx) hd ha
  refine ⟨r, hrun, hr, fun k hk => ?_⟩
  rw [bitAt, hwords _ (div_lt_of_lt hk), id_eq, bitAt]

theorem wnot_spec (hW : 0 < W) {d a : List Nat} (hd : Holds W n d) (ha : Holds W n a) :
    ∃ r, wnot W d a n = some r ∧ Holds W n r ∧ ∀ k, k < W * n → bitAt W r k = !bitAt W a k := by
  obtain ⟨r, hrun, hr, hwords⟩ := mapWords_spec (fun x _ => complement_lt x) hd ha
  refine ⟨r, hrun, hr, fun k hk => ?_⟩
  rw [bitAt, hwords _ (div_lt_of_lt hk), testBit_complement (getD_lt ha.2 _),
    decide_eq_true (Nat.mod_lt k hW), Bool.true_and, bitAt]

theorem wand_spec {d a b : List Nat} (hd : Holds W n d) (ha : Holds W n a) (hb : Holds W n b) :
    ∃ r, wand d a b n = some r ∧ Holds W n r ∧
      ∀ k, k < W * n → bitAt W r k = (bitAt W a k && bitAt W b k) := by
  obtain ⟨r, hrun, hr, hwords⟩ := zipWords_spec (fun x _ _ hy => Nat.and_lt_two_pow x hy) hd ha hb
  refine ⟨r, hrun, hr, fun k hk => ?_⟩
  rw [bitAt, hwords _ (div_lt_of_lt hk), Nat.testBit_and, bitAt, bitAt]

theorem wor_spec {d a b : List Nat} (hd : Holds W n d) (ha : Holds W n a) (hb : Holds W n b) :
    ∃ r, wor d a b n = some r ∧ Holds W n r ∧
      ∀ k, k < W * n → bitAt W r k = (bitAt W a k || bitAt W b k) := by
  obtain ⟨r, hrun, hr, hwords⟩ := zipWords_spec (fun _ _ hx hy => Nat.or_lt_two_pow hx hy) hd ha hb
  refine ⟨r, hrun, hr, fun k hk => ?_⟩
  rw [bitAt, hwords _ (div_lt_of_lt hk), Nat.testBit_or, bitAt, bitAt]

theorem wxor_spec {d a b : List Nat} (hd : Holds W n d) (ha : Holds W n a) (hb : Holds W n b) :
    ∃ r, wxor d a b n = some r ∧ Holds W n r ∧
      ∀ k, k < W * n → bitAt W r k = (bitAt W a k ^^ bitAt W b k) := by
  obtain ⟨r, hrun, hr, hwords⟩ := zipWords_spec (fun _ _ hx hy => Nat.xor_lt_two_pow hx hy) hd ha hb
  refine ⟨r, hrun, hr, fun k hk => ?_⟩
  rw [bitAt, hwords _ (div_lt_of_lt hk), Nat.testBit_xor, bitAt, bitAt]

/-! ## Tests -/

theorem anyUp_spec (test : Nat → Option Bool) {p : Nat → Bool} {k i : Nat}
    (h : ∀ j, i ≤ j → j < i + k → test j = some (p j)) :
    ∃ r, anyUp test k i = some r ∧ (r = true ↔ ∃ j, i ≤ j ∧ j < i + k ∧ p j = true) := by
  induction k generalizing i with
  | zero =>
    refine ⟨false, rfl, by simp; omega⟩
  | succ k ih =>
    rw [anyUp, h i (le_refl i) (by omega), Option.bind_some]
    by_cases hp : p i = true
    · rw [if_pos hp]
      exact ⟨true, rfl, iff_of_true rfl ⟨i, le_refl i, by omega, hp⟩⟩
    · rw [if_neg hp]
      obtain ⟨r, hr, hiff⟩ := ih (i := i + 1) fun j hij hj => h j (by omega) (by omega)
      refine ⟨r, hr, hiff.trans ⟨?_, ?_⟩⟩
      · rintro ⟨j, hij, hj, hpj⟩
        exact ⟨j, by omega, by omega, hpj⟩
      · rintro ⟨j, hij, hj, hpj⟩
        have hne : j ≠ i := by
          rintro rfl
          exact hp hpj
        exact ⟨j, by omega, by omega, hpj⟩

theorem testBit_ext {x y : Nat} (hx : x < 2 ^ W) (hy : y < 2 ^ W)
    (h : ∀ k, k < W → x.testBit k = y.testBit k) : x = y := by
  refine Nat.eq_of_testBit_eq fun k => ?_
  by_cases hk : k < W
  · exact h k hk
  · rw [testBit_of_le hx (by omega), testBit_of_le hy (by omega)]

/-- Words that differ, differ in a bit of their arrays. -/
theorem exists_bit_ne {a b : List Nat} (ha : Holds W n a) (hb : Holds W n b) :
    (∃ i, i < n ∧ a.getD i 0 ≠ b.getD i 0) ↔ ∃ k, k < W * n ∧ bitAt W a k ≠ bitAt W b k := by
  constructor
  · rintro ⟨i, hi, hne⟩
    by_contra hall
    refine hne (testBit_ext (getD_lt ha.2 i) (getD_lt hb.2 i) fun k hk => ?_)
    by_contra hbit
    have hlt : W * i + k < W * n := by
      have := Nat.mul_le_mul_left W hi
      rw [Nat.mul_succ] at this
      omega
    refine hall ⟨W * i + k, hlt, ?_⟩
    rwa [bitAt_mul_add a i hk, bitAt_mul_add b i hk]
  · rintro ⟨k, hk, hne⟩
    refine ⟨k / W, div_lt_of_lt hk, fun heq => hne ?_⟩
    rw [bitAt, bitAt, heq]

theorem weq_spec {a b : List Nat} (ha : Holds W n a) (hb : Holds W n b) :
    ∃ r, weq a b n = some r ∧ (r = true ↔ ∀ k, k < W * n → bitAt W a k = bitAt W b k) := by
  obtain ⟨r, hr, hiff⟩ := anyUp_spec (fun i => a[i]?.bind fun x => b[i]?.map fun y => x != y)
    (p := fun i => a.getD i 0 != b.getD i 0) (k := n) (i := 0) (by
      intro j _ hj
      rw [load_of_lt (by rw [ha.1]; omega), load_of_lt (by rw [hb.1]; omega), Option.bind_some,
        Option.map_some])
  refine ⟨!r, by rw [weq, hr, Option.map_some], ?_⟩
  have hne := exists_bit_ne ha hb
  simp only [Nat.zero_le, Nat.zero_add, true_and, bne_iff_ne] at hiff
  rw [Bool.not_eq_true', ← Bool.not_eq_true, hiff, hne]
  push Not
  rfl

theorem wredOr_spec {a : List Nat} (ha : Holds W n a) :
    ∃ r, wredOr a n = some r ∧ (r = true ↔ ∃ k, k < W * n ∧ bitAt W a k = true) := by
  obtain ⟨r, hr, hiff⟩ := anyUp_spec (fun i => a[i]?.map (· != 0))
    (p := fun i => a.getD i 0 != 0) (k := n) (i := 0) (by
      intro j _ hj
      rw [load_of_lt (by rw [ha.1]; omega), Option.map_some])
  refine ⟨r, hr, hiff.trans ?_⟩
  simp only [Nat.zero_le, Nat.zero_add, true_and, bne_iff_ne]
  have hzeros : Holds W n (List.replicate n 0) := ⟨List.length_replicate, fun x hx => by
    rw [List.eq_of_mem_replicate hx]
    exact Nat.two_pow_pos W⟩
  have hzero : ∀ i, (List.replicate n 0).getD i 0 = 0 := by
    intro i
    rw [List.getD_eq_getElem?_getD, List.getElem?_replicate]
    split_ifs <;> rfl
  have hne := exists_bit_ne ha hzeros
  simpa only [bitAt, hzero, Nat.zero_testBit, ne_eq, Bool.not_eq_false] using hne

theorem ceilDiv_mul (hW : 0 < W) (width : Nat) :
    (width % W ≠ 0 → (width + W - 1) / W = width / W + 1) ∧
      (width % W = 0 → (width + W - 1) / W = width / W) := by
  have hwidth := Nat.div_add_mod width W
  have hmod := Nat.mod_lt width hW
  constructor
  · intro hne
    have hsum : width + W - 1 = W * (width / W + 1) + (width % W - 1) := by
      rw [Nat.mul_succ]
      omega
    have hlow : (width % W - 1) / W = 0 := Nat.div_eq_of_lt (by omega)
    rw [hsum, Nat.mul_add_div hW, hlow, Nat.add_zero]
  · intro heq
    have hsum : width + W - 1 = W * (width / W) + (W - 1) := by omega
    have hlow : (W - 1) / W = 0 := Nat.div_eq_of_lt (by omega)
    rw [hsum, Nat.mul_add_div hW, hlow, Nat.add_zero]

theorem testBit_widthMask (hW : 0 < W) {width i k : Nat} (hn : n = (width + W - 1) / W)
    (hi : i < n) (hk : k < W) :
    (widthMask W width n i).testBit k = decide (W * i + k < width) := by
  have hwidth := Nat.div_add_mod width W
  have hmod := Nat.mod_lt width hW
  have hceil := ceilDiv_mul hW width
  rw [widthMask]
  by_cases htop : i = n - 1 ∧ width % W ≠ 0
  · have hword : i = width / W := by
      rw [hceil.1 htop.2] at hn
      omega
    rw [if_pos htop, Nat.testBit_two_pow_sub_one, hword, decide_eq_decide]
    omega
  · have hlt : W * i + k < width := by
      have hmul : W * (i + 1) ≤ W * (width / W) := by
        refine Nat.mul_le_mul_left W ?_
        by_cases hzero : width % W = 0
        · rw [hceil.2 hzero] at hn
          omega
        · rw [hceil.1 hzero] at hn
          have : i ≠ n - 1 := fun h => htop ⟨h, hzero⟩
          omega
      rw [Nat.mul_succ] at hmul
      omega
    rw [if_neg htop, Nat.testBit_two_pow_sub_one, decide_eq_true hk, decide_eq_true hlt]

/-- `(x & m) != m`, in bits. -/
theorem and_ne_iff {x m : Nat} (hm : m < 2 ^ W) :
    x &&& m ≠ m ↔ ∃ k, k < W ∧ m.testBit k = true ∧ x.testBit k = false := by
  constructor
  · intro hne
    by_contra hall
    refine hne (testBit_ext (Nat.and_lt_two_pow x hm) hm fun k hk => ?_)
    rw [Nat.testBit_and]
    by_cases hbit : m.testBit k = true
    · have hx : x.testBit k = true := by
        by_contra hx
        exact hall ⟨k, hk, hbit, by simpa using hx⟩
      rw [hx, hbit, Bool.and_true]
    · simp [hbit]
  · rintro ⟨k, _, hbit, hx⟩ heq
    have := congrArg (Nat.testBit · k) heq
    simp [hbit, hx] at this

theorem widthMask_lt (width i : Nat) (hW : 0 < W) : widthMask W width n i < 2 ^ W := by
  have hpos := Nat.two_pow_pos W
  have hmod : 2 ^ (width % W) ≤ 2 ^ W :=
    Nat.pow_le_pow_right (by decide) (Nat.le_of_lt (Nat.mod_lt width hW))
  unfold widthMask
  split_ifs <;> omega

theorem wredAnd_spec (hW : 0 < W) {width : Nat} {a : List Nat} (ha : Holds W n a)
    (hn : n = (width + W - 1) / W) :
    ∃ r, wredAnd W a width n = some r ∧ (r = true ↔ ∀ k, k < width → bitAt W a k = true) := by
  obtain ⟨r, hr, hiff⟩ := anyUp_spec (fun i => a[i]?.map fun x =>
    (x &&& widthMask W width n i) != widthMask W width n i)
    (p := fun i => (a.getD i 0 &&& widthMask W width n i) != widthMask W width n i)
    (k := n) (i := 0) (by
      intro j _ hj
      rw [load_of_lt (by rw [ha.1]; omega), Option.map_some])
  refine ⟨!r, by rw [wredAnd, hr, Option.map_some], ?_⟩
  simp only [Nat.zero_le, Nat.zero_add, true_and, bne_iff_ne] at hiff
  rw [Bool.not_eq_true', ← Bool.not_eq_true, hiff]
  constructor
  · intro hall k hk
    by_contra hbit
    have hword : k / W < n := by
      rw [hn, Nat.div_lt_iff_lt_mul hW]
      have hceil := ceilDiv_mul hW width
      have hwidth := Nat.div_add_mod width W
      have hmod := Nat.mod_lt width hW
      by_cases hzero : width % W = 0
      · rw [hceil.2 hzero, Nat.mul_comm]
        omega
      · rw [hceil.1 hzero, Nat.mul_comm, Nat.mul_succ]
        omega
    have hkW := Nat.mod_lt k hW
    refine hall ⟨k / W, hword, (and_ne_iff (widthMask_lt width _ hW)).mpr ⟨k % W, hkW, ?_, ?_⟩⟩
    · rw [testBit_widthMask hW hn hword hkW, Nat.div_add_mod, decide_eq_true hk]
    · simpa [bitAt] using hbit
  · rintro hall ⟨i, hi, hne⟩
    obtain ⟨k, hk, hmask, hx⟩ := (and_ne_iff (widthMask_lt width i hW)).mp hne
    rw [testBit_widthMask hW hn hi hk, decide_eq_true_eq] at hmask
    rw [← bitAt_mul_add a i hk, hall _ hmask] at hx
    cases hx

/-! ## Parity -/

/-- Whether an odd number of the first `n` bits is set. -/
def parity (f : Nat → Bool) : Nat → Bool
  | 0 => false
  | n + 1 => parity f n ^^ f n

theorem parity_add (f : Nat → Bool) (m n : Nat) :
    parity f (m + n) = (parity f m ^^ parity (fun i => f (m + i)) n) := by
  induction n with
  | zero => simp [parity]
  | succ n ih => rw [← Nat.add_assoc, parity, ih, parity, Bool.xor_assoc]

theorem parity_xor (f g : Nat → Bool) (n : Nat) :
    parity (fun i => f i ^^ g i) n = (parity f n ^^ parity g n) := by
  induction n with
  | zero => rfl
  | succ n ih =>
    rw [parity, parity, parity, ih]
    cases parity f n <;> cases parity g n <;> cases f n <;> cases g n <;> rfl

theorem parity_congr {f g : Nat → Bool} {n : Nat} (h : ∀ i, i < n → f i = g i) :
    parity f n = parity g n := by
  induction n with
  | zero => rfl
  | succ n ih => rw [parity, parity, ih fun i hi => h i (by omega), h n (by omega)]

theorem parity_false (n : Nat) : parity (fun _ => false) n = false := by
  induction n with
  | zero => rfl
  | succ n ih => rw [parity, ih, Bool.xor_false]

/-- Each step folds the upper half of the bits that count into the lower. -/
theorem foldHalves_spec (k x : Nat) :
    (foldHalves x k).testBit 0 = parity x.testBit (2 ^ (k + 1)) := by
  induction k generalizing x with
  | zero =>
    rw [foldHalves, Nat.testBit_xor, Nat.testBit_shiftRight]
    simp [parity]
  | succ k ih =>
    have hhalf : 2 ^ (k + 1 + 1) = 2 ^ (k + 1) + 2 ^ (k + 1) := by rw [pow_succ]; omega
    rw [foldHalves, ih, hhalf, parity_add, ← parity_xor]
    refine parity_congr fun i _ => ?_
    rw [Nat.testBit_xor, Nat.testBit_shiftRight]

/-- The bits of the words, one word after the other. -/
theorem parity_words {f : Nat → Bool} (W n : Nat) :
    parity (fun k => parity (fun i => f (W * i + k)) n) W = parity f (W * n) := by
  induction n with
  | zero => rw [Nat.mul_zero]; exact parity_false W
  | succ n ih =>
    rw [Nat.mul_succ, parity_add, ← ih, ← parity_xor]
    rfl

theorem wredXor_spec (size : LimbSize) {a : List Nat} (ha : Holds size.bits n a) :
    wredXor size a n = some (parity (bitAt size.bits a) (size.bits * n)) := by
  obtain ⟨x, hrun, hx⟩ := forUp_rule (fun j x => ∀ k, k < size.bits →
      x.testBit k = parity (fun i => bitAt size.bits a (size.bits * i + k)) j)
    (fun i x => a[i]?.map fun y => x ^^^ y) (n := n) (s := 0)
    (fun k _ => by rw [Nat.zero_testBit]; rfl) (by
      intro j x hj hx
      refine ⟨_, by rw [load_of_lt (by rw [ha.1]; omega), Option.map_some], fun k hk => ?_⟩
      rw [Nat.testBit_xor, hx k hk, parity, bitAt_mul_add a j hk])
  have hparity : parity x.testBit size.bits = parity (bitAt size.bits a) (size.bits * n) := by
    rw [← parity_words]
    exact parity_congr hx
  rw [wredXor, hrun, Option.map_some, ← hparity]
  cases size with
  | w32 => exact congrArg some (foldHalves_spec 4 x)
  | w64 => exact congrArg some (foldHalves_spec 5 x)

/-! ## Shifts by an `int` -/

/-- `a[i]` -/
def load (a : List Nat) (i : Int) : Option Nat := if 0 ≤ i then a[i.toNat]? else none

/-- A round of `wshl`, where the count `s` may be negative. -/
def shlWordInt (W : Nat) (a : List Nat) (s : Int) (i : Nat) : Option Nat :=
  let w := s / W
  let b := (s % W).toNat
  let j := (i : Int) - w
  if 0 ≤ j then do
    let x ← load a j
    if b ≠ 0 ∧ 0 ≤ j - 1 then do
      let y ← load a (j - 1)
      pure ((x <<< b) % 2 ^ W ||| y >>> (W - b))
    else pure ((x <<< b) % 2 ^ W)
  else pure 0

/-- A round of `wshr`, where the count `s` may be negative. -/
def shrWordInt (W : Nat) (a : List Nat) (s : Int) (n i : Nat) : Option Nat :=
  let w := s / W
  let b := (s % W).toNat
  let j := (i : Int) + w
  if j < n then do
    let x ← load a j
    if b ≠ 0 ∧ j + 1 < n then do
      let y ← load a (j + 1)
      pure (x >>> b ||| (y <<< (W - b)) % 2 ^ W)
    else pure (x >>> b)
  else pure 0

/-- `wshl`, with its `int s` -/
def wshlInt (W : Nat) (d a : List Nat) (s : Int) (n : Nat) : Option (List Nat) :=
  forDown (fun i d => do
    let v ← shlWordInt W a s i
    store d i v) n d

/-- `wshr`, with its `int s` -/
def wshrInt (W : Nat) (d a : List Nat) (s : Int) (n : Nat) : Option (List Nat) :=
  forUp (fun i d => do
    let v ← shrWordInt W a s n i
    store d i v) n d

theorem load_natCast (a : List Nat) (i : Nat) : load a i = a[i]? := by
  rw [load, if_pos (Int.natCast_nonneg i), Int.toNat_natCast]

theorem shlWordInt_natCast (W : Nat) (a : List Nat) (s i : Nat) :
    shlWordInt W a s i = shlWord W a (s / W) (s % W) i := by
  have hb : ((s : Int) % W).toNat = s % W := by
    rw [← Int.natCast_emod, Int.toNat_natCast]
  rw [shlWordInt, shlWord, hb, ← Int.natCast_ediv]
  by_cases hw : s / W ≤ i
  · have hj : (i : Int) - (s / W : Nat) = ((i - s / W : Nat) : Int) := by omega
    rw [if_pos hw, hj, if_pos (Int.natCast_nonneg _), load_natCast]
    congr 1
    funext x
    by_cases htwo : s % W ≠ 0 ∧ 1 ≤ i - s / W
    · have hj' : ((i - s / W : Nat) : Int) - 1 = ((i - s / W - 1 : Nat) : Int) := by omega
      rw [if_pos htwo, hj', if_pos ⟨htwo.1, Int.natCast_nonneg _⟩, load_natCast]
    · have htwo' : ¬ (s % W ≠ 0 ∧ 0 ≤ ((i - s / W : Nat) : Int) - 1) := by omega
      rw [if_neg htwo, if_neg htwo']
  · rw [if_neg hw, if_neg (by omega)]

theorem shrWordInt_natCast (W : Nat) (a : List Nat) (s n i : Nat) :
    shrWordInt W a s n i = shrWord W a (s / W) (s % W) n i := by
  have hb : ((s : Int) % W).toNat = s % W := by
    rw [← Int.natCast_emod, Int.toNat_natCast]
  have hj : (i : Int) + (s / W : Nat) = ((i + s / W : Nat) : Int) := by push_cast; rfl
  have hj' : ((i + s / W : Nat) : Int) + 1 = ((i + s / W + 1 : Nat) : Int) := by push_cast; rfl
  rw [shrWordInt, shrWord, hb, ← Int.natCast_ediv, hj, hj', load_natCast, load_natCast]
  simp only [Int.ofNat_lt]

theorem wshlInt_natCast (W : Nat) (d a : List Nat) (s n : Nat) :
    wshlInt W d a s n = wshl W d a s n := by
  simp only [wshlInt, wshl, shlWordInt_natCast]

theorem wshrInt_natCast (W : Nat) (d a : List Nat) (s n : Nat) :
    wshrInt W d a s n = wshr W d a s n := by
  simp only [wshrInt, wshr, shrWordInt_natCast]

/-- A negative count reads above the array. -/
theorem wshlInt_neg {a : List Nat} {s : Int} (hs : s < 0) (ha : a.length ≤ n) (hn : 0 < n)
    (hW : 0 < W) (d : List Nat) : wshlInt W d a s n = none := by
  have hw : s / W < 0 := Int.ediv_neg_of_neg_of_pos hs (by omega)
  obtain ⟨m, rfl⟩ := Nat.exists_eq_succ_of_ne_zero (Nat.pos_iff_ne_zero.mp hn)
  have hword : shlWordInt W a s m = none := by
    have hload : load a ((m : Int) - s / W) = none := by
      rw [load, if_pos (by omega), List.getElem?_eq_none (by omega)]
    rw [shlWordInt]
    rw [if_pos (by omega), hload]
    rfl
  rw [wshlInt, forDown, hword]
  rfl

/-- A negative count reads below the array. -/
theorem wshrInt_neg {a : List Nat} {s : Int} (hs : s < 0) (hn : 0 < n) (hW : 0 < W)
    (d : List Nat) : wshrInt W d a s n = none := by
  have hw : s / W < 0 := Int.ediv_neg_of_neg_of_pos hs (by omega)
  refine forUp_none hn (fun d => ?_) d
  have hload : load a (((0 : Nat) : Int) + s / W) = none := by
    rw [load, if_neg (by omega)]
  rw [shrWordInt, if_pos (by omega), hload]
  rfl

end Yosys.WideRt
