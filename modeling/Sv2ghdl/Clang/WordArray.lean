import Sv2ghdl.Clang.Limbs

/-!
# Words in an array of limbs

A memory whose words have `n` limbs each and lie one after another in an array.  A write replaces the
bits of one word that a mask selects.
-/

namespace Clang

/-! ## Masked bits -/

/-- `old`, with the bits that `en` selects from `data`. -/
def merge (old data en : Nat) : Nat := old ^^^ ((old ^^^ data) &&& en)

section Merge

variable {N old data en data' en' : Nat}

theorem testBit_merge (old data en i : Nat) :
    (merge old data en).testBit i = if en.testBit i then data.testBit i else old.testBit i := by
  rw [merge, Nat.testBit_xor, Nat.testBit_and, Nat.testBit_xor]
  cases en.testBit i <;> cases old.testBit i <;> cases data.testBit i <;> rfl

@[simp] theorem merge_zero (old data : Nat) : merge old data 0 = old := by
  rw [merge, Nat.and_zero, Nat.xor_zero]

theorem merge_lt (ho : old < 2 ^ N) (he : en < 2 ^ N) (data : Nat) : merge old data en < 2 ^ N :=
  Nat.xor_lt_two_pow ho (Nat.and_lt_two_pow _ he)

/-- `(old & ~en) | (data & en)` -/
theorem merge_eq (ho : old < 2 ^ N) (he : en < 2 ^ N) :
    (old &&& (2 ^ N - 1 - en)) ||| (data &&& en) = merge old data en := by
  apply Nat.eq_of_testBit_eq
  intro i
  rw [testBit_merge, Nat.testBit_or, Nat.testBit_and, Nat.testBit_and, Nat.sub_sub, Nat.add_comm 1,
    Nat.testBit_two_pow_sub_succ he]
  by_cases hi : i < N
  · rw [decide_eq_true hi]
    cases en.testBit i <;> simp
  · -- above the type every operand is zero
    have hle : 2 ^ N ≤ 2 ^ i := Nat.pow_le_pow_right (by decide) (by omega)
    rw [Nat.testBit_lt_two_pow (Nat.lt_of_lt_of_le ho hle),
      Nat.testBit_lt_two_pow (Nat.lt_of_lt_of_le he hle)]
    simp

/-- Only the data under the mask matter. -/
theorem merge_congr (h : data &&& en = data' &&& en) (old : Nat) :
    merge old data en = merge old data' en := by
  apply Nat.eq_of_testBit_eq
  intro i
  have hi := congrArg (Nat.testBit · i) h
  simp only [Nat.testBit_and] at hi
  rw [testBit_merge, testBit_merge]
  cases hen : en.testBit i <;> simp_all

/-- What a write does to zeros and to ones tells its mask and the data under it. -/
theorem merge_inj (he : en < 2 ^ N) (he' : en' < 2 ^ N) (hzero : merge 0 data en = merge 0 data' en')
    (hones : merge (2 ^ N - 1) data en = merge (2 ^ N - 1) data' en') :
    en = en' ∧ data &&& en = data' &&& en' := by
  have hbits : ∀ i, en.testBit i = en'.testBit i ∧
      (en.testBit i = true → data.testBit i = data'.testBit i) := by
    intro i
    have hz := congrArg (Nat.testBit · i) hzero
    have ho := congrArg (Nat.testBit · i) hones
    simp only [testBit_merge, Nat.zero_testBit, Nat.testBit_two_pow_sub_one] at hz ho
    by_cases hi : i < N
    · rw [decide_eq_true hi] at ho
      cases hen : en.testBit i <;> cases hen' : en'.testBit i <;> simp_all
    · have hle : 2 ^ N ≤ 2 ^ i := Nat.pow_le_pow_right (by decide) (by omega)
      rw [Nat.testBit_lt_two_pow (Nat.lt_of_lt_of_le he hle),
        Nat.testBit_lt_two_pow (Nat.lt_of_lt_of_le he' hle)]
      exact ⟨rfl, fun h => absurd h Bool.false_ne_true⟩
  constructor
  · apply Nat.eq_of_testBit_eq
    exact fun i => (hbits i).1
  · apply Nat.eq_of_testBit_eq
    intro i
    rw [Nat.testBit_and, Nat.testBit_and, ← (hbits i).1]
    cases hen : en.testBit i
    · simp
    · rw [(hbits i).2 hen]

end Merge

/-! ## Words -/

/-- Word `a` of an array whose words have `n` limbs of `W` bits. -/
def word (W n : Nat) (arr : List Nat) (a : Nat) : Nat := prefixValue W (arr.drop (n * a)) n

def words (W n depth : Nat) (arr : List Nat) : List Nat := (List.range depth).map (word W n arr)

section Words

variable {W n depth L : Nat}

theorem getD_drop (arr : List Nat) (m i : Nat) : (arr.drop m).getD i 0 = arr.getD (m + i) 0 := by
  rw [List.getD_eq_getElem?_getD, List.getElem?_drop, List.getD_eq_getElem?_getD]

theorem prefixValue_zero {arr : List Nat} (h : ∀ i < n, arr.getD i 0 = 0) :
    prefixValue W arr n = 0 := by
  induction n with
  | zero => rfl
  | succ n ih =>
    rw [prefixValue, ih fun i hi => h i (Nat.lt_succ_of_lt hi), h n (Nat.lt_succ_self n),
      Nat.zero_mul]

theorem testBit_word (hW : 0 < W) (arr : Limbs W L) (a k : Nat) :
    (word W n arr.limbs a).testBit k =
      (decide (k / W < n) && (arr.limbs.getD (n * a + k / W) 0).testBit (k % W)) := by
  rw [word, testBit_prefixValue hW fun x hx => arr.lt x (List.mem_of_mem_drop hx), getD_drop]

theorem length_words (arr : List Nat) : (words W n depth arr).length = depth := by
  rw [words, List.length_map, List.length_range]

theorem getElem?_words {a : Nat} (h : a < depth) (arr : List Nat) :
    (words W n depth arr)[a]? = some (word W n arr a) := by
  rw [words, List.getElem?_map, List.getElem?_range h, Option.map_some]

/-- The words determine the limbs. -/
theorem words_inj (hW : 0 < W) (hn : 0 < n) {arr arr' : Limbs W (n * depth)}
    (h : words W n depth arr.limbs = words W n depth arr'.limbs) : arr = arr' := by
  have hlimb : ∀ j < n * depth, arr.limbs.getD j 0 = arr'.limbs.getD j 0 := by
    intro j hj
    have ha : j / n < depth := Nat.div_lt_of_lt_mul hj
    have hword := congrArg (·[j / n]?) h
    simp only [getElem?_words ha, Option.some.injEq] at hword
    apply Nat.eq_of_testBit_eq
    intro k
    by_cases hk : k < W
    · have hbit := congrArg (Nat.testBit · (W * (j % n) + k)) hword
      have hmod := Nat.mod_lt j hn
      have hdiv := Nat.div_add_mod j n
      simp only [testBit_word hW, Nat.mul_add_div hW, Nat.mul_add_mod, Nat.div_eq_of_lt hk,
        Nat.mod_eq_of_lt hk, Nat.add_zero, hdiv, decide_eq_true hmod, Bool.true_and] at hbit
      exact hbit
    · have hle : 2 ^ W ≤ 2 ^ k := Nat.pow_le_pow_right (by decide) (by omega)
      rw [Nat.testBit_lt_two_pow (Nat.lt_of_lt_of_le (getD_lt arr.lt j) hle),
        Nat.testBit_lt_two_pow (Nat.lt_of_lt_of_le (getD_lt arr'.lt j) hle)]
  have hlist : arr.limbs = arr'.limbs := by
    apply List.ext_getElem?
    intro j
    by_cases hj : j < n * depth
    · rw [load_of_lt (by rw [arr.length_eq]; exact hj), load_of_lt (by rw [arr'.length_eq]; exact hj),
        hlimb j hj]
    · rw [List.getElem?_eq_none (by rw [arr.length_eq]; omega),
        List.getElem?_eq_none (by rw [arr'.length_eq]; omega)]
  cases arr
  cases arr'
  congr

/-- An array of equal limbs. -/
def Limbs.replicate (L : Nat) {x : Nat} (hx : x < 2 ^ W) : Limbs W L where
  limbs := List.replicate L x
  length_eq := List.length_replicate
  lt y hy := by
    rw [List.eq_of_mem_replicate hy]
    exact hx

theorem Limbs.getD_replicate {x : Nat} (hx : x < 2 ^ W) {j : Nat} (hj : j < L) :
    (Limbs.replicate L hx).limbs.getD j 0 = x := by
  rw [Limbs.replicate, List.getD_eq_getElem?_getD, List.getElem?_replicate, if_pos hj,
    Option.getD_some]

theorem mul_add_lt {a i : Nat} (ha : a < depth) (hi : i < n) : n * a + i < n * depth := by
  have hle : n * (a + 1) ≤ n * depth := Nat.mul_le_mul_left n ha
  rw [Nat.mul_succ] at hle
  omega

theorem word_zeros (hW : 0 < W) {a : Nat} (ha : a < depth) :
    word W n (Limbs.replicate (n * depth) (Nat.two_pow_pos W)).limbs a = 0 := by
  apply Nat.eq_of_testBit_eq
  intro k
  rw [testBit_word hW]
  by_cases hk : k / W < n
  · rw [Limbs.getD_replicate _ (mul_add_lt ha hk)]
    simp
  · simp [hk]

theorem word_ones (hW : 0 < W) {a : Nat} (ha : a < depth) :
    word W n (Limbs.replicate (n * depth) (Nat.sub_one_lt (Nat.two_pow_pos W).ne')).limbs a =
      2 ^ (W * n) - 1 := by
  apply Nat.eq_of_testBit_eq
  intro k
  rw [testBit_word hW, Nat.testBit_two_pow_sub_one]
  have hiff : k / W < n ↔ k < W * n := by rw [Nat.div_lt_iff_lt_mul hW, Nat.mul_comm]
  by_cases hk : k / W < n
  · rw [Limbs.getD_replicate _ (mul_add_lt ha hk), Nat.testBit_two_pow_sub_one,
      decide_eq_true (Nat.mod_lt k hW), decide_eq_true hk, decide_eq_true (hiff.mp hk), Bool.and_self]
  · rw [decide_eq_false hk, decide_eq_false (hiff.not.mp hk), Bool.false_and]

end Words

/-! ## A masked write, limb by limb -/

/-- `d[at(l)] = (d[at(l)] & ~me[l]) | (md[l] & me[l])` -/
def mergeLimb (W : Nat) (place : Nat → Nat) (md me : List Nat) (l : Nat) (d : List Nat) :
    Option (List Nat) := do
  let old ← d[place l]?
  let m ← md[l]?
  let e ← me[l]?
  store d (place l) ((old &&& (2 ^ W - 1 - e)) ||| (m &&& e))

section MergeLimb

variable {W n L depth : Nat} {place : Nat → Nat} {md me : Limbs W n}

theorem mergeLimb_run (d : Limbs W L) {l : Nat} (hl : l < n) (hp : place l < L) :
    mergeLimb W place md.limbs me.limbs l d.limbs = some (d.limbs.set (place l)
      (merge (d.limbs.getD (place l) 0) (md.limbs.getD l 0) (me.limbs.getD l 0))) := by
  rw [← merge_eq (getD_lt d.lt _) (getD_lt me.lt _)]
  simp only [mergeLimb, load_of_lt (show place l < d.limbs.length by rw [d.length_eq]; exact hp),
    load_of_lt (show l < md.limbs.length by rw [md.length_eq]; exact hl),
    load_of_lt (show l < me.limbs.length by rw [me.length_eq]; exact hl), Option.bind_eq_bind,
    Option.bind_some]
  exact store_of_lt (by rw [d.length_eq]; exact hp) _

/-- The limbs at the places written are merged, each once, and the others kept. -/
theorem mergeLimbs_run (place : Nat → Nat) (md me : Limbs W n) (d : Limbs W L) (hp : ∀ l < n, place l < L)
    (hinj : ∀ l < n, ∀ l' < n, place l = place l' → l = l') :
    ∃ r : Limbs W L, forUp (mergeLimb W place md.limbs me.limbs) n d.limbs = some r.limbs ∧
      (∀ l < n, r.limbs.getD (place l) 0 =
        merge (d.limbs.getD (place l) 0) (md.limbs.getD l 0) (me.limbs.getD l 0)) ∧
      ∀ j, (∀ l < n, place l ≠ j) → r.limbs.getD j 0 = d.limbs.getD j 0 := by
  obtain ⟨s, hrun, r, rfl, hmerged, hkept⟩ := forUp_rule
    (fun i s => ∃ r : Limbs W L, s = r.limbs ∧
      (∀ l < i, r.limbs.getD (place l) 0 =
        merge (d.limbs.getD (place l) 0) (md.limbs.getD l 0) (me.limbs.getD l 0)) ∧
      ∀ j, (∀ l < i, place l ≠ j) → r.limbs.getD j 0 = d.limbs.getD j 0)
    (mergeLimb W place md.limbs me.limbs) (n := n) (s := d.limbs)
    ⟨d, rfl, fun l hl => absurd hl (Nat.not_lt_zero l), fun j _ => rfl⟩ (by
      rintro i s hi ⟨r, rfl, hmerged, hkept⟩
      have hlt := merge_lt (getD_lt r.lt (place i)) (getD_lt me.lt i) (md.limbs.getD i 0)
      have hlen : place i < r.limbs.length := by
        rw [r.length_eq]
        exact hp i hi
      refine ⟨_, mergeLimb_run r hi (hp i hi),
        ⟨r.limbs.set (place i) _, by rw [List.length_set, r.length_eq], mem_set_lt r.lt hlt⟩, rfl,
        fun l hl => ?_, fun j hj => ?_⟩
      · rw [getD_set hlen]
        rcases Nat.lt_succ_iff_lt_or_eq.mp hl with hl | rfl
        · -- an earlier place is another one
          rw [if_neg fun h => absurd (hinj l (by omega) i hi h) (by omega), hmerged l hl]
        · rw [if_pos rfl, hkept _ fun l' hl' h => absurd (hinj l' (by omega) l hi h) (by omega)]
      · rw [getD_set hlen, if_neg fun h => hj i (Nat.lt_succ_self i) h.symm]
        exact hkept j fun l hl => hj l (by omega))
  exact ⟨r, hrun, hmerged, hkept⟩

/-- A run that succeeds stays within the array. -/
theorem mergeLimbs_inRange {md me d r : List Nat}
    (h : forUp (mergeLimb W place md me) n d = some r) : ∀ l < n, place l < d.length := by
  suffices hrun : r.length = d.length ∧ ∀ l < n, place l < d.length from hrun.2
  induction n generalizing r with
  | zero =>
    cases h
    exact ⟨rfl, fun l hl => absurd hl (Nat.not_lt_zero l)⟩
  | succ n ih =>
    rw [forUp, Option.bind_eq_some_iff] at h
    obtain ⟨s, hs, hbody⟩ := h
    obtain ⟨hlen, hin⟩ := ih hs
    simp only [mergeLimb, Option.bind_eq_bind, Option.bind_eq_some_iff] at hbody
    obtain ⟨old, -, m, -, e, -, hstore⟩ := hbody
    unfold store at hstore
    split_ifs at hstore with hlt
    cases hstore
    refine ⟨by rw [List.length_set, hlen], fun l hl => ?_⟩
    rcases Nat.lt_succ_iff_lt_or_eq.mp hl with hl | rfl
    · exact hin l hl
    · rwa [← hlen]

/-- Limbs merged at the places of word `a` are the word merged. -/
theorem words_merged (hW : 0 < W) {d r : Limbs W (n * depth)} {a : Nat}
    (hmerged : ∀ l < n, r.limbs.getD (n * a + l) 0 =
      merge (d.limbs.getD (n * a + l) 0) (md.limbs.getD l 0) (me.limbs.getD l 0))
    (hkept : ∀ j, (∀ l < n, n * a + l ≠ j) → r.limbs.getD j 0 = d.limbs.getD j 0) :
    words W n depth r.limbs =
      (words W n depth d.limbs).modify a (merge · md.value me.value) := by
  apply List.ext_getElem?
  intro b
  rw [List.getElem?_modify]
  by_cases hb : b < depth
  · rw [getElem?_words hb, getElem?_words hb, Option.map_eq_map, Option.map_some]
    congr 1
    apply Nat.eq_of_testBit_eq
    intro k
    by_cases hab : a = b
    · subst hab
      rw [if_pos rfl, testBit_merge, Limbs.value_eq, Limbs.value_eq,
        testBit_prefixValue hW md.lt, testBit_prefixValue hW me.lt, testBit_word hW, testBit_word hW]
      by_cases hk : k / W < n
      · rw [hmerged _ hk, testBit_merge]
        simp [hk]
      · simp [hk]
    · rw [if_neg hab, testBit_word hW, testBit_word hW]
      by_cases hk : k / W < n
      · rw [hkept _ fun l hl h => hab ?_]
        -- limbs of different words are at different places
        calc a = (n * a + l) / n := by
              rw [Nat.mul_add_div (by omega), Nat.div_eq_of_lt hl, Nat.add_zero]
          _ = b := by rw [h, Nat.mul_add_div (by omega), Nat.div_eq_of_lt hk, Nat.add_zero]
      · simp [hk]
  · rw [List.getElem?_eq_none (by rw [length_words]; omega),
      List.getElem?_eq_none (by rw [length_words]; omega)]
    rfl

theorem modify_merge_zero (ws : List Nat) (a data : Nat) : ws.modify a (merge · data 0) = ws := by
  simp only [merge_zero]
  exact List.modify_id a ws

/-- The places of the limbs of a word, in a type that holds `M` numbers. -/
theorem place_inj {M : Nat} (hn : n ≤ M) (base : Nat) :
    ∀ l < n, ∀ l' < n, (base + l) % M = (base + l') % M → l = l' := by
  intro l hl l' hl' h
  have hmod : l ≡ l' [MOD M] := Nat.ModEq.add_left_cancel' base h
  rwa [Nat.ModEq, Nat.mod_eq_of_lt (by omega), Nat.mod_eq_of_lt (by omega)] at hmod

/-- A statement that merges the limbs of `md` into word `a` where `me` has ones, and does nothing
    when `me` has none. -/
def MergesAt (M a : Nat) (md me : Limbs W n) (write : List Nat → Option (List Nat)) : Prop :=
  ∀ d, write d = if me.value = 0 then some d
    else forUp (mergeLimb W (fun l => (n * a + l) % M) md.limbs me.limbs) n d

variable {M a data en : Nat} {write : List Nat → Option (List Nat)}

/-- Within the array the word is merged. -/
theorem MergesAt.run (hW : 0 < W) (h : MergesAt M a md me write) (hM : n * depth ≤ M)
    (ha : a < depth) (d : Limbs W (n * depth)) :
    ∃ r : Limbs W (n * depth), write d.limbs = some r.limbs ∧
      words W n depth r.limbs = (words W n depth d.limbs).modify a (merge · md.value me.value) := by
  rw [h]
  by_cases hzero : me.value = 0
  · refine ⟨d, if_pos hzero, ?_⟩
    rw [hzero, modify_merge_zero]
  · have hplace : ∀ l < n, (n * a + l) % M = n * a + l := fun l hl =>
      Nat.mod_eq_of_lt (Nat.lt_of_lt_of_le (mul_add_lt ha hl) hM)
    obtain ⟨r, hrun, hmerged, hkept⟩ := mergeLimbs_run
      (fun l => (n * a + l) % M) md me d
      (fun l hl => by simp only [hplace l hl]; exact mul_add_lt ha hl)
      (fun l hl l' hl' heq => by simp only [hplace l hl, hplace l' hl'] at heq; omega)
    refine ⟨r, by rw [if_neg hzero, hrun], words_merged hW (fun l hl => ?_) fun j hj => ?_⟩
    · simpa only [hplace l hl] using hmerged l hl
    · exact hkept j fun l hl => by simpa only [hplace l hl] using hj l hl

/-- Outside the array a write that succeeds and changes no word has an empty mask. -/
theorem MergesAt.mask_zero (hW : 0 < W) (hn : 0 < n) (h : MergesAt M a md me write) (hM : n ≤ M)
    (hkeep : ∀ d : Limbs W (n * depth), ∃ r : Limbs W (n * depth), write d.limbs = some r.limbs ∧
      words W n depth r.limbs = words W n depth d.limbs) : me.value = 0 := by
  by_contra hne
  have hlimb : ∀ (x : Nat) (hx : x < 2 ^ W), ∀ l < n,
      merge x (md.limbs.getD l 0) (me.limbs.getD l 0) = x := by
    intro x hx l hl
    obtain ⟨r, hrun, hwords⟩ := hkeep (Limbs.replicate (n * depth) hx)
    rw [h, if_neg hne] at hrun
    obtain rfl := words_inj hW hn hwords
    -- the run has stayed in the array, so that it has merged these limbs
    have hin := mergeLimbs_inRange hrun
    simp only [(Limbs.replicate (n * depth) hx).length_eq] at hin
    obtain ⟨r', hrun', hmerged, -⟩ := mergeLimbs_run (fun l => (n * a + l) % M) md me
      (Limbs.replicate (n * depth) hx) hin (place_inj hM (n * a))
    have hsame : (Limbs.replicate (n * depth) hx).limbs = r'.limbs :=
      Option.some.inj (hrun.symm.trans hrun')
    have hl' := hmerged l hl
    rw [← hsame, Limbs.getD_replicate hx (hin l hl)] at hl'
    exact hl'.symm
  have hzero : ∀ l < n, me.limbs.getD l 0 = 0 := by
    intro l hl
    have hzeros : merge 0 (md.limbs.getD l 0) (me.limbs.getD l 0) = merge 0 0 0 := by
      rw [hlimb 0 (Nat.two_pow_pos W) l hl, merge_zero]
    have hones : merge (2 ^ W - 1) (md.limbs.getD l 0) (me.limbs.getD l 0) =
        merge (2 ^ W - 1) 0 0 := by
      rw [hlimb _ (Nat.sub_one_lt (Nat.two_pow_pos W).ne') l hl, merge_zero]
    exact (merge_inj (getD_lt me.lt l) (Nat.two_pow_pos W) hzeros hones).1
  apply hne
  rw [Limbs.value_eq]
  exact prefixValue_zero hzero

/-- Such a statement is the masked write of a word, whatever the array holds, just when the word is
    in the array and the limbs are those of data and enable, or else nothing is enabled. -/
theorem MergesAt.write_iff (hW : 0 < W) (hn : 0 < n) (h : MergesAt M a md me write)
    (hM : n * depth ≤ M) (hn' : n ≤ M) (hen : en < 2 ^ (W * n)) :
    (∀ d : Limbs W (n * depth), ∃ r : Limbs W (n * depth), write d.limbs = some r.limbs ∧
      words W n depth r.limbs = (words W n depth d.limbs).modify a (merge · data en)) ↔
      if a < depth then me.value = en ∧ md.value &&& en = data &&& en else me.value = 0 := by
  by_cases ha : a < depth
  · rw [if_pos ha]
    constructor
    · intro hwrite
      have hword : ∀ d : Limbs W (n * depth), merge (word W n d.limbs a) md.value me.value =
          merge (word W n d.limbs a) data en := by
        intro d
        obtain ⟨r, hrun, hwords⟩ := hwrite d
        obtain ⟨r', hrun', hwords'⟩ := h.run hW hM ha d
        have hsame : r.limbs = r'.limbs := Option.some.inj (hrun.symm.trans hrun')
        rw [hsame, hwords'] at hwords
        have hget := congrArg (·[a]?) hwords
        simpa [List.getElem?_modify, getElem?_words ha] using hget
      have hzeros := hword (Limbs.replicate (n * depth) (Nat.two_pow_pos W))
      have hones := hword (Limbs.replicate (n * depth) (Nat.sub_one_lt (Nat.two_pow_pos W).ne'))
      rw [word_zeros hW ha] at hzeros
      rw [word_ones hW ha] at hones
      obtain ⟨hmask, hdata⟩ := merge_inj me.value_lt hen hzeros hones
      rw [hmask] at hdata
      exact ⟨hmask, hdata⟩
    · rintro ⟨hmask, hdata⟩ d
      obtain ⟨r, hrun, hwords⟩ := h.run hW hM ha d
      refine ⟨r, hrun, ?_⟩
      rw [hwords, hmask]
      congr 1
      funext old
      exact merge_congr hdata old
  · rw [if_neg ha]
    have hmodify : ∀ d : Limbs W (n * depth), (words W n depth d.limbs).modify a (merge · data en) =
        words W n depth d.limbs :=
      fun d => List.modify_eq_self (by rw [length_words]; omega)
    constructor
    · intro hwrite
      apply h.mask_zero hW hn hn'
      intro d
      obtain ⟨r, hrun, hwords⟩ := hwrite d
      exact ⟨r, hrun, by rw [hwords, hmodify]⟩
    · intro hmask d
      refine ⟨d, ?_, (hmodify d).symm⟩
      rw [h, if_pos hmask]

end MergeLimb

end Clang
