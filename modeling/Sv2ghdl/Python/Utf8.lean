import Sv2ghdl.Python.Str

/-!
# UTF-8

Python's `utf-8` codec with the two error policies in use: `strict`, which refuses a lone
surrogate, and `surrogatepass`, which writes and reads one as the three bytes of its number.
Under either policy decoding inverts encoding and the two are one-to-one.
-/

namespace Python.Utf8

/-- The error handler of the codec. -/
inductive Policy where
  | strict
  | surrogatepass
  deriving DecidableEq, Repr

/-- The bytes of one code point. -/
def encodeChar (c : CodePoint) : Bytes :=
  if c.val < 0x80 then
    [Fin.ofNat 256 c.val]
  else if c.val < 0x800 then
    [Fin.ofNat 256 (0xC0 + c.val / 64), Fin.ofNat 256 (0x80 + c.val % 64)]
  else if c.val < 0x10000 then
    [Fin.ofNat 256 (0xE0 + c.val / 4096), Fin.ofNat 256 (0x80 + c.val / 64 % 64),
      Fin.ofNat 256 (0x80 + c.val % 64)]
  else
    [Fin.ofNat 256 (0xF0 + c.val / 262144), Fin.ofNat 256 (0x80 + c.val / 4096 % 64),
      Fin.ofNat 256 (0x80 + c.val / 64 % 64), Fin.ofNat 256 (0x80 + c.val % 64)]

/-- `s.encode("utf-8", "surrogatepass")`; every `str` has one. -/
def encode (s : Str) : Bytes := s.flatMap encodeChar

/-- A continuation byte `80..BF`. -/
def isTail (b : Byte) : Bool := 0x80 ≤ b.val && b.val ≤ 0xBF

/-- Whether a policy admits a code point at all. -/
def Policy.admits (p : Policy) (c : CodePoint) : Bool :=
  p == .surrogatepass || !c.isSurrogate

theorem Policy.admits_of_lt_or_gt (p : Policy) (c : CodePoint)
    (h : c.val < 0xD800 ∨ 0xDFFF < c.val) : p.admits c = true := by
  have hs : c.isSurrogate = false := by
    rw [CodePoint.isSurrogate, Bool.and_eq_false_iff]
    rcases h with h | h
    · exact .inl (decide_eq_false (by omega))
    · exact .inr (decide_eq_false (by omega))
  simp [admits, hs]

/-- `bs.decode("utf-8", p)`, `none` for a `UnicodeDecodeError`.  The shortest form only: an
    overlong sequence, a code above `10FFFF` and a stray or missing tail are errors. -/
def decode (p : Policy) : Bytes → Option Str
  | [] => some []
  | b0 :: rest =>
    if b0.val < 0x80 then
      (decode p rest).map (Fin.ofNat 0x110000 b0.val :: ·)
    else if 0xC2 ≤ b0.val ∧ b0.val ≤ 0xDF then
      match rest with
      | b1 :: rest =>
        if isTail b1 then
          (decode p rest).map (Fin.ofNat 0x110000 ((b0.val - 0xC0) * 64 + (b1.val - 0x80)) :: ·)
        else none
      | _ => none
    else if 0xE0 ≤ b0.val ∧ b0.val ≤ 0xEF then
      match rest with
      | b1 :: b2 :: rest =>
        let c : CodePoint := Fin.ofNat 0x110000
          ((b0.val - 0xE0) * 4096 + (b1.val - 0x80) * 64 + (b2.val - 0x80))
        if isTail b1 ∧ isTail b2 ∧ 0x800 ≤ c.val ∧ p.admits c then
          (decode p rest).map (c :: ·)
        else none
      | _ => none
    else if 0xF0 ≤ b0.val ∧ b0.val ≤ 0xF4 then
      match rest with
      | b1 :: b2 :: b3 :: rest =>
        let n := (b0.val - 0xF0) * 262144 + (b1.val - 0x80) * 4096 + (b2.val - 0x80) * 64 +
          (b3.val - 0x80)
        if isTail b1 ∧ isTail b2 ∧ isTail b3 ∧ 0x10000 ≤ n ∧ n < 0x110000 then
          (decode p rest).map (Fin.ofNat 0x110000 n :: ·)
        else none
      | _ => none
    else none

/-- One encoded character in front of the rest decodes to that character. -/
theorem decode_encodeChar_append (p : Policy) (c : CodePoint) (rest : Bytes)
    (hc : p.admits c = true) :
    decode p (encodeChar c ++ rest) = (decode p rest).map (c :: ·) := by
  have hlt := c.isLt
  unfold encodeChar
  split_ifs with h1 h2 h3
  · have hb : (Fin.ofNat 256 c.val).val = c.val :=
      Byte.val_ofNat (by omega)
    have hback := CodePoint.ofNat_val c
    rw [List.singleton_append, decode.eq_def]
    simp only [hb, if_pos h1, hback]
  · have hb0 : (Fin.ofNat 256 (0xC0 + c.val / 64)).val = 0xC0 + c.val / 64 :=
      Byte.val_ofNat (by omega)
    have hb1 : (Fin.ofNat 256 (0x80 + c.val % 64)).val = 0x80 + c.val % 64 :=
      Byte.val_ofNat (by omega)
    have hback : Fin.ofNat 0x110000
        ((0xC0 + c.val / 64 - 0xC0) * 64 + (0x80 + c.val % 64 - 0x80)) = c :=
      Fin.ext ((CodePoint.val_ofNat (by omega)).trans (by omega))
    rw [decode.eq_def]
    simp only [List.cons_append, List.nil_append, hb0]
    rw [if_neg (by omega), if_pos (by omega), isTail, hb1, if_pos (by simp; omega), hback]
  · have hb0 : (Fin.ofNat 256 (0xE0 + c.val / 4096)).val = 0xE0 + c.val / 4096 :=
      Byte.val_ofNat (by omega)
    have hb1 : (Fin.ofNat 256 (0x80 + c.val / 64 % 64)).val = 0x80 + c.val / 64 % 64 :=
      Byte.val_ofNat (by omega)
    have hb2 : (Fin.ofNat 256 (0x80 + c.val % 64)).val = 0x80 + c.val % 64 :=
      Byte.val_ofNat (by omega)
    have hback : Fin.ofNat 0x110000 ((0xE0 + c.val / 4096 - 0xE0) * 4096 +
        (0x80 + c.val / 64 % 64 - 0x80) * 64 + (0x80 + c.val % 64 - 0x80)) = c :=
      Fin.ext ((CodePoint.val_ofNat (by omega)).trans (by omega))
    rw [decode.eq_def]
    simp only [List.cons_append, List.nil_append, hb0]
    rw [if_neg (by omega), if_neg (by omega), if_pos (by omega)]
    simp only [isTail, hb1, hb2, hback]
    rw [if_pos ⟨by simp; omega, by simp; omega, by omega, hc⟩]
  · have hb0 : (Fin.ofNat 256 (0xF0 + c.val / 262144)).val = 0xF0 + c.val / 262144 :=
      Byte.val_ofNat (by omega)
    have hb1 : (Fin.ofNat 256 (0x80 + c.val / 4096 % 64)).val = 0x80 + c.val / 4096 % 64 :=
      Byte.val_ofNat (by omega)
    have hb2 : (Fin.ofNat 256 (0x80 + c.val / 64 % 64)).val = 0x80 + c.val / 64 % 64 :=
      Byte.val_ofNat (by omega)
    have hb3 : (Fin.ofNat 256 (0x80 + c.val % 64)).val = 0x80 + c.val % 64 :=
      Byte.val_ofNat (by omega)
    have hn : (0xF0 + c.val / 262144 - 0xF0) * 262144 + (0x80 + c.val / 4096 % 64 - 0x80) * 4096 +
        (0x80 + c.val / 64 % 64 - 0x80) * 64 + (0x80 + c.val % 64 - 0x80) = c.val := by omega
    have hback := CodePoint.ofNat_val c
    rw [decode.eq_def]
    simp only [List.cons_append, List.nil_append, hb0]
    rw [if_neg (by omega), if_neg (by omega), if_neg (by omega), if_pos (by omega)]
    simp only [isTail, hb1, hb2, hb3, hn, hback]
    rw [if_pos ⟨by simp; omega, by simp; omega, by simp; omega, by omega, by omega⟩]

/-- What a nonempty sequence that decodes starts with: the encoding of the first character. -/
theorem decode_cons_inv (p : Policy) (b0 : Byte) (rest : Bytes) (s : Str)
    (h : decode p (b0 :: rest) = some s) :
    ∃ c s' rest', s = c :: s' ∧ b0 :: rest = encodeChar c ++ rest' ∧ decode p rest' = some s' ∧
      p.admits c = true := by
  have hb0 := b0.isLt
  rw [decode.eq_def] at h
  dsimp only at h
  split_ifs at h with h1 h2 h3 h4
  · obtain ⟨s', hs', rfl⟩ := Option.map_eq_some_iff.mp h
    have hv : (Fin.ofNat 0x110000 b0.val).val = b0.val := CodePoint.val_ofNat (by omega)
    refine ⟨_, s', rest, rfl, ?_, hs', ?_⟩
    · rw [encodeChar, hv, if_pos h1, Byte.ofNat_val, List.singleton_append]
    · exact p.admits_of_lt_or_gt _ (by rw [hv]; omega)
  · obtain - | ⟨b1, rest⟩ := rest
    · simp at h
    dsimp only at h
    split_ifs at h with ht
    have hb1 := b1.isLt
    simp only [isTail, Bool.and_eq_true, decide_eq_true_eq] at ht
    obtain ⟨s', hs', rfl⟩ := Option.map_eq_some_iff.mp h
    have hv : (Fin.ofNat 0x110000 ((b0.val - 0xC0) * 64 + (b1.val - 0x80))).val =
        (b0.val - 0xC0) * 64 + (b1.val - 0x80) := CodePoint.val_ofNat (by omega)
    refine ⟨_, s', _, rfl, ?_, hs', ?_⟩
    · rw [encodeChar, hv, if_neg (by omega), if_pos (by omega)]
      rw [Byte.ofNat_eq b0 (by omega), Byte.ofNat_eq b1 (by omega)]
      rfl
    · exact p.admits_of_lt_or_gt _ (by rw [hv]; omega)
  · obtain - | ⟨b1, - | ⟨b2, rest⟩⟩ := rest
    · simp at h
    · simp at h
    dsimp only at h
    split_ifs at h with ht
    have hb1 := b1.isLt
    have hb2 := b2.isLt
    simp only [isTail, Bool.and_eq_true, decide_eq_true_eq] at ht
    obtain ⟨ht1, ht2, hlow, hadm⟩ := ht
    obtain ⟨s', hs', rfl⟩ := Option.map_eq_some_iff.mp h
    have hv : (Fin.ofNat 0x110000
        ((b0.val - 0xE0) * 4096 + (b1.val - 0x80) * 64 + (b2.val - 0x80))).val =
        (b0.val - 0xE0) * 4096 + (b1.val - 0x80) * 64 + (b2.val - 0x80) :=
        CodePoint.val_ofNat (by omega)
    refine ⟨_, s', _, rfl, ?_, hs', hadm⟩
    rw [hv] at hlow
    rw [encodeChar, hv, if_neg (by omega), if_neg (by omega), if_pos (by omega)]
    rw [Byte.ofNat_eq b0 (by omega), Byte.ofNat_eq b1 (by omega), Byte.ofNat_eq b2 (by omega)]
    rfl
  · obtain - | ⟨b1, - | ⟨b2, - | ⟨b3, rest⟩⟩⟩ := rest
    · simp at h
    · simp at h
    · simp at h
    dsimp only at h
    split_ifs at h with ht
    have hb1 := b1.isLt
    have hb2 := b2.isLt
    have hb3 := b3.isLt
    simp only [isTail, Bool.and_eq_true, decide_eq_true_eq] at ht
    obtain ⟨ht1, ht2, ht3, hlow, hhigh⟩ := ht
    obtain ⟨s', hs', rfl⟩ := Option.map_eq_some_iff.mp h
    have hv : (Fin.ofNat 0x110000 ((b0.val - 0xF0) * 262144 + (b1.val - 0x80) * 4096 +
        (b2.val - 0x80) * 64 + (b3.val - 0x80))).val =
        (b0.val - 0xF0) * 262144 + (b1.val - 0x80) * 4096 + (b2.val - 0x80) * 64 +
          (b3.val - 0x80) :=
        CodePoint.val_ofNat (by omega)
    refine ⟨_, s', _, rfl, ?_, hs', ?_⟩
    · rw [encodeChar, hv, if_neg (by omega), if_neg (by omega), if_neg (by omega)]
      rw [Byte.ofNat_eq b0 (by omega), Byte.ofNat_eq b1 (by omega), Byte.ofNat_eq b2 (by omega),
        Byte.ofNat_eq b3 (by omega)]
      rfl
    · exact p.admits_of_lt_or_gt _ (by rw [hv]; omega)

/-- What decodes is the encoding of its text, under either policy. -/
theorem encode_of_decode (p : Policy) (bs : Bytes) (s : Str) (h : decode p bs = some s) :
    encode s = bs := by
  induction s generalizing bs with
  | nil =>
    cases bs with
    | nil => rfl
    | cons b0 rest =>
      obtain ⟨c, s', _, hs, _⟩ := decode_cons_inv p b0 rest [] h
      exact absurd hs (by simp)
  | cons c s ih =>
    cases bs with
    | nil => simp [decode] at h
    | cons b0 rest =>
      obtain ⟨c', s', rest', hs, hb, hd, _⟩ := decode_cons_inv p b0 rest (c :: s) h
      obtain ⟨rfl, rfl⟩ := List.cons.inj hs
      rw [encode, List.flatMap_cons, ← encode, ih rest' hd, hb]

theorem decode_encode (p : Policy) (s : Str) (hs : ∀ c ∈ s, p.admits c = true) :
    decode p (encode s) = some s := by
  induction s with
  | nil => rfl
  | cons c s ih =>
    rw [encode, List.flatMap_cons, decode_encodeChar_append p c _ (hs c (by simp)), ← encode,
      ih fun d hd => hs d (by simp [hd])]
    rfl

/-- A strictly decoded text holds no surrogate. -/
theorem admits_of_decode (p : Policy) (bs : Bytes) (s : Str) (h : decode p bs = some s) :
    ∀ c ∈ s, p.admits c = true := by
  induction s generalizing bs with
  | nil => simp
  | cons c s ih =>
    cases bs with
    | nil => simp [decode] at h
    | cons b0 rest =>
      obtain ⟨c', s', rest', hs, _, hd, hadm⟩ := decode_cons_inv p b0 rest (c :: s) h
      obtain ⟨rfl, rfl⟩ := List.cons.inj hs
      intro d hd'
      rcases List.mem_cons.mp hd' with rfl | hd'
      · exact hadm
      · exact ih rest' hd d hd'

theorem decode_encode_append (p : Policy) (s : Str) (hs : ∀ c ∈ s, p.admits c = true)
    (rest : Bytes) : decode p (encode s ++ rest) = (decode p rest).map (s ++ ·) := by
  induction s with
  | nil => simp [encode]
  | cons c s ih =>
    rw [encode, List.flatMap_cons, ← encode, List.append_assoc,
      decode_encodeChar_append p c _ (hs c (by simp)), ih fun d hd => hs d (by simp [hd]),
      Option.map_map]
    rfl

/-- The bytes of one character are a lead byte and tails, so an ASCII byte stands alone. -/
theorem encodeChar_split {c : CodePoint} {bs rest : Bytes} {b : Byte} (hb : b.val < 0x80)
    (h : encodeChar c = bs ++ b :: rest) : bs = [] := by
  have hlt := c.isLt
  have hne : ∀ n, 0x80 ≤ n → n < 256 → b ≠ Fin.ofNat 256 n := by
    rintro n hn hn' rfl
    rw [Byte.val_ofNat hn'] at hb
    omega
  have hmem : b ∈ encodeChar c := by simp [h]
  unfold encodeChar at h hmem
  split_ifs at h hmem with h1 h2 h3
  · cases bs with
    | nil => rfl
    | cons b' bs => simp at h
  · simp only [List.mem_cons, List.not_mem_nil, or_false] at hmem
    rcases hmem with hmem | hmem <;> exact absurd hmem (hne _ (by omega) (by omega))
  · simp only [List.mem_cons, List.not_mem_nil, or_false] at hmem
    rcases hmem with hmem | hmem | hmem <;> exact absurd hmem (hne _ (by omega) (by omega))
  · simp only [List.mem_cons, List.not_mem_nil, or_false] at hmem
    rcases hmem with hmem | hmem | hmem | hmem <;>
      exact absurd hmem (hne _ (by omega) (by omega))

theorem encode_split {s : Str} {bs rest : Bytes} {b : Byte} (hb : b.val < 0x80)
    (h : encode s = bs ++ b :: rest) : ∃ s1 s2, s = s1 ++ s2 ∧ encode s1 = bs := by
  induction s generalizing bs with
  | nil => simp [encode] at h
  | cons c s ih =>
    rw [encode, List.flatMap_cons, ← encode] at h
    rcases List.append_eq_append_iff.mp h with ⟨bs', rfl, hs⟩ | ⟨cs, hc, hs⟩
    · obtain ⟨s1, s2, rfl, rfl⟩ := ih hs
      exact ⟨c :: s1, s2, rfl, by rw [encode, List.flatMap_cons, ← encode]⟩
    · cases cs with
      | nil => exact ⟨[c], s, rfl, by simpa [encode] using hc⟩
      | cons b' cs =>
        obtain rfl : b = b' := (List.cons.inj hs).1
        obtain rfl := encodeChar_split hb hc
        exact ⟨[], c :: s, rfl, rfl⟩

/-- Text in front of an ASCII byte decodes by itself. -/
theorem decode_append_ascii (p : Policy) (bs rest : Bytes) {b : Byte} (hb : b.val < 0x80) :
    decode p (bs ++ b :: rest) = (decode p bs).bind fun s =>
      (decode p rest).map fun t => s ++ Fin.ofNat 0x110000 b.val :: t := by
  cases h : decode p bs with
  | some s =>
    obtain rfl := encode_of_decode p bs s h
    rw [decode_encode_append p s (admits_of_decode p _ s h), decode.eq_def]
    simp only [if_pos hb, Option.map_map, Option.bind_some]
    rfl
  | none =>
    cases hwhole : decode p (bs ++ b :: rest) with
    | none => rfl
    | some t =>
      obtain ⟨s1, s2, rfl, rfl⟩ := encode_split hb (encode_of_decode p _ t hwhole)
      have hadm := admits_of_decode p _ _ hwhole
      rw [decode_encode p s1 fun c hc => hadm c (by simp [hc])] at h
      simp at h

end Python.Utf8
