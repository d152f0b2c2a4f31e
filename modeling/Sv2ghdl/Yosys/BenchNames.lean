import Sv2ghdl.Lists.Lookup
import Sv2ghdl.Yosys.Bench

/-!
# Names of bench nets

When the names in a bench netlist tell its nets apart, and every net of it is driven once.
-/

open Python Vamos.Netlist.Expression

namespace Yosys.Bench

/-! ## Nets -/

def Stem.named (stem : Stem) (k : Nat) : Str := stem.text ++ natText k

namespace Module

variable (P : Interpreter) (M : Module)

/-- The bit of a port has the name of the port. -/
def isNamed (p : Str × Bit) : Bool :=
  match p.2 with
  | .net b => (M.claimed P).lookup b = some p.1
  | .const _ => false

/-- The ports that are nets of their own: their bit is a constant or has another name. -/
def portNets : List Str := ((M.inPorts ++ M.outPorts).filter fun p => !M.isNamed P p).map Prod.fst

/-- The names that are given before any is made. -/
def given : List Str := (M.claimed P).map Prod.snd ++ M.portNets P

end Module

namespace Cell

/-- The bit that a register holds. -/
def register (c : Cell) : Option Bit := if c.isDff then c.bit "Q" else none

/-- The bit that a cell drives. -/
def output (c : Cell) : Option Bit :=
  if (simpleOp c.type).isSome ∨ c.type = str "$_MUX_" then c.bit "Y" else c.register

end Cell

/-- The bits that inputs and cells drive. -/
def Module.drivers (P : Interpreter) (M : Module) : List Bit :=
  (M.inPorts.filter (M.isNamed P)).map Prod.snd ++ M.cells.filterMap Cell.output

/-- The names of all nets of the file. -/
def Output.nets (P : Interpreter) (M : Module) (out : Output) : List Str :=
  out.names.map Prod.snd ++ M.portNets P ++ out.synth ++ out.registers.map next

/-- The nets of the lines that drive: inputs, registers, their next values and gates. -/
def Output.driven (out : Output) : List Str :=
  out.inputs ++ out.registers ++ out.registers.map next ++ out.lines.map Line.target

/-- Bits with one name are one bit, no two nets share a name, and no net has two driving lines. -/
structure Identifies (P : Interpreter) (M : Module) (out : Output) : Prop where
  bits : ∀ b b' n, out.names.lookup b = some n → out.names.lookup b' = some n → b = b'
  nets : (out.nets P M).Nodup
  driven : out.driven.Nodup

def plainChar (c : CodePoint) : Bool :=
  !c.isSpace && c ≠ ('=' : CodePoint) && c ≠ ('(' : CodePoint) && c ≠ (')' : CodePoint) &&
    c ≠ (',' : CodePoint)

/-- A name that a line can be read back with. -/
def Plain (s : Str) : Prop := ∀ c ∈ s, plainChar c = true

/-- The ports have plain names, no given name is spelled like one that is made, and every bit is driven
    at most once. -/
structure Module.Apart (P : Interpreter) (M : Module) : Prop where
  plain : ∀ p ∈ M.ports, Plain p.name
  fresh : ∀ n ∈ M.given P, ∀ (stem : Stem) k, n ≠ stem.named k
  next : ∀ c ∈ M.cells, ∀ b, c.register = some (.net b) → ∀ q,
    (M.claimed P).lookup b = some q ∨ (M.claimed P).lookup b = none ∧ (∃ k, q = Stem.n.named k) →
    next q ∉ M.given P
  nets : ∀ d ∈ M.drivers P, ∃ b, d = .net b
  drivers : (M.drivers P).Nodup

/-! ## Spelling -/

theorem named_inj {stem stem' : Stem} {k k' : Nat} (h : stem.named k = stem'.named k') : k = k' := by
  cases stem <;> cases stem'
  case n.n | const0.const0 | c0b.c0b | const1.const1 =>
    exact natText_injective (List.append_cancel_left h)
  all_goals simp [Stem.named, Stem.text, str] at h

theorem mem_natText {k : Nat} {c : CodePoint} (h : c ∈ natText k) : ∃ d < 10, c = digitChar d := by
  obtain ⟨ds, hlt, -, -, htext⟩ := natText_digits k
  rw [htext] at h
  obtain ⟨d, hd, rfl⟩ := List.mem_map.mp h
  exact ⟨d, hlt d hd, rfl⟩

theorem next_ne_named (q : Str) (stem : Stem) (k : Nat) : next q ≠ stem.named k := by
  intro h
  cases stem with
  | n =>
    have htail : CodePoint.ofChar 'e' :: (str "xt_" ++ q) = natText k := (List.cons.inj h).2
    have hmem : CodePoint.ofChar 'e' ∈ natText k := by
      rw [← htail]
      exact List.mem_cons_self
    obtain ⟨d, hd, heq⟩ := mem_natText hmem
    interval_cases d <;> exact absurd heq (by decide)
  | const0 | c0b | const1 => simp [next, Stem.named, Stem.text, str] at h

theorem next_injective : Function.Injective next := fun _ _ h => List.append_cancel_left h

/-- The names of no net: of the constants, of the first input where there is none, and what is read back
    of a gate without inputs. -/
def specials : List Str := [str "#0", str "#1", str "G0", str ""]

theorem named_not_special (stem : Stem) (k : Nat) : stem.named k ∉ specials := by
  cases stem <;> simp [specials, Stem.named, Stem.text, str]

theorem next_not_special (q : Str) : next q ∉ specials := by
  simp [specials, next, str]

theorem plain_str {s : String} (h : (str s).all plainChar = true) : Plain (str s) :=
  List.all_eq_true.mp h

theorem Plain.append {s t : Str} (hs : Plain s) (ht : Plain t) : Plain (s ++ t) := by
  intro c hc
  rcases List.mem_append.mp hc with hc | hc
  · exact hs c hc
  · exact ht c hc

theorem plain_natText (k : Nat) : Plain (natText k) := by
  intro c hc
  obtain ⟨d, hd, rfl⟩ := mem_natText hc
  interval_cases d <;> decide

theorem plain_named (stem : Stem) (k : Nat) : Plain (stem.named k) := by
  refine Plain.append ?_ (plain_natText k)
  cases stem <;> exact plain_str (by decide)

theorem plain_suffixed {nm : Str} (h : Plain nm) (len i : Nat) : Plain (suffixed nm len i) := by
  unfold suffixed
  split_ifs
  · exact h
  · refine h.append fun c hc => ?_
    rcases List.mem_cons.mp hc with rfl | hc
    · decide
    · exact plain_natText i c hc

theorem plain_special {n : Str} (h : n ∈ specials) : Plain n := by
  simp only [specials, List.mem_cons, List.not_mem_nil, or_false] at h
  rcases h with rfl | rfl | rfl | rfl <;> exact plain_str (by decide)

/-- A letter, a digit or an underscore. -/
theorem plain_sanitize (P : Interpreter) (nm : Str) : Plain (sanitize P nm) := by
  have halnum : ∀ c, P.isAlnum c = true → plainChar c = true := by
    intro c hc
    have hspace := P.isAlnum_space c hc
    by_cases hascii : c.val < 128
    · rw [P.isAlnum_ascii c hascii] at hc
      simp only [CodePoint.isAsciiAlnum, CodePoint.isAsciiLetter, CodePoint.isUpperAscii,
        CodePoint.isLowerAscii, CodePoint.isAsciiDigit, Bool.or_eq_true, Bool.and_eq_true,
        decide_eq_true_eq] at hc
      simp only [plainChar, hspace, Bool.not_false, Bool.true_and, Bool.and_eq_true, decide_eq_true_eq,
        ne_eq, CodePoint.eq_ofChar_iff]
      refine ⟨⟨⟨?_, ?_⟩, ?_⟩, ?_⟩ <;> simp only [Char.reduceToNat] <;> omega
    · simp only [plainChar, hspace, Bool.not_false, Bool.true_and, Bool.and_eq_true, decide_eq_true_eq,
        ne_eq, CodePoint.eq_ofChar_iff]
      refine ⟨⟨⟨?_, ?_⟩, ?_⟩, ?_⟩ <;> simp only [Char.reduceToNat] <;> omega
  have hmap : Plain (nm.map fun ch => if P.isAlnum ch || ch = '_' then ch else ('_' : CodePoint)) := by
    intro c hc
    obtain ⟨ch, -, rfl⟩ := List.mem_map.mp hc
    split_ifs with h
    · rcases Bool.or_eq_true _ _ ▸ h with h | h
      · exact halnum ch h
      · rw [of_decide_eq_true h]
        decide
    · decide
  unfold sanitize
  dsimp only
  split_ifs
  · exact plain_str (by decide)
  · exact (plain_str (by decide)).append hmap
  · exact plain_str (by decide)
  · exact hmap

/-! ## Lines that are read back -/

theorem strip_plain {s : Str} (h : Plain s) :
    Str.strip (s ++ str " ") = s ∧ Str.strip (CodePoint.ofChar ' ' :: s) = s ∧ Str.strip s = s := by
  have hspace : ∀ c ∈ s, c.isSpace = false := by
    intro c hc
    have hplain := h c hc
    simp only [plainChar, Bool.and_eq_true, Bool.not_eq_true'] at hplain
    exact hplain.1.1.1.1
  have hself : Str.strip s = s :=
    Str.strip_eq_self (fun c hc => hspace c (List.mem_of_mem_head? hc))
      fun c hc => hspace c (List.mem_of_getLast? hc)
  refine ⟨?_, hself, hself⟩
  cases s with
  | nil => rfl
  | cons c s =>
    rw [Str.strip, Str.lstrip, List.cons_append, List.dropWhile_cons_of_neg (by simp [hspace c]),
      ← List.cons_append]
    show List.rdropWhile CodePoint.isSpace ((c :: s) ++ [CodePoint.ofChar ' ']) = _
    rw [List.rdropWhile_concat_pos _ _ _ (by decide)]
    exact UnicodeData.rdropWhile_eq_self hspace

theorem intercalate_comma (a : Str) (as : List Str) : (str ", ").intercalate (a :: as) =
    [CodePoint.ofChar ','].intercalate (a :: as.map (CodePoint.ofChar ' ' :: ·)) := by
  induction as generalizing a with
  | nil => rfl
  | cons b as ih =>
    rw [List.intercalate_cons_cons, ih b, List.map_cons, List.intercalate_cons_cons,
      List.intercalate_cons_cons_left, List.append_assoc, List.append_assoc]
    rfl

/-- A line whose names are plain is read back as it was written. -/
theorem parseLine_text {l : Line} (ht : Plain l.target) (hop : Plain l.op)
    (hargs : ∀ a ∈ l.args, Plain a) :
    parseLine l.text = (l.target, if l.args = [] then [str ""] else l.args) := by
  have hno : ∀ {s : Str} {d : CodePoint}, Plain s → plainChar d = false → ∀ c ∈ s, decide (c ≠ d) = true := by
    intro s d hs hd c hc
    apply decide_eq_true
    rintro rfl
    rw [hs c hc] at hd
    cases hd
  have htarget : l.text = (l.target ++ str " ") ++ CodePoint.ofChar '=' ::
      (str " " ++ l.op ++ str "(" ++ (str ", ").intercalate l.args ++ str ")") := by
    simp [Line.text, str]
  have hparens : l.text = (l.target ++ str " = " ++ l.op) ++ CodePoint.ofChar '(' ::
      ((str ", ").intercalate l.args ++ [CodePoint.ofChar ')']) := by
    simp [Line.text, str]
  have hfirst : Str.strip (l.text.takeWhile (· ≠ ('=' : CodePoint))) = l.target := by
    rw [htarget, List.takeWhile_append_of_pos, List.takeWhile_cons_of_neg (by simp), List.append_nil]
    · exact (strip_plain ht).1
    · intro c hc
      rcases List.mem_append.mp hc with hc | hc
      · exact hno ht (by decide) c hc
      · obtain rfl := List.mem_singleton.mp hc
        decide
  have hinner : inParens l.text = (str ", ").intercalate l.args := by
    rw [inParens, hparens, List.dropWhile_append_of_pos, List.dropWhile_cons_of_neg (by simp),
      List.drop_succ_cons, List.drop_zero, List.reverse_append, List.reverse_singleton,
      List.singleton_append, List.dropWhile_cons_of_neg (by simp), List.drop_succ_cons, List.drop_zero,
      List.reverse_reverse]
    intro c hc
    rcases List.mem_append.mp hc with hc | hc
    · rcases List.mem_append.mp hc with hc | hc
      · exact hno ht (by decide) c hc
      · rcases (by simpa [str] using hc : c = ' ' ∨ c = '=' ∨ c = ' ') with rfl | rfl | rfl <;> decide
    · exact hno hop (by decide) c hc
  rw [parseLine, hfirst, hinner]
  congr 1
  cases hcons : l.args with
  | nil => rfl
  | cons a as =>
    rw [if_neg (List.cons_ne_nil a as)]
    rw [hcons] at hargs
    have hcomma : ∀ u ∈ a :: as.map (CodePoint.ofChar ' ' :: ·), CodePoint.ofChar ',' ∉ u := by
      intro u hu hmem
      rcases List.mem_cons.mp hu with rfl | hu
      · exact of_decide_eq_true (hno (hargs u List.mem_cons_self) (by decide) _ hmem) rfl
      · obtain ⟨v, hv, rfl⟩ := List.mem_map.mp hu
        rcases List.mem_cons.mp hmem with heq | hmem
        · exact absurd heq (by decide)
        · exact of_decide_eq_true (hno (hargs v (List.mem_cons_of_mem a hv)) (by decide) _ hmem) rfl
    rw [intercalate_comma, List.splitOn_intercalate _ hcomma (List.cons_ne_nil _ _), List.map_cons,
      List.map_map, (strip_plain (hargs a List.mem_cons_self)).2.2]
    congr 1
    refine (List.map_congr_left fun v hv => ?_).trans (List.map_id as)
    exact (strip_plain (hargs v (List.mem_cons_of_mem a hv))).2.1

/-! ## What the script keeps -/

section Invariant

variable (P : Interpreter) (M : Module)

/-- The nets that have a name. -/
def State.nets (s : State) : List Str := s.names.map Prod.snd ++ M.portNets P ++ s.synth

/-- The names on the left of the lines. -/
def State.driven (s : State) : List Str := s.inputs ++ s.ppiNames ++ s.lines.map Line.target

def State.Known (s : State) (n : Str) : Prop := n ∈ s.nets P M ∨ n ∈ specials

/-- The names are given or made; where the given ones differ they tell the nets apart, and a name is on the
    left of one line at most. What is written is known. -/
structure Good (s : State) : Prop where
  claimed : M.claimed P <:+ s.names
  keys : (s.names.map Prod.fst).Nodup
  named : ∀ e ∈ s.names, e ∈ M.claimed P ∨ ∃ k ≤ s.uid, e.2 = Stem.n.named k
  made : ∀ n ∈ s.synth, ∃ stem : Stem, ∃ k ≤ s.uid, n = stem.named k
  nodup : (M.given P).Nodup → (s.nets P M).Nodup
  driven : (M.given P).Nodup → s.driven.Nodup
  known : ∀ n ∈ s.driven, s.Known P M n
  lines : ∀ l ∈ s.lines, Plain l.op ∧ ∀ a ∈ l.args, s.Known P M a
  outputs : ∀ o ∈ s.outputs, s.Known P M o
  dffs : ∀ d ∈ s.dffs, s.Known P M d.2
  root : ∀ r ∈ s.c0root, s.Known P M r
  pool : ∀ b ∈ s.c0pool, s.Known P M b

/-- A state that a later one extends by lines for the names `ys` and for nets made in between. -/
structure Extends (s s' : State) (ys : List Str) : Prop where
  known : ∀ n, s.Known P M n → s'.Known P M n
  lookup : ∀ b n, s.names.lookup b = some n → s'.names.lookup b = some n
  synth : ∀ n ∈ s.synth, n ∈ s'.synth
  driven : ∀ n, s.Known P M n → n ∈ s'.driven → n ∈ s.driven ∨ n ∈ ys
  owned : ∀ n ∈ s'.driven, n ∈ s.driven ∨ n ∈ ys ∨ n ∈ s'.synth
  dffs : s'.dffs = s.dffs
  ppiNames : s'.ppiNames = s.ppiNames

end Invariant

section Steps

variable {P : Interpreter} {M : Module} {s s' s'' : State} {n y : Str}

theorem Extends.of_eq (hnames : s'.names = s.names) (hsynth : s'.synth = s.synth)
    (hinputs : s'.inputs = s.inputs) (hppi : s'.ppiNames = s.ppiNames) (hlines : s'.lines = s.lines)
    (hdffs : s'.dffs = s.dffs) : Extends P M s s' [] := by
  have hnets : s'.nets P M = s.nets P M := by rw [State.nets, State.nets, hnames, hsynth]
  have hdriven : s'.driven = s.driven := by rw [State.driven, State.driven, hinputs, hppi, hlines]
  constructor
  · intro n h
    rwa [State.Known, hnets]
  · intro b n h
    rwa [hnames]
  · intro n h
    rwa [hsynth]
  · intro n _ h
    rw [hdriven] at h
    exact .inl h
  · intro n h
    rw [hdriven] at h
    exact .inl h
  · exact hdffs
  · exact hppi

theorem Extends.trans {ys zs : List Str} (h : Extends P M s s' ys) (h' : Extends P M s' s'' zs) :
    Extends P M s s'' (ys ++ zs) := by
  constructor
  · exact fun n hn => h'.known n (h.known n hn)
  · exact fun b n hn => h'.lookup b n (h.lookup b n hn)
  · exact fun n hn => h'.synth n (h.synth n hn)
  · intro n hn hmem
    rcases h'.driven n (h.known n hn) hmem with hmem | hmem
    · exact (h.driven n hn hmem).imp_right (List.mem_append_left zs)
    · exact .inr (List.mem_append_right ys hmem)
  · intro n hmem
    rcases h'.owned n hmem with hmem | hmem | hmem
    · rcases h.owned n hmem with hmem | hmem | hmem
      · exact .inl hmem
      · exact .inr (.inl (List.mem_append_left zs hmem))
      · exact .inr (.inr (h'.synth n hmem))
    · exact .inr (.inl (List.mem_append_right ys hmem))
    · exact .inr (.inr hmem)
  · exact h'.dffs.trans h.dffs
  · exact h'.ppiNames.trans h.ppiNames

/-- The lines of nets made in between are not counted. -/
theorem Extends.drop {ys : List Str} (h : Extends P M s s' ys)
    (hys : ∀ y ∈ ys, y ∈ s'.synth ∧ ¬ s.Known P M y) : Extends P M s s' [] := by
  refine ⟨h.known, h.lookup, h.synth, fun n hn hmem => ?_, fun n hmem => ?_, h.dffs, h.ppiNames⟩
  · exact .inl ((h.driven n hn hmem).resolve_right fun hy => (hys n hy).2 hn)
  · rcases h.owned n hmem with hmem | hmem | hmem
    · exact .inl hmem
    · exact .inr (.inr (hys n hmem).1)
    · exact .inr (.inr hmem)

theorem Good.given_or_made (h : Good P M s) (hn : n ∈ s.nets P M) :
    n ∈ M.given P ∨ ∃ stem : Stem, ∃ k ≤ s.uid, n = stem.named k := by
  rcases List.mem_append.mp hn with hn | hn
  · rcases List.mem_append.mp hn with hn | hn
    · obtain ⟨e, he, rfl⟩ := List.mem_map.mp hn
      rcases h.named e he with hclaimed | ⟨k, hk, heq⟩
      · exact .inl (List.mem_append_left _ (List.mem_map_of_mem hclaimed))
      · exact .inr ⟨.n, k, hk, heq⟩
    · exact .inl (List.mem_append_right _ hn)
  · exact .inr (h.made n hn)

/-- A name with a number above the last one is not known. -/
theorem Good.fresh (hM : M.Apart P) (h : Good P M s) (stem : Stem) {k : Nat} (hk : s.uid < k) :
    ¬ s.Known P M (stem.named k) := by
  rintro (hn | hn)
  · rcases h.given_or_made hn with hgiven | ⟨stem', k', hk', heq⟩
    · exact hM.fresh _ hgiven stem k rfl
    · have := named_inj heq
      omega
  · exact named_not_special stem k hn

/-- A state with one more net. -/
theorem Good.grow (h : Good P M s) (hknown : ∀ m, s.Known P M m → s'.Known P M m)
    (hclaimed : M.claimed P <:+ s'.names)
    (hkeys : (s'.names.map Prod.fst).Nodup)
    (hnamed : ∀ e ∈ s'.names, e ∈ M.claimed P ∨ ∃ k ≤ s'.uid, e.2 = Stem.n.named k)
    (hmade : ∀ n ∈ s'.synth, ∃ stem : Stem, ∃ k ≤ s'.uid, n = stem.named k)
    (hnodup : (M.given P).Nodup → (s'.nets P M).Nodup) (hdriven : s'.driven = s.driven) (hlines : s'.lines = s.lines)
    (houtputs : s'.outputs = s.outputs) (hdffs : s'.dffs = s.dffs) (hroot : s'.c0root = s.c0root)
    (hpool : s'.c0pool = s.c0pool) : Good P M s' where
  claimed := hclaimed
  keys := hkeys
  named := hnamed
  made := hmade
  nodup := hnodup
  driven := by rw [hdriven]; exact h.driven
  known := by rw [hdriven]; exact fun n hn => hknown n (h.known n hn)
  lines := by
    rw [hlines]
    exact fun l hl => ⟨(h.lines l hl).1, fun a ha => hknown a ((h.lines l hl).2 a ha)⟩
  outputs := by rw [houtputs]; exact fun o ho => hknown o (h.outputs o ho)
  dffs := by rw [hdffs]; exact fun d hd => hknown d.2 (h.dffs d hd)
  root := by rw [hroot]; exact fun r hr => hknown r (h.root r hr)
  pool := by rw [hpool]; exact fun b hb => hknown b (h.pool b hb)

theorem newNet_spec (hM : M.Apart P) (h : Good P M s) {stem : Stem} (hrun : s.newNet stem = (n, s')) :
    Good P M s' ∧ Extends P M s s' [] ∧ s'.Known P M n ∧ n ∈ s'.synth ∧ n ∉ s'.driven ∧
      ¬ s.Known P M n := by
  obtain rfl : stem.named (s.uid + 1) = n := congrArg Prod.fst hrun
  obtain rfl : (s.newNet stem).2 = s' := congrArg Prod.snd hrun
  have hnew : ¬ s.Known P M (stem.named (s.uid + 1)) := h.fresh hM stem (Nat.lt_succ_self s.uid)
  have hperm : (s.newNet stem).2.nets P M =
      (s.names.map Prod.snd ++ M.portNets P) ++ stem.named (s.uid + 1) :: s.synth := rfl
  have hknown : ∀ m, s.Known P M m → (s.newNet stem).2.Known P M m := by
    rintro m (hm | hm)
    · left
      rw [hperm]
      rcases List.mem_append.mp hm with hm | hm
      · exact List.mem_append_left _ hm
      · exact List.mem_append_right _ (List.mem_cons_of_mem _ hm)
    · exact .inr hm
  have hself : stem.named (s.uid + 1) ∈ (s.newNet stem).2.synth := List.mem_cons_self
  refine ⟨?_, ⟨hknown, fun _ _ hb => hb, fun m hm => List.mem_cons_of_mem _ hm, fun m _ hm => .inl hm,
    fun m hm => .inl hm, rfl, rfl⟩, .inl (List.mem_append_right _ hself), hself,
    fun hm => hnew (h.known _ hm), hnew⟩
  refine h.grow hknown h.claimed h.keys ?_ ?_ ?_ rfl rfl rfl rfl rfl rfl
  · exact fun e he => (h.named e he).imp_right fun ⟨k, hk, heq⟩ => ⟨k, hk.trans (Nat.le_succ _), heq⟩
  · intro m hm
    rcases List.mem_cons.mp hm with rfl | hm
    · exact ⟨stem, s.uid + 1, le_rfl, rfl⟩
    · obtain ⟨stem', k, hk, heq⟩ := h.made m hm
      exact ⟨stem', k, hk.trans (Nat.le_succ _), heq⟩
  · intro hgiven
    rw [hperm, List.nodup_middle]
    exact List.nodup_cons.mpr ⟨fun hm => hnew (.inl hm), h.nodup hgiven⟩

theorem bitName_spec (hM : M.Apart P) (h : Good P M s) {b : Bit} (hrun : s.bitName b = (n, s')) :
    Good P M s' ∧ Extends P M s s' [] ∧ s'.Known P M n ∧
      ∀ id, b = .net id → s'.names.lookup id = some n := by
  have hrefl : Extends P M s s [] := .of_eq rfl rfl rfl rfl rfl rfl
  cases b with
  | const c =>
    obtain ⟨rfl, rfl⟩ := Prod.mk.inj hrun
    refine ⟨h, hrefl, .inr ?_, fun id hid => by cases hid⟩
    split_ifs <;> simp [specials]
  | net id =>
    rw [State.bitName] at hrun
    cases hlookup : s.names.lookup id with
    | some m =>
      rw [hlookup] at hrun
      obtain ⟨rfl, rfl⟩ := Prod.mk.inj hrun
      have hmem : m ∈ s.names.map Prod.snd := List.mem_map_of_mem (Lookup.mem_of_lookup hlookup)
      refine ⟨h, hrefl, .inl (List.mem_append_left _ (List.mem_append_left _ hmem)), ?_⟩
      rintro id' ⟨⟩
      exact hlookup
    | none =>
      rw [hlookup] at hrun
      obtain ⟨rfl, rfl⟩ := Prod.mk.inj hrun
      have hnew : ¬ s.Known P M (Stem.n.named (s.uid + 1)) := h.fresh hM .n (Nat.lt_succ_self s.uid)
      have hkey : id ∉ s.names.map Prod.fst := by
        intro hmem
        obtain ⟨e, he, rfl⟩ := List.mem_map.mp hmem
        obtain ⟨m, hm⟩ := Lookup.lookup_isSome_of_mem he
        rw [hlookup] at hm
        cases hm
      have hknown : ∀ m, s.Known P M m → State.Known P M { s with
          uid := s.uid + 1, names := (id, Stem.n.named (s.uid + 1)) :: s.names } m := by
        rintro m (hm | hm)
        · exact .inl (List.mem_cons_of_mem _ hm)
        · exact .inr hm
      refine ⟨?_, ⟨hknown, ?_, fun m hm => hm, fun m _ hm => .inl hm, fun m hm => .inl hm, rfl, rfl⟩,
        .inl List.mem_cons_self, ?_⟩
      · refine h.grow hknown (h.claimed.trans (List.suffix_cons _ _)) (List.nodup_cons.mpr ⟨hkey, h.keys⟩)
          ?_ ?_ ?_ rfl rfl rfl rfl rfl rfl
        · intro e he
          rcases List.mem_cons.mp he with rfl | he
          · exact .inr ⟨s.uid + 1, le_rfl, rfl⟩
          · exact (h.named e he).imp_right fun ⟨k, hk, heq⟩ => ⟨k, hk.trans (Nat.le_succ _), heq⟩
        · intro m hm
          obtain ⟨stem, k, hk, heq⟩ := h.made m hm
          exact ⟨stem, k, hk.trans (Nat.le_succ _), heq⟩
        · exact fun hgiven => List.nodup_cons.mpr ⟨fun hm => hnew (.inl hm), h.nodup hgiven⟩
      · intro b m hb
        rw [List.lookup_cons]
        by_cases hbid : b = id
        · subst hbid
          rw [hlookup] at hb
          cases hb
        · rw [beq_false_of_ne hbid]
          exact hb
      · rintro id' ⟨⟩
        exact List.lookup_cons_self

theorem driven_addLine (s : State) (y op : Str) (args : List Str) :
    (s.addLine y op args).driven = s.driven ++ [y] := by
  rw [State.driven, State.driven, State.addLine, List.map_append, ← List.append_assoc]
  rfl

theorem addLine_spec (h : Good P M s) (hy : s.Known P M y) (hnot : (M.given P).Nodup → y ∉ s.driven)
    {op : Str} {args : List Str} (hop : Plain op) (hargs : ∀ a ∈ args, s.Known P M a) :
    Good P M (s.addLine y op args) ∧ Extends P M s (s.addLine y op args) [y] := by
  have hdriven := driven_addLine s y op args
  constructor
  · refine ⟨h.claimed, h.keys, h.named, h.made, h.nodup, ?_, ?_, ?_, h.outputs, h.dffs, h.root, h.pool⟩
    · intro hgiven
      rw [hdriven]
      exact List.nodup_append.mpr ⟨h.driven hgiven, List.nodup_singleton y, fun a ha b hb heq =>
        hnot hgiven (List.mem_singleton.mp hb ▸ heq ▸ ha)⟩
    · intro n hn
      rw [hdriven] at hn
      rcases List.mem_append.mp hn with hn | hn
      · exact h.known n hn
      · exact List.mem_singleton.mp hn ▸ hy
    · intro l hl
      rcases List.mem_append.mp hl with hl | hl
      · exact h.lines l hl
      · obtain rfl := List.mem_singleton.mp hl
        exact ⟨hop, hargs⟩
  · refine ⟨fun _ hn => hn, fun _ _ hn => hn, fun _ hn => hn, fun n _ hn => ?_, fun n hn => ?_, rfl, rfl⟩
    · rw [hdriven] at hn
      exact List.mem_append.mp hn
    · rw [hdriven] at hn
      exact (List.mem_append.mp hn).imp_right .inl

/-! ## Constants -/

theorem constRoot_spec (hM : M.Apart P) (h : Good P M s) (hrun : s.constRoot = (n, s')) :
    Good P M s' ∧ Extends P M s s' [] ∧ s'.Known P M n := by
  rw [State.constRoot] at hrun
  cases hroot : s.c0root with
  | some root =>
    rw [hroot] at hrun
    obtain ⟨rfl, rfl⟩ := Prod.mk.inj hrun
    exact ⟨h, .of_eq rfl rfl rfl rfl rfl rfl, h.root _ hroot⟩
  | none =>
    rw [hroot] at hrun
    rcases hnew : s.newNet .const0 with ⟨root, s₁⟩
    rw [hnew] at hrun
    obtain ⟨rfl, rfl⟩ := Prod.mk.inj hrun
    obtain ⟨hg, he, hknown, hsynth, hnot, hfresh⟩ := newNet_spec hM h hnew
    have hinput : s.Known P M (s.inputs.head?.getD (str "G0")) := by
      cases hhead : s.inputs.head? with
      | none => exact .inr (by simp [specials])
      | some i =>
        have hmem := List.mem_of_mem_head? hhead
        exact h.known i (List.mem_append_left _ (List.mem_append_left _ hmem))
    have hg' : Good P M { s₁ with c0root := some root } :=
      ⟨hg.claimed, hg.keys, hg.named, hg.made, hg.nodup, hg.driven, hg.known, hg.lines, hg.outputs, hg.dffs,
        fun r hr => Option.some.inj hr ▸ hknown, hg.pool⟩
    have hargs : ∀ a ∈ [s.inputs.head?.getD (str "G0"), s.inputs.head?.getD (str "G0")],
        State.Known P M { s₁ with c0root := some root } a := by
      intro a ha
      obtain rfl : a = s.inputs.head?.getD (str "G0") := by simpa using ha
      exact he.known _ hinput
    have hline := addLine_spec hg' hknown (fun _ => hnot) (@plain_str "XOR" (by decide)) hargs
    have hroot' : Extends P M s₁ { s₁ with c0root := some root } [] := .of_eq rfl rfl rfl rfl rfl rfl
    refine ⟨hline.1, ((he.trans hroot').trans hline.2).drop ?_, hline.2.known _ hknown⟩
    intro y hy
    obtain rfl : y = root := by simpa using hy
    exact ⟨hsynth, hfresh⟩

theorem constBuffer_spec (hM : M.Apart P) (h : Good P M s) {root : Str} (hroot : s.Known P M root) :
    Good P M (s.constBuffer root) ∧ Extends P M s (s.constBuffer root) [] := by
  rw [State.constBuffer]
  split_ifs
  · rcases hnew : s.newNet .c0b with ⟨b, s₁⟩
    obtain ⟨hg, he, hknown, hsynth, hnot, hfresh⟩ := newNet_spec hM h hnew
    have hargs : ∀ a ∈ [root], s₁.Known P M a := by
      intro a ha
      obtain rfl := List.mem_singleton.mp ha
      exact he.known _ hroot
    obtain ⟨hg', he'⟩ := addLine_spec hg hknown (fun _ => hnot) (@plain_str "BUFF" (by decide)) hargs
    constructor
    · refine ⟨hg'.claimed, hg'.keys, hg'.named, hg'.made, hg'.nodup, hg'.driven, hg'.known, hg'.lines, hg'.outputs,
        hg'.dffs, hg'.root, fun m hm => ?_⟩
      rcases List.mem_append.mp hm with hm | hm
      · exact hg'.pool m hm
      · exact List.mem_singleton.mp hm ▸ hknown
    · have hpool : Extends P M (s₁.addLine b (str "BUFF") [root])
          { s₁.addLine b (str "BUFF") [root] with c0pool := s₁.c0pool ++ [b] } [] :=
        .of_eq rfl rfl rfl rfl rfl rfl
      refine ((he.trans he').trans hpool).drop fun y hy => ?_
      obtain rfl : y = b := by simpa using hy
      exact ⟨hsynth, hfresh⟩
  · exact ⟨h, .of_eq rfl rfl rfl rfl rfl rfl⟩

theorem const0_spec (hM : M.Apart P) (h : Good P M s) (hrun : s.const0 = some (n, s')) :
    Good P M s' ∧ Extends P M s s' [] ∧ s'.Known P M n := by
  rw [State.const0] at hrun
  rcases hroot : s.constRoot with ⟨root, s₁⟩
  rw [hroot] at hrun
  obtain ⟨hg₁, he₁, hknown₁⟩ := constRoot_spec hM h hroot
  obtain ⟨hg₂, he₂⟩ := constBuffer_spec hM hg₁ hknown₁
  obtain ⟨m, hm, heq⟩ := Option.map_eq_some_iff.mp hrun
  cases heq
  have hg : Good P M { s₁.constBuffer root with c0use := (s₁.constBuffer root).c0use + 1 } :=
    ⟨hg₂.claimed, hg₂.keys, hg₂.named, hg₂.made, hg₂.nodup, hg₂.driven, hg₂.known, hg₂.lines, hg₂.outputs, hg₂.dffs,
      hg₂.root, hg₂.pool⟩
  exact ⟨hg, (he₁.trans he₂).trans (.of_eq rfl rfl rfl rfl rfl rfl), hg.pool n (List.mem_of_getElem? hm)⟩

theorem const1_spec (hM : M.Apart P) (h : Good P M s) (hrun : s.const1 = some (n, s')) :
    Good P M s' ∧ Extends P M s s' [] ∧ s'.Known P M n := by
  rw [State.const1] at hrun
  rcases hnew : s.newNet .const1 with ⟨c1, s₁⟩
  rw [hnew] at hrun
  obtain ⟨⟨c0, s₂⟩, hc0, hrun⟩ := Option.bind_eq_some_iff.mp hrun
  cases hrun
  obtain ⟨hg₁, he₁, hknown₁, hsynth, hnot, hfresh⟩ := newNet_spec hM h hnew
  obtain ⟨hg₂, he₂, hknown₂⟩ := const0_spec hM hg₁ hc0
  have hnot₂ : n ∉ s₂.driven := fun hmem => by simpa [hnot] using he₂.driven n hknown₁ hmem
  obtain ⟨hg₃, he₃⟩ := addLine_spec hg₂ (he₂.known _ hknown₁) (fun _ => hnot₂) (@plain_str "NOT" (by decide))
    (by simpa using hknown₂ : ∀ a ∈ [c0], s₂.Known P M a)
  refine ⟨hg₃, ((he₁.trans he₂).trans he₃).drop fun y hy => ?_, he₃.known _ (he₂.known _ hknown₁)⟩
  obtain rfl : y = n := by simpa using hy
  exact ⟨he₃.synth _ (he₂.synth _ hsynth), hfresh⟩

theorem substOne_spec (hM : M.Apart P) (h : Good P M s) {i : Str} (hi : s.Known P M i)
    (hrun : s.substOne i = some (n, s')) : Good P M s' ∧ Extends P M s s' [] ∧ s'.Known P M n := by
  unfold State.substOne at hrun
  split_ifs at hrun
  · exact const0_spec hM h hrun
  · exact const1_spec hM h hrun
  · cases hrun
    exact ⟨h, .of_eq rfl rfl rfl rfl rfl rfl, hi⟩

theorem subst_spec (hM : M.Apart P) (h : Good P M s) {is as : List Str} (his : ∀ i ∈ is, s.Known P M i)
    (hrun : s.subst is = some (as, s')) :
    Good P M s' ∧ Extends P M s s' [] ∧ ∀ a ∈ as, s'.Known P M a := by
  induction is generalizing s as with
  | nil =>
    cases hrun
    exact ⟨h, .of_eq rfl rfl rfl rfl rfl rfl, fun a ha => absurd ha List.not_mem_nil⟩
  | cons i is ih =>
    rw [State.subst] at hrun
    obtain ⟨⟨a, s₁⟩, hone, hrun⟩ := Option.bind_eq_some_iff.mp hrun
    obtain ⟨⟨as', s₂⟩, hrest, hrun⟩ := Option.bind_eq_some_iff.mp hrun
    cases hrun
    obtain ⟨hg₁, he₁, hknown₁⟩ := substOne_spec hM h (his i List.mem_cons_self) hone
    obtain ⟨hg₂, he₂, hknown₂⟩ := ih hg₁
      (fun j hj => he₁.known j (his j (List.mem_cons_of_mem i hj))) hrest
    refine ⟨hg₂, he₁.trans he₂, fun b hb => ?_⟩
    rcases List.mem_cons.mp hb with rfl | hb
    · exact he₂.known _ hknown₁
    · exact hknown₂ b hb

theorem gate_spec (hM : M.Apart P) (h : Good P M s) {op : String} {ins : List Str} (hy : s.Known P M y)
    (hnot : (M.given P).Nodup → y ∉ s.driven) (hop : Plain (str op)) (hins : ∀ i ∈ ins, s.Known P M i)
    (hrun : s.gate op y ins = some s') : Good P M s' ∧ Extends P M s s' [y] := by
  rw [State.gate] at hrun
  obtain ⟨⟨as, s₁⟩, hsubst, hrun⟩ := Option.bind_eq_some_iff.mp hrun
  cases hrun
  obtain ⟨hg₁, he₁, hknown₁⟩ := subst_spec hM h hins hsubst
  have hnot₁ : (M.given P).Nodup → y ∉ s₁.driven := fun hgiven hmem => by
    simpa [hnot hgiven] using he₁.driven y hy hmem
  obtain ⟨hg₂, he₂⟩ := addLine_spec hg₁ (he₁.known _ hy) hnot₁ hop hknown₁
  exact ⟨hg₂, he₁.trans he₂⟩


end Steps

end Yosys.Bench
