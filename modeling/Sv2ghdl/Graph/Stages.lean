import Sv2ghdl.Lists.OrderedDict
import Mathlib.Data.List.Chain
import Mathlib.Tactic

/-!
# Staged search

A breadth-first search in stages.  A stage goes from node to node through the nodes that can be passed; when it has no
hit, the next stage starts from the nodes that the ones passed jump to.  A node is visited once in all stages, and it
keeps the node it was reached from.
-/

namespace Stages

variable {α : Type} [DecidableEq α]

structure Search (α : Type) where
  visited : List α
  parent : OrderedDict α (Option α)

/-- `parent.setdefault(m, n)` -/
def Search.setParent (s : Search α) (m n : α) : Search α :=
  if m ∈ s.parent.keys then s else { s with parent := s.parent.set m (some n) }

def Search.visit (s : Search α) (m : α) : Search α := { s with visited := s.visited ++ [m] }

variable (passes : α → Bool) (adj jump : α → List α) (hit : α → Bool)

/-- A node of the frontier joins the queue. -/
def enter (w : Search α × List α) (f : α) : Search α × List α :=
  if f ∈ w.1.visited then w else (w.1.visit f, w.2 ++ [f])

/-- A neighbour of the node joins the queue. -/
def discover (n : α) (w : Search α × List α) (m : α) : Search α × List α :=
  if m ∈ w.1.visited then w else ((w.1.visit m).setParent m n, w.2 ++ [m])

/-- The queue is worked off; the nodes in the order they leave it.  `none` when the fuel runs out. -/
def scan : Nat → Search α → List α → Option (Search α × List α)
  | _, s, [] => some (s, [])
  | 0, _, _ :: _ => none
  | fuel + 1, s, n :: queue =>
    let w := if passes n then (adj n).foldl (discover n) (s, queue) else (s, queue)
    (scan fuel w.1 w.2).map fun r => (r.1, n :: r.2)

/-- A node that `g` jumps to joins the next frontier. -/
def leap (g : α) (w : Search α × List α) (m : α) : Search α × List α :=
  if m ∈ w.1.visited then w else (w.1.setParent m g, w.2 ++ [m])

/-- The next frontier. -/
def leave (s : Search α) (region : List α) : Search α × List α :=
  region.foldl (fun w g => (jump g).foldl (leap g) w) (s, [])

/-- The search at the end of the first stage with a hit, and the nodes of the stage. -/
def stages (nodes : Nat) : Nat → Search α → List α → Option (Option (Search α × List α))
  | _, _, [] => some none
  | 0, _, _ :: _ => none
  | fuel + 1, s, f :: frontier => do
    let w := (f :: frontier).foldl enter (s, [])
    let (s, order) ← scan passes adj nodes w.1 w.2
    if order.any hit then return some (s, order)
    let w := leave jump s (order.filter passes)
    stages nodes fuel w.1 w.2

def search (nodes : Nat) (start : α) : Option (Option (Search α × List α)) :=
  stages passes adj jump hit nodes (nodes + 1) ⟨[], OrderedDict.empty.set start none⟩ [start]

/-- The nodes from the root to a node; `none` when the fuel runs out. -/
def climb (parent : OrderedDict α (Option α)) : Nat → α → Option (List α)
  | 0, _ => none
  | fuel + 1, n =>
    match (parent.lookup n).join with
    | none => some [n]
    | some p => (climb parent fuel p).map (· ++ [n])

/-! ## What is to be found -/

variable (start : α)

/-- The nodes of each stage. -/
inductive Stage : Nat → α → Prop where
  | start : Stage 0 start
  | step {k : Nat} {n m : α} : Stage k n → passes n → m ∈ adj n → Stage k m
  | jump {k : Nat} {n m : α} : Stage k n → passes n → m ∈ jump n → Stage (k + 1) m

/-- One node of a path and the next. -/
def Step (a b : α) : Prop := passes a ∧ (b ∈ adj a ∨ b ∈ jump a)

/-- A path from the start to a node. -/
structure Path (path : List α) (n : α) : Prop where
  chain : path.IsChain (Step passes adj jump)
  head : path.head? = some start
  last : path.getLast? = some n

/-! ## The tree of the nodes visited -/

/-- A node visited is the start, or was reached from one visited before. -/
def Rooted (s : Search α) : Prop :=
  ∀ l₁ m l₂, s.visited = l₁ ++ m :: l₂ → (m = start ∧ s.parent.lookup m = some none) ∨
    ∃ p ∈ l₁, s.parent.lookup m = some (some p) ∧ Step passes adj jump p m

variable {passes adj jump hit start}

theorem Rooted.climb {s : Search α} (h : Rooted passes adj jump start s) {l₁ l₂ : List α} {m : α}
    (hm : s.visited = l₁ ++ m :: l₂) {fuel : Nat} (hfuel : l₁.length < fuel) :
    ∃ path, climb s.parent fuel m = some path ∧ Path passes adj jump start path m := by
  induction fuel generalizing l₁ l₂ m with
  | zero => cases hfuel
  | succ fuel ih =>
    rcases h l₁ m l₂ hm with ⟨rfl, hroot⟩ | ⟨p, hp, hparent, hstep⟩
    · refine ⟨[m], by rw [Stages.climb, hroot]; rfl, ?_, rfl, rfl⟩
      exact List.isChain_singleton m
    · obtain ⟨front, back, hsplit⟩ := List.append_of_mem hp
      have hvisited : s.visited = front ++ p :: (back ++ m :: l₂) := by
        rw [hm, hsplit, List.append_assoc, List.cons_append]
      have hlen : front.length < fuel := by
        rw [hsplit, List.length_append, List.length_cons] at hfuel
        omega
      obtain ⟨path, hpath, hchain, hhead, hlast⟩ := ih hvisited hlen
      refine ⟨path ++ [m], by rw [Stages.climb, hparent]; show Option.map _ _ = _; rw [hpath]; rfl, ?_, ?_, ?_⟩
      · rw [List.isChain_append]
        refine ⟨hchain, List.isChain_singleton m, fun a ha b hb => ?_⟩
        rw [hlast, Option.mem_some_iff] at ha
        rw [List.head?_cons, Option.mem_some_iff] at hb
        exact ha ▸ hb ▸ hstep
      · rw [List.head?_append, hhead]
        rfl
      · exact List.getLast?_concat

/-- A node joins the tree below the start or a node visited before. -/
theorem Rooted.push {s s' : Search α} (h : Rooted passes adj jump start s) {m : α}
    (hvisited : s'.visited = s.visited ++ [m]) (hold : ∀ n ∈ s.visited, s'.parent.lookup n = s.parent.lookup n)
    (hnew : (m = start ∧ s'.parent.lookup m = some none) ∨
      ∃ p ∈ s.visited, s'.parent.lookup m = some (some p) ∧ Step passes adj jump p m) :
    Rooted passes adj jump start s' := by
  intro l₁ n l₂ hsplit
  rw [hvisited] at hsplit
  rcases List.eq_nil_or_concat l₂ with rfl | ⟨l, x, rfl⟩
  · obtain ⟨hleft, hlast⟩ := List.append_inj' hsplit rfl
    rw [List.singleton_inj] at hlast
    rw [← hlast, ← hleft]
    exact hnew
  · have hsplit' : s.visited ++ [m] = (l₁ ++ n :: l) ++ [x] := by
      rw [hsplit, List.concat_eq_append, List.append_assoc, List.cons_append]
    have hbefore := (List.append_inj' hsplit' rfl).1
    rw [hold n (hbefore ▸ List.mem_append_right _ List.mem_cons_self)]
    exact h l₁ n l hbefore

theorem Rooted.congr {s s' : Search α} (h : Rooted passes adj jump start s) (hvisited : s'.visited = s.visited)
    (hold : ∀ n ∈ s.visited, s'.parent.lookup n = s.parent.lookup n) : Rooted passes adj jump start s' := by
  intro l₁ n l₂ hsplit
  rw [hvisited] at hsplit
  rw [hold n (hsplit ▸ List.mem_append_right _ List.mem_cons_self)]
  exact h l₁ n l₂ hsplit

/-! ## Within a stage -/

/-- What holds in stage `k` of a search and its queue when the nodes of `done` have left the queue; `before` are the
    nodes of the stages before. -/
structure Within (passes : α → Bool) (adj jump : α → List α) (start : α) (k : Nat) (before done : List α)
    (w : Search α × List α) : Prop where
  visited : w.1.visited = before ++ (done ++ w.2)
  nodup : w.1.visited.Nodup
  stage : ∀ n ∈ done ++ w.2, Stage passes adj jump start k n
  rooted : Rooted passes adj jump start w.1
  keys : ∀ m ∈ w.1.parent.keys, m ∈ w.1.visited

/-- Nodes join the queue, and are visited then. -/
structure Grows (w w' : Search α × List α) : Prop where
  visited : ∀ n ∈ w.1.visited, n ∈ w'.1.visited
  length : w'.2.length + w.1.visited.length = w.2.length + w'.1.visited.length

omit [DecidableEq α] in
theorem Grows.refl (w : Search α × List α) : Grows w w := ⟨fun _ h => h, rfl⟩

omit [DecidableEq α] in
theorem Grows.trans {u v w : Search α × List α} (h : Grows u v) (h' : Grows v w) : Grows u w where
  visited n hn := h'.visited n (h.visited n hn)
  length := by
    have := h.length
    have := h'.length
    omega

section Within

variable {k : Nat} {before done : List α} {w : Search α × List α}

theorem Within.discover (h : Within passes adj jump start k before done w) {n m : α} (hn : n ∈ done)
    (hpass : passes n) (hm : m ∈ adj n) : Within passes adj jump start k before done (discover n w m) ∧
      Grows w (Stages.discover n w m) ∧ m ∈ (Stages.discover n w m).1.visited := by
  unfold Stages.discover
  split_ifs with hseen
  · exact ⟨h, .refl w, hseen⟩
  · have hkey : m ∉ w.1.parent.keys := fun hmem => hseen (h.keys m hmem)
    have hset : (w.1.visit m).setParent m n = ⟨w.1.visited ++ [m], w.1.parent.set m (some n)⟩ := if_neg hkey
    rw [hset]
    have hvisited : n ∈ w.1.visited := by
      rw [h.visited]
      exact List.mem_append_right _ (List.mem_append_left _ hn)
    refine ⟨⟨?_, ?_, ?_, ?_, ?_⟩, ⟨?_, ?_⟩, ?_⟩
    · show w.1.visited ++ [m] = before ++ (done ++ (w.2 ++ [m]))
      rw [h.visited, List.append_assoc, List.append_assoc]
    · exact List.nodup_append'.mpr ⟨h.nodup, List.nodup_singleton m, List.disjoint_singleton.mpr hseen⟩
    · intro x hx
      rw [← List.append_assoc] at hx
      rcases List.mem_append.mp hx with hx | hx
      · exact h.stage x hx
      · rw [List.mem_singleton.mp hx]
        exact .step (h.stage n (List.mem_append_left _ hn)) hpass hm
    · refine h.rooted.push rfl (fun x hx => ?_) (.inr ⟨n, hvisited, ?_, hpass, .inl hm⟩)
      · have hne : x ≠ m := fun heq => hseen (heq ▸ hx)
        exact (OrderedDict.lookup_set _ _ _ _).trans (if_neg hne)
      · exact (OrderedDict.lookup_set _ _ _ _).trans (if_pos rfl)
    · intro x hx
      rcases OrderedDict.mem_keys_set.mp hx with rfl | hx
      · exact List.mem_append_right _ (List.mem_singleton_self _)
      · exact List.mem_append_left _ (h.keys x hx)
    · exact fun x hx => List.mem_append_left _ hx
    · show (w.2 ++ [m]).length + w.1.visited.length = w.2.length + (w.1.visited ++ [m]).length
      rw [List.length_append, List.length_append]
      omega
    · exact List.mem_append_right _ (List.mem_singleton_self m)

theorem Within.foldl_discover (h : Within passes adj jump start k before done w) {n : α} (hn : n ∈ done)
    (hpass : passes n) {ms : List α} (hms : ∀ m ∈ ms, m ∈ adj n) :
    Within passes adj jump start k before done (ms.foldl (Stages.discover n) w) ∧
      Grows w (ms.foldl (Stages.discover n) w) ∧ ∀ m ∈ ms, m ∈ (ms.foldl (Stages.discover n) w).1.visited := by
  induction ms generalizing w with
  | nil => exact ⟨h, .refl w, fun _ hm => absurd hm List.not_mem_nil⟩
  | cons m ms ih =>
    obtain ⟨hfirst, hgrow, hmem⟩ := h.discover hn hpass (hms m List.mem_cons_self)
    obtain ⟨hrest, hgrow', hmems⟩ := ih hfirst fun x hx => hms x (List.mem_cons_of_mem m hx)
    exact ⟨hrest, hgrow.trans hgrow', List.forall_mem_cons.mpr ⟨hgrow'.visited m hmem, hmems⟩⟩

/-- One node leaves the queue. -/
theorem Within.pop {s : Search α} {n : α} {queue : List α}
    (h : Within passes adj jump start k before done (s, n :: queue)) :
    ∃ w, (if passes n then (adj n).foldl (Stages.discover n) (s, queue) else (s, queue)) = w ∧
      Within passes adj jump start k before (done ++ [n]) w ∧ Grows (s, queue) w ∧
      (passes n → ∀ m ∈ adj n, m ∈ w.1.visited) := by
  have hleft : Within passes adj jump start k before (done ++ [n]) (s, queue) := by
    refine ⟨?_, h.nodup, ?_, h.rooted, h.keys⟩
    · rw [List.append_assoc]
      exact h.visited
    · rw [List.append_assoc]
      exact h.stage
  refine ⟨_, rfl, ?_⟩
  split_ifs with hpass
  · obtain ⟨hwithin, hgrow, hmem⟩ :=
      hleft.foldl_discover (List.mem_append_right _ (List.mem_singleton_self n)) hpass fun m hm => hm
    exact ⟨hwithin, hgrow, fun _ => hmem⟩
  · exact ⟨hleft, .refl _, fun hyes => absurd hyes hpass⟩

/-- The queue is worked off, and the nodes of the stage are closed then. -/
theorem Within.scan (h : Within passes adj jump start k before done w) {nodes : List α}
    (hbefore : ∀ n ∈ before, n ∈ nodes) (hnodes : ∀ n, Stage passes adj jump start k n → n ∈ nodes) {fuel : Nat}
    (hfuel : w.2.length + nodes.length ≤ fuel + w.1.visited.length) :
    ∃ s order, scan passes adj fuel w.1 w.2 = some (s, order) ∧
      Within passes adj jump start k before (done ++ order) (s, []) ∧ (∀ n ∈ w.1.visited, n ∈ s.visited) ∧
      ∀ n ∈ order, passes n → ∀ m ∈ adj n, m ∈ s.visited := by
  induction fuel generalizing done w with
  | zero =>
    obtain ⟨s, queue⟩ := w
    cases queue with
    | nil =>
      refine ⟨s, [], rfl, ?_, fun _ hn => hn, fun n hn => absurd hn List.not_mem_nil⟩
      rw [List.append_nil]
      exact h
    | cons n queue =>
      -- all nodes have been visited, and one more
      have hsub : ∀ m ∈ s.visited, m ∈ nodes := by
        intro m hm
        have hm' : m ∈ before ++ (done ++ n :: queue) := h.visited ▸ hm
        rcases List.mem_append.mp hm' with hm' | hm'
        · exact hbefore m hm'
        · exact hnodes m (h.stage m hm')
      have hlen : s.visited.length ≤ nodes.length := (h.nodup.subperm hsub).length_le
      have hfuel : (queue.length + 1) + nodes.length ≤ 0 + s.visited.length := hfuel
      omega
  | succ fuel ih =>
    obtain ⟨s, queue⟩ := w
    cases queue with
    | nil =>
      refine ⟨s, [], rfl, ?_, fun _ hn => hn, fun n hn => absurd hn List.not_mem_nil⟩
      rw [List.append_nil]
      exact h
    | cons n queue =>
      obtain ⟨w, hw, hwithin, hgrow, hclosed⟩ := h.pop
      have hlen : w.2.length + s.visited.length = queue.length + w.1.visited.length := hgrow.length
      have hfuel' : w.2.length + nodes.length ≤ fuel + w.1.visited.length := by
        have hfuel : (queue.length + 1) + nodes.length ≤ (fuel + 1) + s.visited.length := hfuel
        omega
      obtain ⟨s', order, hscan, hwithin', hgrow', hclosed'⟩ := ih hwithin hfuel'
      refine ⟨s', n :: order, ?_, ?_, fun m hm => hgrow' m (hgrow.visited m hm), ?_⟩
      · rw [Stages.scan]
        dsimp only
        rw [hw, hscan]
        rfl
      · rw [List.append_assoc] at hwithin'
        exact hwithin'
      · exact List.forall_mem_cons.mpr ⟨fun hpass m hm => hgrow' m (hclosed hpass m hm), hclosed'⟩

end Within

/-! ## From stage to stage -/

/-- What holds before stage `k`. -/
structure Between (passes : α → Bool) (adj jump : α → List α) (hit : α → Bool) (start : α) (k : Nat)
    (w : Search α × List α) : Prop where
  nodup : w.1.visited.Nodup
  rooted : Rooted passes adj jump start w.1
  keys : ∀ m ∈ w.1.parent.keys, m ∈ w.1.visited ∨ m ∈ w.2
  miss : ∀ n ∈ w.1.visited, hit n = false
  reached : ∀ n ∈ w.1.visited, ∃ j, Stage passes adj jump start j n
  all : ∀ j < k, ∀ n, Stage passes adj jump start j n → n ∈ w.1.visited
  closed : ∀ n ∈ w.1.visited, passes n → ∀ m ∈ adj n, m ∈ w.1.visited
  jumps : ∀ n ∈ w.1.visited, passes n → ∀ m ∈ jump n, m ∈ w.1.visited ∨ m ∈ w.2
  root : start ∈ w.1.visited ∨ start ∈ w.2
  frontier : ∀ f ∈ w.2, f ∉ w.1.visited ∧ Stage passes adj jump start k f ∧
    ((f = start ∧ w.1.parent.lookup f = some none) ∨
      ∃ p ∈ w.1.visited, w.1.parent.lookup f = some (some p) ∧ Step passes adj jump p f)

theorem between_start : Between passes adj jump hit start 0 (⟨[], OrderedDict.empty.set start none⟩, [start]) where
  nodup := List.nodup_nil
  rooted l₁ m l₂ h := absurd h (by simp)
  keys m hm := by
    rcases OrderedDict.mem_keys_set.mp hm with rfl | hm
    · exact .inr (List.mem_singleton_self _)
    · cases hm
  miss n hn := by cases hn
  reached n hn := by cases hn
  all j hj := by cases hj
  closed n hn := by cases hn
  jumps n hn := by cases hn
  root := .inr (List.mem_singleton_self _)
  frontier f hf := by
    rw [List.mem_singleton.mp hf]
    refine ⟨List.not_mem_nil, .start, .inl ⟨rfl, ?_⟩⟩
    exact (OrderedDict.lookup_set _ _ _ _).trans (if_pos rfl)

/-- What holds while the nodes of the frontier join the queue. -/
structure Entering (passes : α → Bool) (adj jump : α → List α) (start : α) (k : Nat) (s : Search α)
    (left : List α) (w : Search α × List α) : Prop where
  visited : w.1.visited = s.visited ++ w.2
  parent : w.1.parent = s.parent
  nodup : w.1.visited.Nodup
  stage : ∀ n ∈ w.2, Stage passes adj jump start k n
  rooted : Rooted passes adj jump start w.1
  keys : ∀ m ∈ w.1.parent.keys, m ∈ w.1.visited ∨ m ∈ left

theorem Entering.foldl {k : Nat} {s : Search α} {left : List α} {w : Search α × List α}
    (h : Entering passes adj jump start k s left w)
    (hleft : ∀ f ∈ left, Stage passes adj jump start k f ∧
      ((f = start ∧ s.parent.lookup f = some none) ∨
        ∃ p ∈ s.visited, s.parent.lookup f = some (some p) ∧ Step passes adj jump p f)) :
    Entering passes adj jump start k s [] (left.foldl enter w) ∧
      (∀ n ∈ w.1.visited, n ∈ (left.foldl enter w).1.visited) ∧ ∀ f ∈ left, f ∈ (left.foldl enter w).1.visited := by
  induction left generalizing w with
  | nil => exact ⟨h, fun _ hn => hn, fun f hf => absurd hf List.not_mem_nil⟩
  | cons f left ih =>
    obtain ⟨⟨hstage, hparent⟩, hrest⟩ := List.forall_mem_cons.mp hleft
    rw [List.foldl_cons]
    by_cases hseen : f ∈ w.1.visited
    · rw [enter, if_pos hseen]
      obtain ⟨hend, hgrow, hall⟩ := ih ⟨h.visited, h.parent, h.nodup, h.stage, h.rooted, fun m hm => by
        rcases h.keys m hm with hm | hm
        · exact .inl hm
        · rcases List.mem_cons.mp hm with rfl | hm
          · exact .inl hseen
          · exact .inr hm⟩ hrest
      exact ⟨hend, hgrow, List.forall_mem_cons.mpr ⟨hgrow f hseen, hall⟩⟩
    · rw [enter, if_neg hseen]
      have hentered : Entering passes adj jump start k s left (w.1.visit f, w.2 ++ [f]) := by
        refine ⟨?_, h.parent, ?_, ?_, ?_, ?_⟩
        · show w.1.visited ++ [f] = s.visited ++ (w.2 ++ [f])
          rw [h.visited, List.append_assoc]
        · exact List.nodup_append'.mpr ⟨h.nodup, List.nodup_singleton f, List.disjoint_singleton.mpr hseen⟩
        · intro n hn
          rcases List.mem_append.mp hn with hn | hn
          · exact h.stage n hn
          · rw [List.mem_singleton.mp hn]
            exact hstage
        · refine h.rooted.push rfl (fun _ _ => rfl) ?_
          show (f = start ∧ w.1.parent.lookup f = some none) ∨
            ∃ p ∈ w.1.visited, w.1.parent.lookup f = some (some p) ∧ _
          rw [h.parent, h.visited]
          exact hparent.imp_right fun ⟨p, hp, hrest⟩ => ⟨p, List.mem_append_left _ hp, hrest⟩
        · intro m hm
          rcases h.keys m hm with hm | hm
          · exact .inl (List.mem_append_left _ hm)
          · rcases List.mem_cons.mp hm with rfl | hm
            · exact .inl (List.mem_append_right _ (List.mem_singleton_self _))
            · exact .inr hm
      obtain ⟨hend, hgrow, hall⟩ := ih hentered hrest
      have hmem : f ∈ (w.1.visit f).visited := List.mem_append_right _ (List.mem_singleton_self f)
      exact ⟨hend, fun n hn => hgrow n (List.mem_append_left _ hn), List.forall_mem_cons.mpr ⟨hgrow f hmem, hall⟩⟩

/-- What holds while a stage is left: the nodes of the next frontier have a parent and have not been visited. -/
structure Leaving (passes : α → Bool) (adj jump : α → List α) (start : α) (k : Nat) (s : Search α)
    (w : Search α × List α) : Prop where
  visited : w.1.visited = s.visited
  rooted : Rooted passes adj jump start w.1
  keys : ∀ m ∈ w.1.parent.keys, m ∈ w.1.visited ∨ m ∈ w.2
  frontier : ∀ f ∈ w.2, f ∉ w.1.visited ∧ Stage passes adj jump start (k + 1) f ∧
    ∃ p ∈ w.1.visited, w.1.parent.lookup f = some (some p) ∧ Step passes adj jump p f

section Leaving

variable {k : Nat} {s : Search α} {w : Search α × List α}

theorem Leaving.leap (h : Leaving passes adj jump start k s w) {g m : α} (hg : g ∈ s.visited) (hpass : passes g)
    (hstage : Stage passes adj jump start k g) (hm : m ∈ jump g) :
    Leaving passes adj jump start k s (leap g w m) ∧ (∀ f ∈ w.2, f ∈ (Stages.leap g w m).2) ∧
      (m ∈ s.visited ∨ m ∈ (Stages.leap g w m).2) := by
  unfold Stages.leap
  split_ifs with hseen
  · exact ⟨h, fun _ hf => hf, .inl (h.visited ▸ hseen)⟩
  · refine ⟨?_, fun f hf => List.mem_append_left _ hf, .inr (List.mem_append_right _ (List.mem_singleton_self m))⟩
    unfold Search.setParent
    split_ifs with hkey
    · -- `m` has a parent, so it is in the frontier already
      have hmem : m ∈ w.2 := (h.keys m hkey).resolve_left hseen
      refine ⟨h.visited, h.rooted, fun x hx => (h.keys x hx).imp_right (List.mem_append_left _), fun f hf => ?_⟩
      rcases List.mem_append.mp hf with hf | hf
      · exact h.frontier f hf
      · rw [List.mem_singleton.mp hf]
        exact h.frontier m hmem
    · have hold : ∀ x, x ≠ m → (w.1.parent.set m (some g)).lookup x = w.1.parent.lookup x := fun x hx =>
        (OrderedDict.lookup_set _ _ _ _).trans (if_neg hx)
      refine ⟨h.visited, ?_, fun x hx => ?_, fun f hf => ?_⟩
      · refine h.rooted.congr rfl fun x hx => hold x fun heq => ?_
        exact hseen (heq ▸ hx)
      · rcases OrderedDict.mem_keys_set.mp hx with rfl | hx
        · exact .inr (List.mem_append_right _ (List.mem_singleton_self _))
        · exact (h.keys x hx).imp_right (List.mem_append_left _)
      · have hnew : (w.1.parent.set m (some g)).lookup m = some (some g) :=
          (OrderedDict.lookup_set _ _ _ _).trans (if_pos rfl)
        have hlast : m ∉ w.1.visited ∧ Stage passes adj jump start (k + 1) m ∧
            ∃ p ∈ w.1.visited, (w.1.parent.set m (some g)).lookup m = some (some p) ∧ Step passes adj jump p m :=
          ⟨hseen, .jump hstage hpass hm, g, h.visited ▸ hg, hnew, hpass, .inr hm⟩
        rcases List.mem_append.mp hf with hf | hf
        · obtain ⟨hnot, hst, p, hp, hlookup, hstep⟩ := h.frontier f hf
          by_cases heq : f = m
          · exact heq ▸ hlast
          · exact ⟨hnot, hst, p, hp, (hold f heq).trans hlookup, hstep⟩
        · rw [List.mem_singleton.mp hf]
          exact hlast

theorem Leaving.foldl_leap (h : Leaving passes adj jump start k s w) {g : α} (hg : g ∈ s.visited) (hpass : passes g)
    (hstage : Stage passes adj jump start k g) {ms : List α} (hms : ∀ m ∈ ms, m ∈ jump g) :
    Leaving passes adj jump start k s (ms.foldl (Stages.leap g) w) ∧
      (∀ f ∈ w.2, f ∈ (ms.foldl (Stages.leap g) w).2) ∧
      ∀ m ∈ ms, m ∈ s.visited ∨ m ∈ (ms.foldl (Stages.leap g) w).2 := by
  induction ms generalizing w with
  | nil => exact ⟨h, fun _ hf => hf, fun m hm => absurd hm List.not_mem_nil⟩
  | cons m ms ih =>
    obtain ⟨hfirst, hkeep, hmem⟩ := h.leap hg hpass hstage (hms m List.mem_cons_self)
    obtain ⟨hrest, hkeep', hmems⟩ := ih hfirst fun x hx => hms x (List.mem_cons_of_mem m hx)
    exact ⟨hrest, fun f hf => hkeep' f (hkeep f hf), List.forall_mem_cons.mpr ⟨hmem.imp_right (hkeep' m), hmems⟩⟩

theorem Leaving.foldl (h : Leaving passes adj jump start k s w) {region : List α}
    (hregion : ∀ g ∈ region, g ∈ s.visited ∧ passes g ∧ Stage passes adj jump start k g) :
    Leaving passes adj jump start k s (region.foldl (fun w g => (jump g).foldl (Stages.leap g) w) w) ∧
      (∀ f ∈ w.2, f ∈ (region.foldl (fun w g => (jump g).foldl (Stages.leap g) w) w).2) ∧
      ∀ g ∈ region, ∀ m ∈ jump g,
        m ∈ s.visited ∨ m ∈ (region.foldl (fun w g => (jump g).foldl (Stages.leap g) w) w).2 := by
  induction region generalizing w with
  | nil => exact ⟨h, fun _ hf => hf, fun g hg => absurd hg List.not_mem_nil⟩
  | cons g region ih =>
    obtain ⟨⟨hg, hpass, hstage⟩, hrest⟩ := List.forall_mem_cons.mp hregion
    obtain ⟨hfirst, hkeep, hmem⟩ := h.foldl_leap hg hpass hstage fun m hm => hm
    obtain ⟨hend, hkeep', hmems⟩ := ih hfirst hrest
    refine ⟨hend, fun f hf => hkeep' f (hkeep f hf), List.forall_mem_cons.mpr ⟨?_, hmems⟩⟩
    exact fun m hm => (hmem m hm).imp_right (hkeep' m)

end Leaving

/-! ## All stages -/

/-- What the search finds: no hit in any stage, or the nodes of the first stage with one. -/
def Found (passes : α → Bool) (adj jump : α → List α) (hit : α → Bool) (start : α) :
    Option (Search α × List α) → Prop
  | none => ∀ k n, Stage passes adj jump start k n → hit n = false
  | some (s, order) => ∃ k, (∀ j < k, ∀ n, Stage passes adj jump start j n → hit n = false) ∧
      (∀ n ∈ order, Stage passes adj jump start k n ∧ n ∈ s.visited) ∧
      (∀ n, Stage passes adj jump start k n → n ∈ order ∨ hit n = false) ∧ (∃ n ∈ order, hit n = true) ∧
      Rooted passes adj jump start s

/-- One stage from its frontier on. -/
theorem Between.stage {k : Nat} {w : Search α × List α} (h : Between passes adj jump hit start k w) {nodes : List α}
    (hnodes : ∀ k n, Stage passes adj jump start k n → n ∈ nodes) :
    ∃ s order, scan passes adj nodes.length (w.2.foldl enter (w.1, [])).1 (w.2.foldl enter (w.1, [])).2 =
        some (s, order) ∧
      Within passes adj jump start k w.1.visited order (s, []) ∧ (∀ f ∈ w.2, f ∈ s.visited) ∧
      (∀ n ∈ order, passes n → ∀ m ∈ adj n, m ∈ s.visited) ∧ ∀ n, Stage passes adj jump start k n → n ∈ s.visited := by
  have hentering : Entering passes adj jump start k w.1 w.2 (w.1, []) :=
    ⟨(List.append_nil _).symm, rfl, h.nodup, fun n hn => absurd hn List.not_mem_nil, h.rooted, h.keys⟩
  obtain ⟨hend, hgrow, hall⟩ := hentering.foldl fun f hf => (h.frontier f hf).2
  have hwithin : Within passes adj jump start k w.1.visited [] (w.2.foldl enter (w.1, [])) :=
    ⟨hend.visited, hend.nodup, hend.stage, hend.rooted, fun m hm => (hend.keys m hm).resolve_right List.not_mem_nil⟩
  have hfuel : (w.2.foldl enter (w.1, [])).2.length + nodes.length ≤
      nodes.length + (w.2.foldl enter (w.1, [])).1.visited.length := by
    rw [hend.visited, List.length_append]
    omega
  have hbefore : ∀ n ∈ w.1.visited, n ∈ nodes := by
    intro n hn
    obtain ⟨j, hj⟩ := h.reached n hn
    exact hnodes j n hj
  obtain ⟨s, order, hscan, hdone, hgrow', hclosed⟩ := hwithin.scan hbefore (hnodes k) hfuel
  rw [List.nil_append] at hdone
  have hseen : ∀ n ∈ w.1.visited, n ∈ s.visited := fun n hn => hgrow' n (hgrow n hn)
  have hfrontier : ∀ f ∈ w.2, f ∈ s.visited := fun f hf => hgrow' f (hall f hf)
  refine ⟨s, order, hscan, hdone, hfrontier, hclosed, ?_⟩
  intro n hn
  have hmem : ∀ m ∈ s.visited, m ∈ w.1.visited ∨ m ∈ order := by
    intro m hm
    have hm' : m ∈ w.1.visited ++ (order ++ []) := hdone.visited ▸ hm
    rw [List.append_nil] at hm'
    exact List.mem_append.mp hm'
  -- the nodes visited are closed under the steps of the stage, and hold where it starts
  have hlater : ∀ j n, Stage passes adj jump start j n → j ≤ k → n ∈ s.visited := by
    intro j n hn
    induction hn with
    | start => exact fun _ => h.root.elim (hseen _) (hfrontier _)
    | step _ hpass hm ih =>
      intro hj
      rcases hmem _ (ih hj) with hold | hnew
      · exact hseen _ (h.closed _ hold hpass _ hm)
      · exact hclosed _ hnew hpass _ hm
    | @jump i g m hg hpass hm ih =>
      intro hj
      have hold : g ∈ w.1.visited := h.all i (Nat.lt_of_succ_le hj) g hg
      exact (h.jumps g hold hpass m hm).elim (hseen m) (hfrontier m)
  exact hlater k n hn (Nat.le_refl k)

/-- A stage without a hit, and the next frontier. -/
theorem Between.next {k : Nat} {w : Search α × List α} (h : Between passes adj jump hit start k w) {s : Search α}
    {order : List α} (hdone : Within passes adj jump start k w.1.visited order (s, []))
    (hfrontier : ∀ f ∈ w.2, f ∈ s.visited) (hclosed : ∀ n ∈ order, passes n → ∀ m ∈ adj n, m ∈ s.visited)
    (hstage : ∀ n, Stage passes adj jump start k n → n ∈ s.visited) (hmiss : order.any hit = false) :
    Between passes adj jump hit start (k + 1) (leave jump s (order.filter passes)) ∧
      (leave jump s (order.filter passes)).1.visited = s.visited := by
  have hvisited : s.visited = w.1.visited ++ order := by
    have := hdone.visited
    rwa [List.append_nil] at this
  have hmem : ∀ m, m ∈ s.visited ↔ m ∈ w.1.visited ∨ m ∈ order := fun m => by rw [hvisited, List.mem_append]
  have hregion : ∀ g ∈ order.filter passes, g ∈ s.visited ∧ passes g ∧ Stage passes adj jump start k g := by
    intro g hg
    obtain ⟨hg, hpass⟩ := List.mem_filter.mp hg
    exact ⟨(hmem g).mpr (.inr hg), hpass, hdone.stage g (List.mem_append_left _ hg)⟩
  have hleaving : Leaving passes adj jump start k s (s, []) :=
    ⟨rfl, hdone.rooted, fun m hm => .inl (hdone.keys m hm), fun f hf => absurd hf List.not_mem_nil⟩
  obtain ⟨hend, _, hjumps⟩ := hleaving.foldl hregion
  have hsame : (leave jump s (order.filter passes)).1.visited = s.visited := hend.visited
  refine ⟨?_, hsame⟩
  constructor
  · rw [hsame]
    exact hdone.nodup
  · exact hend.rooted
  · exact hend.keys
  · intro n hn
    rw [hsame, hmem] at hn
    rcases hn with hn | hn
    · exact h.miss n hn
    · exact Bool.eq_false_iff.mpr (List.any_eq_false.mp hmiss n hn)
  · intro n hn
    rw [hsame, hmem] at hn
    rcases hn with hn | hn
    · exact h.reached n hn
    · exact ⟨k, hdone.stage n (List.mem_append_left _ hn)⟩
  · intro j hj n hn
    rw [hsame]
    rcases Nat.lt_succ_iff_lt_or_eq.mp hj with hj | rfl
    · exact (hmem n).mpr (.inl (h.all j hj n hn))
    · exact hstage n hn
  · intro n hn hpass m hm
    rw [hsame] at hn ⊢
    rcases (hmem n).mp hn with hn | hn
    · exact (hmem m).mpr (.inl (h.closed n hn hpass m hm))
    · exact hclosed n hn hpass m hm
  · intro n hn hpass m hm
    rw [hsame] at hn ⊢
    rcases (hmem n).mp hn with hn | hn
    · exact .inl ((h.jumps n hn hpass m hm).elim (fun hold => (hmem m).mpr (.inl hold)) (hfrontier m))
    · exact hjumps n (List.mem_filter.mpr ⟨hn, hpass⟩) m hm
  · left
    rw [hsame]
    exact h.root.elim (fun hold => (hmem _).mpr (.inl hold)) (hfrontier _)
  · intro f hf
    obtain ⟨hnot, hst, hparent⟩ := hend.frontier f hf
    exact ⟨hnot, hst, .inr hparent⟩

/-- The search ends, and finds the first stage with a hit, if there is one. -/
theorem stages_spec {nodes : List α} (hnodes : ∀ k n, Stage passes adj jump start k n → n ∈ nodes) {fuel k : Nat}
    {w : Search α × List α} (h : Between passes adj jump hit start k w)
    (hfuel : nodes.length < fuel + w.1.visited.length) :
    ∃ r, stages passes adj jump hit nodes.length fuel w.1 w.2 = some r ∧ Found passes adj jump hit start r := by
  induction fuel generalizing k w with
  | zero =>
    have hsub : ∀ n ∈ w.1.visited, n ∈ nodes := by
      intro n hn
      obtain ⟨j, hj⟩ := h.reached n hn
      exact hnodes j n hj
    have hlen := (h.nodup.subperm hsub).length_le
    omega
  | succ fuel ih =>
    obtain ⟨s₀, frontier⟩ := w
    cases frontier with
    | nil =>
      refine ⟨none, rfl, ?_⟩
      have hall : ∀ k n, Stage passes adj jump start k n → n ∈ s₀.visited := by
        intro k n hn
        induction hn with
        | start => exact h.root.resolve_right List.not_mem_nil
        | step _ hpass hm ih => exact h.closed _ ih hpass _ hm
        | jump _ hpass hm ih => exact (h.jumps _ ih hpass _ hm).resolve_right List.not_mem_nil
      exact fun k n hn => h.miss n (hall k n hn)
    | cons f frontier =>
      obtain ⟨s, order, hscan, hdone, hfrontier, hclosed, hstage⟩ := h.stage hnodes
      have hvisited : s.visited = s₀.visited ++ order := by
        have := hdone.visited
        rwa [List.append_nil] at this
      rw [stages]
      dsimp only
      rw [hscan, Option.bind_eq_bind, Option.bind_some]
      dsimp only
      split_ifs with hany
      · refine ⟨_, rfl, k, ?_, ?_, ?_, List.any_eq_true.mp hany, hdone.rooted⟩
        · exact fun j hj n hn => h.miss n (h.all j hj n hn)
        · intro n hn
          exact ⟨hdone.stage n (List.mem_append_left _ hn), hvisited ▸ List.mem_append_right _ hn⟩
        · intro n hn
          have hmem : n ∈ s₀.visited ++ order := hvisited ▸ hstage n hn
          exact (List.mem_append.mp hmem).symm.imp_right (h.miss n)
      · obtain ⟨hnext, hsame⟩ := h.next hdone hfrontier hclosed hstage (Bool.eq_false_iff.mpr hany)
        refine ih hnext ?_
        -- the stage has visited a node of its frontier
        have hf : f ∈ order := by
          have hmem : f ∈ s₀.visited ++ order := hvisited ▸ hfrontier f List.mem_cons_self
          exact (List.mem_append.mp hmem).resolve_left (h.frontier f List.mem_cons_self).1
        rw [hsame, hvisited, List.length_append]
        have := List.length_pos_of_mem hf
        have hfuel : nodes.length < (fuel + 1) + s₀.visited.length := hfuel
        omega

theorem search_spec {nodes : List α} (hnodes : ∀ k n, Stage passes adj jump start k n → n ∈ nodes) :
    ∃ r, search passes adj jump hit nodes.length start = some r ∧ Found passes adj jump hit start r :=
  stages_spec hnodes between_start (Nat.lt_succ_self _)

/-- The parents of a node that was visited lead back to the start. -/
theorem Rooted.path {s : Search α} (h : Rooted passes adj jump start s) {n : α} (hn : n ∈ s.visited) :
    ∃ path, Stages.climb s.parent s.visited.length n = some path ∧ Path passes adj jump start path n := by
  obtain ⟨l₁, l₂, hsplit⟩ := List.append_of_mem hn
  refine h.climb hsplit ?_
  rw [hsplit, List.length_append, List.length_cons]
  omega

end Stages
