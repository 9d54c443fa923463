import ShaderIR.Proofs.Entity
import ShaderIR.Proofs.Flow.Paths

/-!
# The depth-first search

* `FlowGraph.order`: the blocks in the order in which the search is going to have left them, the
  latest first: those that it is still in, and then those that it has left.
* `Searching`: what holds of tasks and progress all along.
* `FlowGraph.Spans`: a graph has exactly what can be reached, each block after one that leads to it.

Principal statements: `search_invariant` (what every step keeps), `search_searching` (the search
keeps its invariant), `search_ok` (its bound on tasks is enough), `FlowGraph.ofBlocks_spans` and
`FlowGraph.ofBlocks_ok`.
-/

namespace ShaderIR

namespace FlowGraph

/-- The block that a task leaves. -/
def Task.leaving : Task → Option BlockId
  | .enter _ => none
  | .leave b => some b

/-- The blocks in the order in which the search is going to have left them, the latest first. -/
def order (tasks : List Task) (p : Progress) : List BlockId :=
  (tasks.filterMap Task.leaving).reverse ++ p.left

/-- Every block to be entered is led to by one that is still to be left after that. -/
def Pending (blocks : Defs .block Block) : List Task → Prop
  | [] => True
  | .enter t :: tasks =>
    (∃ u ∈ tasks.filterMap Task.leaving, Leads blocks u t) ∧ Pending blocks tasks
  | .leave _ :: tasks => Pending blocks tasks

variable {blocks : Defs .block Block} {entry b t : BlockId} {tasks : List Task} {p p' : Progress}
  {targets ts : List BlockId} {blk : Block}

theorem hasEntered_iff : p.hasEntered b = true ↔ ∃ ts, (b, ts) ∈ p.entered := by
  simp [Progress.hasEntered]

theorem hasEntered_cons (q : Progress) (hq : q.entered = (b, targets) :: p.entered) :
    q.hasEntered t = (decide (b = t) || p.hasEntered t) := by
  simp [Progress.hasEntered, hq]

theorem filterMap_leaving_enter :
    (ts.map Task.enter ++ .leave b :: tasks).filterMap Task.leaving =
      b :: tasks.filterMap Task.leaving := by
  induction ts with
  | nil => rfl
  | cons t ts ih => exact ih

theorem order_enter :
    order (ts.map .enter ++ .leave b :: tasks) p =
      (tasks.filterMap Task.leaving).reverse ++ b :: p.left := by
  rw [order, filterMap_leaving_enter, List.reverse_cons, List.append_assoc]
  rfl

theorem Pending.enter_all (h : Pending blocks tasks) (hts : ∀ t ∈ ts, Leads blocks b t) :
    Pending blocks (ts.map .enter ++ .leave b :: tasks) := by
  induction ts with
  | nil => exact h
  | cons t ts ih =>
    have hb : b ∈ (ts.map Task.enter ++ .leave b :: tasks).filterMap Task.leaving := by
      rw [filterMap_leaving_enter]
      exact List.mem_cons_self
    exact ⟨⟨b, hb, hts t (by simp)⟩, ih fun t' ht' => hts t' (by simp [ht'])⟩

/-- What holds of the tasks and the progress of a search once it has entered the entry. -/
structure Searching (blocks : Defs .block Block) (entry : BlockId) (tasks : List Task)
    (p : Progress) : Prop where
  led : ∃ rest, order tasks p = entry :: rest ∧ Led blocks [entry] rest
  nodup : (order tasks p).Nodup
  entered : ∀ b, p.hasEntered b = true ↔ b ∈ order tasks p
  edges : ∀ b ts, (b, ts) ∈ p.entered →
    ∃ blk, blocks.get? b = some blk ∧ ts = blk.terminator.targets
  closed : ∀ b ts, (b, ts) ∈ p.entered → ∀ t ∈ ts, p.hasEntered t = true ∨ .enter t ∈ tasks
  pending : Pending blocks tasks

theorem Searching.reached (h : Searching blocks entry tasks p) (hb : b ∈ order tasks p) :
    Reached (some entry) blocks b := by
  obtain ⟨rest, horder, hled⟩ := h.led
  have hentry : Reached (some entry) blocks entry := ⟨_, .start rfl⟩
  rw [horder] at hb
  rcases List.mem_cons.1 hb with rfl | hb
  · exact hentry
  · exact hled.reached (by simpa using hentry) b hb

/-- What is still to be entered can be reached. -/
theorem Searching.reached_enter (h : Searching blocks entry (.enter t :: tasks) p) :
    Reached (some entry) blocks t := by
  obtain ⟨⟨u, hu, hleads⟩, -⟩ := h.pending
  refine (h.reached (b := u) ?_).step hleads
  exact List.mem_append_left _ (List.mem_reverse.2 hu)

/-- A block that has been entered already is passed over. -/
theorem Searching.skip (h : Searching blocks entry (.enter b :: tasks) p)
    (hb : p.hasEntered b = true) : Searching blocks entry tasks p := by
  refine ⟨h.led, h.nodup, h.entered, h.edges, fun c ts hc t ht => ?_, h.pending.2⟩
  rcases h.closed c ts hc t ht with hent | hmem
  · exact .inl hent
  · rcases List.mem_cons.1 hmem with e | hmem
    · exact .inl (Task.enter.inj e ▸ hb)
    · exact .inr hmem

/-- A block is left once all before it has been worked off. -/
theorem Searching.leave (h : Searching blocks entry (.leave b :: tasks) p) :
    Searching blocks entry tasks { p with left := b :: p.left } := by
  have e : order (.leave b :: tasks) p = order tasks { p with left := b :: p.left } := by
    simp [order, Task.leaving]
  refine ⟨e ▸ h.led, e ▸ h.nodup, e ▸ h.entered, h.edges, fun c ts hc t ht => ?_, h.pending⟩
  exact (h.closed c ts hc t ht).imp_right fun hmem => by simpa using hmem

/-- The targets of a block that it has entered are entered already or going to be. -/
theorem closed_enter {unseen : List BlockId} {q : Progress}
    (hq : q.entered = (b, targets) :: p.entered)
    (hunseen : unseen = targets.filter fun t => !q.hasEntered t)
    (h : ∀ c ts, (c, ts) ∈ p.entered → ∀ t ∈ ts, p.hasEntered t = true ∨ t = b ∨
      .enter t ∈ tasks) :
    ∀ c ts, (c, ts) ∈ q.entered → ∀ t ∈ ts,
      q.hasEntered t = true ∨ .enter t ∈ unseen.map .enter ++ .leave b :: tasks := by
  intro c ts hc t ht
  by_cases hent : q.hasEntered t = true
  · exact .inl hent
  refine .inr (List.mem_append.2 ?_)
  rw [hasEntered_cons q hq] at hent
  rw [hq] at hc
  rcases List.mem_cons.1 hc with e | hc
  · refine .inl (List.mem_map_of_mem ?_)
    rw [hunseen, List.mem_filter, hasEntered_cons q hq]
    exact ⟨(Prod.mk.inj e).2 ▸ ht, by simpa using hent⟩
  · rcases h c ts hc t ht with h' | rfl | h'
    · simp [h'] at hent
    · simp at hent
    · exact .inr (List.mem_cons_of_mem _ h')

/-- A block is entered for the first time. -/
theorem Searching.enter (h : Searching blocks entry (.enter b :: tasks) p)
    (hb : p.hasEntered b = false) (hblk : blocks.get? b = some blk) {q : Progress}
    (hq : q = { p with entered := (b, blk.terminator.targets) :: p.entered }) :
    Searching blocks entry
      ((blk.terminator.targets.filter fun t => !q.hasEntered t).map .enter ++ .leave b :: tasks)
      q := by
  have hleft : q.left = p.left := by rw [hq]
  have hent : q.entered = (b, blk.terminator.targets) :: p.entered := by rw [hq]
  obtain ⟨⟨u, hu, hleads⟩, hpending⟩ := h.pending
  obtain ⟨rest, horder, hled⟩ := h.led
  have hmem : b ∉ order tasks p := fun hmem => by
    rw [(h.entered b).2 hmem] at hb
    cases hb
  -- the entry is still to be left, so that `b` comes after it
  obtain ⟨xs, hxs, hrest⟩ : ∃ xs, (tasks.filterMap Task.leaving).reverse = entry :: xs ∧
      rest = xs ++ p.left := by
    change (tasks.filterMap Task.leaving).reverse ++ p.left = entry :: rest at horder
    rcases List.append_eq_cons_iff.1 horder with ⟨hnil, -⟩ | ⟨xs, hxs, hrest⟩
    · rw [List.reverse_eq_nil_iff] at hnil
      rw [hnil] at hu
      simp at hu
    · exact ⟨xs, hxs, hrest⟩
  have hperm : (entry :: (xs ++ b :: p.left)).Perm (b :: order tasks p) := by
    rw [order, hxs]
    show (entry :: xs ++ b :: p.left).Perm (b :: (entry :: xs ++ p.left))
    exact List.perm_middle
  refine ⟨⟨xs ++ b :: p.left, ?_, ?_⟩, ?_, fun c => ?_, fun c ts hc => ?_, ?_, ?_⟩
  · rw [order_enter, hxs, hleft, List.cons_append]
  · refine Led.insert (hrest ▸ hled) ⟨u, ?_, hleads⟩
    have humem : u ∈ entry :: xs := hxs ▸ List.mem_reverse.2 hu
    simpa [or_comm] using humem
  · rw [order_enter, hxs, hleft, List.cons_append, hperm.nodup_iff]
    exact List.nodup_cons.2 ⟨hmem, h.nodup⟩
  · rw [order_enter, hxs, hleft, List.cons_append, hperm.mem_iff, hasEntered_cons q hent,
      List.mem_cons, Bool.or_eq_true, decide_eq_true_eq, h.entered, eq_comm]
    rfl
  · rw [hent] at hc
    rcases List.mem_cons.1 hc with e | hc
    · obtain ⟨rfl, rfl⟩ := Prod.mk.inj e
      exact ⟨blk, hblk, rfl⟩
    · exact h.edges c ts hc
  · apply closed_enter hent rfl
    intro c ts hc t ht
    simpa using h.closed c ts hc t ht
  · apply hpending.enter_all
    intro t ht
    exact ⟨blk, hblk, (List.mem_filter.1 ht).1⟩

/-- The search enters the entry. -/
theorem Searching.first (hblk : blocks.get? entry = some blk) {q : Progress}
    (hq : q = ⟨[(entry, blk.terminator.targets)], []⟩) :
    Searching blocks entry
      ((blk.terminator.targets.filter fun t => !q.hasEntered t).map .enter ++ [.leave entry])
      q := by
  have hent : q.entered = [(entry, blk.terminator.targets)] := by rw [hq]
  have horder : ∀ ts : List BlockId, order (ts.map .enter ++ [.leave entry]) q = [entry] := by
    intro ts
    rw [order_enter, hq]
    rfl
  refine ⟨⟨[], horder _, trivial⟩, ?_, fun c => ?_, fun c ts hc => ?_, ?_, ?_⟩
  · rw [horder]
    simp
  · rw [horder, hasEntered_iff, hent]
    simp
  · rw [hent] at hc
    obtain ⟨rfl, rfl⟩ := Prod.mk.inj (List.mem_singleton.1 hc)
    exact ⟨blk, hblk, rfl⟩
  · exact closed_enter (p := ⟨[], []⟩) hent rfl fun c ts hc => absurd hc List.not_mem_nil
  · have hnil : Pending blocks [] := trivial
    exact hnil.enter_all fun t ht => ⟨blk, hblk, (List.mem_filter.1 ht).1⟩

theorem search_leave_eq_ok {n : Nat} (h : search blocks n (.leave b :: tasks) p = .ok p') :
    ∃ k, n = k + 1 ∧ search blocks k tasks { p with left := b :: p.left } = .ok p' := by
  cases n with
  | zero =>
    rw [search] at h
    cases h
  | succ k => exact ⟨k, rfl, h⟩

/-- A search passes over a block, or it enters it. -/
theorem search_enter_eq_ok {n : Nat} (h : search blocks n (.enter b :: tasks) p = .ok p') :
    ∃ k, n = k + 1 ∧ (p.hasEntered b = true ∧ search blocks k tasks p = .ok p' ∨
      p.hasEntered b = false ∧ ∃ blk q, blocks.get? b = some blk ∧
        q = { p with entered := (b, blk.terminator.targets) :: p.entered } ∧
        search blocks k ((blk.terminator.targets.filter fun t => !q.hasEntered t).map .enter ++
          .leave b :: tasks) q = .ok p') := by
  cases n with
  | zero =>
    rw [search] at h
    cases h
  | succ k =>
    refine ⟨k, rfl, ?_⟩
    rw [search] at h
    cases hb : p.hasEntered b with
    | true =>
      rw [hb, if_pos rfl] at h
      exact .inl ⟨rfl, h⟩
    | false =>
      rw [hb, if_neg Bool.false_ne_true] at h
      obtain ⟨blk, hblk, h⟩ := bind_eq_ok.1 h
      exact .inr ⟨rfl, blk, _, Defs.find_eq_ok.1 hblk, rfl, h⟩

/-- What every step of a search keeps holds at its end. -/
theorem search_invariant {P : List Task → Progress → Prop}
    (leave : ∀ b tasks p, P (.leave b :: tasks) p → P tasks { p with left := b :: p.left })
    (skip : ∀ b tasks p, P (.enter b :: tasks) p → p.hasEntered b = true → P tasks p)
    (enter : ∀ b blk tasks p q, P (.enter b :: tasks) p → p.hasEntered b = false →
      blocks.get? b = some blk →
      q = { p with entered := (b, blk.terminator.targets) :: p.entered } →
      P ((blk.terminator.targets.filter fun t => !q.hasEntered t).map .enter ++ .leave b :: tasks)
        q) (n : Nat) (h : P tasks p) (hs : search blocks n tasks p = .ok p') : P [] p' := by
  induction n generalizing tasks p with
  | zero =>
    cases tasks with
    | nil => exact Except.ok.inj hs ▸ h
    | cons task tasks => cases hs
  | succ n ih =>
    cases tasks with
    | nil => exact Except.ok.inj hs ▸ h
    | cons task tasks =>
      cases task with
      | leave b =>
        obtain ⟨k, hk, hs⟩ := search_leave_eq_ok hs
        obtain rfl := Nat.succ.inj hk
        exact ih (leave b tasks p h) hs
      | enter b =>
        obtain ⟨k, hk, hs⟩ := search_enter_eq_ok hs
        obtain rfl := Nat.succ.inj hk
        rcases hs with ⟨hb, hs⟩ | ⟨hb, blk, q, hblk, hq, hs⟩
        · exact ih (skip b tasks p h hb) hs
        · exact ih (enter b blk tasks p q h hb hblk hq) hs

/-- **The search keeps its invariant.** -/
theorem search_searching (n : Nat) (h : Searching blocks entry tasks p)
    (hs : search blocks n tasks p = .ok p') : Searching blocks entry [] p' :=
  search_invariant (fun _ _ _ h => h.leave) (fun _ _ _ h hb => h.skip hb)
    (fun _ _ _ _ _ h hb hblk hq => h.enter hb hblk hq) n h hs

/-- The tasks that the blocks that have not been entered can still bring. -/
def remaining (blocks : Defs .block Block) (p : Progress) : Nat :=
  blocks.entries.foldr
    (fun e n => (if p.hasEntered e.1 then 0 else 1 + e.2.terminator.targets.length) + n) 0

theorem remaining_cons (e : BlockId × Block) (es : List (BlockId × Block)) (p : Progress) :
    remaining ⟨e :: es⟩ p =
      (if p.hasEntered e.1 then 0 else 1 + e.2.terminator.targets.length) + remaining ⟨es⟩ p :=
  rfl

theorem taskBound_eq (blocks : Defs .block Block) :
    taskBound blocks = 1 + remaining blocks ⟨[], []⟩ := by
  obtain ⟨es⟩ := blocks
  induction es with
  | nil => rfl
  | cons e es ih =>
    simp only [taskBound, List.foldr_cons] at ih ⊢
    rw [ih, remaining_cons, Progress.hasEntered, List.any_nil, if_neg Bool.false_ne_true]
    omega

/-- Entering a block takes it off what remains. -/
theorem remaining_enter (hb : p.hasEntered b = false) (hblk : blocks.get? b = some blk)
    (q : Progress) (hq : q.entered = (b, targets) :: p.entered) :
    remaining blocks q + (1 + blk.terminator.targets.length) ≤ remaining blocks p := by
  obtain ⟨es⟩ := blocks
  have hle : ∀ es : List (BlockId × Block), remaining ⟨es⟩ q ≤ remaining ⟨es⟩ p := by
    intro es
    induction es with
    | nil => exact Nat.le_refl _
    | cons e es ih =>
      rw [remaining_cons, remaining_cons, hasEntered_cons q hq]
      refine Nat.add_le_add ?_ ih
      cases p.hasEntered e.1 <;> by_cases hbe : b = e.1 <;> simp [hbe]
  induction es with
  | nil => simp [Defs.get?] at hblk
  | cons e es ih =>
    obtain ⟨k, v⟩ := e
    rw [Defs.get?_cons] at hblk
    have hes := hle es
    rw [remaining_cons, remaining_cons, hasEntered_cons q hq]
    by_cases hk : b = k
    · subst hk
      rw [if_pos rfl] at hblk
      obtain rfl := Option.some.inj hblk
      simp only [hb, decide_true, Bool.true_or, if_true, Bool.false_eq_true, if_false]
      omega
    · rw [if_neg hk] at hblk
      have hrest := ih hblk
      simp only [hk, decide_false, Bool.false_or]
      omega

/-- **A search over blocks that are all defined ends within its bound.** -/
theorem search_ok (defined : ∀ b, Reached (some entry) blocks b → ∃ blk, blocks.get? b = some blk) :
    ∀ (n : Nat) (tasks : List Task) (p : Progress), Searching blocks entry tasks p →
      tasks.length + remaining blocks p ≤ n → ∃ p', search blocks n tasks p = .ok p'
  | _, [], p, _, _ => ⟨p, by rw [search]⟩
  | 0, _ :: _, _, _, hn => absurd hn (by simp)
  | n + 1, .leave b :: tasks, p, h, hn => by
    rw [search]
    apply search_ok defined n tasks _ h.leave
    have hsame : remaining blocks { p with left := b :: p.left } = remaining blocks p := rfl
    rw [List.length_cons] at hn
    omega
  | n + 1, .enter b :: tasks, p, h, hn => by
    rw [List.length_cons] at hn
    rw [search]
    cases hb : p.hasEntered b with
    | true =>
      rw [if_pos rfl]
      exact search_ok defined n tasks p (h.skip hb) (by omega)
    | false =>
      obtain ⟨blk, hblk⟩ := defined b h.reached_enter
      rw [if_neg Bool.false_ne_true, Defs.find_of_get? hblk]
      apply search_ok defined n _ _ (h.enter hb hblk rfl)
      have hrem := remaining_enter hb hblk
        { p with entered := (b, blk.terminator.targets) :: p.entered } rfl
      have hfilter := List.length_filter_le
        (fun t => !({ p with entered := (b, blk.terminator.targets) :: p.entered } :
          Progress).hasEntered t) blk.terminator.targets
      simp only [List.length_append, List.length_map, List.length_cons]
      omega

/-- A graph has exactly the blocks that can be reached, the entry first and every other one after
one that leads to it. -/
structure Spans (g : FlowGraph) (entry : BlockId) (blocks : Defs .block Block) : Prop where
  led : ∃ rest, g.revPostOrder = entry :: rest ∧ Led blocks [entry] rest
  nodup : g.revPostOrder.Nodup
  reached : ∀ b, b ∈ g.revPostOrder ↔ Reached (some entry) blocks b
  preds : ∀ u v, u ∈ g.predecessors v ↔ u ∈ g.revPostOrder ∧ Leads blocks u v
  defined : ∀ b ∈ g.revPostOrder, ∃ blk, blocks.get? b = some blk

theorem Searching.spans (h : Searching blocks entry [] p) :
    Spans ⟨p.entered.reverse, p.left.reverse⟩ entry blocks := by
  have horder : revPostOrder ⟨p.entered.reverse, p.left.reverse⟩ = order [] p := by
    simp [revPostOrder, order]
  have hentered : ∀ b, b ∈ order [] p → ∃ blk, blocks.get? b = some blk ∧
      (b, blk.terminator.targets) ∈ p.entered := by
    intro b hb
    obtain ⟨ts, hts⟩ := hasEntered_iff.1 ((h.entered b).2 hb)
    obtain ⟨blk, hblk, rfl⟩ := h.edges b ts hts
    exact ⟨blk, hblk, hts⟩
  refine ⟨horder ▸ h.led, horder ▸ h.nodup, fun b => ?_, fun u v => ?_, fun b hb => ?_⟩
  · rw [horder]
    refine ⟨h.reached, ?_⟩
    rintro ⟨ids, hp⟩
    induction hp with
    | start first =>
      obtain ⟨rest, he, -⟩ := h.led
      rw [he, ← Option.some.inj first]
      simp
    | @step ids u v path leads ih =>
      obtain ⟨blk, hblk, hmem⟩ := hentered u ih
      obtain ⟨blk', hblk', hv⟩ := leads
      rw [hblk] at hblk'
      obtain rfl := Option.some.inj hblk'
      rcases h.closed u _ hmem v hv with hv | hv
      · exact (h.entered v).1 hv
      · cases hv
  · rw [horder, predecessors, List.mem_map]
    constructor
    · rintro ⟨⟨w, ts⟩, hw, rfl⟩
      rw [List.mem_filter, List.mem_reverse, List.contains_iff_mem] at hw
      obtain ⟨blk, hblk, rfl⟩ := h.edges w ts hw.1
      exact ⟨(h.entered w).1 (hasEntered_iff.2 ⟨_, hw.1⟩), blk, hblk, hw.2⟩
    · rintro ⟨hu, blk, hblk, hv⟩
      obtain ⟨blk', hblk', hmem⟩ := hentered u hu
      rw [hblk] at hblk'
      obtain rfl := Option.some.inj hblk'
      refine ⟨(u, blk.terminator.targets), ?_, rfl⟩
      rw [List.mem_filter, List.mem_reverse, List.contains_iff_mem]
      exact ⟨hmem, hv⟩
  · rw [horder] at hb
    obtain ⟨blk, hblk, -⟩ := hentered b hb
    exact ⟨blk, hblk⟩

/-- The first step of the search that a graph comes from. -/
theorem ofBlocks_eq (blocks : Defs .block Block) (hblk : blocks.get? entry = some blk)
    {q : Progress}
    (hq : q = ⟨[(entry, blk.terminator.targets)], []⟩) :
    ofBlocks (some entry) blocks = (do
      let p ← search blocks (remaining blocks ⟨[], []⟩)
        ((blk.terminator.targets.filter fun t => !q.hasEntered t).map .enter ++ [.leave entry]) q
      return ⟨p.entered.reverse, p.left.reverse⟩) := by
  subst hq
  rw [ofBlocks, taskBound_eq, Nat.add_comm, search, if_neg (by simp [Progress.hasEntered]),
    Defs.find_of_get? hblk]
  rfl

/-- A graph that has been built is what a search has found. -/
theorem ofBlocks_searching {g : FlowGraph} (h : ofBlocks (some entry) blocks = .ok g) :
    ∃ p, search blocks (taskBound blocks) [.enter entry] ⟨[], []⟩ = .ok p ∧
      Searching blocks entry [] p ∧ g = ⟨p.entered.reverse, p.left.reverse⟩ := by
  obtain ⟨p, hp, e⟩ := bind_eq_ok.1 h
  refine ⟨p, hp, ?_, (Except.ok.inj e).symm⟩
  obtain ⟨k, -, ⟨hb, -⟩ | ⟨-, blk, q, hblk, hq, hp⟩⟩ := search_enter_eq_ok hp
  · cases hb
  · exact search_searching k (Searching.first hblk hq) hp

/-- **A graph that has been built has exactly what can be reached.** -/
theorem ofBlocks_spans {g : FlowGraph} (h : ofBlocks (some entry) blocks = .ok g) :
    Spans g entry blocks := by
  obtain ⟨p, -, hp, rfl⟩ := ofBlocks_searching h
  exact hp.spans

/-- **Where all that can be reached is defined, the graph can be built.** -/
theorem ofBlocks_ok
    (defined : ∀ b, Reached (some entry) blocks b → ∃ blk, blocks.get? b = some blk) :
    ∃ g, ofBlocks (some entry) blocks = .ok g := by
  obtain ⟨blk, hblk⟩ := defined entry ⟨_, .start rfl⟩
  obtain ⟨q, hq⟩ : ∃ q : Progress, q = ⟨[(entry, blk.terminator.targets)], []⟩ := ⟨_, rfl⟩
  have hrem := remaining_enter (p := ⟨[], []⟩) (b := entry) rfl hblk q (by rw [hq])
  have hfilter := List.length_filter_le (fun t => !q.hasEntered t) blk.terminator.targets
  obtain ⟨p, hp⟩ := search_ok defined (remaining blocks ⟨[], []⟩) _ _ (Searching.first hblk hq) (by
    simp only [List.length_append, List.length_map, List.length_cons, List.length_nil]
    omega)
  rw [ofBlocks_eq blocks hblk hq, hp]
  exact ⟨_, rfl⟩

end FlowGraph

end ShaderIR
