import Mathlib.Data.Finset.Card
import ShaderIR.Proofs.Flow.DominatorTree

/-!
# Depth-first search by recursion

* `FlowGraph.visit`: visits some blocks and all that can be reached through them, by recursion, and
  gives the blocks in the order in which it leaves them.
* `FlowGraph.depthFirst`: the same from the entry.

Principal statements: `FlowGraph.search_visit` (a search with a list of tasks leaves the blocks that
it is to enter as the recursion does) and `Body.graph_depthFirst` (what a graph says of a body).
-/

namespace ShaderIR

namespace FlowGraph

/-- The targets of a block; none if it is not defined. -/
def targetsOf (blocks : Defs .block Block) (b : BlockId) : List BlockId :=
  ((blocks.get? b).map fun blk => blk.terminator.targets).getD []

/-- How many defined blocks have not been seen. -/
def unseen (blocks : Defs .block Block) (seen : List BlockId) : Nat :=
  ((blocks.entries.map Prod.fst).toFinset \ seen.toFinset).card

section Unseen

variable {blocks : Defs .block Block} {seen seen' bs : List BlockId} {b : BlockId} {blk : Block}

theorem targetsOf_of_get? (hblk : blocks.get? b = some blk) :
    targetsOf blocks b = blk.terminator.targets := by
  rw [targetsOf, hblk]
  rfl

theorem sdiff_seen_subset (keys : Finset BlockId) (h : seen ⊆ seen') :
    keys \ seen'.toFinset ⊆ keys \ seen.toFinset :=
  Finset.sdiff_subset_sdiff subset_rfl fun _ hx =>
    List.mem_toFinset.2 (h (List.mem_toFinset.1 hx))

variable (blocks) in
theorem unseen_le (h : seen ⊆ seen') : unseen blocks seen' ≤ unseen blocks seen :=
  Finset.card_le_card (sdiff_seen_subset _ h)

theorem unseen_lt (hb : b ∉ seen) (hblk : blocks.get? b = some blk) :
    unseen blocks (b :: seen) < unseen blocks seen := by
  have hkey : b ∈ blocks.entries.map Prod.fst :=
    List.mem_map_of_mem (f := Prod.fst) (Defs.mem_entries_of_get? hblk)
  have hsub := sdiff_seen_subset (blocks.entries.map Prod.fst).toFinset
    (List.subset_cons_self b seen)
  refine Finset.card_lt_card ((Finset.ssubset_iff_of_subset hsub).2 ⟨b, ?_, ?_⟩)
  · simp only [Finset.mem_sdiff, List.mem_toFinset]
    exact ⟨hkey, hb⟩
  · simp

/-- Visiting the targets of a block that has not been seen is less to do than visiting it. -/
theorem targets_decrease (hb : b ∉ seen) :
    Prod.Lex (· < ·) (· < ·) (unseen blocks (b :: seen), (targetsOf blocks b).length)
      (unseen blocks seen, (b :: bs).length) := by
  cases hblk : blocks.get? b with
  | some blk => exact .left _ _ (unseen_lt hb hblk)
  | none =>
    have hnil : targetsOf blocks b = [] := by rw [targetsOf, hblk]; rfl
    rw [hnil]
    rcases Nat.lt_or_eq_of_le (unseen_le blocks (List.subset_cons_self b seen)) with
      hlt | heq
    · exact .left _ _ hlt
    · rw [heq]
      exact .right _ (Nat.succ_pos _)

/-- So is visiting the other blocks, however many more have been seen by then. -/
theorem rest_decreases (h : seen ⊆ seen') :
    Prod.Lex (· < ·) (· < ·) (unseen blocks seen', bs.length)
      (unseen blocks seen, (b :: bs).length) := by
  rcases Nat.lt_or_eq_of_le (unseen_le blocks h) with hlt | heq
  · exact .left _ _ hlt
  · rw [heq]
    exact .right _ (Nat.lt_succ_self _)

end Unseen

/-- Visits blocks from first to last, and gives all blocks that it leaves, in order.  A block that
has been seen is passed over; of any other all targets are visited before it is left. -/
def visit (blocks : Defs .block Block) (seen : List BlockId) : List BlockId → List BlockId
  | [] => []
  | b :: bs =>
    if b ∈ seen then visit blocks seen bs
    else
      let inner := visit blocks (b :: seen) (targetsOf blocks b)
      inner ++ b :: visit blocks (inner ++ b :: seen) bs
termination_by bs => (unseen blocks seen, bs.length)
decreasing_by
  · exact rest_decreases (List.Subset.refl _)
  · exact targets_decrease ‹_›
  · exact rest_decreases fun _ hx => List.mem_append_right _ (List.mem_cons_of_mem _ hx)

/-- The blocks that can be reached from the entry, in the order in which a depth-first search by
recursion leaves them. -/
def depthFirst (blocks : Defs .block Block) (entry : Option BlockId) : List BlockId :=
  visit blocks [] entry.toList

section Visit

variable {blocks : Defs .block Block} {seen : List BlockId} {b : BlockId} {bs : List BlockId}

theorem visit_nil : visit blocks seen [] = [] := by rw [visit]

theorem visit_seen (hb : b ∈ seen) : visit blocks seen (b :: bs) = visit blocks seen bs := by
  rw [visit, if_pos hb]

theorem visit_unseen (hb : b ∉ seen) : visit blocks seen (b :: bs) =
    visit blocks (b :: seen) (targetsOf blocks b) ++ b ::
      visit blocks (visit blocks (b :: seen) (targetsOf blocks b) ++ b :: seen) bs := by
  rw [visit, if_neg hb]

/-- Blocks that have been seen can be left out beforehand. -/
theorem visit_filter {p : BlockId → Bool} (h : ∀ b, p b = false → b ∈ seen) :
    visit blocks seen (bs.filter p) = visit blocks seen bs := by
  induction bs generalizing seen with
  | nil => rfl
  | cons b bs ih =>
    cases hp : p b with
    | false => rw [List.filter_cons_of_neg (by simp [hp]), visit_seen (h b hp), ih h]
    | true =>
      rw [List.filter_cons_of_pos hp]
      by_cases hb : b ∈ seen
      · rw [visit_seen hb, visit_seen hb, ih h]
      · rw [visit_unseen hb, visit_unseen hb, ih]
        exact fun c hc => List.mem_append_right _ (List.mem_cons_of_mem _ (h c hc))

end Visit

/-! ## The search with a list of tasks -/

section Search

variable {blocks : Defs .block Block} {tasks : List Task} {p p' : Progress} {entry : BlockId}

/-- **A search leaves the blocks that it is to enter as the recursion does**, and goes on with the
other tasks when that is done.  The tasks behind those blocks stand for the calls that the recursion
has not come back to. -/
theorem search_visit (n : Nat) {seen ts : List BlockId}
    (hseen : ∀ b, p.hasEntered b = true ↔ b ∈ seen)
    (hs : search blocks n (ts.map .enter ++ tasks) p = .ok p') :
    ∃ m ≤ n, ∃ q, search blocks m tasks q = .ok p' ∧
      q.left = (visit blocks seen ts).reverse ++ p.left ∧
      ∀ b, q.hasEntered b = true ↔ b ∈ visit blocks seen ts ++ seen := by
  induction n using Nat.strongRecOn generalizing seen ts tasks p with
  | ind n ih =>
    cases ts with
    | nil => exact ⟨n, Nat.le_refl n, p, hs, by simp [visit_nil], by simpa [visit_nil] using hseen⟩
    | cons t ts =>
      obtain ⟨n, rfl, ⟨ht, hs⟩ | ⟨ht, blk, p₁, hblk, hp₁, hs⟩⟩ := search_enter_eq_ok hs
      · rw [visit_seen ((hseen t).1 ht)]
        obtain ⟨m, hm, q, hq⟩ := ih n (Nat.lt_succ_self n) hseen hs
        exact ⟨m, by omega, q, hq⟩
      · replace ht : t ∉ seen := fun h => by
          rw [(hseen t).2 h] at ht
          cases ht
        have hseen₁ : ∀ b, p₁.hasEntered b = true ↔ b ∈ t :: seen := by
          intro b
          rw [hasEntered_cons p₁ (by rw [hp₁]), Bool.or_eq_true, decide_eq_true_eq, hseen,
            List.mem_cons, eq_comm]
        -- the targets come first, then the leaving of the block, and then the other blocks
        obtain ⟨m₁, hm₁, q₁, hs₁, hleft₁, hent₁⟩ := ih n (Nat.lt_succ_self n) hseen₁ hs
        rw [visit_filter fun b hb => (hseen₁ b).1 (by simpa using hb),
          ← targetsOf_of_get? hblk] at hleft₁ hent₁
        obtain ⟨m₁, rfl, hs₁⟩ := search_leave_eq_ok hs₁
        obtain ⟨m, hm, q, hq, hleft, hent⟩ := ih m₁ (by omega)
          (p := { q₁ with left := t :: q₁.left }) hent₁ hs₁
        refine ⟨m, by omega, q, hq, ?_, fun b => ?_⟩
        · rw [hleft, hleft₁, hp₁, visit_unseen ht]
          simp
        · rw [hent, visit_unseen ht]
          simp only [List.append_assoc, List.cons_append, List.mem_append, List.mem_cons]
          tauto

/-- A graph lists its blocks in the order in which the recursion leaves them. -/
theorem ofBlocks_postOrder {entry : Option BlockId} {g : FlowGraph}
    (h : ofBlocks entry blocks = .ok g) : g.postOrder = depthFirst blocks entry := by
  cases entry with
  | none =>
    obtain rfl := Except.ok.inj h
    rw [depthFirst, Option.toList_none, visit_nil]
    rfl
  | some entry =>
    obtain ⟨p, hp, -, rfl⟩ := ofBlocks_searching h
    have hnone : ∀ b, (⟨[], []⟩ : Progress).hasEntered b = true ↔ b ∈ [] := by
      simp [Progress.hasEntered]
    have hfirst : search blocks (taskBound blocks) ([entry].map .enter ++ []) ⟨[], []⟩ = .ok p := hp
    obtain ⟨m, -, q, hq, hleft, -⟩ := search_visit _ hnone hfirst
    rw [search] at hq
    obtain rfl := Except.ok.inj hq
    rw [hleft]
    simp [depthFirst]

/-- A search enters no block twice. -/
theorem search_distinct (n : Nat) (h : (p.entered.map Prod.fst).Nodup)
    (hs : search blocks n tasks p = .ok p') : (p'.entered.map Prod.fst).Nodup := by
  refine search_invariant (P := fun _ p => (p.entered.map Prod.fst).Nodup) (fun _ _ _ h => h)
    (fun _ _ _ h _ => h) (fun b blk tasks p q h hb _ hq => ?_) n h hs
  rw [hq, List.map_cons, List.nodup_cons]
  refine ⟨fun hmem => ?_, h⟩
  obtain ⟨⟨c, ts⟩, hc, rfl⟩ := List.mem_map.1 hmem
  rw [hasEntered_iff.2 ⟨ts, hc⟩] at hb
  cases hb

end Search

/-! ## What a graph says -/

section Graph

variable {blocks : Defs .block Block} {entry : Option BlockId} {b u v : BlockId} {g : FlowGraph}

/-- Where all that can be reached is defined there is a graph, also if there is no entry. -/
theorem exists_ofBlocks
    (defined : ∀ b, Reached entry blocks b → (blocks.get? b).isSome = true) :
    ∃ g, ofBlocks entry blocks = .ok g := by
  cases entry with
  | none => exact ⟨.empty, rfl⟩
  | some entry => exact ofBlocks_ok fun b hb => Option.isSome_iff_exists.1 (defined b hb)

theorem ofBlocks_nodup (h : ofBlocks entry blocks = .ok g) : g.postOrder.Nodup := by
  cases entry with
  | none =>
    obtain rfl := Except.ok.inj h
    exact List.nodup_nil
  | some entry => exact List.nodup_reverse.1 (ofBlocks_spans h).nodup

theorem mem_ofBlocks (h : ofBlocks entry blocks = .ok g) :
    b ∈ g.postOrder ↔ Reached entry blocks b := by
  cases entry with
  | none =>
    obtain rfl := Except.ok.inj h
    exact iff_of_false List.not_mem_nil not_reached_none
  | some entry => exact List.mem_reverse.symm.trans ((ofBlocks_spans h).reached b)

/-- The predecessors of a block can be reached and have it among their targets. -/
theorem mem_predecessors (h : ofBlocks entry blocks = .ok g) :
    u ∈ g.predecessors v ↔ Reached entry blocks u ∧ Leads blocks u v := by
  cases entry with
  | none =>
    obtain rfl := Except.ok.inj h
    exact iff_of_false List.not_mem_nil fun hu => not_reached_none hu.1
  | some entry => rw [(ofBlocks_spans h).preds, (ofBlocks_spans h).reached]

/-- No block is a predecessor twice. -/
theorem nodup_predecessors (h : ofBlocks entry blocks = .ok g) : (g.predecessors v).Nodup := by
  cases entry with
  | none =>
    obtain rfl := Except.ok.inj h
    exact List.nodup_nil
  | some entry =>
    obtain ⟨p, hp, -, rfl⟩ := ofBlocks_searching h
    have hdistinct := search_distinct (p := ⟨[], []⟩) _ List.nodup_nil hp
    refine List.Nodup.sublist (List.filter_sublist.map _) ?_
    rw [List.map_reverse]
    exact List.nodup_reverse.2 hdistinct

/-- The successors of a block are its targets if the graph has it, and otherwise there is none. -/
theorem ofBlocks_successors (h : ofBlocks entry blocks = .ok g) :
    g.successors b = if b ∈ g.postOrder then targetsOf blocks b else [] := by
  cases entry with
  | none =>
    obtain rfl := Except.ok.inj h
    rfl
  | some entry =>
    obtain ⟨p, -, hp, rfl⟩ := ofBlocks_searching h
    have hmem : b ∈ p.left.reverse ↔ ∃ ts, (b, ts) ∈ p.entered := by
      rw [List.mem_reverse, ← hasEntered_iff]
      exact (hp.entered b).symm
    rw [successors]
    cases hl : p.entered.reverse.lookup b with
    | none =>
      rw [if_neg fun hb => ?_, Option.getD_none]
      obtain ⟨ts, hts⟩ := hmem.1 hb
      simpa using List.lookup_eq_none_iff.1 hl _ (List.mem_reverse.2 hts)
    | some ts =>
      obtain ⟨before, after, he, -⟩ := List.lookup_eq_some_iff.1 hl
      have hts : (b, ts) ∈ p.entered := by
        rw [← List.mem_reverse, he]
        simp
      obtain ⟨blk, hblk, rfl⟩ := hp.edges b ts hts
      rw [if_pos (hmem.2 ⟨_, hts⟩), targetsOf_of_get? hblk, Option.getD_some]

end Graph

end FlowGraph

open FlowGraph in
/-- **The graph of a body is what a depth-first search by recursion finds.**  Where every block that
can be reached is defined, the search with a list of tasks comes to an end, and leaves the blocks in
the order in which the recursion does that starts at the entry and visits targets from left to
right; these are the blocks that can be reached, each once.  The successors of such a block are the
targets of its terminator, as they are, and any other block has none; its predecessors are, without
repetition, the blocks that can be reached and have it among their targets. -/
theorem Body.graph_depthFirst (body : Body)
    (defined : ∀ b, Reached body.entryBlock? body.code.blocks b →
      (body.code.blocks.get? b).isSome = true) :
    ∃ g, body.graph = .ok g ∧ g.postOrder = depthFirst body.code.blocks body.entryBlock? ∧
      g.postOrder.Nodup ∧
      (∀ b, b ∈ g.postOrder ↔ Reached body.entryBlock? body.code.blocks b) ∧
      (∀ b blk, body.code.blocks.get? b = some blk →
        Reached body.entryBlock? body.code.blocks b → g.successors b = blk.terminator.targets) ∧
      (∀ b, ¬ Reached body.entryBlock? body.code.blocks b → g.successors b = []) ∧
      ∀ b, (g.predecessors b).Nodup ∧ ∀ u, u ∈ g.predecessors b ↔
        Reached body.entryBlock? body.code.blocks u ∧ Leads body.code.blocks u b := by
  obtain ⟨g, hg⟩ := exists_ofBlocks defined
  refine ⟨g, hg, ofBlocks_postOrder hg, ofBlocks_nodup hg, fun b => mem_ofBlocks hg,
    fun b blk hblk hb => ?_, fun b hb => ?_,
    fun b => ⟨nodup_predecessors hg, fun u => mem_predecessors hg⟩⟩
  · rw [ofBlocks_successors hg, if_pos ((mem_ofBlocks hg).2 hb), targetsOf_of_get? hblk]
  · rw [ofBlocks_successors hg, if_neg fun h => hb ((mem_ofBlocks hg).1 h)]

/-- The latch of the loop is left before its exit, and what cannot be reached is not visited. -/
theorem Body.sampleLoop_graph_depthFirst : ∃ g, sampleLoop.graph = .ok g ∧
    g.postOrder = FlowGraph.depthFirst sampleLoop.code.blocks sampleLoop.entryBlock? ∧
    g.postOrder = [⟨2⟩, ⟨3⟩, ⟨1⟩, ⟨0⟩] ∧ g.successors ⟨4⟩ = [] ∧
    ∀ u, u ∈ g.predecessors ⟨1⟩ ↔
      Reached sampleLoop.entryBlock? sampleLoop.code.blocks u ∧
        Leads sampleLoop.code.blocks u ⟨1⟩ := by
  obtain ⟨g, hg, hpost, -, -, -, -, hpreds⟩ := graph_depthFirst sampleLoop fun b hb =>
    reached_defined (by decide) (by decide) hb
  obtain ⟨g', hg', hlisted, hnone⟩ : ∃ g, sampleLoop.graph = .ok g ∧
      g.postOrder = [⟨2⟩, ⟨3⟩, ⟨1⟩, ⟨0⟩] ∧ g.successors ⟨4⟩ = [] := ⟨_, rfl, rfl, rfl⟩
  obtain rfl := Except.ok.inj (hg.symm.trans hg')
  exact ⟨g, hg, hpost, hlisted, hnone, (hpreds ⟨1⟩).2⟩

end ShaderIR
