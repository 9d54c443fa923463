import ShaderIR.Proofs.Flow.DepthFirst
import ShaderIR.Proofs.Flow.Immediate

/-!
# The reverse post-order

* `FlowGraph.Before`: a block comes before another one in the order.
* `FlowGraph.Acyclic`: from no target of a block that can be reached is there a way back to it.
* `FlowGraph.Orderly`: the laws of the order.

Principal statements: `FlowGraph.visit_edge` (what the two ends of an edge are to each other when a
depth-first search is done) and `FlowGraph.ofBlocks_orderly` (every graph obeys the laws).
-/

namespace ShaderIR

namespace FlowGraph

/-- Block `u` comes before block `v` in the reverse post-order. -/
def Before (g : FlowGraph) (u v : BlockId) : Prop := [u, v].Sublist g.revPostOrder

/-- From no target of a block that can be reached is there a way back to the block. -/
def Acyclic (entry : Option BlockId) (blocks : Defs .block Block) : Prop :=
  ∀ u v, Reached entry blocks u → Leads blocks u v → ¬ Reached (some v) blocks u

/-- The laws of the reverse post-order: the entry comes first, each block after all others that
every path to it goes through, and the target of an edge after the block that leads to it unless
there is a way back. -/
structure Orderly (g : FlowGraph) (entry : Option BlockId) (blocks : Defs .block Block) :
    Prop where
  first : g.revPostOrder.head? = entry
  dominator : ∀ a b, Reached entry blocks b → StrictlyOnPaths entry blocks a b → g.Before a b
  edge : ∀ u v, Reached entry blocks u → Leads blocks u v →
    g.Before u v ∨ Reached (some v) blocks u
  topological : Acyclic entry blocks → ∀ u v, Reached entry blocks u → Leads blocks u v →
    g.Before u v

variable {blocks : Defs .block Block} {entry b t u v : BlockId} {seen ts : List BlockId}
  {g : FlowGraph}

theorem leads_iff : Leads blocks u v ↔ v ∈ targetsOf blocks u := by
  rw [Leads, targetsOf]
  cases blocks.get? u <;> simp

/-- There is no cycle if the blocks can be ranked so that all edges go up. -/
theorem acyclic_of_rank {first : Option BlockId} (rank : BlockId → Nat)
    (up : ∀ e ∈ blocks.entries, ∀ t ∈ e.2.terminator.targets, rank e.1 < rank t) :
    Acyclic first blocks := by
  have hup : ∀ {u v}, Leads blocks u v → rank u < rank v := by
    rintro u v ⟨blk, hblk, hv⟩
    exact up _ (Defs.mem_entries_of_get? hblk) v hv
  rintro u v - leads ⟨ids, hp⟩
  have hle : rank v ≤ rank u := by
    clear leads
    induction hp with
    | start start => rw [Option.some.inj start]
    | step _ leads ih => exact ih.trans (Nat.le_of_lt (hup leads))
  exact absurd (hup leads) (Nat.not_lt.2 hle)

theorem pair_sublist_append {xs ys : List BlockId} (hu : u ∈ xs) (hv : v ∈ ys) :
    [u, v].Sublist (xs ++ ys) :=
  (List.singleton_sublist.2 hu).append (List.singleton_sublist.2 hv)

/-! ## Depth-first search -/

/-- A search visits what it is told to. -/
theorem mem_visit (ht : t ∈ ts) : t ∈ visit blocks seen ts ∨ t ∈ seen := by
  fun_induction visit blocks seen ts with
  | case1 => cases ht
  | case2 seen b bs hb ih =>
    rcases List.mem_cons.1 ht with rfl | ht
    · exact .inr hb
    · exact ih ht
  | case3 seen b bs hb inner _ ih =>
    rcases List.mem_cons.1 ht with rfl | ht
    · exact .inl (by simp)
    · rcases ih ht with h | h
      · exact .inl (by simp [h])
      · simp only [List.mem_append, List.mem_cons] at h ⊢
        tauto

/-- What a search visits can be reached from one of the blocks that it starts with. -/
theorem reached_of_mem_visit (hb : b ∈ visit blocks seen ts) :
    ∃ t ∈ ts, Reached (some t) blocks b := by
  fun_induction visit blocks seen ts with
  | case1 => cases hb
  | case2 seen t ts ht ih =>
    obtain ⟨t', ht', h⟩ := ih hb
    exact ⟨t', List.mem_cons_of_mem _ ht', h⟩
  | case3 seen t ts ht inner ihInner ihRest =>
    rcases List.mem_append.1 hb with hb | hb
    · obtain ⟨t', ht', h⟩ := ihInner hb
      exact ⟨t, List.mem_cons_self, h.after (leads_iff.2 ht')⟩
    · rcases List.mem_cons.1 hb with rfl | hb
      · exact ⟨b, List.mem_cons_self, _, .start rfl⟩
      · obtain ⟨t', ht', h⟩ := ihRest hb
        exact ⟨t', List.mem_cons_of_mem _ ht', h⟩

/-- **The two ends of an edge when a depth-first search is done.**  A target of a block that has
been visited had been seen before the search, or it has been left before the block, or the search
was still in it when it came to the block, so that there is a way back. -/
theorem visit_edge (hu : u ∈ visit blocks seen ts) (hv : Leads blocks u v) :
    v ∈ seen ∨ [v, u].Sublist (visit blocks seen ts) ∨ Reached (some v) blocks u := by
  fun_induction visit blocks seen ts with
  | case1 => cases hu
  | case2 seen t ts ht ih => exact ih hu
  | case3 seen t ts ht inner ihInner ihRest =>
    have toBlock : ∀ c ∈ inner, Reached (some t) blocks c := fun c hc => by
      obtain ⟨t', ht', h⟩ := reached_of_mem_visit hc
      exact h.after (leads_iff.2 ht')
    rcases List.mem_append.1 hu with hu | hu
    · -- the block is visited while the search is in `t`
      rcases ihInner hu with h | h | h
      · rcases List.mem_cons.1 h with rfl | h
        · exact .inr (.inr (toBlock u hu))
        · exact .inl h
      · exact .inr (.inl (h.trans (List.sublist_append_left _ _)))
      · exact .inr (.inr h)
    · rcases List.mem_cons.1 hu with rfl | hu
      · rcases mem_visit (leads_iff.1 hv) with h | h
        · exact .inr (.inl (pair_sublist_append h List.mem_cons_self))
        · rcases List.mem_cons.1 h with rfl | h
          · exact .inr (.inr ⟨_, .start rfl⟩)
          · exact .inl h
      · rcases ihRest hu with h | h | h
        · rcases List.mem_append.1 h with h | h
          · exact .inr (.inl (pair_sublist_append h (List.mem_cons_of_mem _ hu)))
          · rcases List.mem_cons.1 h with rfl | h
            · refine .inr (.inl (List.Sublist.trans ?_ (List.sublist_append_right _ _)))
              exact (List.singleton_sublist.2 hu).cons_cons v
            · exact .inl h
        · refine .inr (.inl (List.Sublist.trans ?_ (List.sublist_append_right _ _)))
          exact h.cons t
        · exact .inr (.inr h)

/-! ## Graphs -/

/-- Of the two ends of an edge the target comes later, unless there is a way back. -/
theorem ofBlocks_edge (h : ofBlocks (some entry) blocks = .ok g)
    (hu : Reached (some entry) blocks u) (hv : Leads blocks u v) :
    g.Before u v ∨ Reached (some v) blocks u := by
  have hpost : g.postOrder = visit blocks [] [entry] := ofBlocks_postOrder h
  have hmem := List.mem_reverse.1 (((ofBlocks_spans h).reached u).2 hu)
  rw [hpost] at hmem
  rcases visit_edge hmem hv with hseen | hsub | hback
  · cases hseen
  · rw [← hpost] at hsub
    exact .inl hsub.reverse
  · exact .inr hback

/-- What lies at two positions of the order comes in the order of the positions. -/
theorem before_of_lt {i j : Nat} (hi : g.revPostOrder[i]? = some u)
    (hj : g.revPostOrder[j]? = some v) (hlt : i < j) : g.Before u v := by
  have hu : u ∈ g.revPostOrder.take (i + 1) :=
    List.mem_of_getElem? (List.getElem?_take_of_succ.trans hi)
  have hv : v ∈ g.revPostOrder.drop (i + 1) := by
    refine List.mem_of_getElem? (i := j - (i + 1)) ?_
    rw [List.getElem?_drop, Nat.add_sub_cancel' hlt, hj]
  rw [Before, ← List.take_append_drop (i + 1) g.revPostOrder]
  exact pair_sublist_append hu hv

open Dominators in
/-- A block that all paths to another one go through comes before it. -/
theorem Spans.before_of_onPaths (hg : Spans g entry blocks) (hb : Reached (some entry) blocks v)
    (h : StrictlyOnPaths (some entry) blocks u v) : g.Before u v := by
  obtain ⟨j, hj, hv⟩ := Spans.position_of_reached hg hb
  obtain ⟨i, -, hu⟩ := Spans.position_of_reached hg (h.2.reached hb)
  have hle := ((Spans.onTrails_iff hg hu hv).2 h.2).le (Spans.ordered hg) hj
  have hne : i ≠ j := by
    rintro rfl
    exact h.1 (Option.some.inj (hu.symm.trans hv))
  exact before_of_lt hu hv (by omega)

/-- **Every graph obeys the laws of the reverse post-order.** -/
theorem ofBlocks_orderly {first : Option BlockId} (h : ofBlocks first blocks = .ok g) :
    g.Orderly first blocks := by
  cases first with
  | none =>
    obtain rfl := Except.ok.inj h
    refine ⟨rfl, ?_, ?_, ?_⟩
    · intro a b hb
      exact absurd hb not_reached_none
    · intro u v hu
      exact absurd hu not_reached_none
    · intro _ u v hu
      exact absurd hu not_reached_none
  | some entry =>
    have hs := ofBlocks_spans h
    obtain ⟨rest, hrest, -⟩ := hs.led
    refine ⟨by rw [hrest]; rfl, fun a b hb hab => hs.before_of_onPaths hb hab,
      fun u v hu hv => ofBlocks_edge h hu hv, fun acyclic u v hu hv => ?_⟩
    exact (ofBlocks_edge h hu hv).resolve_right (acyclic u v hu hv)

end FlowGraph

/-- Two ways from the entry, which come together again. -/
def Body.sampleDiamond : Body :=
  { Body.empty with
    code := { Code.empty with
      blocks := ⟨[(⟨0⟩, ⟨.empty, .branchIf (.const (.undef .bool)) ⟨1⟩ ⟨2⟩⟩),
        (⟨1⟩, ⟨.empty, .branch ⟨3⟩⟩),
        (⟨2⟩, ⟨.empty, .branch ⟨3⟩⟩),
        (⟨3⟩, .new)]⟩ }
    blocks := [⟨0⟩, ⟨1⟩, ⟨2⟩, ⟨3⟩] }

theorem Body.sampleDiamond_acyclic :
    FlowGraph.Acyclic sampleDiamond.entryBlock? sampleDiamond.code.blocks :=
  FlowGraph.acyclic_of_rank (·.index) (by decide)

end ShaderIR
