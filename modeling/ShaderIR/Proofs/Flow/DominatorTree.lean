import ShaderIR.Body.Basic
import ShaderIR.Proofs.Flow.Search
import ShaderIR.Proofs.Flow.Settle

/-!
# The dominator tree and paths

* `FlowGraph.positions`: the predecessors of every block but the entry, all by position.
* `Spans.onTrails_iff`: trails of positions and paths of blocks go through the same.

Principal statements: `Dominators.ofBlocks_reached` (a dominator tree has only defined blocks) and
`Body.dominators_dominates` (where all that can be reached is defined there is a tree, and it
answers for all paths).
-/

namespace ShaderIR

namespace FlowGraph

/-- The predecessors of every block but the entry, all by their position. -/
def positions (g : FlowGraph) : List (List Nat) :=
  g.revPostOrder.tail.map fun b => (g.predecessors b).filterMap (g.revPostOrder.idxOf? ·)

end FlowGraph

namespace Dominators

open FlowGraph

variable {blocks : Defs .block Block} {entry a b u v : BlockId} {g : FlowGraph} {i j q : Nat}

/-- In a list without repetitions a block has one position. -/
theorem idxOf?_eq_some {l : List BlockId} (h : l.Nodup) : l.idxOf? b = some i ↔ l[i]? = some b := by
  rw [List.idxOf?, List.findIdx?_eq_some_iff_getElem, List.getElem?_eq_some_iff]
  constructor
  · rintro ⟨hi, he, -⟩
    exact ⟨hi, by simpa using he⟩
  · rintro ⟨hi, rfl⟩
    refine ⟨hi, by simp, fun j hj => ?_⟩
    have hne : l[j] ≠ l[i] := fun e => Nat.ne_of_lt hj (h.getElem_inj_iff.1 e)
    simpa using hne

theorem idxOf?_eq_none {l : List BlockId} : l.idxOf? b = none ↔ b ∉ l := by
  rw [List.idxOf?, List.findIdx?_eq_none_iff]
  constructor
  · intro h hb
    simpa using h b hb
  · intro h x hx
    have hne : x ≠ b := fun e => h (e ▸ hx)
    simpa using hne

variable (hg : Spans g entry blocks)

include hg

theorem Spans.length_positions : g.positions.length + 1 = g.revPostOrder.length := by
  obtain ⟨rest, he, -⟩ := hg.led
  simp [positions, he]

theorem Spans.getElem?_zero : g.revPostOrder[0]? = some entry := by
  obtain ⟨rest, he, -⟩ := hg.led
  rw [he]
  rfl

theorem Spans.position_of_reached (hb : Reached (some entry) blocks b) :
    ∃ i ≤ g.positions.length, g.revPostOrder[i]? = some b := by
  obtain ⟨i, hi, he⟩ := List.mem_iff_getElem.1 ((hg.reached b).2 hb)
  have hlen := Spans.length_positions hg
  exact ⟨i, by omega, he ▸ List.getElem?_eq_getElem hi⟩

theorem Spans.block_at (hi : i ≤ g.positions.length) : ∃ b, g.revPostOrder[i]? = some b := by
  have hlen := Spans.length_positions hg
  exact ⟨_, List.getElem?_eq_getElem (by omega)⟩

/-- The predecessors of a position are those of the block there. -/
theorem Spans.mem_predsOf (hi : 0 < i) (hb : g.revPostOrder[i]? = some b) :
    q ∈ predsOf g.positions i ↔ ∃ u, g.revPostOrder[q]? = some u ∧ Leads blocks u b := by
  obtain ⟨k, rfl⟩ : ∃ k, i = k + 1 := ⟨i - 1, by omega⟩
  have htail : g.revPostOrder.tail[k]? = some b := by rw [List.getElem?_tail, hb]
  rw [predsOf, positions, List.getElem?_map, htail, Option.map_some, Option.getD_some,
    List.mem_filterMap]
  apply exists_congr
  intro u
  rw [hg.preds, idxOf?_eq_some hg.nodup]
  constructor
  · rintro ⟨⟨-, hleads⟩, hq⟩
    exact ⟨hq, hleads⟩
  · rintro ⟨hq, hleads⟩
    exact ⟨⟨List.mem_of_getElem? hq, hleads⟩, hq⟩

theorem Spans.ordered : Ordered g.positions := by
  intro i hpos hi
  obtain ⟨b, hb⟩ := Spans.block_at hg hi
  obtain ⟨k, rfl⟩ : ∃ k, i = k + 1 := ⟨i - 1, by omega⟩
  obtain ⟨rest, he, hled⟩ := hg.led
  have hrest : rest[k]? = some b := by rwa [he, List.getElem?_cons_succ] at hb
  rcases hled.exists_lt hrest with ⟨u, hu, hleads⟩ | ⟨j, hj, u, hu, hleads⟩
  · obtain rfl := List.mem_singleton.1 hu
    exact ⟨0, (Spans.mem_predsOf hg hpos hb).2 ⟨u, Spans.getElem?_zero hg, hleads⟩, hpos⟩
  · refine ⟨j + 1, (Spans.mem_predsOf hg hpos hb).2 ⟨u, ?_, hleads⟩, by omega⟩
    rw [he, List.getElem?_cons_succ, hu]

/-- A trail of positions is a path of blocks. -/
theorem Spans.path_of_trail {ids : List Nat} (h : Trail g.positions ids i)
    (hb : g.revPostOrder[i]? = some b) :
    Path (some entry) blocks (ids.filterMap (g.revPostOrder[·]?)) b := by
  induction h generalizing b with
  | root =>
    obtain rfl : entry = b := by simpa [Spans.getElem?_zero hg] using hb
    have hstart : Path (some entry) blocks [entry] entry := .start rfl
    simpa [Spans.getElem?_zero hg] using hstart
  | @step ids q i trail pred ih =>
    have hpos : 0 < i := Nat.pos_of_ne_zero fun e => by
      subst e
      simp [predsOf] at pred
    obtain ⟨u, hu, hleads⟩ := (Spans.mem_predsOf hg hpos hb).1 pred
    rw [List.filterMap_cons_some hb]
    exact .step (ih hu) hleads

/-- On a path lies a trail: from where it comes to the entry for the last time. -/
theorem Spans.trail_of_path {ids : List BlockId} (h : Path (some entry) blocks ids b)
    (hb : g.revPostOrder[i]? = some b) : ∃ ks, Trail g.positions ks i ∧
      ∀ k ∈ ks, ∀ c, g.revPostOrder[k]? = some c → c ∈ ids := by
  have hroot : ∀ {ids b}, Path (some entry) blocks ids b → g.revPostOrder[0]? = some b →
      ∃ ks, Trail g.positions ks 0 ∧ ∀ k ∈ ks, ∀ c, g.revPostOrder[k]? = some c → c ∈ ids := by
    intro ids b hp hb
    refine ⟨[0], .root, fun k hk c hc => ?_⟩
    rw [List.mem_singleton.1 hk, hb] at hc
    exact Option.some.inj hc ▸ hp.mem
  induction h generalizing i with
  | @start c first =>
    have hzero : g.revPostOrder[0]? = some c := by
      rw [Spans.getElem?_zero hg]
      exact first
    have hi : i = 0 := by
      rw [← idxOf?_eq_some hg.nodup] at hb hzero
      rw [hb] at hzero
      exact Option.some.inj hzero
    subst hi
    exact hroot (.start first) hb
  | @step ids u v path leads ih =>
    rcases Nat.eq_zero_or_pos i with rfl | hpos
    · exact hroot (.step path leads) hb
    obtain ⟨q, -, hq⟩ := Spans.position_of_reached hg ⟨ids, path⟩
    obtain ⟨ks, ht, hks⟩ := ih hq
    have hpred := (Spans.mem_predsOf hg hpos hb).2 ⟨u, hq, leads⟩
    refine ⟨i :: ks, .step ht hpred, fun k hk c hc => ?_⟩
    rcases List.mem_cons.1 hk with rfl | hk
    · rw [hb] at hc
      exact Option.some.inj hc ▸ List.mem_cons_self
    · exact List.mem_cons_of_mem _ (hks k hk c hc)

/-- **Trails of positions and paths of blocks go through the same.** -/
theorem Spans.onTrails_iff (ha : g.revPostOrder[i]? = some a) (hb : g.revPostOrder[j]? = some b) :
    OnTrails g.positions i j ↔ OnPaths (some entry) blocks a b := by
  constructor
  · intro h ids hp
    obtain ⟨ks, ht, hks⟩ := Spans.trail_of_path hg hp hb
    exact hks i (h ks ht) a ha
  · intro h ks ht
    obtain ⟨k, hk, hka⟩ := List.mem_filterMap.1 (h _ (Spans.path_of_trail hg ht hb))
    rw [← idxOf?_eq_some hg.nodup] at hka ha
    rw [ha] at hka
    exact Option.some.inj hka ▸ hk

/-- The dominator tree of a graph is a settled one of its positions. -/
theorem Spans.ofGraph : ∃ t, Parents.Settled g.positions t ∧
    Dominators.ofGraph g = .ok ⟨g.revPostOrder, t.set 0 none⟩ := by
  obtain ⟨t, ht, hs⟩ := Parents.settle_settled (Spans.ordered hg)
  obtain ⟨rest, he, -⟩ := hg.led
  refine ⟨t, hs, ?_⟩
  have hpos : g.positions = rest.map fun b =>
      (g.predecessors b).filterMap ((entry :: rest).idxOf? ·) := by
    rw [positions, he, List.tail_cons]
  have hlen : g.positions.length = rest.length := by rw [hpos, List.length_map]
  have hstart : Parents.start g.positions.length = some 0 :: rest.map fun _ => none := by
    rw [hlen, Parents.start, List.map_const']
  rw [hstart, hlen, hpos] at ht
  simp only [Dominators.ofGraph, he, List.length_cons, ht, ok_bind, pure_eq_ok]

/-- The tree answers for all paths. -/
theorem Spans.dominates_iff {t : Parents} (ht : Parents.Settled g.positions t) :
    dominates ⟨g.revPostOrder, t.set 0 none⟩ a b = true ↔
      a = b ∨ OnPaths (some entry) blocks a b := by
  by_cases hab : a = b
  · simp [dominates, hab]
  rw [dominates, if_neg hab, or_iff_right hab]
  simp only [index?]
  cases hb : g.revPostOrder.idxOf? b with
  | none =>
    have hnot : ¬ Reached (some entry) blocks b := fun hr =>
      idxOf?_eq_none.1 hb ((hg.reached b).2 hr)
    exact iff_of_true rfl (.of_not_reached hnot)
  | some j =>
    rw [idxOf?_eq_some hg.nodup] at hb
    have hreached : Reached (some entry) blocks b := (hg.reached b).1 (List.mem_of_getElem? hb)
    cases ha : g.revPostOrder.idxOf? a with
    | none =>
      apply iff_of_false Bool.false_ne_true
      intro hon
      exact idxOf?_eq_none.1 ha ((hg.reached a).2 (hon.reached hreached))
    | some i =>
      rw [idxOf?_eq_some hg.nodup] at ha
      have hj : j ≤ g.positions.length := by
        have hlt := (List.getElem?_eq_some_iff.1 hb).1
        have hlen := Spans.length_positions hg
        omega
      rw [← Spans.onTrails_iff hg ha hb, ← ht.above_iff (Spans.ordered hg) hj]
      exact Parents.climbs_iff ht.grounded _ j (Nat.lt_succ_self j) (ht.known j hj)

omit hg

/-- A dominator tree can only be had where everything that can be reached is defined. -/
theorem ofBlocks_reached {first : Option BlockId} {d : Dominators}
    (h : ofBlocks first blocks = .ok d) (hb : Reached first blocks b) :
    ∃ blk, blocks.get? b = some blk := by
  obtain ⟨g, hg, -⟩ := bind_eq_ok.1 h
  cases first with
  | none => exact absurd hb not_reached_none
  | some entry =>
    have hs := ofBlocks_spans hg
    exact hs.defined b ((hs.reached b).2 hb)

end Dominators

open Dominators FlowGraph in
/-- Where all that can be reached is defined there is a dominator tree, and it answers for all
paths. -/
theorem Body.exists_dominators {body : Body}
    (defined : ∀ b, Reached body.entryBlock? body.code.blocks b →
      (body.code.blocks.get? b).isSome = true) :
    ∃ d, body.dominators = .ok d ∧ ∀ a b, d.dominates a b = true ↔
      a = b ∨ OnPaths body.entryBlock? body.code.blocks a b := by
  unfold Body.dominators Dominators.ofBlocks
  cases he : body.entryBlock? with
  | none =>
    refine ⟨⟨[], []⟩, rfl, fun a b => ?_⟩
    by_cases hab : a = b
    · simp [dominates, hab]
    · rw [dominates, if_neg hab]
      exact iff_of_true rfl (.inr (.of_not_reached not_reached_none))
  | some entry =>
    rw [he] at defined
    obtain ⟨g, hg⟩ := ofBlocks_ok fun b hb => Option.isSome_iff_exists.1 (defined b hb)
    obtain ⟨t, ht, hd⟩ := Spans.ofGraph (ofBlocks_spans hg)
    refine ⟨_, by rw [hg, ok_bind, hd], fun a b => ?_⟩
    exact Spans.dominates_iff (ofBlocks_spans hg) ht

/-- **Dominance is about all paths from the entry.**  Of a body in which every block that can be
reached is defined there is a dominator tree.  It says of two blocks that one dominates the other if
and only if they are the same or every path from the entry to the other goes through the one; all
blocks dominate one that cannot be reached, and it dominates none that can. -/
theorem Body.dominators_dominates (body : Body)
    (defined : ∀ b, Reached body.entryBlock? body.code.blocks b →
      (body.code.blocks.get? b).isSome = true) :
    ∃ d, body.dominators = .ok d ∧
      (∀ a b, d.dominates a b = true ↔
        a = b ∨ OnPaths body.entryBlock? body.code.blocks a b) ∧
      (∀ a b, ¬ Reached body.entryBlock? body.code.blocks b → d.dominates a b = true) ∧
      ∀ a b, Reached body.entryBlock? body.code.blocks b →
        ¬ Reached body.entryBlock? body.code.blocks a → d.dominates a b = false := by
  obtain ⟨d, hd, hiff⟩ := body.exists_dominators defined
  refine ⟨d, hd, hiff, fun a b hb => (hiff a b).2 (.inr (.of_not_reached hb)), fun a b hb ha => ?_⟩
  rw [Bool.eq_false_iff, ne_eq, hiff]
  rintro (rfl | hon)
  · exact ha hb
  · exact ha (hon.reached hb)

/-- A loop with a header and a latch, its exit, and a block that cannot be reached. -/
def Body.sampleLoop : Body :=
  { Body.empty with
    code := { Code.empty with
      blocks := ⟨[(⟨0⟩, ⟨.empty, .branch ⟨1⟩⟩),
        (⟨1⟩, ⟨.empty, .branchIf (.const (.undef .bool)) ⟨2⟩ ⟨3⟩⟩),
        (⟨2⟩, ⟨.empty, .branch ⟨1⟩⟩),
        (⟨3⟩, .new),
        (⟨4⟩, ⟨.empty, .branch ⟨3⟩⟩)]⟩ }
    blocks := [⟨0⟩, ⟨1⟩, ⟨2⟩, ⟨3⟩, ⟨4⟩] }

theorem Body.sampleLoop_dominates : ∃ d, sampleLoop.dominators = .ok d ∧
    ∀ a b, d.dominates a b = true ↔
      a = b ∨ OnPaths sampleLoop.entryBlock? sampleLoop.code.blocks a b := by
  obtain ⟨d, hd, hiff, -⟩ := dominators_dominates sampleLoop fun b hb =>
    reached_defined (by decide) (by decide) hb
  exact ⟨d, hd, hiff⟩

end ShaderIR
