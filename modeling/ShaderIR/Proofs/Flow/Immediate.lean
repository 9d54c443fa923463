import ShaderIR.Proofs.Flow.DominatorTree

/-!
# Immediate dominators and paths

* `StrictlyOnPaths`: every path to a block goes through another one.
* `NearestOnPaths`: of all blocks with this property, the one that comes last on every path.

Principal statements: `Parents.Settled.parent_iff` (a settled parent is the last position that all
trails go through), `Spans.immediate?_iff` (so it is for blocks), `Body.dominators_immediate` (the
iteration comes to an end, and answers with the nearest dominator of every block that has one).
-/

namespace ShaderIR

/-- `a` is another block than `b`, and every path to `b` goes through it. -/
def StrictlyOnPaths (entry : Option BlockId) (blocks : Defs .block Block) (a b : BlockId) : Prop :=
  a ≠ b ∧ OnPaths entry blocks a b

/-- `a` strictly dominates `b`, and every other block that does so dominates `a`. -/
structure NearestOnPaths (entry : Option BlockId) (blocks : Defs .block Block) (a b : BlockId) :
    Prop where
  strict : StrictlyOnPaths entry blocks a b
  nearest : ∀ c, StrictlyOnPaths entry blocks c b → c ≠ a → OnPaths entry blocks c a

/-- The entry has no nearest dominator: one path to it goes through nothing else. -/
theorem not_nearestOnPaths_entry {blocks : Defs .block Block} {entry a : BlockId} :
    ¬ NearestOnPaths (some entry) blocks a entry := by
  rintro ⟨⟨hne, hon⟩, -⟩
  exact hne (List.mem_singleton.1 (hon [entry] (.start rfl)))

namespace Dominators

open FlowGraph

/-- Of the positions before `i` that all trails to `i` go through, the last one is its parent. -/
theorem Parents.Settled.parent_iff {preds : List (List Nat)} {t : Parents} {i p : Nat}
    (h : Settled preds t) (ho : Ordered preds) (hpos : 0 < i) (hi : i ≤ preds.length) :
    t.parent i = .ok p ↔
      p ≠ i ∧ OnTrails preds p i ∧ ∀ a, a ≠ i → OnTrails preds a i → OnTrails preds a p := by
  have last : ∀ d, t.parent i = .ok d →
      d < i ∧ OnTrails preds d i ∧ ∀ a, a ≠ i → OnTrails preds a i → OnTrails preds a d := by
    intro d hd
    obtain ⟨hlt, -⟩ := h.grounded.below i d hpos hd
    refine ⟨hlt, (h.above_iff ho hi).1 (.climb hd hlt .here), fun a ne ha => ?_⟩
    exact (h.above_iff ho (by omega)).1 (((h.above_iff ho hi).2 ha).of_parent ne hd)
  constructor
  · intro hp
    obtain ⟨hlt, hon, hnearest⟩ := last p hp
    exact ⟨Nat.ne_of_lt hlt, hon, hnearest⟩
  · rintro ⟨ne, hon, hnearest⟩
    obtain ⟨d, hd⟩ := Parents.knows_iff.1 (h.known i hi)
    obtain ⟨hlt, hond, hnearestd⟩ := last d hd
    -- each of the two goes through the other, so neither comes after the other
    have hdp : d ≤ p := (hnearest d (Nat.ne_of_lt hlt) hond).le ho ((hon.le ho hi).trans hi)
    have hpd : p ≤ d := (hnearestd p ne hon).le ho (by omega)
    rwa [Nat.le_antisymm hpd hdp]

variable {blocks : Defs .block Block} {entry a b : BlockId} {g : FlowGraph} {i k : Nat}
  (hg : Spans g entry blocks)

include hg

/-- The nearest dominator of a block, by position. -/
theorem Spans.nearestOnPaths_iff (ha : g.revPostOrder[k]? = some a)
    (hb : g.revPostOrder[i]? = some b) :
    NearestOnPaths (some entry) blocks a b ↔ k ≠ i ∧ OnTrails g.positions k i ∧
      ∀ q, q ≠ i → OnTrails g.positions q i → OnTrails g.positions q k := by
  have hne : ∀ {q j : Nat} {c d : BlockId}, g.revPostOrder[q]? = some c →
      g.revPostOrder[j]? = some d → (q ≠ j ↔ c ≠ d) := by
    intro q j c d hc hd
    rw [not_iff_not]
    constructor
    · rintro rfl
      exact Option.some.inj (hc.symm.trans hd)
    · rintro rfl
      exact Option.some.inj
        (((idxOf?_eq_some hg.nodup).2 hc).symm.trans ((idxOf?_eq_some hg.nodup).2 hd))
  have hi : i ≤ g.positions.length := by
    have hlt := (List.getElem?_eq_some_iff.1 hb).1
    have hlen := Spans.length_positions hg
    omega
  constructor
  · rintro ⟨⟨hab, hon⟩, hnearest⟩
    refine ⟨(hne ha hb).2 hab, (Spans.onTrails_iff hg ha hb).2 hon, fun q hqi hq => ?_⟩
    obtain ⟨c, hc⟩ := Spans.block_at hg ((hq.le (Spans.ordered hg) hi).trans hi)
    by_cases hca : c = a
    · have hmem : OnPaths (some entry) blocks c a := fun ids hp => hca ▸ hp.mem
      exact (Spans.onTrails_iff hg hc ha).2 hmem
    · exact (Spans.onTrails_iff hg hc ha).2
        (hnearest c ⟨(hne hc hb).1 hqi, (Spans.onTrails_iff hg hc hb).1 hq⟩ hca)
  · rintro ⟨hki, hon, hnearest⟩
    refine ⟨⟨(hne ha hb).1 hki, (Spans.onTrails_iff hg ha hb).1 hon⟩, fun c hc _ => ?_⟩
    have hreached : Reached (some entry) blocks b := (hg.reached b).1 (List.mem_of_getElem? hb)
    obtain ⟨q, -, hq⟩ := Spans.position_of_reached hg (hc.2.reached hreached)
    exact (Spans.onTrails_iff hg hq ha).1
      (hnearest q ((hne hq hb).2 hc.1) ((Spans.onTrails_iff hg hq hb).2 hc.2))

/-- **The tree answers with the nearest dominator of every block that has one.** -/
theorem Spans.immediate?_iff {t : Parents} (ht : Parents.Settled g.positions t) :
    immediate? ⟨g.revPostOrder, t.set 0 none⟩ b = some a ↔
      Reached (some entry) blocks b ∧ NearestOnPaths (some entry) blocks a b := by
  rw [immediate?, index?]
  cases hidx : g.revPostOrder.idxOf? b with
  | none =>
    have hnot : ¬ Reached (some entry) blocks b := fun hr =>
      idxOf?_eq_none.1 hidx ((hg.reached b).2 hr)
    simp [hnot]
  | some i =>
    have hb : g.revPostOrder[i]? = some b := (idxOf?_eq_some hg.nodup).1 hidx
    have hreached : Reached (some entry) blocks b := (hg.reached b).1 (List.mem_of_getElem? hb)
    simp only [hreached, true_and, Option.bind_eq_bind, Option.bind_some]
    rcases Nat.eq_zero_or_pos i with rfl | hpos
    · obtain rfl : entry = b := by simpa [Spans.getElem?_zero hg] using hb
      have hzero : (t.set 0 none)[0]?.join = none := by
        cases t <;> rfl
      simp [hzero, not_nearestOnPaths_entry]
    · have hi : i ≤ g.positions.length := by
        have hlt := (List.getElem?_eq_some_iff.1 hb).1
        have hlen := Spans.length_positions hg
        omega
      obtain ⟨p, hp⟩ := Parents.knows_iff.1 (ht.known i hi)
      have hset : (t.set 0 none)[i]?.join = some p := by
        rw [List.getElem?_set_ne (by omega), Parents.parent_eq_ok.1 hp]
      rw [hset, Option.bind_some]
      constructor
      · intro ha
        exact (Spans.nearestOnPaths_iff hg ha hb).2
          ((ht.parent_iff (Spans.ordered hg) hpos hi).1 hp)
      · intro hnearest
        obtain ⟨k, -, ha⟩ :=
          Spans.position_of_reached hg (hnearest.strict.2.reached hreached)
        have hk := (ht.parent_iff (Spans.ordered hg) hpos hi).2
          ((Spans.nearestOnPaths_iff hg ha hb).1 hnearest)
        rwa [Parents.parent_unique hp hk]

/-- Every block that can be reached has a nearest dominator, but for the entry. -/
theorem Spans.exists_nearestOnPaths (hb : Reached (some entry) blocks b) (hne : entry ≠ b) :
    ∃ a, NearestOnPaths (some entry) blocks a b := by
  obtain ⟨t, ht, -⟩ := Spans.ofGraph hg
  obtain ⟨i, hi, hbi⟩ := Spans.position_of_reached hg hb
  have hpos : 0 < i := Nat.pos_of_ne_zero fun e => by
    subst e
    exact hne (by simpa [Spans.getElem?_zero hg] using hbi)
  obtain ⟨p, hp⟩ := Parents.knows_iff.1 (ht.known i hi)
  have hlast := (ht.parent_iff (Spans.ordered hg) hpos hi).1 hp
  obtain ⟨a, ha⟩ := Spans.block_at hg ((hlast.2.1.le (Spans.ordered hg) hi).trans hi)
  exact ⟨a, (Spans.nearestOnPaths_iff hg ha hbi).2 hlast⟩

end Dominators

open Dominators FlowGraph in
/-- **Immediate dominators are about all paths from the entry.**  Of a body in which every block
that can be reached is defined, the graph and the dominator tree can be computed: no loop goes on
for ever, and no position is looked up that is not known, as every predecessor is in the order.  A
block that can be reached has, unless it is the entry, exactly one block that strictly dominates it
and that is dominated by all others which do; the tree answers with that block, and with none for
the entry and for blocks that cannot be reached. -/
theorem Body.dominators_immediate (body : Body)
    (defined : ∀ b, Reached body.entryBlock? body.code.blocks b →
      (body.code.blocks.get? b).isSome = true) :
    ∃ g d, body.graph = .ok g ∧ Dominators.ofGraph g = .ok d ∧ body.dominators = .ok d ∧
      (∀ b, ∀ u ∈ g.predecessors b, u ∈ g.revPostOrder) ∧
      (∀ b, Reached body.entryBlock? body.code.blocks b → body.entryBlock? ≠ some b →
        ∃! a, NearestOnPaths body.entryBlock? body.code.blocks a b) ∧
      (∀ a b, d.immediate? b = some a ↔ Reached body.entryBlock? body.code.blocks b ∧
        NearestOnPaths body.entryBlock? body.code.blocks a b) ∧
      ∀ b, d.immediate? b = none ↔
        body.entryBlock? = some b ∨ ¬ Reached body.entryBlock? body.code.blocks b := by
  unfold Body.graph Body.dominators Dominators.ofBlocks
  cases he : body.entryBlock? with
  | none =>
    refine ⟨.empty, ⟨[], []⟩, rfl, rfl, rfl, ?_, ?_, ?_, ?_⟩
    · intro b u hu
      cases hu
    · intro b hb
      exact absurd hb not_reached_none
    · intro a b
      exact iff_of_false nofun fun h => not_reached_none h.1
    · intro b
      exact iff_of_true rfl (.inr not_reached_none)
  | some entry =>
    rw [he] at defined
    obtain ⟨g, hg⟩ := ofBlocks_ok fun b hb => Option.isSome_iff_exists.1 (defined b hb)
    have hs := ofBlocks_spans hg
    obtain ⟨t, ht, hd⟩ := Spans.ofGraph hs
    have immediate := fun a b => Spans.immediate?_iff (a := a) (b := b) hs ht
    refine ⟨g, _, hg, hd, by rw [hg, ok_bind, hd], ?_, ?_, immediate, ?_⟩
    · intro b u hu
      exact ((hs.preds u b).1 hu).1
    · intro b hb hne
      obtain ⟨a, ha⟩ := Spans.exists_nearestOnPaths hs hb fun e => hne (congrArg some e)
      refine ⟨a, ha, fun c hc => ?_⟩
      exact Option.some.inj (((immediate c b).2 ⟨hb, hc⟩).symm.trans ((immediate a b).2 ⟨hb, ha⟩))
    · intro b
      rw [Option.eq_none_iff_forall_not_mem]
      constructor
      · intro h
        by_contra hnot
        obtain ⟨hne, hb⟩ := not_or.1 hnot
        obtain ⟨a, ha⟩ := Spans.exists_nearestOnPaths hs (not_not.1 hb)
          fun e => hne (congrArg some e)
        exact h a ((immediate a b).2 ⟨not_not.1 hb, ha⟩)
      · rintro (hb | hb) a ha
        · obtain ⟨-, hnearest⟩ := (immediate a b).1 ha
          obtain rfl := Option.some.inj hb
          exact not_nearestOnPaths_entry hnearest
        · exact hb ((immediate a b).1 ha).1

/-- The exit of the loop is dominated by its header, and the latch does not matter. -/
theorem Body.sampleLoop_immediate : ∃ d, sampleLoop.dominators = .ok d ∧
    d.immediate? ⟨3⟩ = some ⟨1⟩ ∧
    NearestOnPaths sampleLoop.entryBlock? sampleLoop.code.blocks ⟨1⟩ ⟨3⟩ ∧
    d.immediate? ⟨0⟩ = none ∧ d.immediate? ⟨4⟩ = none ∧
    ¬ Reached sampleLoop.entryBlock? sampleLoop.code.blocks ⟨4⟩ := by
  obtain ⟨g, d, -, -, hd, -, -, himmediate, hnone⟩ := dominators_immediate sampleLoop fun b hb =>
    reached_defined (by decide) (by decide) hb
  obtain ⟨d', hd', hexit, hentry, hlast⟩ : ∃ d, sampleLoop.dominators = .ok d ∧
      d.immediate? ⟨3⟩ = some ⟨1⟩ ∧ d.immediate? ⟨0⟩ = none ∧ d.immediate? ⟨4⟩ = none :=
    ⟨_, rfl, by decide, by decide, by decide⟩
  obtain rfl := Except.ok.inj (hd.symm.trans hd')
  refine ⟨d, hd, hexit, ((himmediate _ _).1 hexit).2, hentry, hlast, ?_⟩
  exact ((hnone ⟨4⟩).1 hlast).resolve_left (by decide)

end ShaderIR
