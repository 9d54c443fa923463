import ShaderIR.Proofs.Flow.Order
import ShaderIR.Proofs.Run.Walk

/-!
# Visits in reverse post-order

* `Body.visitOrder`: the blocks of a body that a graph has, in the order of the graph.

Principal statements: `Body.dominatorsFirst_visitOrder` (every block comes after all that dominate
it) and `Module.revPostOrder_visits` (the laws of the order, and what they give for a body that has
passed the check).
-/

namespace ShaderIR

namespace Body

open FlowGraph

variable {body : Body} {g : FlowGraph} {ids : List BlockId}

/-- The blocks of a body that a graph has, in reverse post-order. -/
def visitOrder (body : Body) (g : FlowGraph) : List BlockId :=
  g.revPostOrder.filter body.blocks.contains

theorem dominatorsFirst_of_sublist (nodup : ids.Nodup) (listed : ∀ b ∈ ids, b ∈ body.blocks)
    (h : ∀ b ∈ ids, ∀ d ∈ body.blocks,
      StrictlyOnPaths body.entryBlock? body.code.blocks d b → [b, d].Sublist ids) :
    body.DominatorsFirst ids := by
  induction ids with
  | nil => trivial
  | cons b ids ih =>
    obtain ⟨hb, hnodup⟩ := List.nodup_cons.1 nodup
    refine ⟨⟨listed b List.mem_cons_self, fun d hd hdom => ?_⟩,
      ih hnodup (fun c hc => listed c (List.mem_cons_of_mem _ hc)) fun c hc d hd hdom => ?_⟩
    · have hsub := h b List.mem_cons_self d hd hdom
      exact List.singleton_sublist.1 (List.cons_sublist_cons.1 hsub)
    · have hsub := h c (List.mem_cons_of_mem _ hc) d hd hdom
      have hne : c ≠ b := fun e => hb (e ▸ hc)
      exact hsub.of_cons_of_ne hne

/-- **In reverse post-order every block comes after all that dominate it.** -/
theorem dominatorsFirst_visitOrder (hg : body.graph = .ok g) :
    body.DominatorsFirst (body.visitOrder g).reverse := by
  have hmem : ∀ b, b ∈ (body.visitOrder g).reverse ↔
      Reached body.entryBlock? body.code.blocks b ∧ b ∈ body.blocks := by
    intro b
    simp [visitOrder, revPostOrder, mem_ofBlocks hg]
  have hnodup : (body.visitOrder g).Nodup :=
    (List.nodup_reverse.2 (ofBlocks_nodup hg)).filter _
  refine dominatorsFirst_of_sublist (List.nodup_reverse.2 hnodup) (fun b hb => ((hmem b).1 hb).2)
    fun b hb d hd hdom => ?_
  obtain ⟨hreached, hlisted⟩ := (hmem b).1 hb
  have hbefore := (ofBlocks_orderly hg).dominator d b hreached hdom
  have hsub := (hbefore.filter body.blocks.contains).reverse
  simpa [visitOrder, hd, hlisted] using hsub

end Body

/-- **Reverse post-order visits definitions before their uses.**  In a body in which every block
that can be reached is defined, the order starts with the entry, has every block after all others
that every path to it goes through, and has the target of an edge after the block that leads to it
unless there is a way back; so all edges go forward if there is no cycle.  Therefore, if a module is
valid and the chains of its bodies are linked, a visit to the listed blocks of a body in this order,
to the instructions of each from first to last and then to its terminator, comes to the result of an
instruction as an input only after it has been to that instruction, which has a result. -/
theorem Module.revPostOrder_visits (m : Module) :
    (∀ body : Body, (∀ b, Reached body.entryBlock? body.code.blocks b →
        (body.code.blocks.get? b).isSome = true) →
      ∃ g, body.graph = .ok g ∧ g.Orderly body.entryBlock? body.code.blocks) ∧
    (m.firstViolation = .ok none → m.Every Body.ChainsLinked →
      m.Every fun body => ∃ g steps, body.graph = .ok g ∧
        body.code.stepsOn (body.visitOrder g).reverse = .ok steps ∧ Supplied steps) := by
  constructor
  · intro body defined
    obtain ⟨g, hg⟩ := FlowGraph.exists_ofBlocks defined
    exact ⟨g, hg, FlowGraph.ofBlocks_orderly hg⟩
  · intro valid linked f hf decl body hdecl himpl
    obtain ⟨decl', hdecl', hdefect⟩ := firstViolation_eq_none_iff.1 valid f hf
    obtain rfl := Option.some.inj (hdecl.symm.trans hdecl')
    obtain ⟨rows, hs⟩ := (linked f hf decl body hdecl himpl).exists_shows
    obtain ⟨defined, hv⟩ := Body.valid_of_firstDefect hs (hdefect body himpl)
    obtain ⟨g, hg⟩ := FlowGraph.exists_ofBlocks defined
    obtain ⟨steps, hsteps, -, hsupplied⟩ := (Body.dominatorsFirst_visitOrder hg).supplied hs hv
    exact ⟨g, steps, hg, hsteps, hsupplied⟩

/-- The diamond, in which all edges go forward, and a visit to the two blocks of the fragment. -/
theorem Module.sampleFragment_revPostOrder_visits :
    (∃ g, Body.sampleDiamond.graph = .ok g ∧ g.revPostOrder = [⟨0⟩, ⟨2⟩, ⟨1⟩, ⟨3⟩] ∧
      ∀ u v, Reached Body.sampleDiamond.entryBlock? Body.sampleDiamond.code.blocks u →
        Leads Body.sampleDiamond.code.blocks u v → g.Before u v) ∧
    ∃ g steps, Body.sampleFragment.graph = .ok g ∧
      Body.sampleFragment.visitOrder g = [⟨0⟩, ⟨1⟩] ∧ steps.length = 7 ∧
      Body.sampleFragment.code.stepsOn [⟨1⟩, ⟨0⟩] = .ok steps ∧ Supplied steps := by
  obtain ⟨laws, visits⟩ := revPostOrder_visits sampleFragment
  constructor
  · obtain ⟨g, hg, horderly⟩ := laws .sampleDiamond fun b hb =>
      reached_defined (by decide) (by decide) hb
    obtain ⟨g', hg', horder⟩ : ∃ g, Body.sampleDiamond.graph = .ok g ∧
        g.revPostOrder = [⟨0⟩, ⟨2⟩, ⟨1⟩, ⟨3⟩] := ⟨_, rfl, rfl⟩
    obtain rfl := Except.ok.inj (hg.symm.trans hg')
    exact ⟨g, hg, horder, horderly.topological Body.sampleDiamond_acyclic⟩
  · obtain ⟨g, steps, hg, hsteps, hsupplied⟩ :=
      visits rfl (sampleFragment_every Body.sampleFragment_tidy.linked) ⟨0⟩ (by decide)
        ⟨"main", .present .sampleFragment⟩ .sampleFragment rfl rfl
    obtain ⟨g', steps', hg', horder, hlength, hsteps'⟩ : ∃ g steps,
        Body.sampleFragment.graph = .ok g ∧
        Body.sampleFragment.visitOrder g = [⟨0⟩, ⟨1⟩] ∧ steps.length = 7 ∧
        Body.sampleFragment.code.stepsOn [⟨1⟩, ⟨0⟩] = .ok steps := ⟨_, _, rfl, rfl, rfl, rfl⟩
    obtain rfl := Except.ok.inj (hg.symm.trans hg')
    rw [horder] at hsteps
    obtain rfl := Except.ok.inj (hsteps.symm.trans hsteps')
    exact ⟨g, steps, hg, horder, hlength, hsteps', hsupplied⟩

end ShaderIR
