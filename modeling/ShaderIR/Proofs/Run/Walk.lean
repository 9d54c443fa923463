import ShaderIR.Proofs.Flow.Immediate
import ShaderIR.Proofs.Lower.Faithful

/-!
# Walks through valid code

* `Step`: what happens on a walk: an instruction is carried out, or a block is left.
* `Code.stepsOn`: the steps on a walk through blocks, each carried out from its first instruction
  to its terminator.
* `Supplied`: whatever a step takes as input has been computed by a step before it.
* `Body.DominatorsFirst`: every block of a list comes after all that dominate it.

Principal statements: `Body.DominatorsFirst.supplied` (in such an order all steps of a body that has
passed the check are supplied) and `Module.walks_supplied` (so they are on every walk).
-/

namespace ShaderIR

/-- What happens on a walk. -/
inductive Step where
  /-- An instruction is carried out. -/
  | inst (id : InstId) (i : Inst)
  /-- A block is left. -/
  | leave (t : Terminator)

/-- The inputs of the instruction or the terminator. -/
def Step.inputs : Step → List Value
  | inst _ i => i.inputs
  | leave t => t.inputs

/-- Whatever a step takes as input has been computed before, by an instruction with a result. -/
def Supplied (steps : List Step) : Prop :=
  ∀ before step after, steps = before ++ step :: after → ∀ id, .result id ∈ step.inputs →
    ∃ i, .inst id i ∈ before ∧ i.ty ≠ none

/-- Steps stay supplied if others are added that are supplied after them. -/
theorem Supplied.append {xs ys : List Step} (h : Supplied xs)
    (hys : ∀ before step after, ys = before ++ step :: after → ∀ id, .result id ∈ step.inputs →
      ∃ i, .inst id i ∈ xs ++ before ∧ i.ty ≠ none) : Supplied (xs ++ ys) := by
  intro before step after he id hid
  rcases List.append_eq_append_iff.1 he with ⟨zs, rfl, hsplit⟩ | ⟨zs, rfl, hsplit⟩
  · exact hys zs step after hsplit id hid
  · cases zs with
    | nil =>
      obtain ⟨i, hi, hty⟩ := hys [] step after hsplit.symm id hid
      exact ⟨i, by simpa using hi, hty⟩
    | cons z zs =>
      obtain ⟨rfl, -⟩ := List.cons.inj hsplit
      exact h before step zs rfl id hid

namespace Code

/-- The steps of a block. -/
def stepsOf (c : Code) (b : BlockId) : Except Fault (List Step) := do
  let rows ← c.rowsOf b
  let blk ← c.blocks.find b
  return rows.map (fun r => .inst r.1 r.2) ++ [.leave blk.terminator]

/-- The steps on a walk through blocks, of which the latest comes first. -/
def stepsOn (c : Code) : List BlockId → Except Fault (List Step)
  | [] => .ok []
  | b :: ids => do return (← c.stepsOn ids) ++ (← c.stepsOf b)

theorem Shows.stepsOf {c : Code} {rows : BlockId → List Row} (h : c.Shows rows) {b : BlockId}
    {blk : Block} (hb : c.blocks.get? b = some blk) : c.stepsOf b =
      .ok ((rows b).map (fun r => .inst r.1 r.2) ++ [.leave blk.terminator]) := by
  rw [Code.stepsOf, h.rowsOf hb, ok_bind, Defs.find_of_get? hb]
  rfl

end Code

/-- Every block of a list, of which the latest comes first, is one of the body, and comes after all
other blocks of the body that every path to it goes through. -/
def Body.DominatorsFirst (body : Body) : List BlockId → Prop
  | [] => True
  | b :: ids => (b ∈ body.blocks ∧ ∀ d ∈ body.blocks,
      StrictlyOnPaths body.entryBlock? body.code.blocks d b → d ∈ ids) ∧ body.DominatorsFirst ids

section Walks

variable {body : Body} {rows : BlockId → List Row} {b : BlockId} {ids : List BlockId}
  {xs : List Step} {p : List Row} {ty : ScalarType} {id : InstId}

/-- What has a type in a block is computed by then: either in the block itself, or in a block that
dominates it, which has therefore been carried out. -/
theorem exists_step_of_hasType (hdone : ∀ d ∈ body.blocks,
      StrictlyOnPaths body.entryBlock? body.code.blocks d b → d ∈ ids)
    (hxs : ∀ d ∈ ids, ∀ r ∈ rows d, .inst r.1 r.2 ∈ xs)
    (h : body.flow.HasType rows b p (.result id) ty) :
    ∃ i, .inst id i ∈ xs ++ p.map (fun r => .inst r.1 r.2) ∧ i.ty ≠ none := by
  rcases h with ⟨i, hi, hty⟩ | ⟨d, hlisted, hne, hdom, i, hi, hty⟩
  · refine ⟨i, List.mem_append_right _ ?_, by simp [hty]⟩
    exact List.mem_map.2 ⟨(id, i), hi, rfl⟩
  · have hd : d ∈ ids := hdone d hlisted ⟨hne, hdom⟩
    exact ⟨i, List.mem_append_left _ (hxs d hd _ hi), by simp [hty]⟩

/-- One more block is carried out. -/
theorem Supplied.block (hv : body.flow.Valid .checked rows) (hb : b ∈ body.blocks)
    (hdone : ∀ d ∈ body.blocks,
      StrictlyOnPaths body.entryBlock? body.code.blocks d b → d ∈ ids)
    (hxs : ∀ d ∈ ids, ∀ r ∈ rows d, .inst r.1 r.2 ∈ xs) {t : Terminator}
    (ht : body.code.terminator? b = some t) (h : Supplied xs) :
    Supplied (xs ++ ((rows b).map (fun r => .inst r.1 r.2) ++ [.leave t])) := by
  obtain ⟨hrows, t', ht', hleaves⟩ := hv b hb
  obtain rfl := Option.some.inj (ht.symm.trans ht')
  have huser : ∀ {p : List Row} {result inputs expected}, body.flow.UserOk .checked rows b p result
      inputs expected → ∀ id, .result id ∈ inputs →
        ∃ i, .inst id i ∈ xs ++ p.map (fun r => .inst r.1 r.2) ∧ i.ty ≠ none := by
    intro p result inputs expected hok id hid
    obtain ⟨ty, hty⟩ := hok.hasType hid
    exact exists_step_of_hasType hdone hxs hty
  refine h.append fun before step after he => ?_
  rcases List.append_eq_append_iff.1 he with ⟨zs, rfl, hsplit⟩ | ⟨zs, hsplit, hrest⟩
  · -- the terminator, after all rows
    obtain ⟨rfl, rfl, -⟩ : zs = [] ∧ step = .leave t ∧ after = [] := by
      cases zs <;> simp_all
    rw [List.append_nil]
    exact huser hleaves
  · cases zs with
    | nil =>
      obtain ⟨rfl, -⟩ := List.cons.inj hrest
      rw [List.append_nil] at hsplit
      rw [← hsplit]
      exact huser hleaves
    | cons z zs =>
      obtain ⟨rfl, -⟩ := List.cons.inj hrest
      obtain ⟨p, q, hp, rfl, hq⟩ := List.map_eq_append_iff.1 hsplit
      obtain ⟨r, s, rfl, rfl, -⟩ := List.map_eq_cons_iff.1 hq
      exact huser (Flow.rowsOk_iff.1 hrows p r s hp)

/-- **In an order in which every block comes after all that dominate it all steps are supplied**,
and everything in these blocks has been carried out. -/
theorem Body.DominatorsFirst.supplied (hs : body.code.Shows rows)
    (hv : body.flow.Valid .checked rows) (h : body.DominatorsFirst ids) :
    ∃ xs, body.code.stepsOn ids = .ok xs ∧ (∀ d ∈ ids, ∀ r ∈ rows d, .inst r.1 r.2 ∈ xs) ∧
      Supplied xs := by
  induction ids with
  | nil => exact ⟨[], rfl, by simp, fun _ _ _ he => by simp at he⟩
  | cons b ids ih =>
    obtain ⟨⟨hb, hdone⟩, hrest⟩ := h
    obtain ⟨xs, hxs, hall, hsupplied⟩ := ih hrest
    obtain ⟨-, t, ht, -⟩ := hv b hb
    obtain ⟨blk, hblk, rfl⟩ := Option.map_eq_some_iff.1 ht
    refine ⟨_, by rw [Code.stepsOn, hxs, ok_bind, hs.stepsOf hblk]; rfl, fun d hd r hr => ?_,
      hsupplied.block hv hb hdone hall ht⟩
    rcases List.mem_cons.1 hd with rfl | hd
    · exact List.mem_append_right _ (List.mem_append_left _ (List.mem_map.2 ⟨r, hr, rfl⟩))
    · exact List.mem_append_left _ (hall d hd r hr)

/-- On a path every block comes after all that dominate it. -/
theorem Path.dominatorsFirst (listed : body.ListsReached)
    (h : Path body.entryBlock? body.code.blocks ids b) : body.DominatorsFirst ids := by
  -- what every path to a block goes through, this one does, and before it comes to the block
  have hstep : ∀ {ids b}, Path body.entryBlock? body.code.blocks (b :: ids) b →
      body.DominatorsFirst ids → body.DominatorsFirst (b :: ids) := fun hpath hrest =>
    ⟨⟨listed _ ⟨_, hpath⟩, fun d _ hd => (List.mem_cons.1 (hd.2 _ hpath)).resolve_left hd.1⟩,
      hrest⟩
  induction h with
  | start first => exact hstep (.start first) trivial
  | step path leads ih => exact hstep (.step path leads) ih

/-- On every walk to a block all steps are supplied, and everything that the walk has been through
has been carried out. -/
theorem Path.supplied (hs : body.code.Shows rows) (hv : body.flow.Valid .checked rows)
    (listed : body.ListsReached) (h : Path body.entryBlock? body.code.blocks ids b) :
    ∃ xs, body.code.stepsOn ids = .ok xs ∧ (∀ d ∈ ids, ∀ r ∈ rows d, .inst r.1 r.2 ∈ xs) ∧
      Supplied xs :=
  (h.dominatorsFirst listed).supplied hs hv

end Walks

/-- **On every walk through a body that has passed the check, whatever is used has been computed.**
Let a module be valid, its chains linked, and all blocks listed that can be reached.  Then the steps
on any way from the entry of a body along the targets of terminators are supplied: if an instruction
or a terminator has the result of an instruction as its input, that instruction has a result, and
has been carried out before on the same way. -/
theorem Module.walks_supplied (m : Module) (valid : m.firstViolation = .ok none)
    (linked : m.Every Body.ChainsLinked) (listed : m.Every Body.ListsReached) :
    m.Every fun body => ∀ ids b, Path body.entryBlock? body.code.blocks ids b →
      ∃ steps, body.code.stepsOn ids = .ok steps ∧ Supplied steps := by
  intro f hf decl body hdecl himpl ids b hpath
  obtain ⟨decl', hdecl', hdefect⟩ := firstViolation_eq_none_iff.1 valid f hf
  obtain rfl := Option.some.inj (hdecl.symm.trans hdecl')
  obtain ⟨rows, hs⟩ := (linked f hf decl body hdecl himpl).exists_shows
  obtain ⟨-, hv⟩ := Body.valid_of_firstDefect hs (hdefect body himpl)
  obtain ⟨xs, hxs, -, hsupplied⟩ :=
    hpath.supplied hs hv (listed f hf decl body hdecl himpl)
  exact ⟨xs, hxs, hsupplied⟩

/-- Twice through the block of the sample. -/
theorem Module.sampleFragment_walks_supplied : ∃ steps,
    Body.sampleFragment.code.stepsOn [⟨1⟩, ⟨0⟩, ⟨0⟩] = .ok steps ∧ steps.length = 13 ∧
      Supplied steps := by
  have leads : ∀ b : BlockId, b ∈ [(⟨0⟩ : BlockId), ⟨1⟩] →
      Leads Body.sampleFragment.code.blocks ⟨0⟩ b := fun b hb => ⟨_, rfl, hb⟩
  have hpath : Path Body.sampleFragment.entryBlock? Body.sampleFragment.code.blocks
      [⟨1⟩, ⟨0⟩, ⟨0⟩] ⟨1⟩ :=
    .step (.step (.start rfl) (leads ⟨0⟩ (by decide))) (leads ⟨1⟩ (by decide))
  obtain ⟨steps, hsteps, hsupplied⟩ := walks_supplied sampleFragment rfl
    (sampleFragment_every Body.sampleFragment_tidy.linked)
    (sampleFragment_every Body.sampleFragment_listsReached) ⟨0⟩ (by decide)
    ⟨"main", .present .sampleFragment⟩ .sampleFragment rfl rfl _ _ hpath
  obtain ⟨steps', hsteps', hlength⟩ : ∃ steps,
      Body.sampleFragment.code.stepsOn [⟨1⟩, ⟨0⟩, ⟨0⟩] = .ok steps ∧ steps.length = 13 :=
    ⟨_, rfl, rfl⟩
  obtain rfl := Except.ok.inj (hsteps.symm.trans hsteps')
  exact ⟨steps, hsteps, hlength, hsupplied⟩

end ShaderIR
