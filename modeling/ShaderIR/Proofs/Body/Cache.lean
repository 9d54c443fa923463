import ShaderIR.Proofs.Lower.Analyses

/-!
# What is kept of a body

* `Analyses.AgreeOn`: two caches hold the same for the analyses of a set.
* `Body.Answers`: what a body answers about its blocks and instructions is right.

Principal statements: `Body.lookup_blockIndex` and `Body.exists_instIndex` (what is computed afresh
is the inverse of the lists of blocks and of instructions), `Body.require_exact` (what asking for
analyses, and dropping some, does to a body).
-/

namespace ShaderIR

/-- Two caches hold the same for the analyses of a set. -/
structure Analyses.AgreeOn (s : AnalysisSet) (a a' : Analyses) : Prop where
  blockIndex : s.blockIndex = true → a'.blockIndex = a.blockIndex
  dominators : s.dominance = true → a'.dominators = a.dominators
  instIndex : s.instIndex = true → a'.instIndex = a.instIndex

namespace Analyses

/-- What is there already stays. -/
theorem slot_of_isSome {α : Type} {wanted : Bool} {kept r : Option α} {fresh : Except Fault α}
    (h : slot wanted kept fresh = .ok r) (hk : kept.isSome = true) : r = kept := by
  obtain ⟨a, rfl⟩ := Option.isSome_iff_exists.1 hk
  exact (Except.ok.inj h).symm

/-- A slot can be filled, and is filled just if an analysis was there or is wanted. -/
theorem exists_slot {α : Type} (wanted : Bool) (kept : Option α) {fresh : Except Fault α} {a : α}
    (h : fresh = .ok a) :
    ∃ r, slot wanted kept fresh = .ok r ∧ r.isSome = (kept.isSome || wanted) := by
  subst h
  cases kept with
  | some b => exact ⟨some b, rfl, rfl⟩
  | none =>
    cases wanted with
    | true => exact ⟨some a, rfl, rfl⟩
    | false => exact ⟨none, rfl, rfl⟩

/-- **Dropping analyses** keeps those of a set, as they are. -/
theorem preserve_exact (a : Analyses) (kept : AnalysisSet) :
    (∀ x, (a.preserve kept).valid.contains x = (a.valid.contains x && kept.contains x)) ∧
      AgreeOn kept a (a.preserve kept) := by
  have hslot : ∀ {α : Type} (o : Option α) (f : Bool),
      (if f then o else none).isSome = (o.isSome && f) := by
    intro α o f
    cases f <;> simp
  refine ⟨fun x => ?_, ⟨fun h => if_pos h, fun h => if_pos h, fun h => if_pos h⟩⟩
  cases x <;> exact hslot _ _

end Analyses

namespace Body

variable {body body' : Body}

/-- Whether a body is well formed does not depend on the analyses that are kept. -/
theorem WellFormed.congr (h : body.WellFormed) (hcode : body'.code = body.code)
    (hblocks : body'.blocks = body.blocks) : body'.WellFormed := by
  have hentry : body'.entryBlock? = body.entryBlock? := by rw [entryBlock?, hblocks, entryBlock?]
  refine ⟨?_, ?_, ?_, ?_⟩
  · rw [ChainsLinked, hcode]
    exact h.linked
  · rw [hblocks]
    exact h.distinct
  · rw [hblocks, hcode]
    exact h.listed
  · rw [hentry, hcode]
    exact h.reached

/-! ## The indices -/

/-- **The position of a block** is where it is listed. -/
theorem lookup_blockIndex (distinct : body.blocks.Nodup) {b : BlockId} {i : Nat} :
    body.blockIndex.lookup b = some i ↔ body.blocks[i]? = some b := by
  have hmem : ∀ i, (b, i) ∈ body.blockIndex ↔ body.blocks[i]? = some b := fun i =>
    List.mem_reverse.trans List.mk_mem_zipIdx_iff_getElem?
  rw [← hmem]
  apply lookup_eq_some_iff
  intro i i' hi hi'
  rw [hmem] at hi hi'
  exact (List.getElem?_inj (List.getElem?_eq_some_iff.1 hi).1 distinct).1 (hi.trans hi'.symm)

/-- **The place of an instruction** can be computed, and is where it is linked. -/
theorem exists_instIndex (h : body.WellFormed) : ∃ ix, body.instIndex = .ok ix ∧
    ∀ x b i, ix.lookup x = some (b, i) ↔ body.LinkedAt b i x := by
  obtain ⟨rows, hs⟩ := ChainsLinked.exists_shows h.linked
  let places := fun b : BlockId => ((rows b).map Prod.fst).zipIdx.map fun p => (p.1, b, p.2)
  have hplaces : body.blocks.mapM body.placesIn = .ok (body.blocks.map places) := by
    apply mapM_eq_ok
    intro b hb
    obtain ⟨blk, hblk⟩ := h.listed b hb
    rw [placesIn, hs.instsOf hblk, ok_bind, pure_eq_ok]
  have hmem : ∀ x b i, (x, b, i) ∈ (body.blocks.map places).flatten.reverse ↔
      body.LinkedAt b i x := by
    intro x b i
    rw [linkedAt_iff hs, List.mem_reverse, ← List.flatMap_def, List.mem_flatMap]
    constructor
    · rintro ⟨b, hb, hx⟩
      obtain ⟨⟨x, i⟩, hp, he⟩ := List.mem_map.1 hx
      cases he
      rw [List.mk_mem_zipIdx_iff_getElem?, List.getElem?_map] at hp
      obtain ⟨⟨x, j⟩, hr, rfl⟩ := Option.map_eq_some_iff.1 hp
      exact ⟨hb, j, hr⟩
    · rintro ⟨hb, j, hr⟩
      refine ⟨b, hb, List.mem_map.2 ⟨(x, i), ?_, rfl⟩⟩
      rw [List.mk_mem_zipIdx_iff_getElem?, List.getElem?_map, hr]
      rfl
  refine ⟨_, by rw [instIndex, hplaces]; rfl, fun x b i => ?_⟩
  rw [← hmem]
  apply lookup_eq_some_iff
  rintro ⟨b, i⟩ ⟨b', i'⟩ hv hv'
  rw [hmem] at hv hv'
  obtain ⟨rfl, rfl⟩ := hv.unique hs hv'
  rfl

/-! ## What is kept -/

/-- Of the analyses that are kept, the indices lead to where blocks are listed and instructions are
linked, and the dominator tree is that of the body. -/
structure Answers (body : Body) : Prop where
  blockIndex : body.cache.valid.blockIndex = true →
    ∀ b i, body.cachedBlockIndex b = some i ↔ body.blocks[i]? = some b
  dominators : body.cache.valid.dominance = true →
    ∃ d, body.cache.dominators = some d ∧ body.dominators = .ok d
  instIndex : body.cache.valid.instIndex = true →
    ∀ x b i, body.cachedInstIndex x = some (b, i) ↔ body.LinkedAt b i x

/-- Analyses that are not out of date give right answers. -/
theorem Current.answers (hc : body.Current) (h : body.WellFormed) : body.Answers := by
  refine ⟨fun hv b i => ?_, fun hv => ?_, fun hv x b i => ?_⟩
  · obtain ⟨ix, hix⟩ := Option.isSome_iff_exists.1 hv
    rw [← lookup_blockIndex h.distinct, cachedBlockIndex, hix, hc.blockIndex ix hix]
    rfl
  · obtain ⟨d, hd⟩ := Option.isSome_iff_exists.1 hv
    exact ⟨d, hd, hc.dominators d hd⟩
  · obtain ⟨ix, hix⟩ := Option.isSome_iff_exists.1 hv
    obtain ⟨fresh, hfresh, hlookup⟩ := exists_instIndex h
    obtain rfl := Except.ok.inj ((hc.instIndex ix hix).symm.trans hfresh)
    rw [← hlookup, cachedInstIndex, hix]
    rfl

/-- **Asking for analyses** computes those that are missing and leaves all else as it is. -/
theorem exists_require (h : body.WellFormed) (wanted : AnalysisSet) :
    ∃ body', body.require wanted = .ok body' ∧
      body'.code = body.code ∧ body'.blocks = body.blocks ∧
      (∀ a, body'.cache.valid.contains a =
        (body.cache.valid.contains a || wanted.contains a)) ∧
      body.cache.AgreeOn body.cache.valid body'.cache := by
  obtain ⟨d, hd, -⟩ := body.exists_dominators fun b hb =>
    Option.isSome_iff_exists.2 (h.reached b hb)
  obtain ⟨ix, hix, -⟩ := exists_instIndex h
  obtain ⟨r₁, h₁, hs₁⟩ := Analyses.exists_slot wanted.blockIndex body.cache.blockIndex
    (rfl : Except.ok body.blockIndex = .ok body.blockIndex)
  obtain ⟨r₂, h₂, hs₂⟩ := Analyses.exists_slot wanted.dominance body.cache.dominators hd
  obtain ⟨r₃, h₃, hs₃⟩ := Analyses.exists_slot wanted.instIndex body.cache.instIndex hix
  refine ⟨{ body with cache := ⟨r₁, r₂, r₃⟩ }, ?_, rfl, rfl, fun a => ?_,
    ⟨Analyses.slot_of_isSome h₁, Analyses.slot_of_isSome h₂, Analyses.slot_of_isSome h₃⟩⟩
  · rw [require, h₁, ok_bind, h₂, ok_bind, h₃, ok_bind]
  · cases a with
    | blockIndex => exact hs₁
    | dominance => exact hs₂
    | instIndex => exact hs₃

/-- **Asking for analyses gives exactly what is promised.**  Take a body whose chains are linked,
whose blocks are distinct, and in which all that is listed or can be reached is defined, with any
analyses that are kept and not out of date, and ask for any set of analyses.  Then what was kept or
is asked for is kept, and nothing else; blocks are found where they are listed, instructions where
they are linked, and the dominator tree is what computing it afresh gives.  The code, the list of
blocks and what was kept stay as they are.  When analyses are dropped, just those of a set stay, as
they are, and nothing but the analyses is touched. -/
theorem require_exact (body : Body) (wanted : AnalysisSet) (wellFormed : body.WellFormed)
    (current : body.Current) :
    (∃ body', body.require wanted = .ok body' ∧
      body'.code = body.code ∧ body'.blocks = body.blocks ∧
      (∀ a, body'.cache.valid.contains a =
        (body.cache.valid.contains a || wanted.contains a)) ∧
      body.cache.AgreeOn body.cache.valid body'.cache ∧ body'.Answers ∧ body'.Current) ∧
    ∀ kept, (body.preserve kept).code = body.code ∧ (body.preserve kept).blocks = body.blocks ∧
      (∀ a, (body.preserve kept).cache.valid.contains a =
        (body.cache.valid.contains a && kept.contains a)) ∧
      body.cache.AgreeOn kept (body.preserve kept).cache ∧
      (body.preserve kept).Answers ∧ (body.preserve kept).Current := by
  refine ⟨?_, fun kept => ?_⟩
  · obtain ⟨body', hrequire, hcode, hblocks, hvalid, hagree⟩ := exists_require wellFormed wanted
    have hcurrent : body'.Current := current.require hrequire
    exact ⟨body', hrequire, hcode, hblocks, hvalid, hagree,
      hcurrent.answers (wellFormed.congr hcode hblocks), hcurrent⟩
  · obtain ⟨hvalid, hagree⟩ := body.cache.preserve_exact kept
    have hcurrent := current.preserve kept
    exact ⟨rfl, rfl, hvalid, hagree, hcurrent.answers (wellFormed.congr rfl rfl), hcurrent⟩

/-- The sample, of which the positions of the blocks are kept. -/
def sampleIndexed : Body :=
  { sampleFragment with cache := ⟨some sampleFragment.blockIndex, none, none⟩ }

theorem sampleIndexed_require_exact : ∃ body',
    sampleIndexed.require ⟨false, true, true⟩ = .ok body' ∧
      body'.cache.blockIndex = sampleIndexed.cache.blockIndex ∧
      body'.cachedBlockIndex ⟨1⟩ = some 1 ∧ body'.cachedInstIndex ⟨3⟩ = some (⟨0⟩, 3) ∧
      (sampleIndexed.preserve ⟨false, true, true⟩).cache.valid.blockIndex = false := by
  have hlisted : ∀ b ∈ sampleFragment.blocks,
      (sampleFragment.code.blocks.get? b).isSome = true := by decide
  have hwell : sampleFragment.WellFormed := by
    refine ⟨sampleFragment_tidy.linked, sampleFragment_tidy.distinct,
      fun b hb => Option.isSome_iff_exists.1 (hlisted b hb), fun b hb => ?_⟩
    obtain ⟨d, hd⟩ : ∃ d, sampleFragment.dominators = .ok d := ⟨_, rfl⟩
    exact Dominators.ofBlocks_reached hd hb
  have hcurrent : sampleIndexed.Current := ⟨fun x hx => Option.some.inj hx, nofun, nofun⟩
  obtain ⟨⟨body', hrequire, hcode, hblocks, hvalid, hagree, hanswers, -⟩, hpreserve⟩ :=
    require_exact sampleIndexed ⟨false, true, true⟩ (hwell.congr rfl rfl) hcurrent
  refine ⟨body', hrequire, hagree.blockIndex rfl, ?_, ?_, (hpreserve _).2.2.1 .blockIndex⟩
  · exact (hanswers.blockIndex (hvalid .blockIndex) _ _).2 (by rw [hblocks]; rfl)
  · refine (hanswers.instIndex (hvalid .instIndex) _ _ _).2 ⟨by rw [hblocks]; decide, ?_⟩
    rw [hcode]
    exact ⟨_, rfl, rfl⟩

end Body

end ShaderIR
