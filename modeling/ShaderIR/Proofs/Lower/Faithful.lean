import ShaderIR.Proofs.Lower.Meaning
import ShaderIR.Proofs.Lower.Valid

/-!
# Lowering keeps what shaders do

* `Body.Apart`: no block has both stores that are still to be merged and a combined write.
* `Body.ResultsPure`, `Body.Unmerged`: what is asked of the instructions of a body.
* `Module.Kept`: the functions of a module have come from those of another, and do the same.

Principal statement: `Module.lower_faithful` (a shader that has been lowered visits the same blocks,
writes the same to every output and kills the same samples, however long it runs).
-/

namespace ShaderIR

namespace Body

/-- No block has both stores of aspects and combined writes. -/
def Apart (body : Body) : Prop :=
  ∀ rows, body.code.Shows rows → ∀ b ∈ body.blocks,
    (∀ r ∈ rows b, r.2.stores? = none) ∨ ∀ r ∈ rows b, ¬ r.2.IsCombined

/-- Results are only those of pure operations, and of inputs that are read. -/
def ResultsPure (body : Body) : Prop := ∀ i, body.Has i → i.ResultsPure

/-- There is no combined write yet. -/
def Unmerged (body : Body) : Prop := ∀ i, body.Has i → ¬ i.IsCombined

variable {samples : Nat} {R : Rules} {s : Supply .inst} {body : Body} {c z₀ : Scalar}

theorem Unmerged.apart (h : body.Unmerged) : body.Apart :=
  fun _ hrows _ hb => .inr fun r hr => h r.2 (has_of_mem hrows hb hr)

theorem ResultsPure.loweredUntyped (h : body.ResultsPure) : body.LoweredUntyped := by
  intro i hi hl
  by_contra hty
  rcases h i hi hty with ⟨op, hk⟩ | ⟨location, hk⟩ <;> rcases hl with hl | hl | hl
  · exact hl (by rw [Inst.stores?, hk])
  · rw [hk] at hl
    cases hl
  · rw [hk] at hl
    cases hl
  · exact hl (by rw [Inst.stores?, hk])
  · rw [hk] at hl
    cases hl
  · rw [hk] at hl
    cases hl

/-- **Merging the stores of a body keeps all runs.** -/
theorem Sound.lowerBlocks_simulates (h : body.Sound R s) (hR : R.Lowers) (ha : body.Apart)
    (hc : c.ty = .u16) (hmask : c.bits = allSamples samples) : ∃ w r,
      DepthStencil.lowerBlocks (.const (.ofScalar c)) body.blocks (body.workspace s) =
        .ok (w, r) ∧ s.next ≤ w.fresh.next ∧
      ∀ changed, r = .ok changed → ∀ cache, Sound R w.fresh ⟨w.code, body.blocks, cache⟩ ∧
        Apart ⟨w.code, body.blocks, cache⟩ ∧
        body.Simulates samples ⟨w.code, body.blocks, cache⟩ := by
  obtain ⟨-, -, rows, hstands, hu⟩ := id h
  have hty : (Constant.ofScalar c).ty = .u16 := hc
  obtain ⟨w, r, rows', hw, hstands', hu', hq⟩ := DepthStencil.lowerBlocks_stands hR hty rfl rfl
    (fun rows => (∀ b ∈ body.blocks,
        (∀ r ∈ rows b, r.2.stores? = none) ∨ ∀ r ∈ rows b, ¬ r.2.IsCombined) ∧
      ∀ code cache, code.Shows rows → body.code.SameFlow code →
        body.Simulates samples ⟨code, body.blocks, cache⟩)
    (by
      rintro w rows b out changed hw hb ⟨hapart, hsim⟩ hm
      refine ⟨fun d hd => ?_, fun code cache hcode hflow => ?_⟩
      · by_cases hdb : d = b
        · subst hdb
          rw [Function.update_self]
          exact .inl (hm.stores_eq_none (by simp))
        · rw [Function.update_of_ne hdb]
          exact hapart d hd
      · have hstep : Replaces samples rows b (rows b) out := by
          rcases hapart b hb with hstores | hcombined
          · rw [hm.eq_of_no_stores hstores, List.append_nil]
            exact .refl samples rows b _
          · have hr := hm.replaces hmask hcombined fun q hq => by cases hq
            rwa [List.append_nil] at hr
        exact (hsim w.code cache hw.shows hw.flow).trans
          (.of_replaces hw.shows hcode (hw.flow.symm.trans hflow) hstep cache))
    body.blocks _ rows (fun _ hb => hb) hstands hu
    ⟨ha rows hstands.shows, fun code cache hcode hflow => by
      refine .of_replaces hstands.shows (b := ⟨0⟩) ?_ hflow (.refl samples rows _ _) cache
      rwa [Function.update_eq_self]⟩
  refine ⟨w, r, hw, hstands'.le, fun changed hr cache => ?_⟩
  obtain ⟨hapart, hsim⟩ := hq changed hr
  refine ⟨h.of_stands hstands' hu' cache, fun rows₁ hrows₁ => ?_,
    hsim w.code cache hstands'.shows hstands'.flow⟩
  rwa [hrows₁.rows_eq hstands'.shows]

/-- **Expanding the discards of a body keeps all runs.** -/
theorem Sound.inBlocks_simulates (h : body.Sound R s) (hR : R.Lowers) (hc : c.ty = .u16)
    (hall : c.bits = allSamples samples) (hpos : allSamples samples ≠ 0) (hz : z₀.ty = .u16)
    (hnothing : z₀.bits = 0) : ∃ changed w,
      (Discard.edit (.const (.ofScalar c)) (.const (.ofScalar z₀))).inBlocks body.blocks ()
        (body.workspace s) = .ok (changed, (), w) ∧ s.next ≤ w.fresh.next ∧
      ∀ cache, Sound R w.fresh ⟨w.code, body.blocks, cache⟩ ∧
        body.Simulates samples ⟨w.code, body.blocks, cache⟩ := by
  obtain ⟨-, -, rows, hstands, hu⟩ := id h
  have hty : (Constant.ofScalar c).ty = .u16 := hc
  have hty₀ : (Constant.ofScalar z₀).ty = .u16 := hz
  obtain ⟨changed, w, rows', hw, hstands', hu', hsim⟩ := Discard.inBlocks_stands hR hty hty₀ rfl
    rfl rfl
    (fun rows => ∀ code cache, code.Shows rows → body.code.SameFlow code →
      body.Simulates samples ⟨code, body.blocks, cache⟩)
    (by
      intro w rows b out changed hw hb hsim hx code cache hcode hflow
      have hstep : Replaces samples rows b (rows b) out :=
        hx.replaces hall hpos hc hnothing hz
      exact (hsim w.code cache hw.shows hw.flow).trans
        (.of_replaces hw.shows hcode (hw.flow.symm.trans hflow) hstep cache))
    body.blocks _ rows (fun _ hb => hb) hstands hu
    (fun code cache hcode hflow => by
      refine .of_replaces hstands.shows (b := ⟨0⟩) ?_ hflow (.refl samples rows _ _) cache
      rwa [Function.update_eq_self])
  exact ⟨changed, w, hw, hstands'.le, fun cache => ⟨h.of_stands hstands' hu' cache,
    hsim w.code cache hstands'.shows hstands'.flow⟩⟩

end Body

namespace Module

/-- A function has come from one of another module.  If it has a body, this has some property, and
each run of the other body is one of its runs. -/
def Kept (samples : Nat) (m₀ : Module) (P : Supply .inst → Body → Prop) (f : FuncId)
    (s : Supply .inst) (decl : FuncDecl) : Prop :=
  m₀.funcs.get? f = some decl ∧ (∃ link, decl.impl = .imported link) ∨
    ∃ decl₀ body₀ body, m₀.funcs.get? f = some decl₀ ∧ decl₀.impl = .present body₀ ∧
      decl = { decl₀ with impl := .present body } ∧ P s body ∧ body₀.Simulates samples body

variable {m m₀ : Module} {samples : Nat} {P P' : Supply .inst → Body → Prop} {f : FuncId}
  {s s' : Supply .inst} {decl : FuncDecl} {body : Body} {config : LowerConfig}

theorem Kept.lasts (hP : ∀ s s' body, s.next ≤ s'.next → P s body → P s' body) :
    Lasts (Kept samples m₀ P) := by
  rintro f s s' decl hs (h | ⟨decl₀, body₀, body, hget, himpl, rfl, hp, hsim⟩)
  · exact .inl h
  · exact .inr ⟨decl₀, body₀, body, hget, himpl, rfl, hP s s' body hs hp, hsim⟩

/-- The body of a function that has been kept is replaced by one that does the same. -/
theorem Kept.setBody (h : Kept samples m₀ P f s decl) (himpl : decl.impl = .present body) :
    P s body ∧ ∀ s' body', P' s' body' → body.Simulates samples body' →
      Kept samples m₀ P' f s' { decl with impl := .present body' } := by
  rcases h with ⟨-, link, hlink⟩ | ⟨decl₀, body₀, body₁, hget, himpl₀, rfl, hp, hsim⟩
  · rw [himpl] at hlink
    cases hlink
  · obtain rfl := FuncDef.present.inj himpl
    refine ⟨hp, fun s' body' hp' hsim' => ?_⟩
    exact .inr ⟨decl₀, body₀, body', hget, himpl₀, rfl, hp', hsim.trans hsim'⟩

theorem Kept.imp (h : Kept samples m₀ P f s decl) (hP : ∀ body, P s body → P' s body) :
    Kept samples m₀ P' f s decl := by
  apply h.imp_right
  rintro ⟨decl₀, body₀, body, hget, himpl, rfl, hp, hsim⟩
  exact ⟨decl₀, body₀, body, hget, himpl, rfl, hP body hp, hsim⟩

/-- What is asked of the bodies before stores are merged. -/
def BeforeMerge (s : Supply .inst) (body : Body) : Prop := body.Sound .placed s ∧ body.Apart

/-- What is asked of the bodies before discards are expanded. -/
def BeforeExpand (s : Supply .inst) (body : Body) : Prop := body.Sound .placed s

theorem beforeMerge_lasts : Lasts (Kept samples m₀ BeforeMerge) :=
  Kept.lasts fun _ _ _ hs h => ⟨h.1.mono hs, h.2⟩

theorem beforeExpand_lasts : Lasts (Kept samples m₀ BeforeExpand) :=
  Kept.lasts fun _ _ _ hs h => h.mono hs

theorem kept_merge {c : Scalar} (hc : c.ty = .u16) (hmask : c.bits = allSamples samples) :
    DepthStencil.Keeps (.const (.ofScalar c)) False (Kept samples m₀ BeforeMerge) := by
  intro f s decl body hk himpl
  obtain ⟨⟨hsound, hapart⟩, hset⟩ := hk.setBody himpl
  obtain ⟨w, r, hw, hle, hkeep⟩ := hsound.lowerBlocks_simulates Rules.placed_lowers hapart hc hmask
  refine ⟨w, r, hw, hle, fun hr cache => ?_⟩
  obtain ⟨changed, hr⟩ := hr.resolve_left id
  obtain ⟨hsound', hapart', hsim⟩ := hkeep changed hr cache
  exact hset w.fresh _ ⟨hsound', hapart'⟩ hsim

theorem kept_expand {c z₀ : Scalar} (hc : c.ty = .u16) (hall : c.bits = allSamples samples)
    (hpos : allSamples samples ≠ 0) (hz : z₀.ty = .u16) (hnothing : z₀.bits = 0) :
    Discard.Keeps (.const (.ofScalar c)) (.const (.ofScalar z₀))
      (Kept samples m₀ BeforeExpand) := by
  intro f s decl body hk himpl
  obtain ⟨hsound, hset⟩ := hk.setBody himpl
  obtain ⟨changed, w, hw, hle, hkeep⟩ := Body.Sound.inBlocks_simulates hsound Rules.placed_lowers
    hc hall hpos hz hnothing
  refine ⟨changed, w, hw, hle, fun cache => ?_⟩
  obtain ⟨hsound', hsim⟩ := hkeep cache
  exact hset w.fresh _ hsound' hsim

/-- **Lowering a module keeps all runs**, if no aspect is written twice. -/
theorem Holds.lower_kept (h : m.Holds (Kept config.maxSamples m₀ BeforeMerge))
    (hlo : 1 ≤ config.maxSamples) (hhi : config.maxSamples ≤ 16) {m' : Module} {changed : Bool}
    (lowered : m.lower config = .ok (m', .ok changed)) :
    m'.allFuncs = m.allFuncs ∧ m'.Holds (Kept config.maxSamples m₀ BeforeExpand) := by
  have hpos : allSamples config.maxSamples ≠ 0 := by
    have hpow : 2 ^ 1 ≤ 2 ^ config.maxSamples := Nat.pow_le_pow_right (by decide) hlo
    show 2 ^ config.maxSamples - 1 ≠ 0
    omega
  obtain ⟨m₁, r₁, hm₁, hall₁, h₁⟩ := h.lowerDepthStencil beforeMerge_lasts hlo hhi
    fun c hc hbits => kept_merge hc hbits
  unfold Module.lower at lowered
  split at lowered
  swap
  · cases lowered
  rw [hm₁, ok_bind] at lowered
  cases r₁ with
  | error e => cases lowered
  | ok merged =>
    have hbetween : m₁.Holds (Kept config.maxSamples m₀ BeforeExpand) := by
      intro f hf
      obtain ⟨decl, hdecl, hk⟩ := h₁ (.inr ⟨merged, rfl⟩) f hf
      exact ⟨decl, hdecl, hk.imp fun _ hp => hp.1⟩
    obtain ⟨m₂, discarded, hm₂, hall₂, h₂⟩ := hbetween.lowerDiscard beforeExpand_lasts hlo hhi
      fun c hc hbits => kept_expand hc hbits hpos rfl rfl
    simp only [hm₂, ok_bind, pure_eq_ok] at lowered
    cases lowered
    exact ⟨hall₂.trans hall₁, h₂⟩

/-- **A lowered shader does the same.**  Let a module be valid, with tidy bodies in which all blocks
that can be reached are listed, only pure operations and the reading of inputs have a result, and
there is no combined write.  If it can be lowered then each body runs for any number of blocks,
whatever the pure operations mean and whatever the inputs are, and the lowered one visits the same
blocks, writes the same to each output and kills the same samples. -/
theorem lower_faithful (m m' : Module) (config : LowerConfig) (changed : Bool)
    (valid : m.firstViolation = .ok none) (tidy : m.Every (Body.Tidy m.freshInsts))
    (listed : m.Every Body.ListsReached) (results : m.Every Body.ResultsPure)
    (unmerged : m.Every Body.Unmerged)
    (hlo : 1 ≤ config.maxSamples) (hhi : config.maxSamples ≤ 16)
    (lowered : m.lower config = .ok (m', .ok changed)) :
    ∀ f ∈ m.allFuncs, ∀ decl body, m.funcs.get? f = some decl → decl.impl = .present body →
      ∃ body', m'.funcs.get? f = some { decl with impl := .present body' } ∧
        ∀ (M : Meaning) (k : Nat), ∃ r r', body.run M config.maxSamples k = some r ∧
          body'.run M config.maxSamples k = some r' ∧ r'.visited = r.visited ∧
          r'.next = r.next ∧ SameEffects r.effects r'.effects := by
  have hsound : ∀ f ∈ m.allFuncs, ∀ decl body, m.funcs.get? f = some decl →
      decl.impl = .present body → body.Sound .checked m.freshInsts := by
    intro f hf decl body hdecl hbody
    obtain ⟨decl₁, hdecl₁, hdefect⟩ := firstViolation_eq_none_iff.1 valid f hf
    obtain rfl := Option.some.inj (hdecl₁.symm.trans hdecl)
    exact (tidy f hf decl₁ body hdecl hbody).sound (hdefect body hbody)
      (results f hf decl₁ body hdecl hbody).loweredUntyped
  have hkept : m.Holds (Kept config.maxSamples m BeforeMerge) := by
    intro f hf
    obtain ⟨decl, hdecl, -⟩ := firstViolation_eq_none_iff.1 valid f hf
    refine ⟨decl, hdecl, ?_⟩
    cases himpl : decl.impl with
    | imported link => exact .inl ⟨hdecl, link, himpl⟩
    | present body =>
      refine .inr ⟨decl, body, body, hdecl, himpl, ?_, ⟨?_, ?_⟩, .refl _ body⟩
      · rw [← himpl]
      · exact (hsound f hf decl body hdecl himpl).placed
      · exact (unmerged f hf decl body hdecl himpl).apart
  obtain ⟨hall, hlast⟩ := hkept.lower_kept hlo hhi lowered
  intro f hf decl body hdecl himpl
  obtain ⟨decl', hdecl', hk⟩ := hlast f (hall ▸ hf)
  rcases hk with ⟨hsame, link, hlink⟩ | ⟨decl₀, body₀, body', hget, himpl₀, rfl, -, hsim⟩
  · obtain rfl := Option.some.inj (hsame.symm.trans hdecl)
    rw [himpl] at hlink
    cases hlink
  · obtain rfl := Option.some.inj (hget.symm.trans hdecl)
    obtain rfl := FuncDef.present.inj (himpl₀.symm.trans himpl)
    refine ⟨body', hdecl', fun M k => ?_⟩
    obtain ⟨-, -, rows, hstands, -⟩ := (hsound f hf decl₀ body₀ hdecl himpl).placed
    obtain ⟨r, hr, -⟩ := Body.run_ongoing M config.maxSamples hstands.shows
      hstands.valid (listed f hf decl₀ body₀ hdecl himpl) (fun b hb q hq =>
        results f hf decl₀ body₀ hdecl himpl q.2 (Body.has_of_mem hstands.shows hb hq)) k
    obtain ⟨r', hr', hvisited, hnext, heffects⟩ := hsim M k r hr
    exact ⟨r, r', hr, hr', hvisited, hnext, heffects⟩

end Module

namespace Body

theorem sampleFragment_listsReached : sampleFragment.ListsReached := by
  rintro b ⟨ids, hp⟩
  have htargets : ∀ e ∈ sampleFragment.code.blocks.entries, ∀ t ∈ e.2.terminator.targets,
      t ∈ sampleFragment.blocks := by decide
  cases hp with
  | start first =>
    cases first
    decide
  | step path leads =>
    obtain ⟨blk, hblk, hmem⟩ := leads
    exact htargets _ (Defs.mem_entries_of_get? hblk) b hmem

theorem sampleFragment_resultsPure : sampleFragment.ResultsPure := by
  intro i hi
  have hmem := sampleFragment_has hi
  simp only [sampleFragment, List.map_cons, List.map_nil, List.mem_cons, List.not_mem_nil,
    or_false] at hmem
  rcases hmem with rfl | rfl | rfl | rfl | rfl <;> simp [Inst.ResultsPure]

theorem sampleFragment_unmerged : sampleFragment.Unmerged := by
  rintro i hi ⟨set, hset⟩
  have hmem := sampleFragment_has hi
  simp only [sampleFragment, List.map_cons, List.map_nil, List.mem_cons, List.not_mem_nil,
    or_false] at hmem
  rcases hmem with rfl | rfl | rfl | rfl | rfl <;> cases hset

end Body

namespace Module

theorem sampleFragment_lower_faithful : ∃ m' body',
    sampleFragment.lower .eightSamples = .ok (m', .ok true) ∧
    m'.funcs.get? ⟨0⟩ = some ⟨"main", .present body'⟩ ∧
    ∀ (M : Meaning) (k : Nat), ∃ r r', Body.sampleFragment.run M 8 k = some r ∧
      body'.run M 8 k = some r' ∧ r'.visited = r.visited ∧ r'.next = r.next ∧
      SameEffects r.effects r'.effects := by
  obtain ⟨m', hm'⟩ : ∃ m', sampleFragment.lower .eightSamples = .ok (m', .ok true) := ⟨_, rfl⟩
  obtain ⟨body', hbody', hruns⟩ := lower_faithful sampleFragment m' .eightSamples true rfl
    (sampleFragment_every Body.sampleFragment_tidy)
    (sampleFragment_every Body.sampleFragment_listsReached)
    (sampleFragment_every Body.sampleFragment_resultsPure)
    (sampleFragment_every Body.sampleFragment_unmerged) (by decide) (by decide) hm' ⟨0⟩ (by decide)
    ⟨"main", .present .sampleFragment⟩ .sampleFragment rfl rfl
  exact ⟨m', body', hm', hbody', hruns⟩

/-- No input is set, so nothing is discarded and the block is not repeated. -/
example : (Body.sampleFragment.run .lowBits 8 2).map (fun r => (r.visited, r.effects)) =
    some ([⟨1⟩, ⟨0⟩],
      [.write .depth 255 (.truncate .f32 0), .write .stencil 255 (.truncate .u16 7)]) :=
  rfl

end Module

end ShaderIR
