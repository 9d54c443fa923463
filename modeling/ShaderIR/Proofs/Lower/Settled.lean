import ShaderIR.Proofs.Lower.Passes

/-!
# What has been lowered stays as it is

A pass that meets nothing to lower reads the code and changes none of it.

* `Module.Ready`, `Module.Listed`: functions are defined, and something holds of all their bodies;
  here, that all listed blocks are defined.
* `Module.WalkableDecl`: a walk over the instructions of a function can be made.

Principal statements: `Module.lowerDepthStencil_idle` and `Module.lowerDiscard_idle` (a pass
returns, and changes nothing, where there is nothing to lower), `Module.lowerDepthStencil_listed`
and `Module.lowerDiscard_listed` (where a pass has been, all blocks are defined),
`Module.lower_settles` (lowering says whether it has changed anything, and has nothing to do the
second time).
-/

namespace ShaderIR

theorem Inst.IsDiscard.not_stores {i : Inst} (h : i.IsDiscard) : ¬ i.Stores := by
  rcases h with h | h <;> simp [Inst.Stores, Inst.stores?, h]

/-- Where a pass has been, all listed blocks are defined. -/
theorem Body.Swept.listed_after {ε : Type} {B : Nat → List Row → List Row → Except ε Bool → Prop}
    {s s' : Supply .inst} {body body' : Body} {c : Bool} (h : Swept B s body s' body' (.ok c)) :
    body'.Listed := by
  obtain ⟨_, _, _, hd, _⟩ := h.rows
  exact fun b hb => hd.flow.defined (h.listed c rfl b (h.blocks ▸ hb))

section Idle

variable {w : Workspace} {rows : BlockId → List Row} {b : BlockId} {mask all nothing : Value}
  {p s : List Row} {t : Option InstId} {n : Nat}

namespace DepthStencil

theorem lowerSegment_idle (h : w.code.Shows rows) (hb : rows b = p ++ s) (hfree : StoreFree p)
    (hn : p.length < n) :
    lowerSegment mask b n (.ofList (p.map Prod.fst)) t w = .ok (w, .ok t.isSome) := by
  induction n generalizing p s with
  | zero => omega
  | succ n ih =>
    rcases List.eq_nil_or_concat p with rfl | ⟨p, r, rfl⟩
    · rfl
    rw [List.concat_eq_append] at *
    have hsplit : rows b = p ++ r :: s := by simpa using hb
    have hinst : w.code.inst r.1 = .ok r.2 := h.inst (b := b) (by simp [hsplit])
    have hother : r.2.stores? = none := hfree r (by simp)
    rw [lowerSegment, h.popBack hsplit]
    simp only [ok_bind, hinst, hother]
    simp only [List.length_append, List.length_singleton] at hn
    exact ih hsplit (fun q hq => hfree q (by simp [hq])) (by omega)

theorem lowerBlocks_idle (mask : Value) (h : w.code.Shows rows) (bs : List BlockId)
    (hdef : ∀ b ∈ bs, ∃ blk, w.code.blocks.get? b = some blk)
    (hfree : ∀ b ∈ bs, StoreFree (rows b)) : lowerBlocks mask bs w = .ok (w, .ok false) := by
  induction bs with
  | nil => rfl
  | cons b bs ih =>
    obtain ⟨⟨blk, hblk⟩, hdef⟩ := List.forall_mem_cons.1 hdef
    obtain ⟨hb, hfree⟩ := List.forall_mem_cons.1 hfree
    have hblock : lowerBlock mask b w = .ok (w, .ok false) := by
      unfold lowerBlock
      rw [Defs.find_of_get? hblk, ok_bind, h.segment hblk]
      exact lowerSegment_idle h (List.append_nil _).symm hb (h.length_lt_visitBound b)
    simp only [lowerBlocks, hblock, ok_bind, ih hdef hfree, Bool.or_self, pure_eq_ok]

end DepthStencil

namespace Discard

theorem keepsRows_idle (h : w.code.Shows rows) :
    (edit all nothing).KeepsRows b fun p s changed _ w' =>
      rows b = p ++ s ∧ DiscardFree s ∧ changed = false ∧ w' = w where
  shown := by
    rintro p s _ ⟨⟩ _ ⟨hb, -, -, rfl⟩
    exact ⟨rows, h, hb⟩
  step := by
    rintro p r s _ ⟨⟩ w' ⟨hb, hfree, rfl, rfl⟩
    obtain ⟨hr, hfree⟩ := discardFree_cons.1 hfree
    have hinst : w'.code.inst r.1 = .ok r.2 := h.inst (b := b) (by simp [hb])
    exact ⟨[r], false, (), _, edit_of_not hinst hr, by simpa using hb, hfree, rfl, rfl⟩

theorem inBlocks_idle (all nothing : Value) (h : w.code.Shows rows) (bs : List BlockId)
    (hdef : ∀ b ∈ bs, ∃ blk, w.code.blocks.get? b = some blk)
    (hfree : ∀ b ∈ bs, DiscardFree (rows b)) :
    (edit all nothing).inBlocks bs () w = .ok (false, (), w) := by
  have hkeeps : (edit all nothing).KeepsBlocks fun bs changed _ w' =>
      (∀ b ∈ bs, (∃ blk, w.code.blocks.get? b = some blk) ∧ DiscardFree (rows b)) ∧
        changed = false ∧ w' = w := by
    rintro b bs _ ⟨⟩ _ ⟨hbs, rfl, rfl⟩
    obtain ⟨⟨hblk, hfree⟩, hbs⟩ := List.forall_mem_cons.1 hbs
    obtain ⟨_, ⟨⟩, _, out, hrun, -, -, rfl, rfl⟩ :=
      (keepsRows_idle h).inBlock h hblk () ⟨rfl, hfree, rfl, rfl⟩
    exact ⟨false, (), _, hrun, hbs, rfl, rfl⟩
  obtain ⟨_, ⟨⟩, _, hrun, -, rfl, rfl⟩ :=
    hkeeps.inBlocks () w ⟨fun b hb => ⟨hdef b hb, hfree b hb⟩, rfl, rfl⟩
  exact hrun

end Discard

end Idle

namespace Module

variable {m m' : Module} {mask all nothing : Value} {fs : List FuncId} {config : LowerConfig}
  {P : Body → Prop}

/-- Some functions are defined, and something holds of their bodies. -/
def Ready (P : Body → Prop) (fs : List FuncId) (m : Module) : Prop :=
  ∀ f ∈ fs, ∃ decl, m.funcs.get? f = some decl ∧ ∀ body, decl.impl = .present body → P body

theorem Same.ready (h : m.Same m') (hm : m.Ready P fs) : m'.Ready P fs := by
  intro f hf
  rw [h.funcs f]
  exact hm f hf

/-- A body that is not changed is put back as it is. -/
theorem setBody_preserve {f : FuncId} {decl : FuncDecl} {body : Body}
    (defined : m.funcs.get? f = some decl) (present : decl.impl = .present body) :
    m.Same { m.setBody f decl ({ body with code := (body.workspace m.freshInsts).code }.preserve
      .full) with freshInsts := (body.workspace m.freshInsts).fresh } :=
  Same.setBody defined present

theorem lowerFuncs_idle (h : m.Ready (fun body => body.ChainsLinked ∧ body.Listed ∧
      body.Free Inst.Stores) fs) :
    ∃ m', DepthStencil.lowerFuncs mask fs m = .ok (m', .ok false) ∧ m.Same m' := by
  induction fs generalizing m with
  | nil => exact ⟨m, rfl, .refl m⟩
  | cons f fs ih =>
    obtain ⟨⟨decl, hdecl, hbody⟩, hrest⟩ := List.forall_mem_cons.1 h
    obtain ⟨m₁, hm₁, hsame₁⟩ : ∃ m₁, DepthStencil.lowerFunc mask f m = .ok (m₁, .ok false) ∧
        m.Same m₁ := by
      unfold DepthStencil.lowerFunc
      rw [Defs.access_of_get? hdecl, ok_bind]
      cases himpl : decl.impl with
      | imported link => exact ⟨m, rfl, .refl m⟩
      | present body =>
        obtain ⟨hlinked, hlisted, hfree⟩ := hbody body himpl
        obtain ⟨rows, hrows⟩ := hlinked.exists_shows
        have hidle := DepthStencil.lowerBlocks_idle mask
          (w := body.workspace m.freshInsts) hrows body.blocks hlisted
          fun b hb => DepthStencil.storeFree_iff.2 ((Body.free_iff hrows).1 hfree b hb)
        simp only [hidle, ok_bind]
        exact ⟨_, rfl, setBody_preserve hdecl himpl⟩
    obtain ⟨m₂, hm₂, hsame₂⟩ := ih (hsame₁.ready hrest)
    refine ⟨m₂, ?_, hsame₁.trans hsame₂⟩
    simp only [DepthStencil.lowerFuncs, hm₁, ok_bind, hm₂, Bool.or_self, pure_eq_ok]

theorem editFuncs_idle (all nothing : Value)
    (h : m.Ready (fun body => body.ChainsLinked ∧ body.Listed ∧ body.Free Inst.IsDiscard) fs) :
    ∃ m', m.editFuncs .flowOnly (Discard.edit all nothing) fs () = .ok (false, (), m') ∧
      m.Same m' := by
  induction fs generalizing m with
  | nil => exact ⟨m, rfl, .refl m⟩
  | cons f fs ih =>
    obtain ⟨⟨decl, hdecl, hbody⟩, hrest⟩ := List.forall_mem_cons.1 h
    obtain ⟨m₁, hm₁, hsame₁⟩ : ∃ m₁,
        m.editFunc .flowOnly (Discard.edit all nothing) f () = .ok (false, (), m₁) ∧
        m.Same m₁ := by
      unfold editFunc
      rw [Defs.access_of_get? hdecl, ok_bind]
      cases himpl : decl.impl with
      | imported link => exact ⟨m, rfl, .refl m⟩
      | present body =>
        obtain ⟨hlinked, hlisted, hfree⟩ := hbody body himpl
        obtain ⟨rows, hrows⟩ := hlinked.exists_shows
        have hidle := Discard.inBlocks_idle all nothing
          (w := body.workspace m.freshInsts) hrows body.blocks hlisted
          fun b hb => (Body.free_iff hrows).1 hfree b hb
        simp only [hidle, ok_bind]
        exact ⟨_, rfl, setBody_preserve hdecl himpl⟩
    obtain ⟨m₂, hm₂, hsame₂⟩ := ih (hsame₁.ready hrest)
    refine ⟨m₂, ?_, hsame₁.trans hsame₂⟩
    simp only [editFuncs, hm₁, ok_bind, hm₂, Bool.or_self, pure_eq_ok]

/-- Where a pass has been, all functions are defined, and something holds of their bodies. -/
theorem Walk.ready
    {Q : String → Supply .inst → Body → Supply .inst → Body → Except LowerError Bool → Prop}
    {c : Bool} (h : Walk Q fs m m' (.ok c))
    (step : ∀ name s body s' body' c, Q name s body s' body' (.ok c) → P body') :
    m'.Ready P fs := by
  intro f hf
  obtain ⟨decl, hdecl⟩ := h.defined rfl f hf
  exact ⟨decl, hdecl, fun body himpl => h.cleared step rfl f hf decl body hdecl himpl⟩

/-- All functions that are handled are defined, and so are all listed blocks of theirs. -/
def Listed (m : Module) : Prop := m.Ready Body.Listed m.allFuncs

/-- The body of a function, if it has one, can be gone through, and something holds of it. -/
def WalkableDecl (P : Body → Prop) (_ : FuncId) (s : Supply .inst) (decl : FuncDecl) : Prop :=
  ∀ body, decl.impl = .present body → body.Linked s ∧ body.Listed ∧ P body

theorem walkableDecl_lasts (P : Body → Prop) : Lasts (WalkableDecl P) := by
  intro f s s' decl hs h body hb
  obtain ⟨hlinked, hrest⟩ := h body hb
  exact ⟨hlinked.mono hs, hrest⟩

theorem holds_walkableDecl (linked : m.Linked m.allFuncs) (listed : m.Listed) (h : m.Every P) :
    m.Holds (WalkableDecl P) := by
  intro f hf
  obtain ⟨decl, hdecl, hbody⟩ := listed f hf
  exact ⟨decl, hdecl, fun body himpl =>
    ⟨linked f hf decl body hdecl himpl, hbody body himpl, h f hf decl body hdecl himpl⟩⟩

theorem lowerDepthStencil_listed {c : Bool} (h : m.Linked m.allFuncs)
    (hrun : m.lowerDepthStencil config = .ok (m', .ok c))
    (hwrites : m.info.outputs.intersects .depthStencil = true) : m'.Listed := by
  have hall := (lowerDepthStencil_rewritten h hrun).1.allFuncs
  rcases lowerDepthStencil_ran h hrun with ⟨hnot, -⟩ | ⟨-, mask, -, hwalk⟩
  · rw [hnot] at hwrites
    cases hwrites
  · unfold Listed
    rw [hall]
    exact hwalk.ready fun name s body s' body' c hQ => hQ.swept.listed_after

theorem lowerDiscard_listed {changed : Bool} (h : m.Linked m.allFuncs)
    (hrun : m.lowerDiscard config = .ok (m', changed)) (huses : m.info.usesDiscard = true) :
    m'.Listed := by
  have hall := (lowerDiscard_rewritten h hrun).1.allFuncs
  rcases lowerDiscard_ran h hrun with ⟨hnot, -⟩ | ⟨-, all, nothing, -, -, hwalk⟩
  · rw [hnot] at huses
    cases huses
  · unfold Listed
    rw [hall]
    exact hwalk.ready fun name s body s' body' c hQ => hQ.listed_after

/-- What is ready for a pass that is to find nothing. -/
theorem Listed.ready (h : m.Listed) (hlinked : m.Linked m.allFuncs) {P : Inst → Prop}
    (hfree : m.Free P) :
    m.Ready (fun body => body.ChainsLinked ∧ body.Listed ∧ body.Free P) m.allFuncs := by
  intro f hf
  obtain ⟨decl, hdecl, hlisted⟩ := h f hf
  exact ⟨decl, hdecl, fun body himpl => ⟨(hlinked f hf decl body hdecl himpl).chains,
    hlisted body himpl, hfree f hf decl body hdecl himpl⟩⟩

/-- **Where no store is left, the depth/stencil lowering changes nothing.** -/
theorem lowerDepthStencil_idle (h : m.Linked m.allFuncs) (hlo : 1 ≤ config.maxSamples)
    (hhi : config.maxSamples ≤ 16)
    (hready : m.info.outputs.intersects .depthStencil = true → m.Listed ∧ m.Free Inst.Stores) :
    ∃ m', m.lowerDepthStencil config = .ok (m', .ok false) ∧ m.Same m' := by
  unfold lowerDepthStencil
  split
  · rename_i hwrites
    obtain ⟨hlisted, hfree⟩ := hready hwrites
    obtain ⟨c, -, -, hmask⟩ := config.allSamplesValue_eq hlo hhi
    rw [hmask, ok_bind]
    exact lowerFuncs_idle (hlisted.ready h hfree)
  · exact ⟨m, rfl, .refl m⟩

/-- **Where no discard is left, the discard lowering changes nothing.** -/
theorem lowerDiscard_idle (h : m.Linked m.allFuncs) (hlo : 1 ≤ config.maxSamples)
    (hhi : config.maxSamples ≤ 16)
    (hready : m.info.usesDiscard = true → m.Listed ∧ m.Free Inst.IsDiscard) :
    ∃ m', m.lowerDiscard config = .ok (m', false) ∧ m.Same m' := by
  unfold lowerDiscard
  split
  · rename_i huses
    obtain ⟨hlisted, hfree⟩ := hready huses
    obtain ⟨c, -, -, hmask⟩ := config.allSamplesValue_eq hlo hhi
    have hnothing : Constant.ofUnsigned .u16 0 = .ok (.ofScalar (.truncate .u16 0)) := rfl
    obtain ⟨m', hm', hsame⟩ := editFuncs_idle (.const (.ofScalar c))
      (.const (.ofScalar (.truncate .u16 0))) (hlisted.ready h hfree)
    refine ⟨m', ?_, hsame⟩
    rw [hmask, ok_bind, hnothing, ok_bind, Module.edit, hm']
    rfl
  · exact ⟨m, rfl, .refl m⟩

theorem lowerDepthStencil_same (h : m.Linked m.allFuncs)
    (hrun : m.lowerDepthStencil config = .ok (m', .ok false)) : m.Same m' := by
  rcases lowerDepthStencil_ran h hrun with ⟨-, rfl, -⟩ | ⟨-, mask, -, hwalk⟩
  · exact .refl _
  · exact hwalk.same (fun name s body s' body' hQ => hQ.swept.same rfl) rfl

theorem lowerDiscard_same (h : m.Linked m.allFuncs)
    (hrun : m.lowerDiscard config = .ok (m', false)) : m.Same m' := by
  rcases lowerDiscard_ran h hrun with ⟨-, rfl, -⟩ | ⟨-, all, nothing, -, -, hwalk⟩
  · exact .refl _
  · exact hwalk.same (fun name s body s' body' hQ => hQ.same rfl) rfl

theorem Same.linked (h : m.Same m') (hm : m.Linked m.allFuncs) : m'.Linked m'.allFuncs := by
  intro f hf decl body hdecl himpl
  rw [h.freshInsts]
  rw [h.allFuncs] at hf
  rw [h.funcs f] at hdecl
  exact hm f hf decl body hdecl himpl

theorem Same.free {P : Inst → Prop} (h : m.Same m') (hm : m.Free P) : m'.Free P := by
  intro f hf decl body hdecl himpl
  rw [h.allFuncs] at hf
  rw [h.funcs f] at hdecl
  exact hm f hf decl body hdecl himpl

theorem Same.listed (h : m.Same m') (hm : m.Listed) : m'.Listed := by
  unfold Listed
  rw [h.allFuncs]
  exact h.ready hm

/-- A lowering does not touch what it does not take away. -/
theorem Rewritten.free_iff {lowers P : Inst → Prop} {n : Nat} (h : m.Rewritten lowers n m')
    (hm : m.Linked m.allFuncs) (hP : ∀ i, P i → i.IsLowered) (hother : ∀ i, P i → ¬ lowers i) :
    m'.Free P ↔ m.Free P := by
  refine ⟨fun hfree f hf decl body hdecl himpl => ?_, h.free hm hP⟩
  obtain ⟨body', hdecl', hR⟩ := h.exists_after hdecl himpl
  have hbody := hR (hm f hf decl body hdecl himpl).chains
  exact (hbody.free_iff hP hother).1 (hfree f (h.allFuncs ▸ hf) _ body' hdecl' rfl)

theorem lowerDepthStencil_changed {c : Bool} (h : m.Linked m.allFuncs)
    (hrun : m.lowerDepthStencil config = .ok (m', .ok c)) :
    c = true ↔ m.info.outputs.intersects .depthStencil = true ∧ ¬ m.Free Inst.Stores := by
  cases hwrites : m.info.outputs.intersects .depthStencil with
  | true => simp [(lowerDepthStencil_free h hrun hwrites).2]
  | false =>
    unfold lowerDepthStencil at hrun
    rw [hwrites, if_neg Bool.false_ne_true] at hrun
    cases hrun
    simp

theorem lowerDiscard_changed {changed : Bool} (h : m.Linked m.allFuncs)
    (hrun : m.lowerDiscard config = .ok (m', changed)) :
    changed = true ↔ m.info.usesDiscard = true ∧ ¬ m.Free Inst.IsDiscard := by
  cases huses : m.info.usesDiscard with
  | true => simp [(lowerDiscard_free h hrun huses).2]
  | false =>
    unfold lowerDiscard at hrun
    rw [huses, if_neg Bool.false_ne_true] at hrun
    cases hrun
    simp

/-- Only a fragment shader is lowered. -/
theorem lower_stage {c : Bool} (hrun : m.lower config = .ok (m', .ok c)) :
    m.info.stage = .fragment := by
  unfold lower at hrun
  split at hrun
  · assumption
  · cases hrun

/-- A lowering that goes through is the one lowering and then the other. -/
theorem lower_steps {c : Bool} (h : m.Linked m.allFuncs)
    (hrun : m.lower config = .ok (m', .ok c)) : ∃ m₁ merged discarded,
      m.lowerDepthStencil config = .ok (m₁, .ok merged) ∧
      m₁.lowerDiscard config = .ok (m', discarded) ∧ c = (merged || discarded) ∧
      m.Rewritten Inst.Stores m.freshInsts.next m₁ ∧ m₁.Linked m₁.allFuncs := by
  rcases lower_ran hrun with ⟨-, hr⟩ | ⟨e, hr, -⟩ | ⟨m₁, merged, discarded, hmerge, hdiscard, hr⟩
  · cases hr
  · cases hr
  · obtain ⟨hR, hlinked⟩ := lowerDepthStencil_rewritten h hmerge
    exact ⟨m₁, merged, discarded, hmerge, hdiscard, Except.ok.inj hr, hR,
      hlinked _ (hR.allFuncs ▸ h)⟩

theorem lower_listed {c : Bool} (h : m.Linked m.allFuncs)
    (hrun : m.lower config = .ok (m', .ok c))
    (hlowers : m.info.outputs.intersects .depthStencil = true ∨ m.info.usesDiscard = true) :
    m'.Listed := by
  obtain ⟨m₁, merged, discarded, hmerge, hdiscard, -, hR, h₁⟩ := lower_steps h hrun
  cases huses : m.info.usesDiscard with
  | true => exact lowerDiscard_listed h₁ hdiscard (hR.info ▸ huses)
  | false =>
    -- the discards are left alone, so it is the stores that have been gone through
    have hwrites := hlowers.resolve_right (by simp [huses])
    rcases lowerDiscard_ran h₁ hdiscard with ⟨-, rfl, -⟩ | ⟨huses₁, -⟩
    · exact lowerDepthStencil_listed h hmerge hwrites
    · rw [hR.info, huses] at huses₁
      cases huses₁

/-- **Lowering says whether it has changed anything, and has nothing to do the second time.**  Let
the bodies of a module be linked, and let its lowering go through.  Then it says that it has changed
something if and only if there was a store to the depth or stencil output and the module declares
one, or a discard and the module declares that.  Of what is declared, nothing is left.  If it says
that nothing has changed, then that is so, of bodies and of analyses.  To lower the module again,
for any target, changes nothing. -/
theorem lower_settles (m m' : Module) (config : LowerConfig) (changed : Bool)
    (linked : m.Linked m.allFuncs) (run : m.lower config = .ok (m', .ok changed)) :
    (changed = true ↔
      (m.info.outputs.intersects .depthStencil = true ∧ ¬ m.Free Inst.Stores) ∨
      (m.info.usesDiscard = true ∧ ¬ m.Free Inst.IsDiscard)) ∧
    (m.info.outputs.intersects .depthStencil = true → m'.Free Inst.Stores) ∧
    (m.info.usesDiscard = true → m'.Free Inst.IsDiscard) ∧
    (changed = false → m.Same m') ∧
    ∀ config' : LowerConfig, 1 ≤ config'.maxSamples → config'.maxSamples ≤ 16 →
      ∃ m'', m'.lower config' = .ok (m'', .ok false) ∧ m'.Same m'' := by
  obtain ⟨hR', hlinked', hfree⟩ := lower_rewritten linked run
  obtain ⟨hstores, hdiscards⟩ := hfree changed rfl
  have h' : m'.Linked m'.allFuncs := hlinked' _ (hR'.allFuncs ▸ linked)
  refine ⟨?_, hstores, hdiscards, ?_, fun config' hlo hhi => ?_⟩
  · obtain ⟨m₁, merged, discarded, hmerge, hdiscard, rfl, hR, h₁⟩ := lower_steps linked run
    -- the stores are gone by then, but all discards are still there
    have hsame : m₁.Free Inst.IsDiscard ↔ m.Free Inst.IsDiscard :=
      hR.free_iff linked (fun _ => .inr) fun _ hi => hi.not_stores
    rw [Bool.or_eq_true, lowerDepthStencil_changed linked hmerge,
      lowerDiscard_changed h₁ hdiscard, hR.info, hsame]
  · intro hchanged
    obtain ⟨m₁, merged, discarded, hmerge, hdiscard, rfl, -, h₁⟩ := lower_steps linked run
    obtain ⟨rfl, rfl⟩ := Bool.or_eq_false_iff.1 hchanged
    exact (lowerDepthStencil_same linked hmerge).trans (lowerDiscard_same h₁ hdiscard)
  · obtain ⟨m₁, hm₁, hsame₁⟩ := lowerDepthStencil_idle h' hlo hhi fun hwrites => by
      rw [hR'.info] at hwrites
      exact ⟨lower_listed linked run (.inl hwrites), hstores hwrites⟩
    obtain ⟨m₂, hm₂, hsame₂⟩ := lowerDiscard_idle (hsame₁.linked h') hlo hhi fun huses => by
      rw [hsame₁.info, hR'.info] at huses
      exact ⟨hsame₁.listed (lower_listed linked run (.inr huses)), hsame₁.free (hdiscards huses)⟩
    refine ⟨m₂, ?_, hsame₁.trans hsame₂⟩
    have hstage : m'.info.stage = .fragment := hR'.info ▸ lower_stage run
    simp only [Module.lower, hstage, if_true, hm₁, ok_bind, hm₂, Bool.or_self, pure_eq_ok]

theorem sampleFragment_linked : sampleFragment.Linked sampleFragment.allFuncs :=
  sampleFragment_every (P := Body.Linked ⟨5⟩)
    ⟨Body.sampleFragment_tidy.linked, Body.sampleFragment_tidy.issued⟩

/-- The sample is lowered for eight samples, and then again for a single one. -/
theorem sampleFragment_lower_settles : ∃ m' m'',
    sampleFragment.lower .eightSamples = .ok (m', .ok true) ∧
    m'.lower ⟨1⟩ = .ok (m'', .ok false) ∧ m'.Same m'' := by
  obtain ⟨m', hm'⟩ : ∃ m', sampleFragment.lower .eightSamples = .ok (m', .ok true) := ⟨_, rfl⟩
  obtain ⟨-, -, -, -, hagain⟩ :=
    lower_settles sampleFragment m' .eightSamples true sampleFragment_linked hm'
  obtain ⟨m'', hm'', hsame⟩ := hagain ⟨1⟩ (by decide) (by decide)
  exact ⟨m', m'', hm', hm'', hsame⟩

end Module

end ShaderIR
