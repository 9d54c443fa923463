import ShaderIR.Proofs.Lower.Commute

/-!
# Where the depth/stencil lowering stops

The lowering of a block goes through it from its end.  It stops at the first store that it meets of
an aspect which it has met before, with the block half done.

* `Body.StoresTwice`: some listed block stores an aspect at least twice.
* `Body.Stopped`, `Module.Stopped`: what a lowering that has stopped leaves.
* `DepthStencil.Lowering`: what the lowering of a function makes of its body.

Principal statements: `Lowering.consolidated` and `Lowering.stopped` (the two ways in which the
lowering of a body ends), `DepthStencil.lowerFuncs_lowers` (functions are lowered up to the first
that stores an aspect twice) and `Module.lowerDepthStencil_stops`.
-/

namespace ShaderIR

/-! ## Bodies -/

namespace Body

/-- Some listed block stores an aspect at least twice. -/
def StoresTwice (body : Body) : Prop :=
  ∃ b ∈ body.blocks, ∃ rows a, body.code.rowsOf b = .ok rows ∧
    2 ≤ (rows.filterMap fun r => r.2.stores?).count a

/-- The lowering of a body has stopped in one of its blocks at an aspect.  The listed blocks before
it have been rewritten, and store no aspect twice; the rows of all others are as they were. -/
structure Stopped (mask : Value) (n : Nat) (a : Aspect) (body body' : Body) : Prop where
  blocks : body'.blocks = body.blocks
  flow : body.code.SameFlow body'.code
  linked : body'.ChainsLinked
  cache : body'.cache = body.cache.preserve .flowOnly
  place : ∃ bs b bs', body.blocks = bs ++ b :: bs' ∧
    (∀ d ∈ bs, ∃ rows out, body.code.rowsOf d = .ok rows ∧ body'.code.rowsOf d = .ok out ∧
      (rows.filterMap fun r => r.2.stores?).Nodup ∧
      DepthStencil.Consolidates body.code mask n rows out) ∧
    (∃ rows out, body.code.rowsOf b = .ok rows ∧ body'.code.rowsOf b = .ok out ∧
      DepthStencil.Halted body.code mask n rows out a) ∧
    ∀ d, d ∉ bs → d ≠ b → body'.code.rowsOf d = body.code.rowsOf d

variable {s : Supply .inst} {body body' : Body} {mask : Value} {n n' : Nat} {a : Aspect}

theorem storesTwice_iff : body.StoresTwice ↔ ¬ body.StoresOnce := by
  constructor
  · rintro ⟨b, hb, rows, a, hrows, hcount⟩ once
    have hle := List.nodup_iff_count_le_one.1 (once b hb rows hrows) a
    omega
  · intro h
    by_contra hnot
    refine h fun b hb rows hrows => List.nodup_iff_count_le_one.2 fun a => ?_
    by_contra hcount
    exact hnot ⟨b, hb, rows, a, hrows, by omega⟩

theorem Stopped.mono (h : body.Stopped mask n a body') (hn : n' ≤ n) :
    body.Stopped mask n' a body' := by
  obtain ⟨bs, b, bs', hblocks, hdone, ⟨rows, out, hrows, hout, hhalted⟩, hrest⟩ := h.place
  refine ⟨h.blocks, h.flow, h.linked, h.cache, bs, b, bs', hblocks, fun d hd => ?_,
    ⟨rows, out, hrows, hout, ?_⟩, hrest⟩
  · obtain ⟨rows, out, hrows, hout, once, conv, z, hconv, hz, e⟩ := hdone d hd
    exact ⟨rows, out, hrows, hout, once, conv, z, fun id => hn.trans (hconv id), hn.trans hz, e⟩
  · obtain ⟨p, r, q, conv, z, hlast, hconv, hz, e⟩ := hhalted
    exact ⟨p, r, q, conv, z, hlast, fun id => hn.trans (hconv id), hn.trans hz, e⟩

theorem Convertible.linked (h : body.Convertible s) : body.Linked s := by
  obtain ⟨rows, hstands, -⟩ := h
  exact ⟨⟨_, hstands.shows.layout⟩, hstands.issued⟩

end Body

namespace DepthStencil

/-- What the lowering makes of a body and returns, for a function of some name: its blocks are
rewritten one after the other, up to the first that stores an aspect twice. -/
structure Lowering (mask : Value) (name : String) (s : Supply .inst) (body : Body)
    (s' : Supply .inst) (body' : Body) (r : Except LowerError Bool) : Prop where
  listed : body.Listed
  ran : ∃ r', r = r'.mapError (.doubleWrite name) ∧ body.Swept (Sweep mask) s s' body' r' ∧
    ∃ rows rows', body.code.Shows rows ∧ body'.code.Shows rows' ∧
      Sweeps (Result body.code mask s.next) body.blocks rows rows' r'

section Lowering

variable {mask : Value} {name : String} {s s' : Supply .inst} {body body' : Body}
  {r : Except LowerError Bool} {changed : Bool} {e : LowerError} {c : Scalar}

theorem Lowering.merging (h : Lowering mask name s body s' body' r) :
    Merging mask name s body s' body' r := by
  obtain ⟨r', hr, hswept, -⟩ := h.ran
  exact ⟨r', hr, hswept⟩

/-- **A body whose lowering goes through** stores no aspect twice, and is rewritten as the reference
has it. -/
theorem Lowering.consolidated (h : Lowering mask name s body s' body' (.ok changed))
    (distinct : body.blocks.Nodup) :
    body.StoresOnce ∧ body.Consolidated mask s.next body' := by
  obtain ⟨r, hr, hswept, rows, rows', hrows, hrows', hsweeps⟩ := h.ran
  cases r with
  | error a => cases hr
  | ok later =>
    obtain ⟨_, _, hrows₀, hd, -⟩ := hswept.rows
    have hresult : ∀ b ∈ body.blocks, ((rows b).filterMap fun r => r.2.stores?).Nodup ∧
        Consolidates body.code mask s.next (rows b) (rows' b) := by
      intro b hb
      obtain ⟨here, hres⟩ := hsweeps.single distinct rfl b hb
      cases hres with
      | merged once consolidates => exact ⟨once, consolidates⟩
    refine ⟨fun b hb rs hrs => ?_, hswept.blocks, hd.flow, ⟨_, hrows'.layout⟩, fun b hb => ?_,
      fun b hb => hd.flow.rowsOf hrows hrows' (hsweeps.others hb)⟩
    · obtain ⟨blk, hblk⟩ := h.listed b hb
      obtain rfl := Except.ok.inj ((hrows.rowsOf hblk).symm.trans hrs)
      exact (hresult b hb).1
    · obtain ⟨blk, hblk⟩ := h.listed b hb
      obtain ⟨blk', hblk', -⟩ := hd.flow.get? hblk
      exact ⟨rows b, rows' b, hrows.rowsOf hblk, hrows'.rowsOf hblk', (hresult b hb).2⟩

/-- **A body whose lowering stops** has a block that stores an aspect twice, and the lowering stops
in the first. -/
theorem Lowering.stopped (h : Lowering mask name s body s' body' (.error e))
    (distinct : body.blocks.Nodup) :
    body.StoresTwice ∧ ∃ a, e = .doubleWrite name a ∧ body.Stopped mask s.next a body' := by
  obtain ⟨r, hr, hswept, rows, rows', hrows, hrows', hsweeps⟩ := h.ran
  cases r with
  | ok later => cases hr
  | error a =>
    cases hr
    obtain ⟨_, _, _, hd, -⟩ := hswept.rows
    obtain ⟨bs, b, bs', rows₁, c, out, hblocks, hbefore, hstop, rfl⟩ := hsweeps.stopped rfl
    rw [hblocks] at distinct
    obtain ⟨hbs, -, hdisjoint⟩ := List.nodup_append.1 distinct
    have hb : b ∉ bs := fun hmem => hdisjoint b hmem b List.mem_cons_self rfl
    rw [hbefore.others hb] at hstop
    have hread : ∀ d ∈ body.blocks, body.code.rowsOf d = .ok (rows d) ∧
        body'.code.rowsOf d = .ok (Function.update rows₁ b out d) := by
      intro d hd'
      obtain ⟨blk, hblk⟩ := h.listed d hd'
      obtain ⟨blk', hblk', -⟩ := hd.flow.get? hblk
      exact ⟨hrows.rowsOf hblk, hrows'.rowsOf hblk'⟩
    have hmem : b ∈ body.blocks := by simp [hblocks]
    cases hstop with
    | halted halted =>
      refine ⟨Body.storesTwice_iff.2 fun once => halted.not_once (once b hmem _ (hread b hmem).1),
        a, rfl, hswept.blocks, hd.flow, ⟨_, hrows'.layout⟩, hswept.cache, bs, b, bs', hblocks,
        fun d hd' => ?_, ⟨rows b, out, (hread b hmem).1, ?_, halted⟩, fun d hd' hne => ?_⟩
      · obtain ⟨hrow, hrow'⟩ := hread d (by simp [hblocks, hd'])
        have hne : d ≠ b := fun e => hb (e ▸ hd')
        rw [Function.update_of_ne hne] at hrow'
        obtain ⟨here, hres⟩ := hbefore.single hbs rfl d hd'
        cases hres with
        | merged once consolidates => exact ⟨_, _, hrow, hrow', once, consolidates⟩
      · rw [(hread b hmem).2, Function.update_self]
      · refine hd.flow.rowsOf hrows hrows' ?_
        rw [Function.update_of_ne hne, hbefore.others hd']

end Lowering

end DepthStencil

/-- **The blocks of a body are lowered one after the other**, up to the first that stores an aspect
twice; where none does, nothing is left to be converted. -/
theorem Body.Convertible.lowerBlocks {s : Supply .inst} {body : Body} {c : Scalar}
    (h : body.Convertible s) (hc : c.ty = .u16) (name : String) : ∃ w r,
      DepthStencil.lowerBlocks (.const (.ofScalar c)) body.blocks (body.workspace s) = .ok (w, r) ∧
      DepthStencil.Lowering (.const (.ofScalar c)) name s body w.fresh
        ({ body with code := w.code }.preserve (DepthStencil.kept r))
        (r.mapError (.doubleWrite name)) ∧
      ∀ changed, r = .ok changed → Body.Convertible w.fresh
        ({ body with code := w.code }.preserve (DepthStencil.kept r)) := by
  have hlinked := h.linked
  obtain ⟨rows, hstands, hconv⟩ := h
  have hty : (Constant.ofScalar c).ty = .u16 := hc
  obtain ⟨w, r, rows', hw, hstands', hsweeps⟩ :=
    DepthStencil.lowerBlocks_results hty rfl rfl body.blocks _ rows (fun _ hb => hb) hstands hconv
  refine ⟨w, r, hw, ⟨fun b hb => hstands.get? rfl hb, r, rfl, hlinked.lowerBlocks hw, rows, rows',
    hstands.shows, hstands'.shows, hsweeps⟩, fun changed hr => ⟨rows', ?_⟩⟩
  have hflow : ({ body with code := w.code }.preserve (DepthStencil.kept r)).flow = body.flow :=
    body.flow_eq hstands'.flow
  have hfree : ∀ b ∈ body.blocks, DepthStencil.StoreFree (rows' b) := by
    refine hsweeps.cleared (fun rs out c hres => ?_) hr
    cases hres with
    | merged _ consolidates => exact consolidates.storeFree
  rw [hflow]
  exact ⟨⟨.refl hstands'.shows hstands'.issued, hstands'.valid⟩,
    DepthStencil.convertible_of_storeFree hfree⟩

/-! ## Modules -/

namespace Module

/-- What the body of a function, if it has one, stores can be converted. -/
def ConvertibleDecl (_ : FuncId) (s : Supply .inst) (decl : FuncDecl) : Prop :=
  ∀ body, decl.impl = .present body → body.Convertible s

theorem convertibleDecl_lasts : Lasts ConvertibleDecl :=
  fun _ _ _ _ hs h body hb => (h body hb).mono hs

/-- The lowering of a module has stopped in one of its functions.  Those before it have been lowered
and store no aspect twice in a block; all others are as they were. -/
structure Stopped (mask : Value) (n : Nat) (e : LowerError) (m m' : Module) : Prop where
  info : m'.info = m.info
  allFuncs : m'.allFuncs = m.allFuncs
  freshFuncs : m'.freshFuncs = m.freshFuncs
  freshBlocks : m'.freshBlocks = m.freshBlocks
  place : ∃ fs f gs decl body body' a, m.allFuncs = fs ++ f :: gs ∧
    (∀ g ∈ fs, ∃ decl decl', m.funcs.get? g = some decl ∧ m'.funcs.get? g = some decl' ∧
      decl.Related (fun body body' => body.StoresOnce ∧ body.Consolidated mask n body') decl') ∧
    (m.funcs.get? f = some decl ∧ decl.impl = .present body ∧ body.StoresTwice ∧
      e = .doubleWrite decl.name a ∧ body.Stopped mask n a body' ∧
      m'.funcs.get? f = some { decl with impl := .present body' }) ∧
    ∀ g, g ∉ fs → g ≠ f → m'.funcs.get? g = m.funcs.get? g

end Module

namespace DepthStencil

open ShaderIR.Module (Walk)

variable {m m' : Module} {fs : List FuncId} {c : Scalar} {mask : Value}
  {r : Except LowerError Bool}

/-- **Functions are lowered one after the other**, up to the first that stores an aspect twice in a
block. -/
theorem lowerFuncs_lowers (hc : c.ty = .u16) : ∀ (fs : List FuncId) (m : Module),
    m.Holds Module.ConvertibleDecl → (∀ f ∈ fs, f ∈ m.allFuncs) → ∃ m' r,
      lowerFuncs (.const (.ofScalar c)) fs m = .ok (m', r) ∧
      Walk (Lowering (.const (.ofScalar c))) fs m m' r
  | [], m, _, _ => ⟨m, .ok false, rfl, .nil⟩
  | f :: fs, m, h, hfs => by
    obtain ⟨hf, hrest⟩ := List.forall_mem_cons.1 hfs
    obtain ⟨decl, hdecl, hconv⟩ := h f hf
    rw [lowerFuncs, lowerFunc, Defs.access_of_get? hdecl, ok_bind]
    cases himpl : decl.impl with
    | imported link =>
      obtain ⟨m', r, hm', hwalk⟩ := lowerFuncs_lowers hc fs m h hrest
      simp only [ok_bind, pure_eq_ok, hm']
      refine ⟨m', r, ?_, .imported hdecl himpl hwalk⟩
      cases r <;> rfl
    | present body =>
      obtain ⟨w, r, hw, hlowering, hnext⟩ := (hconv body himpl).lowerBlocks hc decl.name
      simp only [hw, ok_bind, pure_eq_ok]
      cases r with
      | error a => exact ⟨_, _, rfl, .stop hdecl himpl hlowering⟩
      | ok here =>
        have hle : m.freshInsts.next ≤ w.fresh.next := hlowering.merging.swept.le
        have hbody : Module.ConvertibleDecl f w.fresh { decl with
            impl := .present ({ body with code := w.code }.preserve (kept (.ok here))) } :=
          fun body' hb => FuncDef.present.inj hb ▸ hnext here rfl
        have hholds := h.setBody Module.convertibleDecl_lasts hdecl hle hbody
        obtain ⟨m', r', hm', hwalk⟩ := lowerFuncs_lowers hc fs _ hholds hrest
        refine ⟨m', r'.map (here || ·), ?_, .body hdecl himpl hlowering hwalk⟩
        simp only [Except.mapError, hm', ok_bind]
        cases r' <;> rfl

/-- Functions that are lowered store no aspect twice in a block, and have been rewritten. -/
theorem walk_consolidated {n : Nat} {changed : Bool}
    (h : Walk (Lowering mask) fs m m' (.ok changed)) (hn : n ≤ m.freshInsts.next)
    (distinct : ∀ f ∈ fs, ∀ decl body, m.funcs.get? f = some decl → decl.impl = .present body →
      body.blocks.Nodup) {f : FuncId} (hf : f ∈ fs) {decl : FuncDecl}
    (hdecl : m.funcs.get? f = some decl) : ∃ decl', m'.funcs.get? f = some decl' ∧
      decl.Related (fun body body' => body.StoresOnce ∧ body.Consolidated mask n body') decl' := by
  obtain ⟨decl', hdecl', hrel⟩ := h.single hn
    (fun _ _ _ _ _ _ hQ => hQ.merging.settles) rfl f hf decl hdecl
  refine ⟨decl', hdecl', ?_⟩
  cases hrel with
  | imported imported => exact .imported imported
  | body present related =>
    obtain ⟨s, s', here, hs, hQ⟩ := related
    obtain ⟨once, hcons⟩ := hQ.consolidated (distinct f hf decl _ hdecl present)
    exact .body present ⟨once, hcons.mono hs⟩

/-- **Where the walk through the functions has stopped.** -/
theorem walk_stopped {e : LowerError} (h : Walk (Lowering mask) m.allFuncs m m' (.error e))
    (funcs : m.allFuncs.Nodup) (defined : ∀ f ∈ m.allFuncs, ∃ decl, m.funcs.get? f = some decl)
    (distinct : m.Every fun body => body.blocks.Nodup) :
    m.Stopped mask m.freshInsts.next e m' := by
  have hwhole : m.Related (fun _ _ => True) m' := h.related (Nat.le_refl _) (fun _ => trivial)
    (fun _ _ _ _ _ => trivial) fun _ _ _ _ _ _ _ hQ => ⟨hQ.merging.rewritten.1, trivial⟩
  obtain ⟨fs, f, gs, m₁, c, decl, body, body', s, hall, hbefore, hdecl, himpl, hQ, rfl⟩ :=
    h.stopped rfl
  obtain ⟨hfs, -, hdisjoint⟩ := List.nodup_append.1 (hall ▸ funcs)
  have hf : f ∉ fs := fun hmem => hdisjoint f hmem f List.mem_cons_self rfl
  have hmem : f ∈ m.allFuncs := by simp [hall]
  have hget := Module.get?_setBody hdecl body' s
  have hfirst := hdecl
  rw [hbefore.others hf] at hfirst
  have hle : m.freshInsts.next ≤ m₁.freshInsts.next := (hbefore.related (Nat.le_refl _)
    (R := fun _ _ => True) (fun _ => trivial) (fun _ _ _ _ _ => trivial)
    fun _ _ _ _ _ _ _ hQ => ⟨hQ.merging.rewritten.1, trivial⟩).le
  obtain ⟨htwice, a, ha, hstopped⟩ := hQ.stopped (distinct f hmem decl body hfirst himpl)
  refine ⟨hwhole.info, hwhole.allFuncs, hwhole.freshFuncs, hwhole.freshBlocks, fs, f, gs, decl,
    body, body', a, hall, fun g hg => ?_, ⟨hfirst, himpl, htwice, ha, hstopped.mono hle,
      (hget f).trans (if_pos rfl)⟩, fun g hg hne => ?_⟩
  · have hne : g ≠ f := fun e => hf (e ▸ hg)
    obtain ⟨decl₀, hdecl₀⟩ := defined g (by simp [hall, hg])
    obtain ⟨decl', hdecl', hrel⟩ := walk_consolidated hbefore (Nat.le_refl _)
      (fun g hg decl body => distinct g (by simp [hall, hg]) decl body) hg hdecl₀
    exact ⟨decl₀, decl', hdecl₀, (hget g).trans ((if_neg hne).trans hdecl'), hrel⟩
  · exact (hget g).trans ((if_neg hne).trans (hbefore.others hg))

end DepthStencil

namespace Module

/-- **When the lowering of depth and stencil stores stops, and what it leaves.**  Let a module be
valid, with linked chains, identities that the supply has given away, no result of a store, and each
function and block listed once, and let it declare a depth or stencil output.  Then the lowering
stops if and only if some listed block of some function stores an aspect at least twice.  It
reports the first such function and, for its first such block, the aspect of the last store that is
followed in the block by another store of that aspect.  All functions and blocks before have been
lowered by then, without any of their blocks storing an aspect twice.  In the block itself, the
stores after that store have been merged and removed; the store and all rows before it are kept,
with nothing new but the conversion of its value.  All else is as it was. -/
theorem lowerDepthStencil_stops (m : Module) (config : LowerConfig)
    (valid : m.firstViolation = .ok none) (linked : m.Every Body.ChainsLinked)
    (issued : m.Every fun body => (body.workspace m.freshInsts).Issued)
    (untyped : m.Every Body.StoresUntyped) (funcs : m.allFuncs.Nodup)
    (distinct : m.Every fun body => body.blocks.Nodup)
    (declared : m.info.outputs.intersects .depthStencil = true)
    (hlo : 1 ≤ config.maxSamples) (hhi : config.maxSamples ≤ 16) :
    ∃ m' r, ∃ all : Scalar, m.lowerDepthStencil config = .ok (m', r) ∧
      all.ty = .u16 ∧ all.bits = 2 ^ config.maxSamples - 1 ∧
      ((∃ e, r = .error e) ↔ m.Some Body.StoresTwice m.allFuncs) ∧
      ∀ e, r = .error e → m.Stopped (.const (.ofScalar all)) m.freshInsts.next e m' := by
  have hholds : m.Holds ConvertibleDecl := by
    intro f hf
    obtain ⟨decl, hdecl, hdefect⟩ := firstViolation_eq_none_iff.1 valid f hf
    exact ⟨decl, hdecl, fun body hb => Body.convertible_of_valid
      (linked f hf decl body hdecl hb) (issued f hf decl body hdecl hb) (hdefect body hb)
      (untyped f hf decl body hdecl hb)⟩
  have hdefined : ∀ f ∈ m.allFuncs, ∃ decl, m.funcs.get? f = some decl :=
    fun f hf => (hholds f hf).imp fun _ h => h.1
  obtain ⟨all, hall, hbits, hmask⟩ := config.allSamplesValue_eq hlo hhi
  obtain ⟨m', r, hm', hwalk⟩ :=
    DepthStencil.lowerFuncs_lowers hall m.allFuncs m hholds fun _ hf => hf
  refine ⟨m', r, all, ?_, hall, hbits, ⟨?_, fun hsome => ?_⟩, fun e he => ?_⟩
  · rw [lowerDepthStencil, if_pos declared, hmask, ok_bind, hm']
  · rintro ⟨e, rfl⟩
    obtain ⟨fs, f, gs, decl, body, -, -, hsplit, -, ⟨hdecl, himpl, htwice, -⟩, -⟩ :=
      (DepthStencil.walk_stopped hwalk funcs hdefined distinct).place
    exact ⟨f, by simp [hsplit], decl, body, hdecl, himpl, htwice⟩
  · cases r with
    | error e => exact ⟨e, rfl⟩
    | ok changed =>
      obtain ⟨f, hf, decl, body, hdecl, himpl, htwice⟩ := hsome
      obtain ⟨decl', -, hrel⟩ :=
        DepthStencil.walk_consolidated hwalk (Nat.le_refl _) distinct hf hdecl
      obtain ⟨body', -, once, -⟩ := hrel.present himpl
      exact absurd once (Body.storesTwice_iff.1 htwice)
  · subst he
    exact DepthStencil.walk_stopped hwalk funcs hdefined distinct

end Module

/-- A block that stores depth, stencil, and depth again. -/
def Body.sampleTwice : Body where
  code :=
    { blocks := ⟨[(⟨0⟩, ⟨.ofList [⟨0⟩, ⟨1⟩, ⟨2⟩, ⟨3⟩], .ret⟩)]⟩
      insts := ⟨[
        (⟨0⟩, ⟨none, some ⟨1⟩, ⟨.intrinsic (.loadInput 0), [], some .f16⟩⟩),
        (⟨1⟩, ⟨some ⟨0⟩, some ⟨2⟩,
          ⟨.intrinsic (.storeOutput (.ofSlot .depth)), [.result ⟨0⟩], none⟩⟩),
        (⟨2⟩, ⟨some ⟨1⟩, some ⟨3⟩, ⟨.intrinsic (.storeOutput (.ofSlot .stencil)),
          [.const (.ofScalar (.truncate .u16 7))], none⟩⟩),
        (⟨3⟩, ⟨some ⟨2⟩, none,
          ⟨.intrinsic (.storeOutput (.ofSlot .depth)), [.result ⟨0⟩], none⟩⟩)]⟩ }
  blocks := [⟨0⟩]
  cache := .empty

theorem Body.sampleTwice_linked : sampleTwice.ChainsLinked :=
  ⟨_, Code.layout_of_single rfl ⟨⟨_, rfl⟩, ⟨_, rfl⟩, ⟨_, rfl⟩, ⟨_, rfl⟩, trivial⟩ (by decide)⟩

/-- A fragment shader that writes the depth twice. -/
def Module.sampleTwice : Module where
  info := ⟨.fragment, .depthStencil, false⟩
  funcs := ⟨[(⟨0⟩, ⟨"main", .present .sampleTwice⟩)]⟩
  allFuncs := [⟨0⟩]
  freshFuncs := ⟨1⟩
  freshBlocks := ⟨1⟩
  freshInsts := ⟨4⟩

namespace Module

theorem sampleTwice_every {P : Body → Prop} (h : P .sampleTwice) : sampleTwice.Every P := by
  intro f hf decl body hdecl himpl
  obtain rfl := List.mem_singleton.1 hf
  cases hdecl
  cases himpl
  exact h

/-- The later depth and the stencil are merged; the depth that was stored first is reported. -/
theorem sampleTwice_lowerDepthStencil_stops : ∃ m' all,
    sampleTwice.lowerDepthStencil .eightSamples = .ok (m', .error (.doubleWrite "main" .depth)) ∧
    sampleTwice.Some Body.StoresTwice sampleTwice.allFuncs ∧
    sampleTwice.Stopped (.const (.ofScalar all)) 4 (.doubleWrite "main" .depth) m' := by
  have issued : (Body.sampleTwice.workspace ⟨4⟩).Issued := by
    have hall : ∀ e ∈ Body.sampleTwice.code.insts.entries, e.1.index < 4 := by decide
    exact fun id n hn => hall _ (Defs.mem_entries_of_get? hn)
  have untyped : Body.sampleTwice.StoresUntyped := by
    have hall : ∀ e ∈ Body.sampleTwice.code.insts.entries,
        e.2.val.stores? ≠ none → e.2.val.ty = none := by decide
    rintro i ⟨b, hb, ids, hids, id, hid, hi⟩
    obtain ⟨n, hn, he⟩ := bind_eq_ok.1 hi
    cases he
    exact hall _ (Defs.mem_entries_of_get? (Defs.find_eq_ok.1 hn))
  obtain ⟨m', r, all, hm', -, -, hiff, hstops⟩ :=
    lowerDepthStencil_stops sampleTwice .eightSamples rfl
      (sampleTwice_every Body.sampleTwice_linked) (sampleTwice_every issued)
      (sampleTwice_every untyped) (by decide) (sampleTwice_every (by decide)) (by decide)
      (by decide) (by decide)
  obtain ⟨m'', hm''⟩ : ∃ m', sampleTwice.lowerDepthStencil .eightSamples =
      .ok (m', .error (.doubleWrite "main" .depth)) := ⟨_, rfl⟩
  rw [hm''] at hm'
  cases hm'
  exact ⟨m', all, hm'', hiff.1 ⟨_, rfl⟩, hstops _ rfl⟩

/-- What is left of the block: the conversion for the store that is reported, that store, the
conversion for the later one, and the combined write. -/
example : (do
    let (m, _) ← sampleTwice.lowerDepthStencil .eightSamples
    let decl ← m.funcs.find ⟨0⟩
    match decl.impl with
    | .present body => body.code.instsOf ⟨0⟩
    | .imported _ => return []) = .ok [⟨0⟩, ⟨6⟩, ⟨1⟩, ⟨4⟩, ⟨5⟩] := rfl

end Module

end ShaderIR
