import ShaderIR.Proofs.Lower.Reference
import ShaderIR.Proofs.Lower.Sweep

/-!
# The depth/stencil lowering of a module, told forwards

* `Flow.Convertible`, `Body.Convertible`: what is stored in the listed blocks can be converted.
* `Flow.Mergeable`, `Body.Mergeable`: and the stores of all listed blocks can be merged.
* `Body.StoresUntyped`, `Body.StoresOnce`: what is asked of the stores of a body.
* `Body.Consolidated`, `Module.Consolidated`: the listed blocks have been rewritten as the reference
  has it, and nothing else has changed.

Principal statements: `DepthStencil.lowerBlocks_results` (what the lowering makes of the blocks of
a function), `DepthStencil.lowerBlocks_consolidates` (the stores are merged as the reference has it)
and `Module.lowerDepthStencil_reference` (so are those of all functions).
-/

namespace ShaderIR

/-! ## Functions -/

/-- The stores in the listed blocks have no result, and what they store is there, with the type that
some code gives it. -/
structure Flow.Convertible (f : Flow) (c : Code) (rows : BlockId → List Row) : Prop where
  untyped : ∀ b ∈ f.listed, ∀ r ∈ rows b, r.2.stores? ≠ none → r.2.ty = none
  typed : ∀ b ∈ f.listed, ∀ p r s, rows b = p ++ r :: s → ∀ a v, r.2.IsStore a v →
    ∃ ty, f.HasType rows b p v ty ∧ c.typeOf v = .ok ty

/-- The stores in the listed blocks can be merged: no block stores an aspect twice. -/
structure Flow.Mergeable (f : Flow) (c : Code) (rows : BlockId → List Row) : Prop
    extends f.Convertible c rows where
  once : ∀ b ∈ f.listed, ((rows b).filterMap fun r => r.2.stores?).Nodup

namespace DepthStencil

section Functions

variable {c : Code} {f : Flow} {mask : Value} {n : Nat} {rows : BlockId → List Row} {b : BlockId}
  {rs out out' : List Row} {w₀ w : Workspace} {res : Except Aspect Bool}

theorem Consolidates.storeFree (h : Consolidates c mask n rs out) : StoreFree out := by
  obtain ⟨conv, z, -, -, rfl⟩ := h
  exact storeFree_rewrite rfl

/-- What has been rewritten is not changed again. -/
theorem Consolidates.eq_self (h : Consolidates c mask n rs out) (free : StoreFree rs) :
    out = rs := by
  obtain ⟨conv, z, -, -, rfl⟩ := h
  exact reference_of_storeFree free

theorem StoreFree.once (h : StoreFree rs) : (rs.filterMap fun r => r.2.stores?).Nodup := by
  rw [List.filterMap_eq_nil_iff.2 h]
  exact .nil

/-- What other instructions compute is still computed. -/
theorem Consolidates.yields (h : Consolidates c mask n rs out)
    (untyped : ∀ r ∈ rs, r.2.stores? ≠ none → r.2.ty = none) {id : InstId} {ty : ScalarType}
    (hy : Yields rs id ty) : Yields out id ty := by
  obtain ⟨conv, z, -, -, rfl⟩ := h
  obtain ⟨i, hi, hty⟩ := hy
  have hnone : i.stores? = none := by
    by_contra hne
    rw [untyped _ hi hne] at hty
    cases hty
  refine ⟨i, filter_sublist_rewrite.subset ?_, hty⟩
  exact List.mem_filter.2 ⟨hi, decide_eq_true hnone⟩

/-- Nothing is asked of blocks that store nothing. -/
theorem convertible_of_storeFree (h : ∀ b ∈ f.listed, StoreFree (rows b)) :
    f.Convertible c rows := by
  refine ⟨fun b hb r hr hne => absurd (h b hb r hr) hne, fun b hb p r s e a v hstore => ?_⟩
  have hnone := h b hb r (by simp [e])
  rw [hstore.stores] at hnone
  cases hnone

/-- Once a block has been rewritten, what is stored in the others can still be converted. -/
theorem convertible_update (h : f.Convertible c rows) (hb : b ∈ f.listed)
    (hout : Consolidates c mask n (rows b) out) : f.Convertible c (Function.update rows b out) := by
  have hyields : ∀ d id ty, Yields (rows d) id ty →
      Yields (Function.update rows b out d) id ty := by
    intro d id ty hy
    by_cases hd : d = b
    · subst hd
      rw [Function.update_self]
      exact hout.yields (h.untyped d hb) hy
    · rwa [Function.update_of_ne hd]
  refine ⟨fun d hd r hr hne => ?_, fun d hd p r s hrows a v hstore => ?_⟩
  · by_cases hdb : d = b
    · subst hdb
      rw [Function.update_self] at hr
      exact absurd (hout.storeFree r hr) hne
    · rw [Function.update_of_ne hdb] at hr
      exact h.untyped d hd r hr hne
  · by_cases hdb : d = b
    · subst hdb
      rw [Function.update_self] at hrows
      have hnone := hout.storeFree r (by simp [hrows])
      rw [hstore.stores] at hnone
      cases hnone
    · rw [Function.update_of_ne hdb] at hrows
      obtain ⟨ty, hv, hty⟩ := h.typed d hd p r s hrows a v hstore
      exact ⟨ty, hv.mono (fun _ _ hy => hy) hyields, hty⟩

/-- **The stores of a block are merged as the reference has it**, up to one whose aspect is stored
again. -/
theorem lowerBlock_result {k : Constant} (hk : k.ty = .u16) (hmask : mask = .const k)
    (hf : f.terminator? = w₀.code.terminator?) (hb : b ∈ f.listed) (h : w₀.Stands f .placed w rows)
    (hc : f.Convertible c rows) : ∃ w' res out, lowerBlock mask b w = .ok (w', res) ∧
      w₀.Stands f .placed w' (Function.update rows b out) ∧
      Result c mask w₀.fresh.next (rows b) out res := by
  obtain ⟨w', res, out, hw', hmerges, h'⟩ := lowerBlock_merges Rules.placed_lowers hb hk hmask h
    (h.get? hf hb) (hc.untyped b hb)
  have hall : rows b = rows b ++ [] := (List.append_nil _).symm
  refine ⟨w', res, out, hw', h', hmerges.result hall (.untouched storeFree_nil)
    (h.shows.ids_nodup b) .nil fun p r s hrows a v ty hstore hv => ?_⟩
  obtain ⟨ty', hv', hty'⟩ := hc.typed b hb p r s hrows a v hstore
  have htype := (hv.typeOf h.shows hrows).symm.trans (hv'.typeOf h.shows hrows)
  obtain rfl := Except.ok.inj htype
  exact hty'

/-- **The blocks of a function are lowered one after the other**, up to the first that stores an
aspect twice. -/
theorem lowerBlocks_results {k : Constant} (hk : k.ty = .u16) (hmask : mask = .const k)
    (hf : f.terminator? = w₀.code.terminator?) :
    ∀ (bs : List BlockId) (w : Workspace) (rows : BlockId → List Row), (∀ b ∈ bs, b ∈ f.listed) →
      w₀.Stands f .placed w rows → f.Convertible c rows → ∃ w' res rows',
        lowerBlocks mask bs w = .ok (w', res) ∧ w₀.Stands f .placed w' rows' ∧
        Sweeps (Result c mask w₀.fresh.next) bs rows rows' res
  | [], w, rows, _, h, _ => ⟨w, .ok false, rows, rfl, h, .nil⟩
  | b :: bs, w, rows, hbs, h, hc => by
    have hb : b ∈ f.listed := hbs b (by simp)
    obtain ⟨w₁, res₁, out, hw₁, h₁, hout⟩ := lowerBlock_result hk hmask hf hb h hc
    rw [lowerBlocks]
    simp only [hw₁, ok_bind]
    cases hout with
    | halted halted => exact ⟨w₁, _, _, rfl, h₁, .stop (.halted halted)⟩
    | @merged here once consolidates =>
      obtain ⟨w₂, later, rows₂, hw₂, h₂, hrest⟩ := lowerBlocks_results hk hmask hf bs w₁ _
        (fun d hd => hbs d (by simp [hd])) h₁ (convertible_update hc hb consolidates)
      refine ⟨w₂, later.map (here || ·), rows₂, ?_, h₂, .cons (.merged once consolidates) hrest⟩
      simp only [hw₂, ok_bind]
      cases later <;> rfl

/-- **The stores of several blocks are merged as the reference has it**, also if a block is listed
several times. -/
theorem lowerBlocks_consolidates {k : Constant} (hk : k.ty = .u16) (hmask : mask = .const k)
    (hf : f.terminator? = w₀.code.terminator?) {bs : List BlockId} (hbs : ∀ b ∈ bs, b ∈ f.listed)
    (h : w₀.Stands f .placed w rows) (hm : f.Mergeable c rows) : ∃ w' changed rows',
      lowerBlocks mask bs w = .ok (w', .ok changed) ∧ w₀.Stands f .placed w' rows' ∧
      (∀ b ∈ bs, Consolidates c mask w₀.fresh.next (rows b) (rows' b)) ∧
      ∀ b, b ∉ bs → rows' b = rows b := by
  obtain ⟨w', res, rows', hw', h', hsweeps⟩ :=
    lowerBlocks_results hk hmask hf bs w rows hbs h hm.toConvertible
  obtain ⟨changed, rfl⟩ := hsweeps.completes (fun b hb => hm.once b (hbs b hb))
    fun rs out res once hres => by
      cases hres with
      | merged _ consolidates => exact ⟨consolidates.storeFree.once, _, rfl⟩
      | halted halted => exact absurd once halted.not_once
  refine ⟨w', changed, rows', hw', h', fun b hb => ?_, fun b hb => hsweeps.others hb⟩
  obtain ⟨here, hres⟩ := hsweeps.settled (P := StoreFree) (fun rs out c hres => by
    cases hres with
    | merged _ consolidates => exact ⟨consolidates.storeFree, consolidates.eq_self⟩) rfl b hb
  cases hres with
  | merged _ consolidates => exact consolidates

end Functions

end DepthStencil

/-- The rows of a block can be read from two versions of code alike. -/
theorem Code.SameFlow.rowsOf {c c' : Code} {rows rows' : BlockId → List Row} {b : BlockId}
    (h : c.SameFlow c') (hc : c.Shows rows) (hc' : c'.Shows rows') (e : rows' b = rows b) :
    c'.rowsOf b = c.rowsOf b := by
  cases hblk : c.blocks.get? b with
  | none =>
    have hblk' := h b
    rw [terminator?, terminator?, hblk, Option.map_none, Option.map_eq_none_iff] at hblk'
    rw [Code.rowsOf, instsOf, Defs.find, hblk', Code.rowsOf, instsOf, Defs.find, hblk]
    rfl
  | some blk =>
    obtain ⟨blk', hblk', -⟩ := h.get? hblk
    rw [hc.rowsOf hblk, hc'.rowsOf hblk', e]

namespace Body

/-- Stores to the output of an aspect have no result. -/
def StoresUntyped (body : Body) : Prop := ∀ i, body.Has i → i.stores? ≠ none → i.ty = none

/-- No listed block stores an aspect twice. -/
def StoresOnce (body : Body) : Prop :=
  ∀ b ∈ body.blocks, ∀ rows, body.code.rowsOf b = .ok rows →
    (rows.filterMap fun r => r.2.stores?).Nodup

/-- What the listed blocks of a body store can be converted. -/
def Convertible (s : Supply .inst) (body : Body) : Prop :=
  ∃ rows, (body.workspace s).Stands body.flow .placed (body.workspace s) rows ∧
    body.flow.Convertible body.code rows

/-- The stores of all listed blocks of a body can be merged. -/
def Mergeable (s : Supply .inst) (body : Body) : Prop :=
  ∃ rows, (body.workspace s).Stands body.flow .placed (body.workspace s) rows ∧
    body.flow.Mergeable body.code rows

/-- All listed blocks of a body have been rewritten, with new identities from `n` on, and nothing
else has changed: the terminators are the same, and the rows of the other blocks. -/
structure Consolidated (mask : Value) (n : Nat) (body body' : Body) : Prop where
  blocks : body'.blocks = body.blocks
  flow : body.code.SameFlow body'.code
  linked : body'.ChainsLinked
  listed : ∀ b ∈ body.blocks, ∃ rows out, body.code.rowsOf b = .ok rows ∧
    body'.code.rowsOf b = .ok out ∧ DepthStencil.Consolidates body.code mask n rows out
  others : ∀ b, b ∉ body.blocks → body'.code.rowsOf b = body.code.rowsOf b

variable {s s' : Supply .inst} {body body' body'' : Body} {mask mask' : Value} {n n' : Nat}
  {c : Scalar}

theorem Convertible.mono (h : body.Convertible s) (hs : s.next ≤ s'.next) :
    body.Convertible s' := by
  obtain ⟨rows, ⟨hd, hv⟩, hc⟩ := h
  refine ⟨rows, ⟨.refl hd.shows fun id n hid => ?_, hv⟩, hc⟩
  exact Nat.lt_of_lt_of_le (hd.issued id n hid) hs

theorem Mergeable.mono (h : body.Mergeable s) (hs : s.next ≤ s'.next) : body.Mergeable s' := by
  obtain ⟨rows, ⟨hd, hv⟩, hm⟩ := h
  refine ⟨rows, ⟨.refl hd.shows fun id n hid => ?_, hv⟩, hm⟩
  exact Nat.lt_of_lt_of_le (hd.issued id n hid) hs

/-- What is stored is there in a body whose uses are placed. -/
theorem convertible_of_stands {rows : BlockId → List Row}
    (h : (body.workspace s).Stands body.flow .placed (body.workspace s) rows)
    (untyped : ∀ b ∈ body.blocks, ∀ r ∈ rows b, r.2.stores? ≠ none → r.2.ty = none) :
    body.Convertible s := by
  have hrows : body.code.Shows rows := h.shows
  refine ⟨rows, h, untyped, fun b hb p r q e a v hstore => ?_⟩
  obtain ⟨ty, hv⟩ := (h.user hb (x := r.1) (i := r.2) e).hasType (v := v)
    (by simp [hstore.inputs])
  exact ⟨ty, hv, hv.typeOf hrows e⟩

/-- What is stored is there in a valid body. -/
theorem convertible_of_valid (linked : body.ChainsLinked) (issued : (body.workspace s).Issued)
    (valid : body.firstDefect = .ok none) (untyped : body.StoresUntyped) :
    body.Convertible s := by
  obtain ⟨rows, hrows⟩ := linked.exists_shows
  have hvalid := (valid_of_firstDefect hrows valid).2
  have hstands : (body.workspace s).Stands body.flow .placed (body.workspace s) rows :=
    ⟨.refl hrows issued, hvalid.placed⟩
  exact convertible_of_stands hstands fun b hb r hr => untyped r.2 (has_of_mem hrows hb hr)

theorem Convertible.mergeable (h : body.Convertible s) (once : body.StoresOnce) :
    body.Mergeable s := by
  obtain ⟨rows, hstands, hc⟩ := h
  refine ⟨rows, hstands, hc, fun b hb => ?_⟩
  obtain ⟨blk, hblk⟩ := hstands.get? rfl hb
  exact once b hb (rows b) (hstands.shows.rowsOf hblk)

theorem mergeable_of_valid (linked : body.ChainsLinked) (issued : (body.workspace s).Issued)
    (valid : body.firstDefect = .ok none) (untyped : body.StoresUntyped)
    (once : body.StoresOnce) : body.Mergeable s :=
  (convertible_of_valid linked issued valid untyped).mergeable once

theorem Sound.mergeable (h : body.Sound .placed s) (once : body.StoresOnce) :
    body.Mergeable s := by
  obtain ⟨-, -, rows, hstands, hu⟩ := h
  exact (convertible_of_stands hstands fun b hb r hr hs => hu b hb r hr (.inl hs)).mergeable once

theorem Consolidated.mono (h : body.Consolidated mask n body') (hn : n' ≤ n) :
    body.Consolidated mask n' body' := by
  refine ⟨h.blocks, h.flow, h.linked, fun b hb => ?_, h.others⟩
  obtain ⟨rows, out, hrows, hout, conv, z, hconv, hz, e⟩ := h.listed b hb
  exact ⟨rows, out, hrows, hout, conv, z, fun id => hn.trans (hconv id), hn.trans hz, e⟩

/-- A body that has been rewritten is not changed again. -/
theorem Consolidated.trans (h : body.Consolidated mask n body')
    (h' : body'.Consolidated mask' n' body'') : body.Consolidated mask n body'' := by
  refine ⟨h'.blocks.trans h.blocks, h.flow.trans h'.flow, h'.linked, fun b hb => ?_,
    fun b hb => (h'.others b (h.blocks ▸ hb)).trans (h.others b hb)⟩
  obtain ⟨rows, out, hrows, hout, hc⟩ := h.listed b hb
  obtain ⟨rows', out', hrows', hout', hc'⟩ := h'.listed b (h.blocks ▸ hb)
  obtain rfl := Except.ok.inj (hout.symm.trans hrows')
  obtain rfl := hc'.eq_self hc.storeFree
  exact ⟨rows, _, hrows, hout', hc⟩

/-- **The stores of a body are merged as the reference has it.** -/
theorem Mergeable.lowerBlocks (h : body.Mergeable s) (hc : c.ty = .u16) : ∃ w changed,
    DepthStencil.lowerBlocks (.const (.ofScalar c)) body.blocks (body.workspace s) =
      .ok (w, .ok changed) ∧ s.next ≤ w.fresh.next ∧ ∀ cache,
      Mergeable w.fresh ⟨w.code, body.blocks, cache⟩ ∧
      body.Consolidated (.const (.ofScalar c)) s.next ⟨w.code, body.blocks, cache⟩ := by
  obtain ⟨rows, hstands, hm⟩ := h
  have hty : (Constant.ofScalar c).ty = .u16 := hc
  obtain ⟨w, changed, rows', hw, hstands', hin, hrest⟩ :=
    DepthStencil.lowerBlocks_consolidates hty rfl rfl (fun _ hb => hb) hstands hm
  refine ⟨w, changed, hw, hstands'.le, fun cache => ⟨⟨rows', ?_⟩, rfl, hstands'.flow,
    ⟨_, hstands'.shows.layout⟩, fun b hb => ?_, fun b hb => ?_⟩⟩
  · have hflow : (⟨w.code, body.blocks, cache⟩ : Body).flow = body.flow :=
      body.flow_eq hstands'.flow
    rw [hflow]
    exact ⟨⟨.refl hstands'.shows hstands'.issued, hstands'.valid⟩,
      DepthStencil.convertible_of_storeFree fun b hb => (hin b hb).storeFree,
      fun b hb => (hin b hb).storeFree.once⟩
  · obtain ⟨blk, hblk⟩ := hstands.get? rfl hb
    obtain ⟨blk', hblk'⟩ := hstands'.get? rfl hb
    exact ⟨rows b, rows' b, hstands.shows.rowsOf hblk, hstands'.shows.rowsOf hblk', hin b hb⟩
  · exact hstands'.flow.rowsOf hstands.shows hstands'.shows (hrest b hb)

end Body

/-! ## Modules -/

/-- What the merging of stores makes of a function: its body, if it has one, has been rewritten. -/
inductive FuncDecl.Consolidated (mask : Value) (n : Nat) (decl : FuncDecl) : FuncDecl → Prop where
  | imported {link : String} (imported : decl.impl = .imported link) : Consolidated mask n decl decl
  | body {body body' : Body} (present : decl.impl = .present body)
    (consolidated : body.Consolidated mask n body') :
    Consolidated mask n decl { decl with impl := .present body' }

namespace Module

/-- The body of a function, if it has one, has stores that can be merged. -/
def MergeableDecl (_ : FuncId) (s : Supply .inst) (decl : FuncDecl) : Prop :=
  ∀ body, decl.impl = .present body → body.Mergeable s

/-- Some functions have been lowered, and nothing else of the module has changed. -/
structure Consolidated (mask : Value) (n : Nat) (fs : List FuncId) (m m' : Module) : Prop where
  info : m'.info = m.info
  allFuncs : m'.allFuncs = m.allFuncs
  freshFuncs : m'.freshFuncs = m.freshFuncs
  freshBlocks : m'.freshBlocks = m.freshBlocks
  lowered : ∀ f ∈ fs, ∃ decl decl', m.funcs.get? f = some decl ∧ m'.funcs.get? f = some decl' ∧
    decl.Consolidated mask n decl'
  others : ∀ f, f ∉ fs → m'.funcs.get? f = m.funcs.get? f

end Module

section Modules

variable {m m' m₀ : Module} {decl decl' decl₀ : FuncDecl} {fs gs : List FuncId} {func : FuncId}
  {mask : Value} {n n' : Nat} {c : Scalar} {config : LowerConfig}

theorem FuncDecl.Consolidated.mono (h : decl.Consolidated mask n decl') (hn : n' ≤ n) :
    decl.Consolidated mask n' decl' := by
  cases h with
  | imported imported => exact .imported imported
  | body present consolidated => exact .body present (consolidated.mono hn)

theorem FuncDecl.Consolidated.trans (h : decl₀.Consolidated mask n decl)
    (h' : decl.Consolidated mask n' decl') : decl₀.Consolidated mask n decl' := by
  cases h with
  | imported imported =>
    cases h' with
    | imported _ => exact .imported imported
    | body present _ =>
      rw [imported] at present
      cases present
  | body present consolidated =>
    cases h' with
    | imported imported => cases imported
    | body present' consolidated' =>
      cases present'
      exact .body present (consolidated.trans consolidated')

theorem Module.Consolidated.refl (mask : Value) (n : Nat) (m : Module) :
    m.Consolidated mask n [] m :=
  ⟨rfl, rfl, rfl, rfl, fun _ hf => absurd hf List.not_mem_nil, fun _ _ => rfl⟩

/-- Some functions are lowered after others; one that has been lowered already is not changed
again. -/
theorem Module.Consolidated.trans (h : m₀.Consolidated mask n fs m)
    (h' : m.Consolidated mask n' gs m') (hn : n ≤ n') : m₀.Consolidated mask n (fs ++ gs) m' := by
  refine ⟨h'.info.trans h.info, h'.allFuncs.trans h.allFuncs, h'.freshFuncs.trans h.freshFuncs,
    h'.freshBlocks.trans h.freshBlocks, fun f hf => ?_, fun f hf => ?_⟩
  · by_cases hfs : f ∈ fs
    · obtain ⟨decl₀, decl, hdecl₀, hdecl, hc⟩ := h.lowered f hfs
      by_cases hgs : f ∈ gs
      · obtain ⟨decl₁, decl', hdecl₁, hdecl', hc'⟩ := h'.lowered f hgs
        obtain rfl := Option.some.inj (hdecl₁.symm.trans hdecl)
        exact ⟨decl₀, decl', hdecl₀, hdecl', hc.trans hc'⟩
      · exact ⟨decl₀, decl, hdecl₀, (h'.others f hgs).trans hdecl, hc⟩
    · have hgs : f ∈ gs := (List.mem_append.1 hf).resolve_left hfs
      obtain ⟨decl, decl', hdecl, hdecl', hc⟩ := h'.lowered f hgs
      exact ⟨decl, decl', (h.others f hfs).symm.trans hdecl, hdecl', hc.mono hn⟩
  · rw [List.mem_append, not_or] at hf
    exact (h'.others f hf.2).trans (h.others f hf.1)

theorem Module.mergeableDecl_lasts : Lasts MergeableDecl :=
  fun _ _ _ _ hs h body hb => (h body hb).mono hs

namespace DepthStencil

/-- **The stores of a function are merged as the reference has it.** -/
theorem lowerFunc_consolidates (hc : c.ty = .u16) (h : m.Holds Module.MergeableDecl)
    (hf : func ∈ m.allFuncs) : ∃ m' changed,
      lowerFunc (.const (.ofScalar c)) func m = .ok (m', .ok changed) ∧
      m.freshInsts.next ≤ m'.freshInsts.next ∧ m'.Holds Module.MergeableDecl ∧
      m.Consolidated (.const (.ofScalar c)) m.freshInsts.next [func] m' := by
  obtain ⟨decl, hdecl, hm⟩ := h func hf
  rw [lowerFunc, Defs.access_of_get? hdecl, ok_bind]
  cases himpl : decl.impl with
  | imported link =>
    refine ⟨m, false, rfl, Nat.le_refl _, h, rfl, rfl, rfl, rfl, fun g hg => ?_, fun _ _ => rfl⟩
    obtain rfl := List.mem_singleton.1 hg
    exact ⟨decl, decl, hdecl, hdecl, .imported himpl⟩
  | present body =>
    obtain ⟨w, changed, hw, hle, hlowered⟩ := (hm body himpl).lowerBlocks hc
    simp only [hw, ok_bind, pure_eq_ok]
    refine ⟨_, changed, rfl, hle, h.setBody Module.mergeableDecl_lasts hdecl hle ?_, rfl, rfl, rfl,
      rfl, fun g hg => ?_, fun g hg => ?_⟩
    · intro body' hb
      obtain rfl := FuncDef.present.inj hb
      exact (hlowered _).1
    · obtain rfl := List.mem_singleton.1 hg
      exact ⟨decl, _, hdecl, (Defs.get?_set_of_get? hdecl g).trans (if_pos rfl),
        .body himpl (hlowered _).2⟩
    · exact (Defs.get?_set_of_get? hdecl g).trans (if_neg fun e => hg (by simp [e]))

/-- **The stores of several functions are merged as the reference has it.** -/
theorem lowerFuncs_consolidates (hc : c.ty = .u16) : ∀ (fs : List FuncId) (m : Module),
    (∀ f ∈ fs, f ∈ m.allFuncs) → m.Holds Module.MergeableDecl → ∃ m' changed,
      lowerFuncs (.const (.ofScalar c)) fs m = .ok (m', .ok changed) ∧
      m.Consolidated (.const (.ofScalar c)) m.freshInsts.next fs m'
  | [], m, _, _ => ⟨m, false, rfl, .refl _ _ m⟩
  | f :: fs, m, hfs, h => by
    obtain ⟨m₁, here, hm₁, hle, h₁, hfirst⟩ := lowerFunc_consolidates hc h (hfs f (by simp))
    obtain ⟨m₂, later, hm₂, hrest⟩ := lowerFuncs_consolidates hc fs m₁
      (fun g hg => hfirst.allFuncs ▸ hfs g (by simp [hg])) h₁
    refine ⟨m₂, here || later, ?_, hfirst.trans hrest hle⟩
    rw [lowerFuncs]
    simp only [hm₁, ok_bind, hm₂, pure_eq_ok]

end DepthStencil

namespace Module

/-- **The lowering of depth and stencil stores is the reference.**  Let a module be valid, with
linked chains, identities that the supply has given away, no result of a store and no listed block
that stores an aspect twice, and let it declare a depth or stencil output.  Then the lowering goes
through.  In each listed block, every store has been replaced by the conversion of its value, which
is none if the value has the type already, and the last is followed by one combined write, with the
mask of all samples and of each aspect the converted value, or an undefined one if the block does
not store it.  All other rows are kept, in order; and so are the terminators, the other blocks, the
other functions and all else of the module. -/
theorem lowerDepthStencil_reference (m : Module) (config : LowerConfig)
    (valid : m.firstViolation = .ok none) (linked : m.Every Body.ChainsLinked)
    (issued : m.Every fun body => (body.workspace m.freshInsts).Issued)
    (untyped : m.Every Body.StoresUntyped) (once : m.Every Body.StoresOnce)
    (declared : m.info.outputs.intersects .depthStencil = true)
    (hlo : 1 ≤ config.maxSamples) (hhi : config.maxSamples ≤ 16) :
    ∃ m' changed, ∃ all : Scalar, m.lowerDepthStencil config = .ok (m', .ok changed) ∧
      all.ty = .u16 ∧ all.bits = 2 ^ config.maxSamples - 1 ∧
      m.Consolidated (.const (.ofScalar all)) m.freshInsts.next m.allFuncs m' := by
  have hholds : m.Holds MergeableDecl := by
    intro f hf
    obtain ⟨decl, hdecl, hdefect⟩ := firstViolation_eq_none_iff.1 valid f hf
    exact ⟨decl, hdecl, fun body hb => Body.mergeable_of_valid (linked f hf decl body hdecl hb)
      (issued f hf decl body hdecl hb) (hdefect body hb) (untyped f hf decl body hdecl hb)
      (once f hf decl body hdecl hb)⟩
  obtain ⟨all, hall, hbits, hmask⟩ := config.allSamplesValue_eq hlo hhi
  obtain ⟨m', changed, hm', hconsolidated⟩ :=
    DepthStencil.lowerFuncs_consolidates hall m.allFuncs m (fun _ hf => hf) hholds
  refine ⟨m', changed, all, ?_, hall, hbits, hconsolidated⟩
  rw [lowerDepthStencil, if_pos declared, hmask, ok_bind, hm']

theorem sampleFragment_lowerDepthStencil_reference : ∃ m' all decl decl',
    sampleFragment.lowerDepthStencil .eightSamples = .ok (m', .ok true) ∧
    all.bits = 255 ∧ sampleFragment.funcs.get? ⟨0⟩ = some decl ∧ m'.funcs.get? ⟨0⟩ = some decl' ∧
    decl.Consolidated (.const (.ofScalar all)) 5 decl' := by
  have untyped : Body.sampleFragment.StoresUntyped :=
    fun i hi hs => Body.sampleFragment_untyped i hi (.inl hs)
  have once : Body.sampleFragment.StoresOnce := by
    intro b hb rows hrows
    have hall : ∀ b ∈ Body.sampleFragment.blocks, (Body.sampleFragment.code.rowsOf b).map
        (fun rows => decide (rows.filterMap fun r => r.2.stores?).Nodup) = .ok true := by decide
    have hnodup := hall b hb
    rw [hrows] at hnodup
    exact of_decide_eq_true (Except.ok.inj hnodup)
  obtain ⟨m', changed, all, hm', -, hbits, hconsolidated⟩ :=
    lowerDepthStencil_reference sampleFragment .eightSamples rfl
      (sampleFragment_every Body.sampleFragment_tidy.linked)
      (sampleFragment_every Body.sampleFragment_tidy.issued) (sampleFragment_every untyped)
      (sampleFragment_every once) (by decide) (by decide) (by decide)
  obtain ⟨decl, decl', hdecl, hdecl', hc⟩ := hconsolidated.lowered ⟨0⟩ (by decide)
  obtain ⟨m'', hm''⟩ : ∃ m', sampleFragment.lowerDepthStencil .eightSamples = .ok (m', .ok true) :=
    ⟨_, rfl⟩
  rw [hm''] at hm'
  cases hm'
  exact ⟨m', all, decl, decl', hm'', hbits, hdecl, hdecl', hc⟩

/-- The depth, which is a half float, is converted where it was stored, the stencil value is not,
and the discard between them stays where it was. -/
example (mask : Value) :
    (Body.sampleFragment.code.rowsOf ⟨0⟩).map (fun rows =>
      (DepthStencil.reference Body.sampleFragment.code (fun _ => ⟨5⟩) mask ⟨6⟩ rows).drop 2) =
    .ok [(⟨5⟩, ⟨.alu .fconvert, [.result ⟨0⟩], some .f32⟩),
      (⟨3⟩, ⟨.intrinsic .discardIf, [.result ⟨1⟩], none⟩),
      (⟨6⟩, ⟨.intrinsic (.combinedWrite ((AspectSet.empty.insert .stencil).insert .depth)),
        [mask, .result ⟨5⟩, .const (.ofScalar (.truncate .u16 7))], none⟩)] :=
  rfl

end Module

end Modules

end ShaderIR
