import Mathlib.Tactic.IntervalCases
import ShaderIR.Lower.Fragment
import ShaderIR.Proofs.Lower.Expand

/-!
# Lowering of functions and modules

From blocks to the functions of a module, for both lowerings alike.

* `Inst.IsLowered`, `Flow.Untyped`: the instructions that a lowering takes away have no result.
* `Module.Holds`: something holds of all functions of a module.
* `DepthStencil.Keeps`, `Discard.Keeps`: the lowering of one function keeps something.
* `LowerConfig.allSamplesValue_eq`: the mask of all samples.

Principal statements: `lowerBlocks_stands` and `inBlocks_stands` (the blocks of a function are
lowered one by one, and the code stays valid), `Module.Holds.lowerDepthStencil` and
`Module.Holds.lowerDiscard` (what the lowering of one function keeps holds of the module).
-/

namespace ShaderIR

/-- An instruction is one of those that a lowering takes away. -/
def Inst.IsLowered (i : Inst) : Prop := i.stores? ≠ none ∨ i.IsDiscard

/-- What a lowering takes away has no result. -/
def Flow.Untyped (f : Flow) (rows : BlockId → List Row) : Prop :=
  ∀ b ∈ f.listed, ∀ r ∈ rows b, r.2.IsLowered → r.2.ty = none

section Old

variable {f : Flow} {mask all nothing : Value} {rows : BlockId → List Row} {b : BlockId}
  {p s done done' out : List Row} {r q : Row} {t : Option InstId} {ty : ScalarType} {a : Aspect}
  {v v' : Value} {n : Nat}

theorem not_isLowered_alu {op : AluOp} {inputs : List Value} {result : Option ScalarType} :
    ¬ (⟨.alu op, inputs, result⟩ : Inst).IsLowered := by
  rintro (h | h | h)
  · exact h rfl
  · cases h
  · cases h

theorem not_isLowered_combined {set : AspectSet} {value : Aspect → Value} :
    ¬ (Inst.combined mask set value).IsLowered := by
  rintro (h | h | h)
  · exact h rfl
  · cases h
  · cases h

theorem not_isLowered_discardSamples : ¬ (Inst.discardSamples mask).IsLowered := by
  rintro (h | h | h)
  · exact h rfl
  · cases h
  · cases h

theorem DepthStencil.Converts.not_isLowered {conv : List Row}
    (h : DepthStencil.Converts a v ty conv v') (hq : q ∈ conv) : ¬ q.2.IsLowered := by
  cases h with
  | same _ => cases hq
  | new id _ =>
    rw [List.mem_singleton.1 hq]
    exact not_isLowered_alu

/-- A step brings nothing that a lowering takes away. -/
theorem DepthStencil.MergeStep.old {res : Except Aspect InstId}
    (h : DepthStencil.MergeStep f mask n rows b p r done t done' res) (hq : q ∈ done')
    (hl : q.2.IsLowered) : q ∈ r :: done := by
  cases h with
  | first _ isStore hasType converts fresh =>
    rcases List.mem_append.1 hq with hq | hq
    · exact absurd hl (converts.not_isLowered hq)
    · rcases List.mem_cons.1 hq with rfl | hq
      · exact absurd hl not_isLowered_combined
      · exact List.mem_cons_of_mem _ hq
  | later _ isStore hasType converts fresh once =>
    simp only [List.mem_append, List.mem_cons] at hq ⊢
    rcases hq with (hq | hq) | rfl | hq
    · exact absurd hl (converts.not_isLowered hq)
    · exact .inr (.inl hq)
    · exact absurd hl not_isLowered_combined
    · exact .inr (.inr (.inr hq))
  | twice _ isStore hasType converts fresh again _ =>
    rcases List.mem_append.1 hq with hq | hq
    · exact absurd hl (converts.not_isLowered hq)
    · exact hq

theorem DepthStencil.Merges.old {res : Except Aspect Bool}
    (h : DepthStencil.Merges f mask n rows b p done t out res) (hq : q ∈ out)
    (hl : q.2.IsLowered) : q ∈ p ++ done := by
  induction h with
  | nil => simpa using hq
  | skip _ _ ih => simpa using ih hq
  | merge step _ ih =>
    simp only [List.append_assoc, List.mem_append, List.singleton_append] at ih ⊢
    exact (ih hq).imp_right fun h' => step.old h' hl
  | stop step =>
    simp only [List.append_assoc, List.mem_append, List.singleton_append] at hq ⊢
    exact hq.imp_right fun h' => step.old h' hl

theorem Discard.Expands.old {changed : Bool}
    (h : Discard.Expands f all nothing rows b done s out changed) (hq : q ∈ out)
    (hl : q.2.IsLowered) : q ∈ done ++ s := by
  induction h with
  | nil => simpa using hq
  | cons step _ ih =>
    have hmem := ih hq
    simp only [List.append_assoc, List.mem_append, List.mem_cons] at hmem ⊢
    refine hmem.imp_right fun h' => h'.imp_left fun hnew => ?_
    cases step with
    | keep _ => exact List.mem_singleton.1 hnew
    | discard _ _ =>
      rw [List.mem_singleton.1 hnew] at hl
      exact absurd hl not_isLowered_discardSamples
    | discardIf _ _ _ _ _ _ =>
      rcases List.mem_cons.1 hnew with rfl | hnew
      · exact absurd hl not_isLowered_alu
      · rw [List.mem_singleton.1 hnew] at hl
        exact absurd hl not_isLowered_discardSamples

theorem Flow.Untyped.update (h : f.Untyped rows) (hout : ∀ q ∈ out, q.2.IsLowered → q ∈ rows b) :
    f.Untyped (Function.update rows b out) := by
  intro d hd q hq hl
  by_cases hdb : d = b
  · subst hdb
    rw [Function.update_self] at hq
    exact h d hd q (hout q hq hl) hl
  · rw [Function.update_of_ne hdb] at hq
    exact h d hd q hq hl

end Old

section Blocks

variable {f : Flow} {R : Rules} {w₀ w : Workspace} {rows : BlockId → List Row} {b : BlockId}
  {mask all nothing : Value}

theorem Workspace.Stands.get? (h : w₀.Stands f R w rows) (hf : f.terminator? = w₀.code.terminator?)
    (hb : b ∈ f.listed) : ∃ blk, w.code.blocks.get? b = some blk := by
  obtain ⟨-, t, ht, -⟩ := h.valid b hb
  rw [hf, ← h.flow b] at ht
  obtain ⟨blk, hblk, -⟩ := Option.map_eq_some_iff.1 ht
  exact ⟨blk, hblk⟩

/-- **The stores in the blocks of a function are merged block by block**, and the code stays valid.
What every block that is lowered keeps is kept, unless an aspect is written twice. -/
theorem DepthStencil.lowerBlocks_stands (hR : R.Lowers) {k : Constant} (hk : k.ty = .u16)
    (hmask : mask = .const k) (hf : f.terminator? = w₀.code.terminator?)
    (Q : (BlockId → List Row) → Prop)
    (hQ : ∀ w rows b out c, w₀.Stands f R w rows → b ∈ f.listed → Q rows →
      Merges f mask w₀.fresh.next rows b (rows b) [] none out (.ok c) →
        Q (Function.update rows b out)) :
    ∀ (bs : List BlockId) (w : Workspace) (rows : BlockId → List Row), (∀ b ∈ bs, b ∈ f.listed) →
      w₀.Stands f R w rows → f.Untyped rows → Q rows →
      ∃ w' res rows', lowerBlocks mask bs w = .ok (w', res) ∧ w₀.Stands f R w' rows' ∧
        f.Untyped rows' ∧ ∀ c, res = .ok c → Q rows'
  | [], w, rows, _, h, hu, hq => ⟨w, .ok false, rows, rfl, h, hu, fun _ _ => hq⟩
  | b :: bs, w, rows, hbs, h, hu, hq => by
    have hb : b ∈ f.listed := hbs b (by simp)
    obtain ⟨w₁, res₁, out, hw₁, hm, h₁⟩ := lowerBlock_merges hR hb hk hmask h (h.get? hf hb)
      fun r hr hs => hu b hb r hr (.inl hs)
    have hu₁ : f.Untyped (Function.update rows b out) :=
      hu.update fun q hq hl => by simpa using hm.old hq hl
    rw [lowerBlocks]
    simp only [hw₁, ok_bind]
    cases res₁ with
    | error a =>
      refine ⟨w₁, .error a, _, rfl, h₁, hu₁, fun c hc => ?_⟩
      cases hc
    | ok here =>
      have hq₁ := hQ w rows b out here h hb hq hm
      obtain ⟨w₂, res₂, rows₂, hw₂, h₂, hu₂, hq₂⟩ := lowerBlocks_stands hR hk hmask hf Q hQ bs w₁ _
        (fun d hd => hbs d (by simp [hd])) h₁ hu₁ hq₁
      simp only [hw₂, ok_bind]
      cases res₂ with
      | error a =>
        refine ⟨w₂, .error a, rows₂, rfl, h₂, hu₂, fun c hc => ?_⟩
        cases hc
      | ok later => exact ⟨w₂, .ok (here || later), rows₂, rfl, h₂, hu₂, fun _ _ => hq₂ later rfl⟩

/-- **The discards in the blocks of a function are edited block by block**, and the code stays
valid. -/
theorem Discard.inBlocks_stands (hR : R.Lowers) {ka kn : Constant} (hka : ka.ty = .u16)
    (hkn : kn.ty = .u16) (hall : all = .const ka) (hnothing : nothing = .const kn)
    (hf : f.terminator? = w₀.code.terminator?) (Q : (BlockId → List Row) → Prop)
    (hQ : ∀ w rows b out changed, w₀.Stands f R w rows → b ∈ f.listed → Q rows →
      Expands f all nothing rows b [] (rows b) out changed → Q (Function.update rows b out)) :
    ∀ (bs : List BlockId) (w : Workspace) (rows : BlockId → List Row), (∀ b ∈ bs, b ∈ f.listed) →
      w₀.Stands f R w rows → f.Untyped rows → Q rows →
      ∃ changed w' rows', (edit all nothing).inBlocks bs () w = .ok (changed, (), w') ∧
        w₀.Stands f R w' rows' ∧ f.Untyped rows' ∧ Q rows' := by
  intro bs w rows hbs h hu hq
  have hkeeps : (edit all nothing).KeepsBlocks fun bs _ _ w => ∃ rows, (∀ b ∈ bs, b ∈ f.listed) ∧
      w₀.Stands f R w rows ∧ f.Untyped rows ∧ Q rows := by
    rintro b bs - ⟨⟩ w ⟨rows, hbs, h, hu, hq⟩
    obtain ⟨hb, hbs⟩ := List.forall_mem_cons.1 hbs
    obtain ⟨here, w₁, out, hrun, hx, h₁⟩ := inBlock_expands hR hb hka hkn hall hnothing h
      (h.get? hf hb) fun r hr hs => hu b hb r hr (.inr hs)
    have hu₁ : f.Untyped (Function.update rows b out) :=
      hu.update fun q hq hl => by simpa using hx.old hq hl
    exact ⟨here, (), w₁, hrun, _, hbs, h₁, hu₁, hQ w rows b out here h hb hq hx⟩
  obtain ⟨changed, ⟨⟩, w', hrun, rows', -, h', hu', hq'⟩ :=
    hkeeps.inBlocks () w ⟨rows, hbs, h, hu, hq⟩
  exact ⟨changed, w', rows', hrun, h', hu', hq'⟩

end Blocks

/-- Something holds of all functions of a module, given its supply of instructions. -/
def Module.Holds (K : FuncId → Supply .inst → FuncDecl → Prop) (m : Module) : Prop :=
  ∀ f ∈ m.allFuncs, ∃ decl, m.funcs.get? f = some decl ∧ K f m.freshInsts decl

section Functions

variable {K : FuncId → Supply .inst → FuncDecl → Prop} {m : Module} {func : FuncId}
  {decl : FuncDecl}

/-- What holds with some supply holds with a later one. -/
def Lasts (K : FuncId → Supply .inst → FuncDecl → Prop) : Prop :=
  ∀ f s s' decl, s.next ≤ s'.next → K f s decl → K f s' decl

/-- The body of one function is replaced. -/
theorem Module.Holds.setBody (h : m.Holds K) (hK : Lasts K) (hf : m.funcs.get? func = some decl)
    {body : Body} {s : Supply .inst} (hs : m.freshInsts.next ≤ s.next)
    (hbody : K func s { decl with impl := .present body }) :
    Module.Holds K { m.setBody func decl body with freshInsts := s } := by
  intro g hg
  obtain ⟨d, hd, hk⟩ := h g hg
  have hget : ({ m.setBody func decl body with freshInsts := s } : Module).funcs.get? g =
      if g = func then some { decl with impl := .present body } else m.funcs.get? g :=
    Defs.get?_set_of_get? hf g
  rw [hget]
  by_cases hgf : g = func
  · subst hgf
    exact ⟨_, if_pos rfl, hbody⟩
  · rw [if_neg hgf]
    exact ⟨d, hd, hK g _ _ d hs hk⟩

/-- Merging the stores of one function keeps what holds of it; with `always` even if an aspect is
written twice. -/
def DepthStencil.Keeps (mask : Value) (always : Prop)
    (K : FuncId → Supply .inst → FuncDecl → Prop) : Prop :=
  ∀ f s decl body, K f s decl → decl.impl = .present body → ∃ w r,
    lowerBlocks mask body.blocks (body.workspace s) = .ok (w, r) ∧ s.next ≤ w.fresh.next ∧
    ((always ∨ ∃ changed, r = .ok changed) → ∀ cache, K f w.fresh
      { decl with impl := .present ⟨w.code, body.blocks, cache⟩ })

/-- Expanding the discards of one function keeps what holds of it. -/
def Discard.Keeps (all nothing : Value) (K : FuncId → Supply .inst → FuncDecl → Prop) : Prop :=
  ∀ f s decl body, K f s decl → decl.impl = .present body → ∃ changed w,
    (edit all nothing).inBlocks body.blocks () (body.workspace s) = .ok (changed, (), w) ∧
    s.next ≤ w.fresh.next ∧ ∀ cache, K f w.fresh
      { decl with impl := .present ⟨w.code, body.blocks, cache⟩ }

namespace DepthStencil

variable {mask : Value} {always : Prop}

theorem lowerFunc_holds (hK : Lasts K) (step : Keeps mask always K) (h : m.Holds K)
    (hf : func ∈ m.allFuncs) : ∃ m' r, lowerFunc mask func m = .ok (m', r) ∧
      m'.allFuncs = m.allFuncs ∧ ((always ∨ ∃ changed, r = .ok changed) → m'.Holds K) := by
  obtain ⟨decl, hdecl, hk⟩ := h func hf
  rw [lowerFunc, Defs.access_of_get? hdecl, ok_bind]
  cases himpl : decl.impl with
  | imported link => exact ⟨m, .ok false, rfl, rfl, fun _ => h⟩
  | present body =>
    obtain ⟨w, r, hw, hle, hkeep⟩ := step func m.freshInsts decl body hk himpl
    simp only [hw, ok_bind, pure_eq_ok]
    refine ⟨_, _, rfl, rfl, fun hr => h.setBody hK hdecl hle (hkeep ?_ _)⟩
    refine hr.imp_right fun ⟨changed, hchanged⟩ => ?_
    cases r with
    | error a => cases hchanged
    | ok c => exact ⟨c, rfl⟩

/-- **What the merging of stores keeps in one function holds of all functions.** -/
theorem lowerFuncs_holds (hK : Lasts K) (step : Keeps mask always K) :
    ∀ (fs : List FuncId) (m : Module), (∀ f ∈ fs, f ∈ m.allFuncs) → m.Holds K →
      ∃ m' r, lowerFuncs mask fs m = .ok (m', r) ∧ m'.allFuncs = m.allFuncs ∧
        ((always ∨ ∃ changed, r = .ok changed) → m'.Holds K)
  | [], m, _, h => ⟨m, .ok false, rfl, rfl, fun _ => h⟩
  | f :: fs, m, hfs, h => by
    obtain ⟨m₁, r₁, hm₁, hall₁, h₁⟩ := lowerFunc_holds hK step h (hfs f (by simp))
    rw [lowerFuncs]
    simp only [hm₁, ok_bind]
    cases r₁ with
    | error e => exact ⟨m₁, .error e, rfl, hall₁, h₁⟩
    | ok here =>
      obtain ⟨m₂, r₂, hm₂, hall₂, h₂⟩ := lowerFuncs_holds hK step fs m₁
        (fun g hg => hall₁ ▸ hfs g (by simp [hg])) (h₁ (.inr ⟨here, rfl⟩))
      simp only [hm₂, ok_bind]
      cases r₂ with
      | error e =>
        refine ⟨m₂, .error e, rfl, hall₂.trans hall₁, fun hr => h₂ ?_⟩
        rcases hr with hr | ⟨changed, hchanged⟩
        · exact .inl hr
        · cases hchanged
      | ok later =>
        exact ⟨m₂, .ok (here || later), rfl, hall₂.trans hall₁, fun _ => h₂ (.inr ⟨later, rfl⟩)⟩

end DepthStencil

namespace Discard

variable {all nothing : Value}

theorem editFunc_holds (hK : Lasts K) (step : Keeps all nothing K) (kept : AnalysisSet)
    (h : m.Holds K) (hf : func ∈ m.allFuncs) : ∃ changed m',
      m.editFunc kept (edit all nothing) func () = .ok (changed, (), m') ∧
      m'.allFuncs = m.allFuncs ∧ m'.Holds K := by
  obtain ⟨decl, hdecl, hk⟩ := h func hf
  rw [Module.editFunc, Defs.access_of_get? hdecl, ok_bind]
  cases himpl : decl.impl with
  | imported link => exact ⟨false, m, rfl, rfl, h⟩
  | present body =>
    obtain ⟨changed, w, hw, hle, hkeep⟩ := step func m.freshInsts decl body hk himpl
    simp only [hw, ok_bind, pure_eq_ok]
    exact ⟨_, _, rfl, rfl, h.setBody hK hdecl hle (hkeep _)⟩

/-- **What the expanding of discards keeps in one function holds of all functions.** -/
theorem editFuncs_holds (hK : Lasts K) (step : Keeps all nothing K) (kept : AnalysisSet) :
    ∀ (fs : List FuncId) (m : Module), (∀ f ∈ fs, f ∈ m.allFuncs) → m.Holds K →
      ∃ changed m', Module.editFuncs kept (edit all nothing) fs () m = .ok (changed, (), m') ∧
        m'.allFuncs = m.allFuncs ∧ m'.Holds K
  | [], m, _, h => ⟨false, m, rfl, rfl, h⟩
  | f :: fs, m, hfs, h => by
    obtain ⟨here, m₁, hm₁, hall₁, h₁⟩ := editFunc_holds hK step kept h (hfs f (by simp))
    obtain ⟨later, m₂, hm₂, hall₂, h₂⟩ := editFuncs_holds hK step kept fs m₁
      (fun g hg => hall₁ ▸ hfs g (by simp [hg])) h₁
    refine ⟨here || later, m₂, ?_, hall₂.trans hall₁, h₂⟩
    rw [Module.editFuncs]
    simp only [hm₁, ok_bind, hm₂, pure_eq_ok]

end Discard

/-- The mask of all samples has a bit for each of them. -/
theorem LowerConfig.allSamplesValue_eq {config : LowerConfig} (h : 1 ≤ config.maxSamples)
    (h' : config.maxSamples ≤ 16) : ∃ c : Scalar, c.ty = .u16 ∧
      c.bits = 2 ^ config.maxSamples - 1 ∧
      config.allSamplesValue = .ok (.const (.ofScalar c)) := by
  obtain ⟨n⟩ := config
  refine ⟨.truncate .u16 (2 ^ n - 1), rfl, ?_, ?_⟩
  · change n ≤ 16 at h'
    have hlt : 2 ^ n - 1 < 2 ^ 16 := by
      have hle : 2 ^ n ≤ 2 ^ 16 := Nat.pow_le_pow_right (by decide) h'
      have hpos : 0 < 2 ^ n := Nat.two_pow_pos n
      omega
    exact Nat.mod_eq_of_lt hlt
  · change 1 ≤ n at h
    change n ≤ 16 at h'
    interval_cases n <;> rfl

namespace Module.Holds

variable {config : LowerConfig} {always : Prop}

/-- **The stores of a module are merged where those of each function are**, and what that keeps
holds of the module. -/
theorem lowerDepthStencil (h : m.Holds K) (hK : Lasts K) (hlo : 1 ≤ config.maxSamples)
    (hhi : config.maxSamples ≤ 16)
    (step : ∀ c : Scalar, c.ty = .u16 → c.bits = 2 ^ config.maxSamples - 1 →
      DepthStencil.Keeps (.const (.ofScalar c)) always K) :
    ∃ m' r, m.lowerDepthStencil config = .ok (m', r) ∧ m'.allFuncs = m.allFuncs ∧
      ((always ∨ ∃ changed, r = .ok changed) → m'.Holds K) := by
  unfold Module.lowerDepthStencil
  split
  · obtain ⟨c, hc, hbits, hmask⟩ := config.allSamplesValue_eq hlo hhi
    obtain ⟨m', r, hm', hall, h'⟩ := DepthStencil.lowerFuncs_holds hK (step c hc hbits) m.allFuncs
      m (fun _ hf => hf) h
    refine ⟨m', r, ?_, hall, h'⟩
    rw [hmask, ok_bind, hm']
  · exact ⟨m, .ok false, rfl, rfl, fun _ => h⟩

/-- **The discards of a module are expanded where those of each function are**, and what that keeps
holds of the module. -/
theorem lowerDiscard (h : m.Holds K) (hK : Lasts K) (hlo : 1 ≤ config.maxSamples)
    (hhi : config.maxSamples ≤ 16)
    (step : ∀ c : Scalar, c.ty = .u16 → c.bits = 2 ^ config.maxSamples - 1 →
      Discard.Keeps (.const (.ofScalar c)) (.const (.ofScalar (.truncate .u16 0))) K) :
    ∃ m' changed, m.lowerDiscard config = .ok (m', changed) ∧ m'.allFuncs = m.allFuncs ∧
      m'.Holds K := by
  unfold Module.lowerDiscard
  split
  · obtain ⟨c, hc, hbits, hmask⟩ := config.allSamplesValue_eq hlo hhi
    have hnothing : Constant.ofUnsigned .u16 0 = .ok (.ofScalar (.truncate .u16 0)) := rfl
    obtain ⟨changed, m', hm', hall, h'⟩ := Discard.editFuncs_holds hK (step c hc hbits) .flowOnly
      m.allFuncs m (fun _ hf => hf) h
    refine ⟨m', changed, ?_, hall, h'⟩
    rw [hmask, ok_bind, hnothing, ok_bind, Module.edit, hm']
    rfl
  · exact ⟨m, false, rfl, rfl, h⟩

end Module.Holds

end Functions

end ShaderIR
