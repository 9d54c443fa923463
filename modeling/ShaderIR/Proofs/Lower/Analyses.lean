import Mathlib.Logic.Relation
import ShaderIR.Proofs.Flow.DominatorTree
import ShaderIR.Proofs.Lower.Changes
import ShaderIR.Proofs.Lower.Valid

/-!
# Analyses that are kept stay right

* `Body.Current`: every analysis that is kept is what computing it afresh gives.
* `Body.Passed`, `Module.Passed`: what a lowering does to bodies and their analyses.
* `Module.Step`: a step of a compiler: it asks for analyses of a body, drops some, or runs a pass.

Principal statements: `Body.dominators_of_sameFlow` (the dominator tree does not depend on the
instructions), `Pass.run_passed` (what a pass leaves of the analyses) and
`Module.analyses_current` (whatever the steps, no analysis is out of date).
-/

namespace ShaderIR

/-! ## The dominator tree does not depend on the instructions -/

section SameFlow

variable {c c' : Code}

/-- Two searches that both come to an end find the same, whatever their fuel. -/
theorem FlowGraph.search_unique (h : c.SameFlow c') {n n' : Nat} {tasks : List Task}
    {p q q' : Progress} (hq : search c.blocks n tasks p = .ok q)
    (hq' : search c'.blocks n' tasks p = .ok q') : q = q' := by
  induction n generalizing n' tasks p with
  | zero =>
    cases tasks with
    | nil =>
      rw [search] at hq hq'
      exact Except.ok.inj (hq.symm.trans hq')
    | cons task tasks => cases hq
  | succ n ih =>
    cases tasks with
    | nil =>
      rw [search] at hq hq'
      exact Except.ok.inj (hq.symm.trans hq')
    | cons task tasks =>
      cases n' with
      | zero => cases hq'
      | succ n' =>
        cases task with
        | leave b =>
          rw [search] at hq hq'
          exact ih hq hq'
        | enter b =>
          rw [search] at hq hq'
          split at hq
          · rename_i hentered
            rw [if_pos hentered] at hq'
            exact ih hq hq'
          · rename_i hentered
            rw [if_neg hentered] at hq'
            obtain ⟨blk, hblk, hq⟩ := bind_eq_ok.1 hq
            obtain ⟨blk', hblk', hq'⟩ := bind_eq_ok.1 hq'
            obtain ⟨blk'', hblk'', ht⟩ := h.get? (Defs.find_eq_ok.1 hblk)
            obtain rfl := Option.some.inj ((Defs.find_eq_ok.1 hblk').symm.trans hblk'')
            rw [ht] at hq'
            exact ih hq hq'

variable {first : Option BlockId} {d d' : Dominators}

theorem Dominators.ofBlocks_unique (h : c.SameFlow c') (hd : ofBlocks first c.blocks = .ok d)
    (hd' : ofBlocks first c'.blocks = .ok d') : d = d' := by
  obtain ⟨g, hg, hd⟩ := bind_eq_ok.1 hd
  obtain ⟨g', hg', hd'⟩ := bind_eq_ok.1 hd'
  have hgg : g = g' := by
    cases first with
    | none => exact Except.ok.inj (hg.symm.trans hg')
    | some entry =>
      obtain ⟨p, hp, hg⟩ := bind_eq_ok.1 hg
      obtain ⟨p', hp', hg'⟩ := bind_eq_ok.1 hg'
      obtain rfl := FlowGraph.search_unique h hp hp'
      exact Except.ok.inj (hg.symm.trans hg')
  rw [hgg, hd'] at hd
  exact (Except.ok.inj hd).symm

/-- **The dominator tree does not depend on the instructions.** -/
theorem Body.dominators_of_sameFlow {body body' : Body} (hb : body'.blocks = body.blocks)
    (h : body.code.SameFlow body'.code) (hd : body.dominators = .ok d) :
    body'.dominators = .ok d := by
  have hentry : body'.entryBlock? = body.entryBlock? := by rw [entryBlock?, hb, entryBlock?]
  obtain ⟨d', hd', -⟩ := body'.exists_dominators fun b hreached => by
    rw [hentry] at hreached
    obtain ⟨blk, hblk⟩ := Dominators.ofBlocks_reached hd (h.symm.reached hreached)
    obtain ⟨blk', hblk', -⟩ := h.get? hblk
    exact Option.isSome_iff_exists.2 ⟨blk', hblk'⟩
  have hd'' := hd'
  rw [dominators, hentry] at hd''
  rw [hd', Dominators.ofBlocks_unique h hd hd'']

end SameFlow

/-! ## Analyses of a body -/

theorem Analyses.preserve_flowOnly_twice (a : Analyses) :
    (a.preserve .flowOnly).preserve .flowOnly = a.preserve .flowOnly := rfl

namespace Body

variable {body body' body₀ : Body}

/-- Every analysis that is kept is what computing it afresh gives. -/
structure Current (body : Body) : Prop where
  blockIndex : ∀ x, body.cache.blockIndex = some x → body.blockIndex = x
  dominators : ∀ d, body.cache.dominators = some d → body.dominators = .ok d
  instIndex : ∀ x, body.cache.instIndex = some x → body.instIndex = .ok x

/-- What a lowering does to a body: it leaves it alone, with all analyses, or it changes the code
and keeps only what does not depend on the instructions. -/
inductive Passed (body body' : Body) : Prop where
  | same (eq : body' = body)
  | changed (blocks : body'.blocks = body.blocks) (grown : body.code.Grown body'.code)
    (changed : body.code.Changed body'.code) (cache : body'.cache = body.cache.preserve .flowOnly)

theorem Passed.trans (h : body₀.Passed body) (h' : body.Passed body') : body₀.Passed body' := by
  cases h with
  | same eq => exact eq ▸ h'
  | changed blocks grown changed cache =>
    cases h' with
    | same eq =>
      subst eq
      exact .changed blocks grown changed cache
    | changed blocks' grown' changed' cache' =>
      refine .changed (blocks'.trans blocks) (grown.trans grown') (changed.grown grown') ?_
      rw [cache', cache, Analyses.preserve_flowOnly_twice]

/-- New code, with the analyses that are kept of a body that a lowering says to have changed. -/
theorem passed_of_lowered {f : Bool} {c : Code} (h : body.code.Lowered f c) :
    body.Passed ({ body with code := c }.preserve (if f then .flowOnly else .full)) := by
  cases h with
  | same => exact .same rfl
  | changed grown changed => exact .changed rfl grown changed rfl

/-- **No lowering leaves an analysis that is out of date.** -/
theorem Passed.current (h : body.Passed body') (hc : body.Current) : body'.Current := by
  cases h with
  | same eq => exact eq ▸ hc
  | changed blocks grown changed cache =>
    refine ⟨fun x hx => ?_, fun d hd => ?_, fun x hx => ?_⟩
    · rw [cache] at hx
      rw [← hc.blockIndex x hx, blockIndex, blocks, blockIndex]
    · rw [cache] at hd
      exact dominators_of_sameFlow blocks grown.flow (hc.dominators d hd)
    · rw [cache] at hx
      cases hx

theorem slot_eq_some {α : Type} {wanted : Bool} {kept r : Option α} {fresh : Except Fault α} {a : α}
    (h : Analyses.slot wanted kept fresh = .ok r) (hr : r = some a) :
    kept = some a ∨ fresh = .ok a := by
  cases kept with
  | some b =>
    cases h
    exact .inl hr
  | none =>
    cases wanted with
    | false =>
      cases h
      cases hr
    | true =>
      cases fresh with
      | error e => cases h
      | ok b =>
        cases h
        cases hr
        exact .inr rfl

theorem Current.require {wanted : AnalysisSet} (hc : body.Current)
    (h : body.require wanted = .ok body') : body'.Current := by
  obtain ⟨x, hx, h⟩ := bind_eq_ok.1 h
  obtain ⟨d, hd, h⟩ := bind_eq_ok.1 h
  obtain ⟨y, hy, h⟩ := bind_eq_ok.1 h
  cases h
  refine ⟨fun a ha => ?_, fun a ha => ?_, fun a ha => ?_⟩
  · rcases slot_eq_some hx ha with h | h
    · exact hc.blockIndex a h
    · exact Except.ok.inj h
  · exact (slot_eq_some hd ha).elim (hc.dominators a) id
  · exact (slot_eq_some hy ha).elim (hc.instIndex a) id

theorem Current.preserve (hc : body.Current) (kept : AnalysisSet) :
    (body.preserve kept).Current := by
  have hkept : ∀ {α : Type} {f : Bool} {o : Option α} {a : α},
      (if f then o else none) = some a → o = some a := by
    intro α f o a h
    cases f with
    | true => exact h
    | false => cases h
  exact ⟨fun x hx => hc.blockIndex x (hkept hx), fun d hd => hc.dominators d (hkept hd),
    fun x hx => hc.instIndex x (hkept hx)⟩

end Body

/-! ## Analyses of a module -/

/-- What a lowering does to a function. -/
inductive FuncDecl.Passed (decl : FuncDecl) : FuncDecl → Prop where
  | same : Passed decl decl
  | body {body body' : Body} (present : decl.impl = .present body) (passed : body.Passed body') :
    Passed decl { decl with impl := .present body' }

theorem FuncDecl.Passed.trans {decl₀ decl decl' : FuncDecl} (h : decl₀.Passed decl)
    (h' : decl.Passed decl') : decl₀.Passed decl' := by
  cases h with
  | same => exact h'
  | body present passed =>
    cases h' with
    | same => exact .body present passed
    | body present' passed' =>
      cases present'
      exact .body present (passed.trans passed')

/-- One of the lowerings. -/
inductive Pass where
  | depthStencil
  | discard
  | fragment

/-- The module that a lowering leaves, whether it succeeds or stops at an error. -/
def Pass.run (p : Pass) (config : LowerConfig) (m : Module) : Except Fault Module := do
  match p with
  | depthStencil => return (← m.lowerDepthStencil config).1
  | discard => return (← m.lowerDiscard config).1
  | fragment => return (← m.lower config).1

namespace Module

/-- Something holds of every body, also of a function that is not handled. -/
def Each (m : Module) (P : Body → Prop) : Prop :=
  ∀ f decl body, m.funcs.get? f = some decl → decl.impl = .present body → P body

/-- A step of a compiler. -/
inductive Step (m : Module) : Module → Prop where
  /-- Asks for the analyses of a set. -/
  | require {f : FuncId} {decl : FuncDecl} {body body' : Body} (wanted : AnalysisSet)
    (defined : m.funcs.get? f = some decl) (present : decl.impl = .present body)
    (required : body.require wanted = .ok body') : Step m (m.setBody f decl body')
  /-- Drops all analyses but those of a set. -/
  | preserve {f : FuncId} {decl : FuncDecl} {body : Body} (kept : AnalysisSet)
    (defined : m.funcs.get? f = some decl) (present : decl.impl = .present body) :
    Step m (m.setBody f decl (body.preserve kept))
  /-- Lowers the module. -/
  | pass {m' : Module} (p : Pass) (config : LowerConfig) (lowered : p.run config m = .ok m') :
    Step m m'

/-- What a lowering does to a module. -/
def Passed (m m' : Module) : Prop :=
  ∀ f, Option.Rel FuncDecl.Passed (m.funcs.get? f) (m'.funcs.get? f)

variable {m m' m₀ : Module} {f : FuncId} {decl : FuncDecl} {body body' : Body}

theorem Passed.refl (m : Module) : m.Passed m := by
  intro f
  cases m.funcs.get? f with
  | none => exact .none
  | some decl => exact .some .same

theorem Passed.trans (h : m₀.Passed m) (h' : m.Passed m') : m₀.Passed m' := by
  intro f
  have hf := h f
  have hf' := h' f
  generalize m₀.funcs.get? f = o₀, m.funcs.get? f = o, m'.funcs.get? f = o' at hf hf' ⊢
  cases hf with
  | none => exact hf'
  | some hp =>
    cases hf' with
    | some hp' => exact .some (hp.trans hp')

theorem Passed.setBody (defined : m.funcs.get? f = some decl) (present : decl.impl = .present body)
    (h : body.Passed body') (fresh : Supply .inst) :
    m.Passed { m.setBody f decl body' with freshInsts := fresh } := by
  intro g
  show Option.Rel FuncDecl.Passed (m.funcs.get? g)
    ((m.funcs.set f { decl with impl := .present body' }).get? g)
  rw [Defs.get?_set_of_get? defined]
  split
  · rename_i hg
    rw [hg, defined]
    exact .some (.body present h)
  · exact Passed.refl m g

/-- Whoever has a body keeps one that a lowering leaves of it. -/
theorem Passed.exists_after (h : m.Passed m') (defined : m.funcs.get? f = some decl)
    (present : decl.impl = .present body) : ∃ decl' body', m'.funcs.get? f = some decl' ∧
      decl'.impl = .present body' ∧ body.Passed body' := by
  have hf := h f
  rw [defined] at hf
  generalize m'.funcs.get? f = o at hf
  cases hf with
  | some hp =>
    cases hp with
    | same => exact ⟨decl, body, rfl, present, .same rfl⟩
    | body present' passed =>
      obtain rfl := FuncDef.present.inj (present.symm.trans present')
      exact ⟨_, _, rfl, rfl, passed⟩

/-- Nobody gets a body who has had none. -/
theorem Passed.exists_before (h : m.Passed m') (defined : m'.funcs.get? f = some decl)
    (present : decl.impl = .present body) : ∃ decl' body', m.funcs.get? f = some decl' ∧
      decl'.impl = .present body' ∧ body'.Passed body := by
  have hf := h f
  rw [defined] at hf
  generalize m.funcs.get? f = o at hf
  cases hf with
  | some hp =>
    cases hp with
    | same => exact ⟨decl, body, rfl, present, .same rfl⟩
    | body present' passed =>
      obtain rfl := FuncDef.present.inj present
      exact ⟨_, _, rfl, present', passed⟩

end Module

/-! ## Both lowerings -/

namespace DepthStencil

variable {mask : Value} {m m' : Module} {f : FuncId}

theorem kept_eq (r : Except Aspect Bool) : kept r = if altered r then .flowOnly else .full := by
  cases r with
  | error a => rfl
  | ok changed => cases changed <;> rfl

theorem lowerFunc_passed {r : Except LowerError Bool} (h : lowerFunc mask f m = .ok (m', r)) :
    m.Passed m' := by
  obtain ⟨decl, hdecl, h⟩ := bind_eq_ok.1 h
  have hdecl := Defs.access_eq_ok.1 hdecl
  cases himpl : decl.impl with
  | imported link =>
    rw [himpl] at h
    cases h
    exact .refl _
  | present body =>
    rw [himpl] at h
    obtain ⟨⟨w, result⟩, hblocks, h⟩ := bind_eq_ok.1 h
    cases h
    rw [kept_eq]
    exact .setBody hdecl himpl (Body.passed_of_lowered (lowerBlocks_lowered hblocks)) w.fresh

theorem lowerFuncs_passed {fs : List FuncId} {r : Except LowerError Bool}
    (h : lowerFuncs mask fs m = .ok (m', r)) : m.Passed m' := by
  induction fs generalizing m m' r with
  | nil =>
    cases h
    exact .refl _
  | cons f fs ih =>
    obtain ⟨⟨m₁, here⟩, hfunc, h⟩ := bind_eq_ok.1 h
    have hfirst := lowerFunc_passed hfunc
    cases here with
    | error e =>
      cases h
      exact hfirst
    | ok here =>
      obtain ⟨⟨m₂, later⟩, hfuncs, h⟩ := bind_eq_ok.1 h
      have hboth := hfirst.trans (ih hfuncs)
      cases later <;> cases h <;> exact hboth

end DepthStencil

namespace Edit.Honest

variable {σ : Type} {edit : Edit σ} {m m' : Module} {s s' : σ} {changed : Bool}

theorem editFunc (he : edit.Honest) {f : FuncId}
    (h : m.editFunc .flowOnly edit f s = .ok (changed, s', m')) : m.Passed m' := by
  obtain ⟨decl, hdecl, h⟩ := bind_eq_ok.1 h
  have hdecl := Defs.access_eq_ok.1 hdecl
  cases himpl : decl.impl with
  | imported link =>
    rw [himpl] at h
    cases h
    exact .refl _
  | present body =>
    rw [himpl] at h
    obtain ⟨⟨here, s₁, w⟩, hblocks, h⟩ := bind_eq_ok.1 h
    cases h
    exact .setBody hdecl himpl (Body.passed_of_lowered (he.inBlocks hblocks)) w.fresh

theorem editFuncs (he : edit.Honest) {fs : List FuncId}
    (h : m.editFuncs .flowOnly edit fs s = .ok (changed, s', m')) : m.Passed m' := by
  induction fs generalizing m m' s s' changed with
  | nil =>
    cases h
    exact .refl _
  | cons f fs ih =>
    obtain ⟨⟨here, s₁, m₁⟩, hfunc, h⟩ := bind_eq_ok.1 h
    obtain ⟨⟨later, s₂, m₂⟩, hfuncs, h⟩ := bind_eq_ok.1 h
    cases h
    exact (he.editFunc hfunc).trans (ih hfuncs)

end Edit.Honest

section Passes

variable {m m' : Module} {config : LowerConfig}

theorem Module.lowerDepthStencil_passed {r : Except LowerError Bool}
    (h : m.lowerDepthStencil config = .ok (m', r)) : m.Passed m' := by
  unfold lowerDepthStencil at h
  split at h
  · obtain ⟨mask, -, h⟩ := bind_eq_ok.1 h
    exact DepthStencil.lowerFuncs_passed h
  · cases h
    exact .refl _

theorem Module.lowerDiscard_passed {changed : Bool}
    (h : m.lowerDiscard config = .ok (m', changed)) : m.Passed m' := by
  unfold lowerDiscard at h
  split at h
  · obtain ⟨all, -, h⟩ := bind_eq_ok.1 h
    obtain ⟨nothing, -, h⟩ := bind_eq_ok.1 h
    obtain ⟨⟨changed, s, m₁⟩, hedit, h⟩ := bind_eq_ok.1 h
    cases h
    exact Discard.edit_honest.editFuncs hedit
  · cases h
    exact .refl _

theorem Module.lower_passed {r : Except LowerError Bool} (h : m.lower config = .ok (m', r)) :
    m.Passed m' := by
  unfold lower at h
  split at h
  · obtain ⟨⟨m₁, merged⟩, hmerge, h⟩ := bind_eq_ok.1 h
    have hfirst := lowerDepthStencil_passed hmerge
    cases merged with
    | error e =>
      cases h
      exact hfirst
    | ok merged =>
      obtain ⟨⟨m₂, discarded⟩, hdiscard, h⟩ := bind_eq_ok.1 h
      cases h
      exact hfirst.trans (lowerDiscard_passed hdiscard)
  · cases h
    exact .refl _

/-- **A pass leaves a body alone, or it changes the code** and keeps only the analyses that do not
depend on the instructions. -/
theorem Pass.run_passed {p : Pass} (h : p.run config m = .ok m') : m.Passed m' := by
  cases p with
  | depthStencil =>
    obtain ⟨⟨m₁, r⟩, hrun, h⟩ := bind_eq_ok.1 h
    cases h
    exact Module.lowerDepthStencil_passed hrun
  | discard =>
    obtain ⟨⟨m₁, r⟩, hrun, h⟩ := bind_eq_ok.1 h
    cases h
    exact Module.lowerDiscard_passed hrun
  | fragment =>
    obtain ⟨⟨m₁, r⟩, hrun, h⟩ := bind_eq_ok.1 h
    cases h
    exact Module.lower_passed hrun

end Passes

namespace Module

variable {m m' : Module}

theorem Each.setBody {P : Body → Prop} (h : m.Each P) {f : FuncId} {decl : FuncDecl} {body : Body}
    (defined : m.funcs.get? f = some decl) (hp : P body) : (m.setBody f decl body).Each P := by
  intro g decl' body' hdecl himpl
  change (m.funcs.set f { decl with impl := .present body }).get? g = some decl' at hdecl
  rw [Defs.get?_set_of_get? defined] at hdecl
  split at hdecl
  · cases hdecl
    cases himpl
    exact hp
  · exact h g decl' body' hdecl himpl

/-- One step leaves no analysis that is out of date. -/
theorem Step.current (h : m.Step m') (hc : m.Each Body.Current) : m'.Each Body.Current := by
  cases h with
  | require wanted defined present required =>
    exact hc.setBody defined ((hc _ _ _ defined present).require required)
  | preserve kept defined present =>
    exact hc.setBody defined ((hc _ _ _ defined present).preserve kept)
  | pass p config lowered =>
    intro f decl body defined present
    obtain ⟨decl', body', defined', present', passed⟩ :=
      (Pass.run_passed lowered).exists_before defined present
    exact passed.current (hc f decl' body' defined' present')

/-- **No analysis is ever out of date.**  Let no analysis be kept at first.  Then, after any steps,
in any order and however often, every analysis that is kept is what computing it afresh gives; and
whatever a pass returns, it leaves a body alone with all analyses that are kept of it, or it changes
the code, and keeps all but the positions of the instructions. -/
theorem analyses_current (m m' : Module) (fresh : m.Each fun body => body.cache = .empty)
    (run : Relation.ReflTransGen Step m m') :
    m'.Each Body.Current ∧ ∀ p config m'', Pass.run p config m' = .ok m'' →
      ∀ f decl body, m'.funcs.get? f = some decl → decl.impl = .present body →
        ∃ decl' body', m''.funcs.get? f = some decl' ∧ decl'.impl = .present body' ∧
          body'.blocks = body.blocks ∧
          ((body'.code = body.code ∧ body'.cache = body.cache) ∨
            (body'.code ≠ body.code ∧ body'.cache = body.cache.preserve .flowOnly)) := by
  refine ⟨?_, fun p config m'' hp f decl body defined present => ?_⟩
  · induction run with
    | refl =>
      intro f decl body defined present
      have hempty : body.cache = .empty := fresh f decl body defined present
      refine ⟨fun x hx => ?_, fun d hd => ?_, fun x hx => ?_⟩
      · rw [hempty] at hx
        cases hx
      · rw [hempty] at hd
        cases hd
      · rw [hempty] at hx
        cases hx
    | tail _ step ih => exact step.current ih
  · obtain ⟨decl', body', defined', present', passed⟩ :=
      (Pass.run_passed hp).exists_after defined present
    refine ⟨decl', body', defined', present', ?_⟩
    cases passed with
    | same eq =>
      subst eq
      exact ⟨rfl, .inl ⟨rfl, rfl⟩⟩
    | changed blocks grown changed cache => exact ⟨blocks, .inr ⟨changed.ne, cache⟩⟩

/-- All analyses of the sample are asked for, and it is lowered: the dominator tree is kept and
still right, and the positions of the instructions are not. -/
theorem sampleFragment_analyses_current : ∃ m₁ m₂, sampleFragment.Step m₁ ∧ m₁.Step m₂ ∧
    m₂.Each Body.Current ∧ ∃ decl body, m₂.funcs.get? ⟨0⟩ = some decl ∧
      decl.impl = .present body ∧ body.cache.dominators ≠ none ∧ body.cache.instIndex = none := by
  have fresh : sampleFragment.Each fun body => body.cache = .empty := by
    intro f decl body defined present
    have hmem := Defs.mem_entries_of_get? defined
    obtain ⟨-, rfl⟩ := Prod.mk.inj (List.mem_singleton.1 hmem)
    cases present
    rfl
  obtain ⟨body₁, m₂, hbody₁, hm₂, hall⟩ : ∃ body₁ m₂,
      Body.sampleFragment.require .full = .ok body₁ ∧
      Pass.fragment.run .eightSamples
        (sampleFragment.setBody ⟨0⟩ ⟨"main", .present .sampleFragment⟩ body₁) = .ok m₂ ∧
      ∃ decl body, m₂.funcs.get? ⟨0⟩ = some decl ∧ decl.impl = .present body ∧
        body.cache.dominators ≠ none ∧ body.cache.instIndex = none :=
    ⟨_, _, rfl, rfl, _, _, rfl, rfl, nofun, rfl⟩
  have step₁ : sampleFragment.Step
      (sampleFragment.setBody ⟨0⟩ ⟨"main", .present .sampleFragment⟩ body₁) :=
    .require .full rfl rfl hbody₁
  have step₂ : Step _ m₂ := .pass .fragment .eightSamples hm₂
  obtain ⟨hcurrent, -⟩ := analyses_current sampleFragment m₂ fresh (.tail (.single step₁) step₂)
  exact ⟨_, m₂, step₁, step₂, hcurrent, hall⟩

end Module

end ShaderIR
