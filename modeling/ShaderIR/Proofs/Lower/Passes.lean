import ShaderIR.Proofs.Lower.Gather
import ShaderIR.Proofs.Lower.Replace

/-!
# What the passes have done to a module

For passes that return, whatever they return.

* `Inst.Stores`: an instruction stores to the output of an aspect.
* `Body.Free`: none of the instructions in the listed blocks of a body is of some kind.
* `Body.Rewritten`: the blocks of a body have been rewritten, and what has been lost of them has
  been handed over.

Principal statements: `Module.lowerDepthStencil_ran` and `Module.lowerDiscard_ran` (a lowering goes
through all functions or leaves the module alone), `Module.lowerDepthStencil_rewritten` and
`Module.lowerDiscard_rewritten` (what it does to the bodies), `Module.lowerDepthStencil_free` and
`Module.lowerDiscard_free` (what is left nowhere, and when something has been changed).
-/

namespace ShaderIR

/-- An instruction stores to the output of an aspect. -/
def Inst.Stores (i : Inst) : Prop := i.stores? ≠ none

namespace Body

/-- None of the instructions in the listed blocks is of some kind. -/
def Free (P : Inst → Prop) (body : Body) : Prop := ∀ i, body.Has i → ¬ P i

/-- The blocks of a body have been rewritten, with new identities from `n` on, and what has been
lost of them has been handed over. -/
structure Rewritten (lowers : Inst → Prop) (n : Nat) (body body' : Body) : Prop where
  blocks : body'.blocks = body.blocks
  flow : body.code.SameFlow body'.code
  accounted : body.Accounted → body'.Accounted
  rows : ∃ rows rows', body.code.Shows rows ∧ body'.code.Shows rows' ∧
    ∀ b, ShaderIR.Rewritten lowers n (rows b) (rows' b)

variable {body body' body₀ : Body} {rows : BlockId → List Row} {P lowers lowers' : Inst → Prop}
  {n : Nat} {s s' : Supply .inst}

theorem has_iff (h : body.code.Shows rows) {i : Inst} :
    body.Has i ↔ ∃ b ∈ body.blocks, ∃ r ∈ rows b, r.2 = i := by
  constructor
  · rintro ⟨b, hb, ids, hids, id, hid, hi⟩
    have hlinks : body.code.Links b id := ⟨ids, hids, hid⟩
    exact ⟨b, hb, _, h.mem_of_links (h.links_iff.1 hlinks) (Code.inst_eq_ok.1 hi), rfl⟩
  · rintro ⟨b, hb, r, hr, rfl⟩
    exact has_of_mem h hb hr

theorem free_iff (h : body.code.Shows rows) :
    body.Free P ↔ ∀ b ∈ body.blocks, ∀ r ∈ rows b, ¬ P r.2 := by
  constructor
  · intro hfree b hb r hr
    exact hfree r.2 ((has_iff h).2 ⟨b, hb, r, hr, rfl⟩)
  · intro hrows i hi
    obtain ⟨b, hb, r, hr, rfl⟩ := (has_iff h).1 hi
    exact hrows b hb r hr

/-- **What is left nowhere once a body has been gone through**, and when that has changed it. -/
theorem Swept.free {ε : Type} {B : Nat → List Row → List Row → Except ε Bool → Prop} {c : Bool}
    (h : Swept B s body s' body' (.ok c))
    (step : ∀ rs out c, B s.next rs out (.ok c) →
      (∀ r ∈ out, ¬ P r.2) ∧ (c = true ↔ ¬ ∀ r ∈ rs, ¬ P r.2)) :
    body'.Free P ∧ (c = true ↔ ¬ body.Free P) := by
  obtain ⟨rows, rows', hrows, hd, hsweeps⟩ := h.rows
  have hrows' : body'.code.Shows rows' := hd.shows
  rw [free_iff hrows, free_iff hrows', h.blocks]
  refine ⟨hsweeps.cleared (fun rs out c hB => (step rs out c hB).1) rfl, ?_⟩
  rw [hsweeps.changed_iff step rfl]
  simp only [not_forall, exists_prop]

/-- **What is done to the rows of every block** once a body has been gone through. -/
theorem Swept.rewritten {ε : Type} {B : Nat → List Row → List Row → Except ε Bool → Prop}
    {r : Except ε Bool} (h : Swept B s body s' body' r) (hl : ∀ i, lowers i → i.IsLowered)
    (step : ∀ rs out r, B s.next rs out r → ShaderIR.Rewritten lowers s.next rs out)
    (hn : n ≤ s.next) : body.Rewritten lowers n body' := by
  obtain ⟨rows, rows', hrows, hd, hsweeps⟩ := h.rows
  refine ⟨h.blocks, hd.flow, h.accounted, rows, rows', hrows, hd.shows, ?_⟩
  exact hsweeps.each (.refl _ n) (fun _ _ _ h h' => h.trans hl h') fun _ _ _ hB =>
    (step _ _ _ hB).of_le hn

namespace Rewritten

theorem refl (h : body.ChainsLinked) (lowers : Inst → Prop) (n : Nat) :
    body.Rewritten lowers n body := by
  obtain ⟨rows, hrows⟩ := h.exists_shows
  exact ⟨rfl, .refl _, id, rows, rows, hrows, hrows, fun b => .refl lowers n (rows b)⟩

theorem linked (h : body.Rewritten lowers n body') : body'.ChainsLinked := by
  obtain ⟨rows, rows', -, hrows', -⟩ := h.rows
  exact ⟨_, hrows'.layout⟩

theorem mono {n' : Nat} (h : body.Rewritten lowers n body') (hl : ∀ i, lowers i → lowers' i)
    (hn : n' ≤ n) : body.Rewritten lowers' n' body' := by
  obtain ⟨rows, rows', hrows, hrows', hR⟩ := h.rows
  exact ⟨h.blocks, h.flow, h.accounted, rows, rows', hrows, hrows', fun b =>
    ((hR b).mono hl).of_le hn⟩

theorem trans (hl : ∀ i, lowers i → i.IsLowered) (h : body₀.Rewritten lowers n body)
    (h' : body.Rewritten lowers n body') : body₀.Rewritten lowers n body' := by
  obtain ⟨rows₀, rows, hrows₀, hrows, hR⟩ := h.rows
  obtain ⟨rows₂, rows', hrows₂, hrows', hR'⟩ := h'.rows
  obtain rfl := hrows.rows_eq hrows₂
  exact ⟨h'.blocks.trans h.blocks, h.flow.trans h'.flow, fun ha => h'.accounted (h.accounted ha),
    rows₀, rows', hrows₀, hrows', fun b => (hR b).trans hl (hR' b)⟩

/-- A rewriting brings nothing that a lowering takes away. -/
theorem free (h : body.Rewritten lowers n body') (hP : ∀ i, P i → i.IsLowered)
    (hfree : body.Free P) : body'.Free P := by
  obtain ⟨rows, rows', hrows, hrows', hR⟩ := h.rows
  rw [free_iff hrows'] at *
  rw [free_iff hrows] at hfree
  intro b hb r hr hp
  exact hfree b (h.blocks ▸ hb) r ((hR b).old hr (hP _ hp)) hp

/-- A rewriting does not touch what it does not take away. -/
theorem free_iff (h : body.Rewritten lowers n body') (hP : ∀ i, P i → i.IsLowered)
    (hother : ∀ i, P i → ¬ lowers i) : body'.Free P ↔ body.Free P := by
  refine ⟨fun hfree => ?_, h.free hP⟩
  obtain ⟨rows, rows', hrows, hrows', hR⟩ := h.rows
  rw [Body.free_iff hrows'] at hfree
  refine (Body.free_iff hrows).2 fun b hb r hr hp => ?_
  exact hfree b (h.blocks ▸ hb) r ((hR b).kept r hr (hother _ hp)) hp

end Rewritten

end Body

namespace DepthStencil

theorem storeFree_iff {rs : List Row} : StoreFree rs ↔ ∀ r ∈ rs, ¬ r.2.Stores := by
  simp only [StoreFree, Inst.Stores, not_not]

variable {mask : Value} {name : String} {n : Nat} {s s' : Supply .inst} {body body' : Body}
  {r : Except LowerError Bool} {c : Bool}

theorem Merging.rewritten (h : Merging mask name s body s' body' r) :
    s.next ≤ s'.next ∧ body'.Linked s' ∧ ∀ n ≤ s.next, body.Rewritten Inst.Stores n body' := by
  obtain ⟨r', -, hswept⟩ := h
  exact ⟨hswept.le, hswept.linked, fun _ => hswept.rewritten (fun _ => .inl)
    fun _ _ _ hsweep => hsweep.rewritten⟩

theorem Merging.free (h : Merging mask name s body s' body' (.ok c)) :
    body'.Free Inst.Stores ∧ (c = true ↔ ¬ body.Free Inst.Stores) := by
  refine h.swept.free fun rs out c hsweep => ?_
  rw [← storeFree_iff, ← storeFree_iff]
  exact hsweep.cleared

end DepthStencil

namespace Discard

variable {all nothing : Value} {name : String} {n : Nat} {s s' : Supply .inst} {body body' : Body}
  {r : Except LowerError Bool} {c : Bool}

theorem Replacing.rewritten (h : Replacing all nothing name s body s' body' r) :
    s.next ≤ s'.next ∧ body'.Linked s' ∧ ∀ n ≤ s.next, body.Rewritten Inst.IsDiscard n body' :=
  ⟨h.le, h.linked, fun _ => Body.Swept.rewritten h (fun _ => .inr)
    fun _ _ _ hsweep => hsweep.rewritten⟩

theorem Replacing.free (h : Replacing all nothing name s body s' body' (.ok c)) :
    body'.Free Inst.IsDiscard ∧ (c = true ↔ ¬ body.Free Inst.IsDiscard) :=
  Body.Swept.free h fun _ _ _ hsweep => hsweep.cleared

end Discard

/-! ## Modules -/

/-- A mask of all samples is there only if the target has some, and not too many. -/
theorem LowerConfig.range_of_allSamplesValue {config : LowerConfig} {v : Value}
    (h : config.allSamplesValue = .ok v) : 1 ≤ config.maxSamples ∧ config.maxSamples ≤ 16 := by
  obtain ⟨n, hn, -⟩ := bind_eq_ok.1 h
  unfold allSamples at hn
  split at hn
  · assumption
  · cases hn

namespace Module

variable {m m' : Module} {config : LowerConfig}

/-- **The depth/stencil lowering goes through all functions**, or it leaves the module alone. -/
theorem lowerDepthStencil_ran {r : Except LowerError Bool} (h : m.Linked m.allFuncs)
    (hrun : m.lowerDepthStencil config = .ok (m', r)) :
    (m.info.outputs.intersects .depthStencil = false ∧ m' = m ∧ r = .ok false) ∨
    (m.info.outputs.intersects .depthStencil = true ∧ ∃ mask,
      config.allSamplesValue = .ok mask ∧
      Walk (DepthStencil.Merging mask) m.allFuncs m m' r) := by
  unfold lowerDepthStencil at hrun
  split at hrun
  · rename_i hwrites
    obtain ⟨mask, hmask, hrun⟩ := bind_eq_ok.1 hrun
    exact .inr ⟨hwrites, mask, hmask, DepthStencil.lowerFuncs_walk h hrun⟩
  · rename_i hwrites
    cases hrun
    exact .inl ⟨by simpa using hwrites, rfl, rfl⟩

/-- **The discard lowering goes through all functions**, or it leaves the module alone. -/
theorem lowerDiscard_ran {changed : Bool} (h : m.Linked m.allFuncs)
    (hrun : m.lowerDiscard config = .ok (m', changed)) :
    (m.info.usesDiscard = false ∧ m' = m ∧ changed = false) ∨
    (m.info.usesDiscard = true ∧ ∃ all nothing, config.allSamplesValue = .ok all ∧
      Constant.ofUnsigned .u16 0 = .ok nothing ∧
      Walk (Discard.Replacing all (.const nothing)) m.allFuncs m m' (.ok changed)) := by
  unfold lowerDiscard at hrun
  split at hrun
  · rename_i huses
    obtain ⟨all, hall, hrun⟩ := bind_eq_ok.1 hrun
    obtain ⟨nothing, hnothing, hrun⟩ := bind_eq_ok.1 hrun
    obtain ⟨⟨changed, ⟨⟩, m₁⟩, hedit, hrun⟩ := bind_eq_ok.1 hrun
    cases hrun
    refine .inr ⟨huses, all, nothing, hall, hnothing, ?_⟩
    obtain ⟨hlo, hhi⟩ := LowerConfig.range_of_allSamplesValue hall
    obtain ⟨c, hty, -, hc⟩ := LowerConfig.allSamplesValue_eq hlo hhi
    rw [hc] at hall
    obtain rfl := Except.ok.inj hall
    have hty : (Constant.ofScalar c).ty = .u16 := hty
    exact Discard.editFuncs_walk hty rfl h hedit
  · rename_i huses
    cases hrun
    exact .inl ⟨by simpa using huses, rfl, rfl⟩

/-- What a pass has done to the bodies of a module: those that are linked have been rewritten. -/
def Rewritten (lowers : Inst → Prop) (n : Nat) (m m' : Module) : Prop :=
  m.Related (fun body body' => body.ChainsLinked → body.Rewritten lowers n body') m'

section Rewritten

variable {lowers lowers' : Inst → Prop} {n : Nat} {m₀ : Module}

theorem Rewritten.refl (lowers : Inst → Prop) (n : Nat) (m : Module) : m.Rewritten lowers n m :=
  Related.refl (fun _ h => .refl h lowers n) m

theorem Rewritten.mono {n' : Nat} (h : m.Rewritten lowers n m')
    (hl : ∀ i, lowers i → lowers' i) (hn : n' ≤ n) : m.Rewritten lowers' n' m' :=
  Related.mono (fun _ _ _ _ _ => trivial) (fun _ _ _ hR hlinked => (hR hlinked).mono hl hn) h

theorem Rewritten.trans (hl : ∀ i, lowers i → i.IsLowered) (h : m₀.Rewritten lowers n m)
    (h' : m.Rewritten lowers n m') : m₀.Rewritten lowers n m' :=
  Related.trans (fun _ _ _ hR hR' hlinked => (hR hlinked).trans hl (hR' (hR hlinked).linked)) h h'

end Rewritten

/-- **What is done to a body has been done to all bodies that were linked**, and they stay so. -/
theorem Walk.rewritten
    {Q : String → Supply .inst → Body → Supply .inst → Body → Except LowerError Bool → Prop}
    {lowers : Inst → Prop} {fs : List FuncId} {r : Except LowerError Bool} (h : Walk Q fs m m' r)
    (hl : ∀ i, lowers i → i.IsLowered)
    (step : ∀ name s body s' body' r, Q name s body s' body' r →
      s.next ≤ s'.next ∧ body'.Linked s' ∧ ∀ n ≤ s.next, body.Rewritten lowers n body') :
    m.Rewritten lowers m.freshInsts.next m' ∧ ∀ gs, m.Linked gs → m'.Linked gs := by
  constructor
  · refine h.related (Nat.le_refl _) (fun _ hlinked => .refl hlinked _ _)
      (fun _ _ _ hR hR' hlinked => (hR hlinked).trans hl (hR' (hR hlinked).linked)) ?_
    intro name s body s' body' r hn hQ
    obtain ⟨hle, -, hR⟩ := step _ _ _ _ _ _ hQ
    exact ⟨hle, fun _ => hR _ hn⟩
  · intro gs hm
    refine h.linked hm fun name s body s' body' r hQ => ?_
    obtain ⟨hle, hlinked, -⟩ := step _ _ _ _ _ _ hQ
    exact ⟨hle, hlinked⟩

/-- What the depth/stencil lowering has done, whatever it returns. -/
theorem lowerDepthStencil_rewritten {r : Except LowerError Bool} (h : m.Linked m.allFuncs)
    (hrun : m.lowerDepthStencil config = .ok (m', r)) :
    m.Rewritten Inst.Stores m.freshInsts.next m' ∧ ∀ gs, m.Linked gs → m'.Linked gs := by
  rcases lowerDepthStencil_ran h hrun with ⟨-, rfl, -⟩ | ⟨-, mask, -, hwalk⟩
  · exact ⟨.refl _ _ _, fun _ => id⟩
  · exact hwalk.rewritten (fun _ => .inl) fun _ _ _ _ _ _ hQ => hQ.rewritten

/-- What the discard lowering has done. -/
theorem lowerDiscard_rewritten {changed : Bool} (h : m.Linked m.allFuncs)
    (hrun : m.lowerDiscard config = .ok (m', changed)) :
    m.Rewritten Inst.IsDiscard m.freshInsts.next m' ∧ ∀ gs, m.Linked gs → m'.Linked gs := by
  rcases lowerDiscard_ran h hrun with ⟨-, rfl, -⟩ | ⟨-, all, nothing, -, -, hwalk⟩
  · exact ⟨.refl _ _ _, fun _ => id⟩
  · exact hwalk.rewritten (fun _ => .inr) fun _ _ _ _ _ _ hQ => hQ.rewritten

/-- No body of a function that is handled has an instruction of some kind. -/
def Free (P : Inst → Prop) (m : Module) : Prop := m.Every (Body.Free P)

theorem lowerDepthStencil_free {c : Bool} (h : m.Linked m.allFuncs)
    (hrun : m.lowerDepthStencil config = .ok (m', .ok c))
    (hwrites : m.info.outputs.intersects .depthStencil = true) : m'.Free Inst.Stores ∧
      (c = true ↔ ¬ m.Free Inst.Stores) := by
  rcases lowerDepthStencil_ran h hrun with ⟨hnot, -⟩ | ⟨-, mask, -, hwalk⟩
  · rw [hnot] at hwrites
    cases hwrites
  · have hall := (lowerDepthStencil_rewritten h hrun).1.allFuncs
    refine ⟨fun f hf => hwalk.cleared (fun _ _ _ _ _ _ hQ => hQ.free.1) rfl f (hall ▸ hf), ?_⟩
    rw [hwalk.changed_iff (fun _ _ _ _ _ _ hQ => hQ.free) rfl]
    simp [Module.Some, Free, Every]

theorem lowerDiscard_free {changed : Bool} (h : m.Linked m.allFuncs)
    (hrun : m.lowerDiscard config = .ok (m', changed)) (huses : m.info.usesDiscard = true) :
    m'.Free Inst.IsDiscard ∧ (changed = true ↔ ¬ m.Free Inst.IsDiscard) := by
  rcases lowerDiscard_ran h hrun with ⟨hnot, -⟩ | ⟨-, all, nothing, -, -, hwalk⟩
  · rw [hnot] at huses
    cases huses
  · have hall := (lowerDiscard_rewritten h hrun).1.allFuncs
    refine ⟨fun f hf => hwalk.cleared (fun _ _ _ _ _ _ hQ => hQ.free.1) rfl f (hall ▸ hf), ?_⟩
    rw [hwalk.changed_iff (fun _ _ _ _ _ _ hQ => hQ.free) rfl]
    simp [Module.Some, Free, Every]

/-- The lowering of a fragment shader is the one lowering and then the other. -/
theorem lower_ran {r : Except LowerError Bool} (hrun : m.lower config = .ok (m', r)) :
    (m' = m ∧ r = .error (.notFragment m.info.stage)) ∨
    (∃ e, r = .error e ∧ m.lowerDepthStencil config = .ok (m', .error e)) ∨
    ∃ m₁ merged discarded, m.lowerDepthStencil config = .ok (m₁, .ok merged) ∧
      m₁.lowerDiscard config = .ok (m', discarded) ∧ r = .ok (merged || discarded) := by
  unfold lower at hrun
  split at hrun
  · obtain ⟨⟨m₁, merged⟩, hmerge, hrun⟩ := bind_eq_ok.1 hrun
    cases merged with
    | error e =>
      cases hrun
      exact .inr (.inl ⟨e, rfl, hmerge⟩)
    | ok merged =>
      obtain ⟨⟨m₂, discarded⟩, hdiscard, hrun⟩ := bind_eq_ok.1 hrun
      cases hrun
      exact .inr (.inr ⟨m₁, merged, discarded, hmerge, hdiscard, rfl⟩)
  · cases hrun
    exact .inl ⟨rfl, rfl⟩

/-- What one lowering has left nowhere, another does not bring back. -/
theorem Rewritten.free {lowers P : Inst → Prop} {n : Nat} (h : m.Rewritten lowers n m')
    (hm : m.Linked m.allFuncs) (hP : ∀ i, P i → i.IsLowered) (hfree : m.Free P) : m'.Free P := by
  intro f hf decl body hdecl himpl
  obtain ⟨decl', body', hdecl', himpl', -, hR⟩ := h.exists_before hdecl himpl
  rw [h.allFuncs] at hf
  have hchains := (hm f hf decl' body' hdecl' himpl').chains
  exact (hR hchains).free hP (hfree f hf decl' body' hdecl' himpl')

/-- What the lowering of a fragment shader has done, whatever it returns. -/
theorem lower_rewritten {r : Except LowerError Bool} (h : m.Linked m.allFuncs)
    (hrun : m.lower config = .ok (m', r)) :
    m.Rewritten Inst.IsLowered m.freshInsts.next m' ∧ (∀ gs, m.Linked gs → m'.Linked gs) ∧
    ∀ c, r = .ok c →
      (m.info.outputs.intersects .depthStencil = true → m'.Free Inst.Stores) ∧
      (m.info.usesDiscard = true → m'.Free Inst.IsDiscard) := by
  rcases lower_ran hrun with
    ⟨rfl, rfl⟩ | ⟨e, rfl, hmerge⟩ | ⟨m₁, merged, discarded, hmerge, hdiscard, rfl⟩
  · exact ⟨.refl _ _ _, fun _ => id, nofun⟩
  · obtain ⟨hR, hlinked⟩ := lowerDepthStencil_rewritten h hmerge
    exact ⟨hR.mono (fun _ => .inl) (Nat.le_refl _), hlinked, nofun⟩
  · obtain ⟨hR, hlinked⟩ := lowerDepthStencil_rewritten h hmerge
    have h₁ : m₁.Linked m₁.allFuncs := hlinked _ (hR.allFuncs ▸ h)
    obtain ⟨hR₁, hlinked₁⟩ := lowerDiscard_rewritten h₁ hdiscard
    have hmerged : m.Rewritten Inst.IsLowered m.freshInsts.next m₁ :=
      hR.mono (fun _ => .inl) (Nat.le_refl _)
    refine ⟨hmerged.trans (fun _ => id) (hR₁.mono (fun _ => .inr) hR.le),
      fun gs hgs => hlinked₁ gs (hlinked gs hgs), fun c _ => ⟨fun hwrites => ?_, fun huses => ?_⟩⟩
    · exact hR₁.free h₁ (fun _ => .inl) (lowerDepthStencil_free h hmerge hwrites).1
    · exact (lowerDiscard_free h₁ hdiscard (hR.info ▸ huses)).1

end Module

end ShaderIR
