import ShaderIR.Proofs.Lower.Reduced
import ShaderIR.Proofs.Text.Legible

/-!
# The two lowerings commute

* `Module.Handled`: what has been done to the bodies of the functions that are handled.
* `Module.Alike`: two modules have the same text and the same analyses.

Principal statements: `Module.lowerDepthStencil_handled` and `Module.lowerDiscard_handled` (what
each lowering has done to the bodies), `Module.lowerDepthStencil_result` (what is returned depends
on the stores only) and `Module.lowerings_commute`.
-/

namespace ShaderIR

/-! ## One lowering -/

/-- The same aspects are stored in all blocks of two bodies. -/
structure Body.StoresAlike (body body' : Body) : Prop where
  blocks : body'.blocks = body.blocks
  rows : ∃ rows rows', body.code.Shows rows ∧ body'.code.Shows rows' ∧
    ∀ b, (rows b).filterMap (fun r => r.2.stores?) = (rows' b).filterMap fun r => r.2.stores?

theorem Body.Replaced.storesAlike {all nothing : Value} {n : Nat} {body body' : Body}
    (h : body.Replaced all nothing n body') : body.StoresAlike body' := by
  obtain ⟨rows, rows', hrows, hrows', hlisted, hothers⟩ := h.rows
  refine ⟨h.blocks, rows, rows', hrows, hrows', fun b => ?_⟩
  by_cases hb : b ∈ body.blocks
  · obtain ⟨choice, kill, -, -, hout⟩ := hlisted b hb
    rw [hout, Discard.stored_reference]
  · rw [hothers b hb]

namespace DepthStencil

variable {mask mask₂ : Value} {name : String} {s s' s₂ s₂' : Supply .inst}
  {body body' body₂ body₂' : Body} {r r₂ : Except LowerError Bool} {c : Bool}

/-- A body is cleared of stores, and left as it is if there were none. -/
theorem Merging.settles (h : Merging mask name s body s' body' (.ok c)) :
    s.next ≤ s'.next ∧ body'.Free Inst.Stores ∧ (body.Free Inst.Stores → body' = body) :=
  ⟨h.swept.le, h.free.1, h.swept.idle h.free.2⟩

/-- Where the same is stored in a block, the same comes of it. -/
theorem Sweep.together {n n₂ : Nat} {rs out rs₂ out₂ : List Row} {res res₂ : Except Aspect Bool}
    (alike : rs.filterMap (fun r => r.2.stores?) = rs₂.filterMap fun r => r.2.stores?)
    (h : Sweep mask n rs out res) (h₂ : Sweep mask₂ n₂ rs₂ out₂ res₂) :
    res = res₂ ∧ ∀ c, res = .ok c →
      out.filterMap (fun r => r.2.stores?) = out₂.filterMap fun r => r.2.stores? := by
  obtain rfl : res = res₂ := by rw [h.result, h₂.result, alike]
  refine ⟨rfl, fun c hc => ?_⟩
  subst hc
  rw [List.filterMap_eq_nil_iff.2 h.cleared.1, List.filterMap_eq_nil_iff.2 h₂.cleared.1]

/-- **Where the same is stored, the same is returned.** -/
theorem Merging.together (alike : body.StoresAlike body₂) (h : Merging mask name s body s' body' r)
    (h₂ : Merging mask₂ name s₂ body₂ s₂' body₂' r₂) :
    r = r₂ ∧ ∀ c, r = .ok c → body'.StoresAlike body₂' := by
  obtain ⟨res, rfl, hswept⟩ := h
  obtain ⟨res₂, rfl, hswept₂⟩ := h₂
  obtain ⟨rows, rows', hrows, hd, hsweeps⟩ := hswept.rows
  obtain ⟨rows₂, rows₂', hrows₂, hd₂, hsweeps₂⟩ := hswept₂.rows
  obtain ⟨rows₀, rows₀₂, hrows₀, hrows₀₂, hstored⟩ := alike.rows
  obtain rfl := hrows.rows_eq hrows₀
  obtain rfl := hrows₂.rows_eq hrows₀₂
  rw [alike.blocks] at hsweeps₂
  obtain ⟨rfl, hstored'⟩ := hsweeps.together hsweeps₂ hstored fun _ _ _ _ _ _ => Sweep.together
  refine ⟨rfl, fun c hc => ⟨?_, rows', rows₂', hd.shows, hd₂.shows, ?_⟩⟩
  · rw [hswept₂.blocks, hswept.blocks, alike.blocks]
  · cases res with
    | error a => cases hc
    | ok c => exact hstored' c rfl

end DepthStencil

namespace Discard

variable {all nothing : Value} {name : String} {s s' : Supply .inst} {body body' : Body} {c : Bool}

/-- A body is cleared of discards, and left as it is if there were none. -/
theorem Replacing.settles (h : Replacing all nothing name s body s' body' (.ok c)) :
    s.next ≤ s'.next ∧ body'.Free Inst.IsDiscard ∧ (body.Free Inst.IsDiscard → body' = body) :=
  ⟨h.le, h.free.1, Body.Swept.idle h h.free.2⟩

end Discard

theorem FuncDecl.Consolidated.present {mask : Value} {n : Nat} {decl decl' : FuncDecl}
    {body body' : Body} (h : decl.Consolidated mask n decl') (present : decl.impl = .present body)
    (present' : decl'.impl = .present body') : body.Consolidated mask n body' := by
  cases h with
  | imported imported =>
    rw [imported] at present
    cases present
  | body himpl consolidated =>
    obtain rfl := FuncDef.present.inj (himpl.symm.trans present)
    cases present'
    exact consolidated

namespace Module

/-- Something has been done to the bodies of all functions that are handled, and nothing to other
functions. -/
structure Handled (R : Body → Body → Prop) (m m' : Module) : Prop where
  allFuncs : m'.allFuncs = m.allFuncs
  handled : ∀ f ∈ m.allFuncs, ∀ decl, m.funcs.get? f = some decl →
    ∃ decl', m'.funcs.get? f = some decl' ∧ decl.Related R decl'
  others : ∀ f, f ∉ m.allFuncs → m'.funcs.get? f = m.funcs.get? f

variable {m m' m₂ m₂' : Module} {config : LowerConfig} {R : Rules} {all : Scalar}
  {n : Nat}

theorem Holds.linked (h : m.Holds (SoundDecl R)) : m.Linked m.allFuncs := by
  intro f hf decl body hdecl himpl
  obtain ⟨decl', hdecl', hsound⟩ := h f hf
  obtain rfl := Option.some.inj (hdecl'.symm.trans hdecl)
  exact (hsound body himpl).linked

theorem Holds.distinct (h : m.Holds (SoundDecl R)) : m.Every fun body => body.blocks.Nodup := by
  intro f hf decl body hdecl himpl
  obtain ⟨decl', hdecl', hsound⟩ := h f hf
  obtain rfl := Option.some.inj (hdecl'.symm.trans hdecl)
  exact (hsound body himpl).1

/-- **What the depth/stencil lowering has done to the bodies**, if it has gone through. -/
theorem lowerDepthStencil_handled (h : m.Holds (SoundDecl .placed)) {c : Bool}
    (hrun : m.lowerDepthStencil config = .ok (m', .ok c))
    (hwrites : m.info.outputs.intersects .depthStencil = true)
    (hall : config.allSamplesValue = .ok (.const (.ofScalar all))) (hty : all.ty = .u16)
    (hn : n ≤ m.freshInsts.next) : m.Handled (Body.Merged (.const (.ofScalar all)) n) m' := by
  rcases lowerDepthStencil_ran h.linked hrun with ⟨hnot, -⟩ | ⟨-, mask, hmask, hwalk⟩
  · rw [hnot] at hwrites
    cases hwrites
  obtain rfl := Except.ok.inj (hmask.symm.trans hall)
  have hsingle := hwalk.single hn (fun _ _ _ _ _ _ hQ => hQ.settles) rfl
  have hmergeable : m.Holds MergeableDecl := by
    intro f hf
    obtain ⟨decl, hdecl, hsound⟩ := h f hf
    refine ⟨decl, hdecl, fun body himpl => (hsound body himpl).mergeable ?_⟩
    obtain ⟨decl', -, hrel⟩ := hsingle f hf decl hdecl
    obtain ⟨body', -, _, _, _, -, hQ⟩ := hrel.present himpl
    exact hQ.swept.storesOnce (hsound body himpl).1
  obtain ⟨m'', changed, hm'', hconsolidated⟩ :=
    DepthStencil.lowerFuncs_consolidates hty m.allFuncs m (fun _ hf => hf) hmergeable
  obtain rfl : m'' = m' := by
    rw [lowerDepthStencil, if_pos hwrites, hall, ok_bind, hm''] at hrun
    exact (Prod.mk.inj (Except.ok.inj hrun)).1
  refine ⟨hconsolidated.allFuncs, fun f hf decl hdecl => ?_, hconsolidated.others⟩
  obtain ⟨decl', hdecl', hrel⟩ := hsingle f hf decl hdecl
  obtain ⟨decl₀, decl₁, hdecl₀, hdecl₁, hc⟩ := hconsolidated.lowered f hf
  obtain rfl := Option.some.inj (hdecl.symm.trans hdecl₀)
  obtain rfl := Option.some.inj (hdecl'.symm.trans hdecl₁)
  refine ⟨decl', hdecl', ?_⟩
  cases hrel with
  | imported imported => exact .imported imported
  | body present related =>
    obtain ⟨s, s', here, hs, hQ⟩ := related
    exact .body present ⟨(hc.present present rfl).mono hn, hQ.swept.keepsAnalyses hQ.free.2,
      hQ.rewritten.2.2 _ hs⟩

/-- **What the discard lowering has done to the bodies**, if each block is listed once. -/
theorem lowerDiscard_handled (h : m.Linked m.allFuncs)
    (distinct : m.Every fun body => body.blocks.Nodup) {changed : Bool}
    (hrun : m.lowerDiscard config = .ok (m', changed)) (huses : m.info.usesDiscard = true)
    (hall : config.allSamplesValue = .ok (.const (.ofScalar all))) (hn : n ≤ m.freshInsts.next) :
    m.Handled (Body.Masked (.const (.ofScalar all)) (.const (.ofScalar (.truncate .u16 0))) n)
      m' := by
  have hrewritten := (lowerDiscard_rewritten h hrun).1
  rcases lowerDiscard_ran h hrun with ⟨hnot, -⟩ | ⟨-, mask, nothing, hmask, hnothing, hwalk⟩
  · rw [hnot] at huses
    cases huses
  obtain rfl := Except.ok.inj (hmask.symm.trans hall)
  obtain rfl := Except.ok.inj hnothing
  refine ⟨hrewritten.allFuncs, fun f hf decl hdecl => ?_, fun f hf => hwalk.others hf⟩
  obtain ⟨decl', hdecl', hrel⟩ :=
    hwalk.single hn (fun _ _ _ _ _ _ hQ => hQ.settles) rfl f hf decl hdecl
  refine ⟨decl', hdecl', ?_⟩
  cases hrel with
  | imported imported => exact .imported imported
  | @body body _ present related =>
    obtain ⟨s, s', here, hs, hQ⟩ := related
    have hreplaced := Body.Swept.replaced hQ (distinct f hf decl body hdecl present)
    exact .body present ⟨hreplaced.mono hs, Body.Swept.keepsAnalyses hQ hQ.free.2,
      hQ.rewritten.2.2 _ hs⟩

/-- **What the depth/stencil lowering returns depends on the stores only.** -/
theorem lowerDepthStencil_result (h : m.Linked m.allFuncs) (h₂ : m₂.Linked m₂.allFuncs)
    (hinfo : m₂.info = m.info) (alike : m.Handled Body.StoresAlike m₂)
    {r r₂ : Except LowerError Bool} (hrun : m.lowerDepthStencil config = .ok (m', r))
    (hrun₂ : m₂.lowerDepthStencil config = .ok (m₂', r₂)) : r = r₂ := by
  rcases lowerDepthStencil_ran h hrun with ⟨hnot, -, rfl⟩ | ⟨hwrites, mask, -, hwalk⟩ <;>
    rcases lowerDepthStencil_ran h₂ hrun₂ with ⟨hnot₂, -, rfl⟩ | ⟨hwrites₂, mask₂, -, hwalk₂⟩
  · rfl
  · rw [hinfo, hnot] at hwrites₂
    cases hwrites₂
  · rw [hinfo, hwrites] at hnot₂
    cases hnot₂
  · rw [alike.allFuncs] at hwalk₂
    exact hwalk.together hwalk₂ alike.handled
      fun _ _ _ _ _ _ _ _ _ _ _ => DepthStencil.Merging.together

end Module

/-! ## Both lowerings -/

section Functions

variable {decl decl' decl'' : FuncDecl} {S S' : Body → Body → Prop}

theorem FuncDecl.Related.mono (h : decl.Related S decl') (hS : ∀ a b, S a b → S' a b) :
    decl.Related S' decl' := by
  cases h with
  | imported imported => exact .imported imported
  | body present related => exact .body present (hS _ _ related)

theorem FuncDecl.Related.comp (h : decl.Related S decl') (h' : decl'.Related S' decl'') :
    decl.Related (Relation.Comp S S') decl'' := by
  cases h with
  | imported imported =>
    obtain rfl := h'.eq_self imported
    exact .imported imported
  | body present related =>
    obtain ⟨body', rfl, related'⟩ := h'.present rfl
    exact .body present ⟨_, related, related'⟩

/-- Functions have the same text if their bodies have. -/
theorem FuncDecl.Related.text_eq
    (h : decl.Related (fun a b => ∃ t, a.text = .ok t ∧ b.text = .ok t) decl') :
    ∃ t, decl.text = .ok t ∧ decl'.text = .ok t := by
  unfold FuncDecl.text
  cases h with
  | imported imported => exact ⟨_, by rw [imported], by rw [imported]⟩
  | body present related =>
    obtain ⟨t, ht, ht'⟩ := related
    simp only [present, ht, ht', ok_bind, pure_eq_ok]
    exact ⟨_, rfl, rfl⟩

end Functions

namespace Module

variable {m m' m₂ m₂' : Module} {S S' : Body → Body → Prop} {R : Rules}

/-- Two modules have the same text, and their functions the same analyses. -/
structure Alike (m m' : Module) : Prop where
  text : ∃ s, m.text = .ok s ∧ m'.text = .ok s
  analyses : ∀ f, Option.Rel (FuncDecl.Related fun body body' => body'.cache = body.cache)
    (m.funcs.get? f) (m'.funcs.get? f)

theorem Handled.refl (m : Module) : m.Handled Eq m := by
  refine ⟨rfl, fun f hf decl hdecl => ⟨decl, hdecl, ?_⟩, fun _ _ => rfl⟩
  have hrel := (Related.refl (R := Eq) (fun _ => rfl) m).funcs f
  rw [hdecl] at hrel
  cases hrel with
  | some h => exact h

theorem Handled.mono (h : m.Handled S m') (hS : ∀ a b, S a b → S' a b) : m.Handled S' m' := by
  refine ⟨h.allFuncs, fun f hf decl hdecl => ?_, h.others⟩
  obtain ⟨decl', hdecl', hrel⟩ := h.handled f hf decl hdecl
  exact ⟨decl', hdecl', hrel.mono hS⟩

theorem Handled.comp (h : m.Handled S m₂) (h' : m₂.Handled S' m') :
    m.Handled (Relation.Comp S S') m' := by
  refine ⟨h'.allFuncs.trans h.allFuncs, fun f hf decl hdecl => ?_, fun f hf => ?_⟩
  · obtain ⟨decl₂, hdecl₂, hrel⟩ := h.handled f hf decl hdecl
    obtain ⟨decl', hdecl', hrel'⟩ := h'.handled f (h.allFuncs ▸ hf) decl₂ hdecl₂
    exact ⟨decl', hdecl', hrel.comp hrel'⟩
  · exact (h'.others f (h.allFuncs ▸ hf)).trans (h.others f hf)

/-- Functions with the same texts in the same order make the same text. -/
theorem texts_eq (hall : m'.allFuncs = m.allFuncs)
    (h : ∀ f ∈ m.allFuncs, ∃ decl decl' t, m.funcs.get? f = some decl ∧
      m'.funcs.get? f = some decl' ∧ decl.text = .ok t ∧ decl'.text = .ok t) :
    ∃ s, m.text = .ok s ∧ m'.text = .ok s := by
  have hlist : ∀ fs : List FuncId, (∀ f ∈ fs, f ∈ m.allFuncs) → ∃ decls decls' ts,
      fs.mapM m.funcs.find = .ok decls ∧ fs.mapM m'.funcs.find = .ok decls' ∧
      decls.mapM FuncDecl.text = .ok ts ∧ decls'.mapM FuncDecl.text = .ok ts := by
    intro fs hfs
    induction fs with
    | nil => exact ⟨[], [], [], rfl, rfl, rfl, rfl⟩
    | cons f fs ih =>
      obtain ⟨hf, hrest⟩ := List.forall_mem_cons.1 hfs
      obtain ⟨decl, decl', t, hdecl, hdecl', ht, ht'⟩ := h f hf
      obtain ⟨decls, decls', ts, hdecls, hdecls', hts, hts'⟩ := ih hrest
      refine ⟨decl :: decls, decl' :: decls', t :: ts, ?_, ?_, ?_, ?_⟩
      · simp only [List.mapM_cons, Defs.find_of_get? hdecl, hdecls, ok_bind, pure_eq_ok]
      · simp only [List.mapM_cons, Defs.find_of_get? hdecl', hdecls', ok_bind, pure_eq_ok]
      · simp only [List.mapM_cons, ht, hts, ok_bind, pure_eq_ok]
      · simp only [List.mapM_cons, ht', hts', ok_bind, pure_eq_ok]
  obtain ⟨decls, decls', ts, hdecls, hdecls', hts, hts'⟩ := hlist m.allFuncs fun _ hf => hf
  refine ⟨Text.separated "\n" ts, ?_, ?_⟩
  · simp only [text, hdecls, ok_bind, hts, pure_eq_ok]
  · simp only [text, hall, hdecls', ok_bind, hts', pure_eq_ok]

/-- Two modules that come of one are alike if what is made of each body is. -/
theorem Handled.alike (h : m.Handled S m') (h₂ : m.Handled S' m₂')
    (sound : m.Holds (SoundDecl R))
    (bodies : ∀ body a b, body.Sound R m.freshInsts → S body a → S' body b →
      b.cache = a.cache ∧ ∃ t, a.text = .ok t ∧ b.text = .ok t) : m'.Alike m₂' := by
  have hdecls : ∀ f ∈ m.allFuncs, ∃ decl decl', m'.funcs.get? f = some decl ∧
      m₂'.funcs.get? f = some decl' ∧ decl.Related (fun a b => b.cache = a.cache ∧
        ∃ t, a.text = .ok t ∧ b.text = .ok t) decl' := by
    intro f hf
    obtain ⟨decl₀, hdecl₀, hsound⟩ := sound f hf
    obtain ⟨decl, hdecl, hrel⟩ := h.handled f hf decl₀ hdecl₀
    obtain ⟨decl', hdecl', hrel'⟩ := h₂.handled f hf decl₀ hdecl₀
    refine ⟨decl, decl', hdecl, hdecl', ?_⟩
    cases hrel with
    | imported imported =>
      obtain rfl := hrel'.eq_self imported
      exact .imported imported
    | body present related =>
      obtain ⟨b, rfl, related'⟩ := hrel'.present present
      exact .body rfl (bodies _ _ _ (hsound _ present) related related')
  refine ⟨texts_eq (h₂.allFuncs.trans h.allFuncs.symm) fun f hf => ?_, fun f => ?_⟩
  · obtain ⟨decl, decl', hdecl, hdecl', hrel⟩ := hdecls f (h.allFuncs ▸ hf)
    obtain ⟨t, ht, ht'⟩ := (hrel.mono fun _ _ => And.right).text_eq
    exact ⟨decl, decl', t, hdecl, hdecl', ht, ht'⟩
  · by_cases hf : f ∈ m.allFuncs
    · obtain ⟨decl, decl', hdecl, hdecl', hrel⟩ := hdecls f hf
      rw [hdecl, hdecl']
      exact .some (hrel.mono fun _ _ => And.left)
    · rw [h.others f hf, h₂.others f hf]
      exact (Related.refl (R := fun a b => b.cache = a.cache) (fun _ => rfl) m).funcs f

theorem Holds.alike_self (h : m.Holds (SoundDecl R)) : m.Alike m := by
  refine (Handled.refl m).alike (Handled.refl m) h ?_
  rintro body _ _ sound rfl rfl
  obtain ⟨t, ht⟩ := sound.exists_text
  exact ⟨rfl, t, ht, ht⟩

variable {m₁ m₁' : Module} {config : LowerConfig}

/-- A module that declares no depth or stencil output is not changed by their lowering. -/
theorem lowerDepthStencil_of_not (h : m.info.outputs.intersects .depthStencil = false) :
    m.lowerDepthStencil config = .ok (m, .ok false) := by
  rw [lowerDepthStencil, h, if_neg Bool.false_ne_true]

/-- A module that declares no discard is not changed by their lowering. -/
theorem lowerDiscard_of_not (h : m.info.usesDiscard = false) :
    m.lowerDiscard config = .ok (m, false) := by
  rw [lowerDiscard, h, if_neg Bool.false_ne_true]

/-- **In either order, modules that are alike come out**, if both lowerings go through. -/
theorem Holds.alike {c c₂ d d₂ : Bool} (h : m.Holds (SoundDecl .placed))
    (h₁ : m₁.Holds (SoundDecl .placed)) (h₁' : m₁'.Holds (SoundDecl .placed))
    (h₂ : m₂.Holds (SoundDecl .placed)) (hlo : 1 ≤ config.maxSamples)
    (hhi : config.maxSamples ≤ 16) (hm₁ : m.lowerDepthStencil config = .ok (m₁, .ok c))
    (hm₁' : m₁.lowerDiscard config = .ok (m₁', d)) (hm₂ : m.lowerDiscard config = .ok (m₂, d₂))
    (hm₂' : m₂.lowerDepthStencil config = .ok (m₂', .ok c₂)) : m₁'.Alike m₂' := by
  obtain ⟨hR₁, -⟩ := lowerDepthStencil_rewritten h.linked hm₁
  obtain ⟨hR₂, -⟩ := lowerDiscard_rewritten h.linked hm₂
  cases hwrites : m.info.outputs.intersects .depthStencil with
  | false =>
    rw [lowerDepthStencil_of_not hwrites] at hm₁
    rw [lowerDepthStencil_of_not (hR₂.info ▸ hwrites)] at hm₂'
    cases hm₁
    cases hm₂'
    rw [hm₁'] at hm₂
    cases hm₂
    exact h₁'.alike_self
  | true =>
    cases huses : m.info.usesDiscard with
    | false =>
      rw [lowerDiscard_of_not huses] at hm₂
      rw [lowerDiscard_of_not (hR₁.info ▸ huses)] at hm₁'
      cases hm₂
      cases hm₁'
      rw [hm₁] at hm₂'
      cases hm₂'
      exact h₁'.alike_self
    | true =>
      obtain ⟨all, hty, -, hall⟩ := config.allSamplesValue_eq hlo hhi
      have hmerged := lowerDepthStencil_handled h hm₁ hwrites hall hty (Nat.le_refl _)
      have hmasked' :=
        lowerDiscard_handled h₁.linked h₁.distinct hm₁' (hR₁.info ▸ huses) hall hR₁.le
      have hmasked := lowerDiscard_handled h.linked h.distinct hm₂ huses hall (Nat.le_refl _)
      have hmerged' := lowerDepthStencil_handled h₂ hm₂' (hR₂.info ▸ hwrites) hall hty hR₂.le
      refine (hmerged.comp hmasked').alike (hmasked.comp hmerged') h ?_
      rintro body a' b' sound ⟨a, ha, ha'⟩ ⟨b, hb, hb'⟩
      exact sound.either_order ha ha' hb hb'

/-- The stores of a sound module can be merged, and it stays sound. -/
theorem Holds.exists_merged (h : m.Holds (SoundDecl R)) (hR : R.Lowers)
    (hlo : 1 ≤ config.maxSamples) (hhi : config.maxSamples ≤ 16) :
    ∃ m' r, m.lowerDepthStencil config = .ok (m', r) ∧ m'.Holds (SoundDecl R) := by
  obtain ⟨m', r, hm', -, h'⟩ := h.lowerDepthStencil soundDecl_lasts hlo hhi
    fun c hc _ => soundDecl_merge hR hc
  exact ⟨m', r, hm', h' (.inl trivial)⟩

/-- The discards of a sound module can be replaced, and it stays sound. -/
theorem Holds.exists_masked (h : m.Holds (SoundDecl R)) (hR : R.Lowers)
    (hlo : 1 ≤ config.maxSamples) (hhi : config.maxSamples ≤ 16) :
    ∃ m' changed, m.lowerDiscard config = .ok (m', changed) ∧ m'.Holds (SoundDecl R) := by
  obtain ⟨m', changed, hm', -, h'⟩ := h.lowerDiscard soundDecl_lasts hlo hhi
    fun c hc _ => soundDecl_expand hR hc rfl
  exact ⟨m', changed, hm', h'⟩

/-- **Replacing discards does not change what the merging of stores returns.** -/
theorem Holds.merge_result {r r₂ : Except LowerError Bool} {d : Bool}
    (h : m.Holds (SoundDecl R)) (h₂ : m₂.Holds (SoundDecl R)) (hlo : 1 ≤ config.maxSamples)
    (hhi : config.maxSamples ≤ 16) (hm₁ : m.lowerDepthStencil config = .ok (m₁, r))
    (hm₂ : m.lowerDiscard config = .ok (m₂, d))
    (hm₂' : m₂.lowerDepthStencil config = .ok (m₂', r₂)) : r = r₂ := by
  obtain ⟨hR₂, -⟩ := lowerDiscard_rewritten h.linked hm₂
  cases huses : m.info.usesDiscard with
  | false =>
    rw [lowerDiscard_of_not huses] at hm₂
    cases hm₂
    rw [hm₁] at hm₂'
    cases hm₂'
    rfl
  | true =>
    obtain ⟨all, -, -, hall⟩ := config.allSamplesValue_eq hlo hhi
    have hmasked := lowerDiscard_handled h.linked h.distinct hm₂ huses hall (Nat.le_refl _)
    have hstores := hmasked.mono fun _ _ hbody => hbody.replaced.storesAlike
    exact lowerDepthStencil_result h.linked h₂.linked hR₂.info hstores hm₁ hm₂'

/-- **Merging stores does not change what the replacing of discards returns.** -/
theorem mask_result {r : Except LowerError Bool} {d d' : Bool} (h : m.Linked m.allFuncs)
    (hm₁ : m.lowerDepthStencil config = .ok (m₁, r))
    (hm₁' : m₁.lowerDiscard config = .ok (m₁', d')) (hm₂ : m.lowerDiscard config = .ok (m₂, d)) :
    d' = d := by
  obtain ⟨hR₁, hlinked⟩ := lowerDepthStencil_rewritten h hm₁
  have hfree : m₁.Free Inst.IsDiscard ↔ m.Free Inst.IsDiscard :=
    hR₁.free_iff h (fun _ => .inr) fun _ hi => hi.not_stores
  have h₁ : m₁.Linked m₁.allFuncs := hlinked _ (hR₁.allFuncs ▸ h)
  rw [Bool.eq_iff_iff, lowerDiscard_changed h₁ hm₁', lowerDiscard_changed h hm₂, hfree, hR₁.info]

/-- **The two lowerings commute.**  Let a module be valid, and its bodies tidy, and let neither
stores to the depth or stencil output nor discards have a result.  Then the merging of its stores
and the replacing of its discards both return.  To merge the stores after the discards have been
replaced returns the same as before: whether something has changed, or the function and the aspect
that is written twice.  If that has gone through, then to replace the discards after the stores have
been merged returns the same as before too, and in either order the module that comes out has the
same text and the same analyses. -/
theorem lowerings_commute (m : Module) (config : LowerConfig)
    (valid : m.firstViolation = .ok none) (tidy : m.Every (Body.Tidy m.freshInsts))
    (untyped : m.Every Body.LoweredUntyped) (hlo : 1 ≤ config.maxSamples)
    (hhi : config.maxSamples ≤ 16) : ∃ m₁ r m₂ discarded m₂',
      m.lowerDepthStencil config = .ok (m₁, r) ∧
      m.lowerDiscard config = .ok (m₂, discarded) ∧
      m₂.lowerDepthStencil config = .ok (m₂', r) ∧
      ∀ merged, r = .ok merged → ∃ m₁', m₁.lowerDiscard config = .ok (m₁', discarded) ∧
        m₁'.Alike m₂' := by
  have h : m.Holds (SoundDecl .placed) := by
    intro f hf
    obtain ⟨decl, hdecl, hdefect⟩ := firstViolation_eq_none_iff.1 valid f hf
    refine ⟨decl, hdecl, fun body himpl => ?_⟩
    have hsound := (tidy f hf decl body hdecl himpl).sound (hdefect body himpl)
      (untyped f hf decl body hdecl himpl)
    exact hsound.placed
  have hR := Rules.placed_lowers
  obtain ⟨m₁, r, hm₁, h₁⟩ := h.exists_merged hR hlo hhi
  obtain ⟨m₂, discarded, hm₂, h₂⟩ := h.exists_masked hR hlo hhi
  obtain ⟨m₂', r₂, hm₂', -⟩ := h₂.exists_merged hR hlo hhi
  obtain rfl := h.merge_result h₂ hlo hhi hm₁ hm₂ hm₂'
  refine ⟨m₁, r, m₂, discarded, m₂', hm₁, hm₂, hm₂', fun merged hr => ?_⟩
  subst hr
  obtain ⟨m₁', discarded', hm₁', h₁'⟩ := h₁.exists_masked hR hlo hhi
  obtain rfl := mask_result h.linked hm₁ hm₁' hm₂
  exact ⟨m₁', hm₁', h.alike h₁ h₁' h₂ hlo hhi hm₁ hm₁' hm₂ hm₂'⟩

/-- The sample is lowered in either order, and the same comes out. -/
theorem sampleFragment_lowerings_commute : ∃ m₁ m₁' m₂ m₂',
    sampleFragment.lowerDepthStencil .eightSamples = .ok (m₁, .ok true) ∧
    m₁.lowerDiscard .eightSamples = .ok (m₁', true) ∧
    sampleFragment.lowerDiscard .eightSamples = .ok (m₂, true) ∧
    m₂.lowerDepthStencil .eightSamples = .ok (m₂', .ok true) ∧ m₁'.Alike m₂' := by
  obtain ⟨m₁, r, m₂, discarded, m₂', hm₁, hm₂, hm₂', halike⟩ :=
    lowerings_commute sampleFragment .eightSamples rfl
      (sampleFragment_every Body.sampleFragment_tidy)
      (sampleFragment_every Body.sampleFragment_untyped) (by decide) (by decide)
  obtain ⟨_, hrun₁⟩ : ∃ m', sampleFragment.lowerDepthStencil .eightSamples = .ok (m', .ok true) :=
    ⟨_, rfl⟩
  obtain ⟨_, hrun₂⟩ : ∃ m', sampleFragment.lowerDiscard .eightSamples = .ok (m', true) := ⟨_, rfl⟩
  rw [hrun₁] at hm₁
  cases hm₁
  rw [hrun₂] at hm₂
  cases hm₂
  obtain ⟨m₁', hm₁', halike⟩ := halike true rfl
  exact ⟨_, m₁', _, m₂', hrun₁, hm₁', hrun₂, hm₂', halike⟩

end Module

end ShaderIR
