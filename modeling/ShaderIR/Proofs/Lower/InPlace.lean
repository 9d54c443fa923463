import ShaderIR.Proofs.Lower.Commute

/-!
# The discard lowering expands in place

* `Discard.Conditioned`, `Body.Conditioned`: every conditional discard has a condition.

Principal statements: `Discard.exists_edit` (an instruction can be edited),
`Discard.keepsBlocks_editable` (so can those of several blocks) and `Module.lowerDiscard_expands`.
-/

namespace ShaderIR

namespace Discard

/-- Every conditional discard among some rows has a condition. -/
def Conditioned (rs : List Row) : Prop :=
  ∀ r ∈ rs, r.2.kind = .intrinsic .discardIf → ∃ cond, r.2.input 0 = .ok cond

section Edits

variable {w₀ w : Workspace} {rows : BlockId → List Row} {b : BlockId} {p s : List Row} {r : Row}
  {all nothing mask : Value} {ka : Constant} {loose : InstId → Prop}

theorem conditioned_of_free (h : ∀ q ∈ p, ¬ q.2.IsDiscard) : Conditioned p :=
  fun q hq hkind => absurd (.inr hkind) (h q hq)

/-- What replaces a discard is none. -/
theorem conditioned_replace {c k : InstId}
    (h : r.2.kind = .intrinsic .discardIf → ∃ cond, r.2.input 0 = .ok cond) :
    Conditioned (replace all nothing c k r) := by
  by_cases hdiscard : r.2.IsDiscard
  · refine conditioned_of_free fun q hq => ?_
    rcases hdiscard with hkind | hkind
    · rw [replace_discard hkind] at hq
      rw [List.mem_singleton.1 hq]
      exact fun hd => not_isLowered_discardSamples (.inr hd)
    · obtain ⟨cond, hcond⟩ := h hkind
      rw [replace_discardIf hkind hcond] at hq
      rcases List.mem_pair.1 hq with rfl | rfl
      · exact fun hd => not_isLowered_alu (.inr hd)
      · exact fun hd => not_isLowered_discardSamples (.inr hd)
  · rw [replace_of_not hdiscard]
    exact fun q hq => by rwa [List.mem_singleton.1 hq]

/-- The mask of the killed samples can be put in place of an instruction. -/
theorem exists_discardSamples (h : w₀.Derived w (Function.update rows b (p ++ r :: s)))
    (mask : Value) : ∃ (k : InstId) (w₁ w₂ : Workspace),
      (w.at (.before b r.1)).discardSamples mask = .ok (k, w₁.at (.before b r.1)) ∧
      w₁.removeInst b r.1 = .ok (r.2, w₂) := by
  obtain ⟨w₁, hw₁, h₁⟩ := h.insertBefore (Function.update_self b _ rows) (.discardSamples mask)
  rw [Function.update_idem, List.append_cons] at h₁
  obtain ⟨w₂, hw₂, -⟩ := h₁.removeInst (Function.update_self b _ rows)
  exact ⟨_, w₁, w₂, hw₁, hw₂⟩

/-- **An instruction can be edited**, unless it is a conditional discard without a condition. -/
theorem exists_edit (hty : ka.ty = .u16) (hall : all = .const ka) (nothing : Value)
    (h : w₀.Derived w (Function.update rows b (p ++ r :: s)))
    (hcond : r.2.kind = .intrinsic .discardIf → ∃ cond, r.2.input 0 = .ok cond) :
    ∃ here w', edit all nothing b r.1 () w = .ok (here, (), w') := by
  have hself := Function.update_self b (p ++ r :: s) rows
  have hinst : w.code.inst r.1 = .ok r.2 := h.shows.inst (b := b) (by rw [hself]; simp)
  by_cases hdiscard : r.2.IsDiscard
  swap
  · exact ⟨false, w, edit_of_not hinst hdiscard⟩
  rcases hdiscard with hkind | hkind
  · obtain ⟨k, w₁, w₂, hinsert, hremove⟩ := exists_discardSamples h all
    exact ⟨true, w₂, edit_of_discard hinst hkind hinsert hremove⟩
  · obtain ⟨cond, hinput⟩ := hcond hkind
    obtain ⟨w₁, hw₁, h₁⟩ := h.insertBefore hself (.selectMask cond all nothing)
    rw [Function.update_idem, List.append_cons] at h₁
    obtain ⟨k, w₂, w₃, hinsert, hremove⟩ := exists_discardSamples h₁ (.result ⟨w.fresh.next⟩)
    subst hall
    have hselect := select_of_insert hty hw₁
    exact ⟨true, w₃, edit_of_discardIf hinst hkind hinput hselect hinsert hremove⟩

/-- What holds along the walk over a block, with other blocks still to come. -/
def Ahead (loose : InstId → Prop) (w₀ : Workspace) (bs : List BlockId) (b : BlockId)
    (p s : List Row) (_ : Bool) (_ : Unit) (w : Workspace) : Prop :=
  ∃ rows, Workspace.Tracks loose w₀ w rows ∧ rows b = p ++ s ∧ ∀ d ∈ b :: bs, Conditioned (rows d)

theorem keepsRows_ahead (hty : ka.ty = .u16) (hall : all = .const ka) (nothing : Value)
    (loose : InstId → Prop) (w₀ : Workspace) (bs : List BlockId) (b : BlockId) :
    (edit all nothing).KeepsRows b (Ahead loose w₀ bs b) where
  shown := by
    rintro p s _ ⟨⟩ w ⟨rows, h, hb, -⟩
    exact ⟨rows, h.shows, hb⟩
  step := by
    rintro p r s _ ⟨⟩ w ⟨rows, h, hb, hconds⟩
    have h₁ : Workspace.Tracks loose w₀ w (Function.update rows b (p ++ r :: s)) := by
      rwa [← hb, Function.update_eq_self]
    have hcond := hconds b List.mem_cons_self r (by simp [hb])
    obtain ⟨here, w', hedit⟩ := exists_edit hty hall nothing h₁.toDerived hcond
    obtain ⟨-, -, -, c, k, -, -, h'⟩ := edit_ran hty hall h₁ hedit
    refine ⟨replace all nothing c k r, here, (), w', hedit, _, h', ?_, ?_⟩
    · rw [Function.update_self, List.append_assoc]
    · intro d hd q hq
      by_cases hdb : d = b
      · subst hdb
        rw [Function.update_self, List.mem_append, List.mem_append] at hq
        rcases hq with hq | hq | hq
        · exact hconds d hd q (by simp [hb, hq])
        · exact conditioned_replace hcond q hq
        · exact hconds d hd q (by simp [hb, hq])
      · rw [Function.update_of_ne hdb] at hq
        exact hconds d hd q hq

/-- What holds along the walk over blocks that are defined and can be edited. -/
def Editable (loose : InstId → Prop) (w₀ : Workspace) (bs : List BlockId) (_ : Bool) (_ : Unit)
    (w : Workspace) : Prop :=
  ∃ rows, Workspace.Tracks loose w₀ w rows ∧
    ∀ b ∈ bs, (∃ blk, w₀.code.blocks.get? b = some blk) ∧ Conditioned (rows b)

/-- **The blocks of a list can be edited**, also if one is listed several times. -/
theorem keepsBlocks_editable (hty : ka.ty = .u16) (hall : all = .const ka) (nothing : Value)
    (loose : InstId → Prop) (w₀ : Workspace) :
    (edit all nothing).KeepsBlocks (Editable loose w₀) := by
  rintro b bs _ ⟨⟩ w ⟨rows, h, hbs⟩
  obtain ⟨here, ⟨⟩, w', out, hrun, rows', h', -, hconds⟩ :=
    (keepsRows_ahead hty hall nothing loose w₀ bs b).inBlock h.shows
      (h.flow.defined (hbs b List.mem_cons_self).1) () ⟨rows, h, rfl, fun d hd => (hbs d hd).2⟩
  exact ⟨here, (), w', hrun, rows', h', fun d hd =>
    ⟨(hbs d (by simp [hd])).1, hconds d (by simp [hd])⟩⟩

end Edits

end Discard

/-- Every conditional discard of a body has an input, its condition. -/
def Body.Conditioned (body : Body) : Prop :=
  ∀ i, body.Has i → i.kind = .intrinsic .discardIf → i.inputs ≠ []

namespace Module

variable {m m' : Module} {config : LowerConfig}

/-- The discards of a function can be replaced, and none is left. -/
theorem keeps_conditioned {c : Scalar} (hc : c.ty = .u16) (nothing : Value) :
    Discard.Keeps (.const (.ofScalar c)) nothing (WalkableDecl Body.Conditioned) := by
  intro f s decl body h himpl
  obtain ⟨hlinked, hlisted, hconds⟩ := h body himpl
  obtain ⟨rows, hrows⟩ := hlinked.chains.exists_shows
  have hty : (Constant.ofScalar c).ty = .u16 := hc
  have heditable : Discard.Editable (fun _ => True) (body.workspace s) body.blocks false ()
      (body.workspace s) := by
    refine ⟨rows, ⟨.refl hrows hlinked.issued, fun _ _ _ => .inl trivial⟩, fun b hb =>
      ⟨hlisted b hb, fun r hr hkind => ?_⟩⟩
    obtain ⟨v, vs, hvs⟩ :=
      List.exists_cons_of_ne_nil (hconds r.2 (Body.has_of_mem hrows hb hr) hkind)
    exact ⟨v, Discard.input_zero.2 ⟨vs, hvs⟩⟩
  obtain ⟨changed, ⟨⟩, w, hw, -⟩ :=
    (Discard.keepsBlocks_editable hty rfl nothing _ _).inBlocks () _ heditable
  have hswept := hlinked.inBlocks hty rfl hw
  refine ⟨changed, w, hw, hswept.le, fun cache body' hb => ?_⟩
  obtain rfl := FuncDef.present.inj hb
  have hreplacing : Discard.Replacing (.const (.ofScalar c)) nothing decl.name s body w.fresh _
    (.ok changed) := hswept
  have hfree := hreplacing.free.1
  exact ⟨⟨hswept.linked.chains, hswept.linked.issued⟩, hswept.listed_after,
    fun i hi hkind => absurd (.inr hkind) (hfree i hi)⟩

/-- All functions and listed blocks were defined before a rewriting if they are after it. -/
theorem Rewritten.listed_before {lowers : Inst → Prop} {n : Nat} (h : m.Rewritten lowers n m')
    (linked : m.Linked m.allFuncs) (listed : m'.Listed) : m.Listed := by
  intro f hf
  obtain ⟨decl', hdecl', hbody'⟩ := listed f (h.allFuncs ▸ hf)
  have hrel := h.funcs f
  rw [hdecl'] at hrel
  generalize hdecl : m.funcs.get? f = o at hrel
  cases hrel with
  | some hrel =>
    refine ⟨_, rfl, fun body himpl b hb => ?_⟩
    obtain ⟨body', rfl, hR⟩ := hrel.present himpl
    have hbody := hR (linked f hf _ body hdecl himpl).chains
    exact hbody.flow.symm.defined (hbody' body' rfl b (hbody.blocks ▸ hb))

/-- **The discard lowering expands in place.**  Let a module declare a discard, with linked chains,
identities that the supply has given away, each block of a function listed once, and a condition
for every conditional discard.  Then the lowering goes through if and only if all functions and
listed blocks are defined.  In each listed block, a discard has become a discard of the mask of all
samples; a conditional one has become the choice between that mask and none, followed by a discard
of what was chosen; and all other rows are kept, in order.  The terminators are the same, the lists
of blocks, the other blocks, the other functions, and what the shader declares. -/
theorem lowerDiscard_expands (m : Module) (config : LowerConfig) (linked : m.Linked m.allFuncs)
    (distinct : m.Every fun body => body.blocks.Nodup) (conditioned : m.Every Body.Conditioned)
    (declared : m.info.usesDiscard = true) (hlo : 1 ≤ config.maxSamples)
    (hhi : config.maxSamples ≤ 16) :
    ∃ all : Scalar, all.ty = .u16 ∧ all.bits = 2 ^ config.maxSamples - 1 ∧
      ((∃ m' changed, m.lowerDiscard config = .ok (m', changed)) ↔ m.Listed) ∧
      ∀ m' changed, m.lowerDiscard config = .ok (m', changed) → m'.info = m.info ∧
        m.Handled (Body.Replaced (.const (.ofScalar all)) (.const (.ofScalar (.truncate .u16 0)))
          m.freshInsts.next) m' := by
  obtain ⟨all, hall, hbits, hmask⟩ := config.allSamplesValue_eq hlo hhi
  have hdone : ∀ m' changed, m.lowerDiscard config = .ok (m', changed) → m'.info = m.info ∧
      m.Handled (Body.Replaced (.const (.ofScalar all)) (.const (.ofScalar (.truncate .u16 0)))
        m.freshInsts.next) m' := fun m' changed hrun =>
    ⟨(lowerDiscard_rewritten linked hrun).1.info,
      (lowerDiscard_handled linked distinct hrun declared hmask (Nat.le_refl _)).mono
        fun _ _ h => h.replaced⟩
  refine ⟨all, hall, hbits, ⟨?_, fun hlisted => ?_⟩, hdone⟩
  · rintro ⟨m', changed, hrun⟩
    exact (lowerDiscard_rewritten linked hrun).1.listed_before linked
      (lowerDiscard_listed linked hrun declared)
  · obtain ⟨m', changed, hrun, -⟩ := (holds_walkableDecl linked hlisted conditioned).lowerDiscard
      (walkableDecl_lasts _) hlo hhi fun c hc _ => keeps_conditioned hc _
    exact ⟨m', changed, hrun⟩

theorem sampleFragment_lowerDiscard_expands : ∃ m' all,
    sampleFragment.lowerDiscard .eightSamples = .ok (m', true) ∧ all.bits = 255 ∧
    sampleFragment.Handled (Body.Replaced (.const (.ofScalar all))
      (.const (.ofScalar (.truncate .u16 0))) 5) m' := by
  have conditioned : Body.sampleFragment.Conditioned := by
    have hall : ∀ i ∈ Body.sampleFragment.code.insts.entries.map fun e => e.2.val,
        i.kind = .intrinsic .discardIf → i.inputs ≠ [] := by decide
    exact fun i hi => hall i (Body.sampleFragment_has hi)
  obtain ⟨all, -, hbits, -, hdone⟩ := lowerDiscard_expands sampleFragment .eightSamples
    sampleFragment_linked (sampleFragment_every Body.sampleFragment_tidy.distinct)
    (sampleFragment_every conditioned) rfl (by decide) (by decide)
  obtain ⟨m', hm'⟩ : ∃ m', sampleFragment.lowerDiscard .eightSamples = .ok (m', true) := ⟨_, rfl⟩
  exact ⟨m', all, hm', hbits, (hdone m' true hm').2⟩

end Module

end ShaderIR
