import ShaderIR.Proofs.Lower.Sound
import ShaderIR.Proofs.Validity.Decides

/-!
# Lowering keeps modules valid

* `Rules.strict`: the rules of the check, and that a store to the output of an aspect has an input
  which can be converted to it.
* `Body.Tidy`, `Body.StoresFit`, `Body.LoweredUntyped`: what is asked of the bodies.

Principal statement: `Module.lowering_valid` (each lowering goes through, and leaves a valid module,
whether it succeeds or stops at an aspect that is written twice).
-/

namespace ShaderIR

/-- The types that a value of an aspect may have. -/
def Aspect.takes : Aspect → ScalarType → Bool
  | depth => ScalarType.isFloat
  | stencil => ScalarType.isInt

theorem Aspect.admits_wanted {a : Aspect} {ty : ScalarType} {result : Option ScalarType} :
    a.wanted.Admits ty result ↔ a.takes ty = true := by
  cases a <;> rfl

namespace Rules

/-- The rules of the check, and that what is stored to the output of an aspect can be converted to
it. -/
def strict : Rules where
  accepts := Expected.Admits
  wants := fun kind =>
    match kind with
    | .intrinsic (.storeOutput target) =>
      match Aspect.ofSlot? target.slot with
      | some a => [a.wanted]
      | none => [.any]
    | kind => kind.expected

theorem strict_lowers : strict.Lowers where
  admits := fun _ _ _ h => h
  alu := fun _ => rfl
  combined := fun _ => rfl
  discardSamples := rfl
  discardIf := ⟨.exactly .bool, rfl, fun _ _ h => by
    simpa [strict, Expected.Admits, Expected.admits] using h⟩
  stores := by
    intro target a ha
    refine ⟨a.wanted, by simp only [strict, ha], fun ty r r' h => ?_⟩
    exact Aspect.admits_wanted.2 (Aspect.admits_wanted.1 h)

theorem placed_lowers : placed.Lowers where
  admits := fun _ _ _ h => h.placed
  alu := fun _ => rfl
  combined := fun _ => rfl
  discardSamples := rfl
  discardIf := ⟨.exactly .bool, rfl, fun _ _ h => h .bool rfl⟩
  stores := fun _ a _ => ⟨.any, rfl, fun _ _ _ _ t ht => by cases a <;> cases ht⟩

/-- Strict rules and those of the check differ only in the stores to the output of an aspect. -/
theorem strict_wants (i : Inst) : (∃ a, i.stores? = some a ∧ strict.wants i.kind = [a.wanted] ∧
    i.kind.expected = [.any]) ∨ strict.wants i.kind = i.kind.expected := by
  obtain ⟨kind, inputs, ty⟩ := i
  cases kind with
  | alu op => exact .inr rfl
  | intrinsic op =>
    cases op with
    | storeOutput target =>
      cases ha : Aspect.ofSlot? target.slot with
      | none => exact .inr (by simp [strict, ha, InstKind.expected, Intrinsic.expected])
      | some a => exact .inl ⟨a, ha, by simp [strict, ha], rfl⟩
    | loadInput _ => exact .inr rfl
    | discard => exact .inr rfl
    | discardIf => exact .inr rfl
    | combinedWrite _ => exact .inr rfl
    | discardSamples => exact .inr rfl

end Rules

namespace Flow

variable {f : Flow} {rows : BlockId → List Row}

/-- What is valid under strict rules passes the check. -/
theorem Valid.checked (h : f.Valid .strict rows) : f.Valid .checked rows := by
  refine h.imp (fun _ _ _ ha => ha) fun b _ p r s _ hu => hu.imp ?_
  rcases Rules.strict_wants r.2 with ⟨a, -, hw, he⟩ | he
  · rw [hw]
    show List.Forall₂ _ _ r.2.kind.expected
    rw [he]
    exact .cons (fun ty _ => rfl) .nil
  · rw [he]
    exact List.forall₂_same.2 fun _ _ _ ha => ha

/-- What passes the check is valid under strict rules, if stored values can be converted. -/
theorem Valid.strict {c : Code} (h : f.Valid .checked rows) (hc : c.Shows rows)
    (hs : ∀ b ∈ f.listed, ∀ r ∈ rows b, ∀ a v ty, r.2.stores? = some a → r.2.inputs = [v] →
      c.typeOf v = .ok ty → a.takes ty = true) : f.Valid .strict rows := by
  refine h.imp (fun _ _ _ ha => ha) fun b hb p r s hrows hu => ?_
  rcases Rules.strict_wants r.2 with ⟨a, ha, hw, he⟩ | he
  · rw [hw]
    have hu' : f.UserOk .checked rows b p r.2.ty r.2.inputs [.any] := he ▸ hu
    unfold UserOk at hu' ⊢
    cases hinputs : r.2.inputs with
    | nil =>
      rw [hinputs] at hu'
      cases hu'
    | cons v vs =>
      rw [hinputs, List.forall₂_cons] at hu'
      obtain ⟨⟨ty, hv, -⟩, hrest⟩ := hu'
      obtain rfl : vs = [] := List.forall₂_nil_right_iff.1 hrest
      have htakes := hs b hb r (by simp [hrows]) a v ty ha hinputs (hv.typeOf hc hrows)
      exact .cons ⟨ty, hv, Aspect.admits_wanted.2 htakes⟩ .nil
  · rw [he]
    exact hu

end Flow

namespace Body

/-- An instruction is in one of the blocks of a body. -/
def Has (body : Body) (i : Inst) : Prop :=
  ∃ b ∈ body.blocks, ∃ ids, body.code.instsOf b = .ok ids ∧ ∃ id ∈ ids, body.code.inst id = .ok i

/-- The chains of a body are linked, its blocks are distinct, and its instructions have identities
that the supply has given away. -/
structure Tidy (s : Supply .inst) (body : Body) : Prop where
  linked : ∃ ls, Layout body.code.chainOf body.code.insts ls
  distinct : body.blocks.Nodup
  issued : (body.workspace s).Issued

/-- Every value that is stored to the output of an aspect can be converted to it. -/
def StoresFit (body : Body) : Prop :=
  ∀ i, body.Has i → ∀ a v ty, i.stores? = some a → i.input 0 = .ok v →
    body.code.typeOf v = .ok ty → a.takes ty = true

/-- What a lowering takes away has no result. -/
def LoweredUntyped (body : Body) : Prop := ∀ i, body.Has i → i.IsLowered → i.ty = none

variable {s : Supply .inst} {body : Body}

theorem has_of_mem {rows : BlockId → List Row} (h : body.code.Shows rows) {b : BlockId}
    (hb : b ∈ body.blocks) {r : Row} (hr : r ∈ rows b) : body.Has r.2 := by
  obtain ⟨blk, hblk⟩ := h.get?_of_mem hr
  exact ⟨b, hb, _, h.instsOf hblk, r.1, List.mem_map_of_mem hr, h.inst hr⟩

/-- A tidy body that passes the check is sound under the rules of the check. -/
theorem Tidy.sound (h : body.Tidy s) (valid : body.firstDefect = .ok none)
    (hu : body.LoweredUntyped) : body.Sound .checked s := by
  obtain ⟨ls, hls⟩ := h.linked
  obtain ⟨rows, hrows, -⟩ := Code.exists_shows hls
  obtain ⟨hr, hv⟩ := (firstDefect_eq_none_iff hrows h.distinct).1 valid
  refine ⟨h.distinct, hr, rows, ⟨.refl hrows h.issued, hv⟩, fun b hb r hr hl => ?_⟩
  exact hu r.2 (has_of_mem hrows hb hr) hl

theorem Sound.strict (h : body.Sound .checked s) (hs : body.StoresFit) :
    body.Sound .strict s := by
  obtain ⟨hn, hr, rows, ⟨hd, hv⟩, hu⟩ := h
  have hrows : body.code.Shows rows := hd.shows
  refine ⟨hn, hr, rows, ⟨hd, hv.strict hrows fun b hb r hrb a v ty ha hi hty => ?_⟩, hu⟩
  exact hs r.2 (has_of_mem hrows hb hrb) a v ty ha (by simp [Inst.input, hi]) hty

/-- A sound body passes the check. -/
theorem Sound.firstDefect (h : body.Sound .strict s) : body.firstDefect = .ok none := by
  obtain ⟨hn, hr, rows, ⟨hd, hv⟩, -⟩ := h
  exact (firstDefect_eq_none_iff hd.shows hn).2 ⟨hr, hv.checked⟩

end Body

namespace Module

/-- The body of a function, if it has one, is sound. -/
def SoundDecl (R : Rules) (_ : FuncId) (s : Supply .inst) (decl : FuncDecl) : Prop :=
  ∀ body, decl.impl = .present body → body.Sound R s

variable {m : Module} {R : Rules} {config : LowerConfig}

theorem soundDecl_lasts : Lasts (SoundDecl R) := fun _ _ _ _ hs h body hb => (h body hb).mono hs

theorem firstViolation_eq_none_iff : m.firstViolation = .ok none ↔
    ∀ f ∈ m.allFuncs, ∃ decl, m.funcs.get? f = some decl ∧
      ∀ body, decl.impl = .present body → body.firstDefect = .ok none := by
  have hdecl : ∀ decl : FuncDecl, decl.firstViolation = .ok none ↔
      ∀ body, decl.impl = .present body → body.firstDefect = .ok none := by
    intro decl
    unfold FuncDecl.firstViolation
    cases decl.impl with
    | imported link => simp
    | present body =>
      simp only [FuncDef.present.injEq, forall_eq', bind_eq_ok]
      constructor
      · rintro ⟨o, ho, he⟩
        cases o with
        | none => exact ho
        | some located => cases he
      · intro h
        exact ⟨none, h, rfl⟩
  unfold firstViolation
  rw [findSomeM?_eq_none]
  apply forall₂_congr
  intro f _
  rw [bind_eq_ok]
  apply exists_congr
  intro decl
  rw [Defs.find_eq_ok, hdecl]

theorem soundDecl_merge (hR : R.Lowers) {c : Scalar} (hc : c.ty = .u16) :
    DepthStencil.Keeps (.const (.ofScalar c)) True (SoundDecl R) := by
  intro f s decl body hk himpl
  have hty : (Constant.ofScalar c).ty = .u16 := hc
  obtain ⟨w, r, hw, hle, hs⟩ := (hk body himpl).lowerBlocks hR hty rfl
  refine ⟨w, r, hw, hle, fun _ cache body' hb => ?_⟩
  obtain rfl := FuncDef.present.inj hb
  exact hs cache

theorem soundDecl_expand (hR : R.Lowers) {c z₀ : Scalar} (hc : c.ty = .u16) (hz : z₀.ty = .u16) :
    Discard.Keeps (.const (.ofScalar c)) (.const (.ofScalar z₀)) (SoundDecl R) := by
  intro f s decl body hk himpl
  have hty : (Constant.ofScalar c).ty = .u16 := hc
  have hzero : (Constant.ofScalar z₀).ty = .u16 := hz
  obtain ⟨changed, w, hw, hle, hs⟩ := (hk body himpl).inBlocks hR hty hzero rfl rfl
  refine ⟨changed, w, hw, hle, fun cache body' hb => ?_⟩
  obtain rfl := FuncDef.present.inj hb
  exact hs cache

/-- **Lowering leaves a valid module.**  Let a module be valid, and its bodies tidy.  Let each store
to the depth output have a float as its input and each store to the stencil output an integer, and
let neither these stores nor discards have a result.  Then each lowering goes through, and leaves a
valid module, whatever it returns. -/
theorem lowering_valid (m : Module) (config : LowerConfig) (valid : m.firstViolation = .ok none)
    (tidy : m.Every (Body.Tidy m.freshInsts)) (fit : m.Every Body.StoresFit)
    (untyped : m.Every Body.LoweredUntyped)
    (hlo : 1 ≤ config.maxSamples) (hhi : config.maxSamples ≤ 16) :
    (∃ m' r, m.lowerDepthStencil config = .ok (m', r) ∧ m'.firstViolation = .ok none) ∧
    (∃ m' changed, m.lowerDiscard config = .ok (m', changed) ∧ m'.firstViolation = .ok none) ∧
    ∃ m' r, m.lower config = .ok (m', r) ∧ m'.firstViolation = .ok none := by
  have hR := Rules.strict_lowers
  have hholds : m.Holds (SoundDecl .strict) := by
    intro f hf
    obtain ⟨decl, hdecl, hdefect⟩ := firstViolation_eq_none_iff.1 valid f hf
    refine ⟨decl, hdecl, fun body hb => ?_⟩
    have hsound := (tidy f hf decl body hdecl hb).sound (hdefect body hb)
      (untyped f hf decl body hdecl hb)
    exact hsound.strict (fit f hf decl body hdecl hb)
  have hfinal : ∀ {m' : Module}, m'.Holds (SoundDecl .strict) → m'.firstViolation = .ok none := by
    intro m' h'
    apply firstViolation_eq_none_iff.2
    intro f hf
    obtain ⟨decl, hdecl, hs⟩ := h' f hf
    exact ⟨decl, hdecl, fun body hb => (hs body hb).firstDefect⟩
  have hmerge : ∃ m₁ r₁, m.lowerDepthStencil config = .ok (m₁, r₁) ∧
      m₁.Holds (SoundDecl .strict) := by
    obtain ⟨m₁, r₁, hm₁, -, h₁⟩ := hholds.lowerDepthStencil soundDecl_lasts hlo hhi
      fun c hc _ => soundDecl_merge hR hc
    exact ⟨m₁, r₁, hm₁, h₁ (.inl trivial)⟩
  have hexpand : ∀ {m₁ : Module}, m₁.Holds (SoundDecl .strict) → ∃ m₂ changed,
      m₁.lowerDiscard config = .ok (m₂, changed) ∧ m₂.Holds (SoundDecl .strict) := by
    intro m₁ h₁
    obtain ⟨m₂, changed, hm₂, -, h₂⟩ := h₁.lowerDiscard soundDecl_lasts hlo hhi
      fun c hc _ => soundDecl_expand hR hc rfl
    exact ⟨m₂, changed, hm₂, h₂⟩
  obtain ⟨m₁, r₁, hm₁, h₁⟩ := hmerge
  obtain ⟨m₂, changed, hm₂, h₂⟩ := hexpand hholds
  refine ⟨⟨m₁, r₁, hm₁, hfinal h₁⟩, ⟨m₂, changed, hm₂, hfinal h₂⟩, ?_⟩
  unfold Module.lower
  split
  · rw [hm₁, ok_bind]
    cases r₁ with
    | error e => exact ⟨m₁, .error e, rfl, hfinal h₁⟩
    | ok merged =>
      obtain ⟨m₃, discarded, hm₃, h₃⟩ := hexpand h₁
      refine ⟨m₃, .ok (merged || discarded), ?_, hfinal h₃⟩
      simp only [hm₃, ok_bind, pure_eq_ok]
  · exact ⟨m, _, rfl, valid⟩

end Module

/-- A block that stores depth, discards on a condition, stores stencil, and may be repeated. -/
def Body.sampleFragment : Body where
  code :=
    { blocks := ⟨[(⟨0⟩, ⟨.ofList [⟨0⟩, ⟨1⟩, ⟨2⟩, ⟨3⟩, ⟨4⟩], .branchIf (.result ⟨1⟩) ⟨0⟩ ⟨1⟩⟩),
        (⟨1⟩, .new)]⟩
      insts := ⟨[
        (⟨0⟩, ⟨none, some ⟨1⟩, ⟨.intrinsic (.loadInput 0), [], some .f16⟩⟩),
        (⟨1⟩, ⟨some ⟨0⟩, some ⟨2⟩, ⟨.intrinsic (.loadInput 1), [], some .bool⟩⟩),
        (⟨2⟩, ⟨some ⟨1⟩, some ⟨3⟩,
          ⟨.intrinsic (.storeOutput (.ofSlot .depth)), [.result ⟨0⟩], none⟩⟩),
        (⟨3⟩, ⟨some ⟨2⟩, some ⟨4⟩, ⟨.intrinsic .discardIf, [.result ⟨1⟩], none⟩⟩),
        (⟨4⟩, ⟨some ⟨3⟩, none, ⟨.intrinsic (.storeOutput (.ofSlot .stencil)),
          [.const (.ofScalar (.truncate .u16 7))], none⟩⟩)]⟩ }
  blocks := [⟨0⟩, ⟨1⟩]
  cache := .empty

/-- A fragment shader that writes depth and stencil and discards. -/
def Module.sampleFragment : Module where
  info := ⟨.fragment, .depthStencil, true⟩
  funcs := ⟨[(⟨0⟩, ⟨"main", .present .sampleFragment⟩)]⟩
  allFuncs := [⟨0⟩]
  freshFuncs := ⟨1⟩
  freshBlocks := ⟨2⟩
  freshInsts := ⟨5⟩


namespace Body

theorem sampleFragment_tidy : sampleFragment.Tidy ⟨5⟩ where
  linked := by
    refine ⟨fun b => if b = ⟨0⟩ then [⟨0⟩, ⟨1⟩, ⟨2⟩, ⟨3⟩, ⟨4⟩] else [], fun b => ?_, fun b => ?_,
      fun b => ?_, fun b d hbd x hx hx' => ?_⟩
    · by_cases h₀ : b = ⟨0⟩
      · subst h₀
        rfl
      · by_cases h₁ : b = ⟨1⟩
        · subst h₁
          rfl
        · have hnone : sampleFragment.code.blocks.get? b = none := by
            rw [sampleFragment, Defs.get?_cons, if_neg h₀, Defs.get?_cons, if_neg h₁]
            rfl
          rw [Code.chainOf, hnone, if_neg h₀]
          rfl
    · split
      · exact ⟨⟨_, rfl⟩, ⟨_, rfl⟩, ⟨_, rfl⟩, ⟨_, rfl⟩, ⟨_, rfl⟩, trivial⟩
      · trivial
    · split <;> decide
    · split at hx <;> split at hx'
      · exact hbd (by simp_all)
      · cases hx'
      · cases hx
      · cases hx
  distinct := by decide
  issued := by
    have hall : ∀ e ∈ sampleFragment.code.insts.entries, e.1.index < 5 := by decide
    exact fun id n hn => hall _ (Defs.mem_entries_of_get? hn)

/-- The instructions of the sample. -/
theorem sampleFragment_has {i : Inst} (h : sampleFragment.Has i) :
    i ∈ sampleFragment.code.insts.entries.map fun e => e.2.val := by
  obtain ⟨b, hb, ids, hids, id, hid, hi⟩ := h
  obtain ⟨n, hn, he⟩ := bind_eq_ok.1 hi
  cases he
  exact List.mem_map.2 ⟨_, Defs.mem_entries_of_get? (Defs.find_eq_ok.1 hn), rfl⟩

theorem sampleFragment_fit : sampleFragment.StoresFit := by
  intro i hi a v ty hstores hinput hty
  have hall : ∀ i ∈ sampleFragment.code.insts.entries.map fun e => e.2.val,
      ∀ a, i.stores? = some a →
        (i.input 0 >>= sampleFragment.code.typeOf).map a.takes = .ok true := by decide
  have htakes := hall i (sampleFragment_has hi) a hstores
  rw [hinput, ok_bind, hty] at htakes
  exact Except.ok.inj htakes

theorem sampleFragment_untyped : sampleFragment.LoweredUntyped := by
  have hall : ∀ i ∈ sampleFragment.code.insts.entries.map fun e => e.2.val,
      (i.stores? ≠ none ∨ i.kind = .intrinsic .discard ∨ i.kind = .intrinsic .discardIf) →
        i.ty = none := by decide
  exact fun i hi hl => hall i (sampleFragment_has hi) hl

end Body

namespace Module

/-- Something holds of the sample if it holds of its body. -/
theorem sampleFragment_every {P : Body → Prop} (h : P .sampleFragment) :
    sampleFragment.Every P := by
  intro f hf decl body hdecl himpl
  obtain rfl := List.mem_singleton.1 hf
  cases hdecl
  cases himpl
  exact h

theorem sampleFragment_lowering_valid : ∃ m',
    sampleFragment.lower .eightSamples = .ok (m', .ok true) ∧ m'.firstViolation = .ok none := by
  obtain ⟨-, -, m', r, hm', hvalid⟩ := lowering_valid sampleFragment .eightSamples rfl
    (sampleFragment_every Body.sampleFragment_tidy) (sampleFragment_every Body.sampleFragment_fit)
    (sampleFragment_every Body.sampleFragment_untyped) (by decide) (by decide)
  obtain ⟨m'', hm''⟩ : ∃ m', sampleFragment.lower .eightSamples = .ok (m', .ok true) := ⟨_, rfl⟩
  rw [hm''] at hm'
  cases hm'
  exact ⟨m', hm'', hvalid⟩

end Module

end ShaderIR
