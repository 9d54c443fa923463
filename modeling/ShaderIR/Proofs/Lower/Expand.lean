import ShaderIR.Lower.Discard
import ShaderIR.Proofs.Edit.Rule
import ShaderIR.Proofs.Lower.Merge

/-!
# One block of the discard lowering

The lowering of a block is told again as a relation between rows.

* `ExpandStep`: what a row becomes; `Expands`: what all rows of a block become, from the first to
  the last.
* `edit_of_not`, `edit_of_discard`, `edit_of_discardIf`: how an instruction is edited, given that
  the instructions that replace it can be inserted.

Principal statements: `edit_step` (an instruction is edited as `ExpandStep` says, and the code stays
valid) and `inBlock_expands` (so is a block).
-/

namespace ShaderIR

/-- An instruction discards. -/
def Inst.IsDiscard (i : Inst) : Prop :=
  i.kind = .intrinsic .discard ∨ i.kind = .intrinsic .discardIf

/-- The instruction that kills the samples of a mask. -/
def Inst.discardSamples (mask : Value) : Inst := ⟨.intrinsic .discardSamples, [mask], none⟩

/-- The instruction that makes a mask of a condition. -/
def Inst.selectMask (cond all nothing : Value) : Inst :=
  ⟨.alu .select, [cond, all, nothing], some .u16⟩

namespace Discard

/-- What a row becomes after the rows `p`, and whether that is something else. -/
inductive ExpandStep (f : Flow) (all nothing : Value) (rows : BlockId → List Row) (b : BlockId)
    (p : List Row) (r : Row) (s : List Row) : List Row → Bool → Prop where
  | keep (other : ¬ r.2.IsDiscard) : ExpandStep f all nothing rows b p r s [r] false
  | discard {k : InstId} (kind : r.2.kind = .intrinsic .discard) (untyped : r.2.ty = none) :
    ExpandStep f all nothing rows b p r s [(k, .discardSamples all)] true
  | discardIf {k c : InstId} {cond : Value}
    (shown : ∃ c : Code, c.Shows (Function.update rows b (p ++ r :: s)))
    (kind : r.2.kind = .intrinsic .discardIf) (inputs : r.2.inputs = [cond])
    (untyped : r.2.ty = none) (hasType : f.HasType rows b p cond .bool)
    (fresh : ∀ d, c ∉ (Function.update rows b (p ++ r :: s) d).map Prod.fst) :
    ExpandStep f all nothing rows b p r s
      [(c, .selectMask cond all nothing), (k, .discardSamples (.result c))] true

/-- What the rows of a block become, those before them being done, and whether any becomes something
else. -/
inductive Expands (f : Flow) (all nothing : Value) (rows : BlockId → List Row) (b : BlockId) :
    List Row → List Row → List Row → Bool → Prop where
  | nil {done : List Row} : Expands f all nothing rows b done [] done false
  | cons {done s new out : List Row} {r : Row} {here later : Bool}
    (step : ExpandStep f all nothing rows b done r s new here)
    (rest : Expands f all nothing rows b (done ++ new) s out later) :
    Expands f all nothing rows b done (r :: s) out (here || later)

variable {f : Flow} {R : Rules} {w₀ w : Workspace} {rows : BlockId → List Row} {b : BlockId}
  {p s : List Row} {r : Row} {all nothing mask : Value}

theorem condition_of_not {i : Inst} (h : ¬ i.IsDiscard) : condition i = .ok none := by
  unfold condition
  split
  · exact absurd (.inl ‹_›) h
  · exact absurd (.inr ‹_›) h
  · rfl

section Edits

variable {k c : InstId} {cond : Value} {w₁ w₂ w₃ : Workspace}

theorem edit_of_not (hinst : w.code.inst r.1 = .ok r.2) (h : ¬ r.2.IsDiscard) :
    edit all nothing b r.1 () w = .ok (false, (), w) := by
  unfold edit
  rw [hinst, ok_bind, condition_of_not h]
  rfl

theorem edit_of_discard (hinst : w.code.inst r.1 = .ok r.2)
    (hkind : r.2.kind = .intrinsic .discard)
    (hinsert : (w.at (.before b r.1)).discardSamples all = .ok (k, w₁.at (.before b r.1)))
    (hremove : w₁.removeInst b r.1 = .ok (r.2, w₂)) :
    edit all nothing b r.1 () w = .ok (true, (), w₂) := by
  have hremove : (w₁.at (.before b r.1)).work.removeInst b r.1 = .ok (r.2, w₂) := hremove
  unfold edit
  simp only [hinst, condition, hkind, ok_bind, killed, hinsert, hremove, pure_eq_ok]

theorem edit_of_discardIf (hinst : w.code.inst r.1 = .ok r.2)
    (hkind : r.2.kind = .intrinsic .discardIf) (hcond : r.2.input 0 = .ok cond)
    (hselect : (w.at (.before b r.1)).select cond all nothing =
      .ok (.result c, w₁.at (.before b r.1)))
    (hinsert : (w₁.at (.before b r.1)).discardSamples (.result c) =
      .ok (k, w₂.at (.before b r.1)))
    (hremove : w₂.removeInst b r.1 = .ok (r.2, w₃)) :
    edit all nothing b r.1 () w = .ok (true, (), w₃) := by
  have hremove : (w₂.at (.before b r.1)).work.removeInst b r.1 = .ok (r.2, w₃) := hremove
  unfold edit
  simp only [hinst, condition, hkind, hcond, ok_bind, killed, hselect, hinsert, hremove, pure_eq_ok]

/-- The choice between two masks is inserted as an instruction of its own. -/
theorem select_of_insert {ka : Constant} (hka : ka.ty = .u16) {at_ : Cursor}
    (h : (w.at at_).insert (.selectMask cond (.const ka) nothing) = .ok (c, w₁.at at_)) :
    (w.at at_).select cond (.const ka) nothing = .ok (.result c, w₁.at at_) := by
  have htype : (w.at at_).typeOf (.const ka) = .ok .u16 := by
    rw [← hka]
    rfl
  rw [Builder.select, htype, ok_bind, Builder.alu]
  show ((w.at at_).insert (.selectMask cond (.const ka) nothing) >>= _) = _
  rw [h]
  rfl

end Edits

/-- The mask of the killed samples is put in place of an instruction. -/
theorem discardSamples_stands (hR : R.Lowers)
    (h : w₀.Stands f R w (Function.update rows b (p ++ r :: s))) (hty : r.2.ty = none)
    (hmask : f.HasType rows b p mask .u16) :
    ∃ (k : InstId) (w₁ w₂ : Workspace),
      (w.at (.before b r.1)).discardSamples mask = .ok (k, w₁.at (.before b r.1)) ∧
      w₁.removeInst b r.1 = .ok (r.2, w₂) ∧
      w₀.Stands f R w₂ (Function.update rows b (p ++ (k, .discardSamples mask) :: s)) := by
  have hself := Function.update_self b (p ++ r :: s) rows
  obtain ⟨w₁, hw₁, h₁⟩ := h.insertBefore hself (.discardSamples mask) (by
    show f.UserOk R _ b p none [mask] (R.wants (.intrinsic .discardSamples))
    rw [hR.discardSamples]
    have haccepts := DepthStencil.admits_exactly hR .u16 none
    exact .cons ⟨.u16, Flow.hasType_update.2 hmask, haccepts⟩ .nil)
  rw [Function.update_idem] at h₁
  have hshift : ∀ x : Row, p ++ x :: r :: s = (p ++ [x]) ++ r :: s := fun x => by simp
  have h₁' := h₁
  rw [hshift] at h₁'
  obtain ⟨w₂, hw₂, h₂⟩ := h₁'.removeInst (Function.update_self b _ rows) hty
  rw [Function.update_idem] at h₂
  exact ⟨⟨w.fresh.next⟩, w₁, w₂, hw₁, hw₂, by simpa using h₂⟩

/-- The condition of a conditional discard. -/
theorem exists_condition (hR : R.Lowers) (hl : b ∈ f.listed)
    (h : w₀.Stands f R w (Function.update rows b (p ++ r :: s)))
    (hkind : r.2.kind = .intrinsic .discardIf) :
    ∃ cond, r.2.inputs = [cond] ∧ f.HasType rows b p cond .bool := by
  have huser := h.user hl (Function.update_self b (p ++ r :: s) rows)
  obtain ⟨e, he, haccepts⟩ := hR.discardIf
  rw [hkind, he, Flow.UserOk] at huser
  cases hinputs : r.2.inputs with
  | nil =>
    rw [hinputs] at huser
    cases huser
  | cons v vs =>
    rw [hinputs, List.forall₂_cons] at huser
    obtain ⟨⟨ty, hv, hok⟩, hrest⟩ := huser
    obtain rfl : vs = [] := List.forall₂_nil_right_iff.1 hrest
    obtain rfl := haccepts ty _ hok
    exact ⟨v, rfl, Flow.hasType_update.1 hv⟩

/-- The choice between two masks is put before an instruction. -/
theorem selectMask_stands (hR : R.Lowers) {ka kn : Constant} (hka : ka.ty = .u16)
    (hkn : kn.ty = .u16) (h : w₀.Stands f R w (Function.update rows b (p ++ r :: s))) {cond : Value}
    (hcond : f.HasType rows b p cond .bool) :
    ∃ (c : InstId) (w₁ : Workspace), (w.at (.before b r.1)).select cond (.const ka) (.const kn) =
        .ok (.result c, w₁.at (.before b r.1)) ∧
      (∀ d, c ∉ (Function.update rows b (p ++ r :: s) d).map Prod.fst) ∧
      w₀.Stands f R w₁ (Function.update rows b
        (p ++ (c, .selectMask cond (.const ka) (.const kn)) :: r :: s)) := by
  have hsame : R.accepts .sameAsResult .u16 (some .u16) :=
    hR.admits _ _ _ (by simp [Expected.Admits, Expected.admits])
  have huser : f.UserOk R (Function.update rows b (p ++ r :: s)) b p (some .u16)
      [cond, .const ka, .const kn] (R.wants (.alu .select)) := by
    rw [hR.alu]
    have hbool := DepthStencil.admits_exactly hR .bool (some .u16)
    exact .cons ⟨.bool, Flow.hasType_update.2 hcond, hbool⟩
      (.cons ⟨.u16, hka, hsame⟩ (.cons ⟨.u16, hkn, hsame⟩ .nil))
  obtain ⟨w₁, hw₁, h₁⟩ := h.insertBefore (Function.update_self b (p ++ r :: s) rows)
    (.selectMask cond (.const ka) (.const kn)) huser
  rw [Function.update_idem] at h₁
  exact ⟨⟨w.fresh.next⟩, w₁, select_of_insert hka hw₁, h.fresh_not_mem, h₁⟩

/-- **An instruction is edited as `ExpandStep` says, and the code stays valid.** -/
theorem edit_step (hR : R.Lowers) (hl : b ∈ f.listed) {ka kn : Constant} (hka : ka.ty = .u16)
    (hkn : kn.ty = .u16) (hall : all = .const ka) (hnothing : nothing = .const kn)
    (h : w₀.Stands f R w (Function.update rows b (p ++ r :: s)))
    (hty : r.2.IsDiscard → r.2.ty = none) :
    ∃ here w' new, edit all nothing b r.1 () w = .ok (here, (), w') ∧
      ExpandStep f all nothing rows b p r s new here ∧
      w₀.Stands f R w' (Function.update rows b (p ++ (new ++ s))) := by
  subst hall hnothing
  have hself := Function.update_self b (p ++ r :: s) rows
  have hinst : w.code.inst r.1 = .ok r.2 := h.shows.inst (b := b) (by rw [hself]; simp)
  by_cases hother : r.2.IsDiscard
  swap
  · exact ⟨false, w, [r], edit_of_not hinst hother, .keep hother, h⟩
  have huntyped := hty hother
  rcases hother with hkind | hkind
  · have hmask : f.HasType rows b p (.const ka) .u16 := hka
    obtain ⟨k, w₁, w₂, hw₁, hw₂, h₂⟩ := discardSamples_stands hR h huntyped hmask
    exact ⟨true, w₂, [(k, .discardSamples (.const ka))], edit_of_discard hinst hkind hw₁ hw₂,
      .discard hkind huntyped, h₂⟩
  · obtain ⟨cond, hinputs, hcond⟩ := exists_condition hR hl h hkind
    obtain ⟨c, w₁, hselect, hfresh, h₁⟩ := selectMask_stands hR hka hkn h hcond
    have hshift : ∀ x : Row, p ++ x :: r :: s = (p ++ [x]) ++ r :: s := fun x => by simp
    rw [hshift] at h₁
    have hmask : f.HasType rows b (p ++ [(c, .selectMask cond (.const ka) (.const kn))])
        (.result c) .u16 :=
      .inl ⟨.selectMask cond (.const ka) (.const kn), List.mem_append_right _ (by simp), rfl⟩
    obtain ⟨k, w₂, w₃, hw₂, hw₃, h₃⟩ := discardSamples_stands hR h₁ huntyped hmask
    have hinput : r.2.input 0 = .ok cond := by simp [Inst.input, hinputs]
    exact ⟨true, w₃, [(c, .selectMask cond (.const ka) (.const kn)),
      (k, .discardSamples (.result c))], edit_of_discardIf hinst hkind hinput hselect hw₂ hw₃,
      .discardIf ⟨_, h.shows⟩ hkind hinputs huntyped hcond hfresh, by simpa using h₃⟩

/-- What holds along the walk over a block: what the rows that are ahead become completes what the
whole block becomes. -/
def Expanding (f : Flow) (R : Rules) (all nothing : Value) (w₀ : Workspace)
    (rows : BlockId → List Row) (b : BlockId) (p s : List Row) (changed : Bool) (_ : Unit)
    (w : Workspace) : Prop :=
  w₀.Stands f R w (Function.update rows b (p ++ s)) ∧
    (∀ r ∈ s, r.2.IsDiscard → r.2.ty = none) ∧
    ∀ out later, Expands f all nothing rows b p s out later →
      Expands f all nothing rows b [] (rows b) out (changed || later)

theorem keepsRows_expanding (hR : R.Lowers) (hl : b ∈ f.listed) {ka kn : Constant}
    (hka : ka.ty = .u16) (hkn : kn.ty = .u16) (hall : all = .const ka)
    (hnothing : nothing = .const kn) (w₀ : Workspace) (rows : BlockId → List Row) :
    (edit all nothing).KeepsRows b (Expanding f R all nothing w₀ rows b) where
  shown := by
    rintro p s changed ⟨⟩ w ⟨h, -⟩
    exact ⟨_, h.shows, Function.update_self b _ rows⟩
  step := by
    rintro p r s changed ⟨⟩ w ⟨h, hty, hcompletes⟩
    obtain ⟨hr, hty⟩ := List.forall_mem_cons.1 hty
    obtain ⟨here, w', new, hedit, hstep, h'⟩ := edit_step hR hl hka hkn hall hnothing h hr
    rw [← List.append_assoc] at h'
    refine ⟨new, here, (), w', hedit, h', hty, fun out later hrest => ?_⟩
    rw [Bool.or_assoc]
    exact hcompletes _ _ (.cons hstep hrest)

/-- **A block is edited as `Expands` says, and the code stays valid.** -/
theorem inBlock_expands (hR : R.Lowers) (hl : b ∈ f.listed) {ka kn : Constant}
    (hka : ka.ty = .u16) (hkn : kn.ty = .u16) (hall : all = .const ka)
    (hnothing : nothing = .const kn) (h : w₀.Stands f R w rows)
    (hdef : ∃ blk, w.code.blocks.get? b = some blk)
    (hty : ∀ r ∈ rows b, r.2.IsDiscard → r.2.ty = none) :
    ∃ changed w' out, (edit all nothing).inBlock b () w = .ok (changed, (), w') ∧
      Expands f all nothing rows b [] (rows b) out changed ∧
      w₀.Stands f R w' (Function.update rows b out) := by
  have hstart : Expanding f R all nothing w₀ rows b [] (rows b) false () w := by
    refine ⟨?_, hty, fun out later hout => by rwa [Bool.false_or]⟩
    rwa [List.nil_append, Function.update_eq_self]
  obtain ⟨changed, ⟨⟩, w', out, hrun, h', -, hout⟩ :=
    (keepsRows_expanding hR hl hka hkn hall hnothing w₀ rows).inBlock h.shows hdef () hstart
  rw [List.append_nil] at h'
  exact ⟨changed, w', out, hrun, by simpa using hout out false .nil, h'⟩

end Discard

end ShaderIR
