import ShaderIR.Proofs.Body.Growth
import ShaderIR.Proofs.Lower.Functions

/-!
# What a lowering says that it changed

Whatever the code is like, a lowering that goes through says that it has changed the code if and
only if it has.

* `Code.Grown`: no definition is lost but those that a lowering takes away.
* `Code.Changed`: something new is defined.  Neither lowering takes that away again.
* `Code.Lowered`: code is as it was, or it has grown and changed.
* `DepthStencil.altered`, `Edit.Honest`: when a lowering says that it has changed something.

Principal statements: `DepthStencil.lowerBlocks_lowered` and `Edit.Honest.inBlocks` with
`Discard.edit_honest` (both lowerings change the blocks of a function if and only if they say so).
-/

namespace ShaderIR

namespace Code

variable {c c' c₀ : Code} {f g : Bool}

/-- The flow is the same, and no definition is lost but those that a lowering takes away. -/
structure Grown (c c' : Code) : Prop where
  flow : c.SameFlow c'
  keeps : ∀ id i, c.inst? id = some i → ¬ i.IsLowered →
    ∃ i', c'.inst? id = some i' ∧ ¬ i'.IsLowered

/-- An instruction is defined that was not, and that is none of those that a lowering takes away. -/
def Changed (c c' : Code) : Prop :=
  ∃ id i, c.inst? id = none ∧ c'.inst? id = some i ∧ ¬ i.IsLowered

theorem Grown.refl (c : Code) : c.Grown c := ⟨.refl c, fun _ i hi hn => ⟨i, hi, hn⟩⟩

theorem Grown.trans (h : c₀.Grown c) (h' : c.Grown c') : c₀.Grown c' := by
  refine ⟨h.flow.trans h'.flow, fun id i hi hn => ?_⟩
  obtain ⟨i₁, hi₁, hn₁⟩ := h.keeps id i hi hn
  exact h'.keeps id i₁ hi₁ hn₁

theorem Extends.grown (h : c.Extends c') : c.Grown c' :=
  ⟨h.flow, fun id i hi hn => ⟨i, h.keeps id i hi, hn⟩⟩

theorem Changed.grown (h : c₀.Changed c) (h' : c.Grown c') : c₀.Changed c' := by
  obtain ⟨id, i, hnone, hi, hn⟩ := h
  obtain ⟨i', hi', hn'⟩ := h'.keeps id i hi hn
  exact ⟨id, i', hnone, hi', hn'⟩

theorem Changed.ne (h : c.Changed c') : c' ≠ c := by
  rintro rfl
  obtain ⟨id, i, hnone, hi, -⟩ := h
  rw [hnone] at hi
  cases hi

/-- Code is as it was, or it has grown and changed. -/
inductive Lowered (c : Code) : Bool → Code → Prop where
  | same : Lowered c false c
  | changed {c' : Code} (grown : c.Grown c') (changed : c.Changed c') : Lowered c true c'

theorem Lowered.grown (h : c.Lowered f c') : c.Grown c' := by
  cases h with
  | same => exact .refl c
  | changed grown => exact grown

theorem Lowered.trans (h : c₀.Lowered f c) (h' : c.Lowered g c') : c₀.Lowered (f || g) c' := by
  cases h with
  | same => exact h'
  | changed grown changed =>
    exact .changed (grown.trans h'.grown) (changed.grown h'.grown)

end Code

section Steps

variable {w w' : Workspace} {b : BlockId} {id : InstId} {i : Inst}

/-- Replacing the definition of an instruction by one that stays. -/
theorem Workspace.put_grown {n : Node .inst Inst} (hn : w.code.insts.get? id = some n)
    (hi : ¬ i.IsLowered) : w.code.Grown (w.put id n i).code ∧
      ∀ y, (w.put id n i).code.inst? y = if y = id then some i else w.code.inst? y := by
  have hinst : ∀ y, (w.put id n i).code.inst? y = if y = id then some i else w.code.inst? y := by
    intro y
    rw [Code.inst?, put, Defs.get?_set_of_get? hn]
    split <;> rfl
  refine ⟨⟨fun _ => rfl, fun y j hj hlow => ?_⟩, hinst⟩
  rw [hinst]
  split
  · exact ⟨i, rfl, hi⟩
  · exact ⟨j, hj, hlow⟩

/-- Taking out an instruction that a lowering takes away. -/
theorem Workspace.removeInst_grown {j : Inst} (h : w.removeInst b id = .ok (j, w'))
    (hi : w.code.inst? id = some i) (hlow : i.IsLowered) : w.code.Grown w'.code := by
  obtain ⟨hflow, hinst⟩ := removeInst_ok h
  refine ⟨hflow, fun y k hk hnot => ?_⟩
  have hne : y ≠ id := by
    rintro rfl
    rw [hi] at hk
    exact hnot (Option.some.inj hk ▸ hlow)
  exact ⟨k, by rw [hinst, if_neg hne, hk], hnot⟩

end Steps

/-! ## Depth and stencil stores -/

namespace DepthStencil

variable {mask : Value} {b : BlockId} {store id : InstId} {i : Inst} {a : Aspect} {v v' : Value}
  {t : Option InstId} {w w' : Workspace} {bd bd' : Builder}

theorem alu_extends {op : AluOp} {inputs : List Value} {ty : ScalarType}
    (h : bd.alu op inputs ty = .ok (v', bd')) : bd.work.code.Extends bd'.work.code := by
  obtain ⟨⟨id, bd₁⟩, hinsert, h⟩ := bind_eq_ok.1 h
  cases h
  exact (Builder.insert_ok hinsert).1

theorem convert_extends (h : convert bd a v = .ok (v', bd')) :
    bd.work.code.Extends bd'.work.code := by
  have hif : ∀ {op ty}, (do if (← bd.typeOf v) = ty then return (v, bd) else bd.alu op [v] ty) =
      .ok (v', bd') → bd.work.code.Extends bd'.work.code := by
    intro op ty h
    obtain ⟨ty', -, h⟩ := bind_eq_ok.1 h
    split at h
    · cases h
      exact .refl _
    · exact alu_extends h
  cases a with
  | depth => exact hif h
  | stencil => exact hif h

/-- The combined write is new if there has been none. -/
theorem combined_extends (h : combined bd mask t = .ok (id, bd')) :
    bd.work.code.Extends bd'.work.code ∧ (t = none → bd.work.code.inst? id = none ∧
      ∃ inputs, bd'.work.code.inst? id =
        some ⟨.intrinsic (.combinedWrite .empty), inputs, none⟩) := by
  cases t with
  | some id =>
    cases h
    exact ⟨.refl _, nofun⟩
  | none =>
    obtain ⟨hext, hnone, hnew⟩ := Builder.insert_ok h
    exact ⟨hext, fun _ => ⟨hnone, _, hnew⟩⟩

/-- Only a combined write gets an aspect, and it stays one. -/
theorem kind_of_addAspect {r : Except Aspect Inst} (h : addAspect i a v = .ok r) :
    ∃ set, i.kind = .intrinsic (.combinedWrite set) ∧ (set = .empty → ∃ write, r = .ok write) ∧
      ∀ write, r = .ok write → ∃ set', write.kind = .intrinsic (.combinedWrite set') := by
  unfold addAspect at h
  split at h
  · rename_i set hkind
    refine ⟨set, hkind, ?_⟩
    split at h
    · rename_i a' hrefused
      cases h
      refine ⟨?_, nofun⟩
      rintro rfl
      obtain ⟨hcontains, -⟩ := AspectSet.insertOnce_eq_error_iff.1 hrefused
      cases a <;> cases hcontains
    · rename_i written _
      obtain ⟨write, hwrite, h⟩ := bind_eq_ok.1 h
      cases h
      refine ⟨fun _ => ⟨write, rfl⟩, fun write' he => ⟨written, ?_⟩⟩
      cases he
      unfold Inst.withInput at hwrite
      split at hwrite <;> cases hwrite
      rfl
  · cases h

theorem not_isLowered_of_combinedWrite {set : AspectSet}
    (h : i.kind = .intrinsic (.combinedWrite set)) : ¬ i.IsLowered := by
  rintro (hs | hd | hd)
  · exact hs (by rw [Inst.stores?, h])
  · rw [h] at hd
    cases hd
  · rw [h] at hd
    cases hd

/-- **Merging a store** loses nothing but the store, and if it is the first of its block, something
new is there and the merge succeeds. -/
theorem mergeStore_grown {r : Except Aspect InstId}
    (h : mergeStore mask b store i a t w = .ok (w', r)) (hi : w.code.inst? store = some i)
    (ha : i.stores? = some a) : w.code.Grown w'.code ∧
      (t = none → w.code.Changed w'.code ∧ ∃ id, r = .ok id) := by
  have hlow : i.IsLowered := .inl (by simp [ha])
  obtain ⟨v, -, h⟩ := bind_eq_ok.1 h
  obtain ⟨⟨v', bd₁⟩, hconvert, h⟩ := bind_eq_ok.1 h
  obtain ⟨⟨id, bd₂⟩, hcombined, h⟩ := bind_eq_ok.1 h
  obtain ⟨n, hn, h⟩ := bind_eq_ok.1 h
  obtain ⟨added, hadd, h⟩ := bind_eq_ok.1 h
  have hn := Defs.access_eq_ok.1 hn
  have hext₁ : w.code.Extends bd₁.work.code := convert_extends hconvert
  obtain ⟨hext₂, hfirst⟩ := combined_extends hcombined
  have hext := hext₁.trans hext₂
  obtain ⟨set, hkind, hempty, hwrites⟩ := kind_of_addAspect hadd
  have hnone : t = none → w.code.inst? id = none ∧ set = .empty := by
    intro ht
    obtain ⟨hnone, inputs, hnew⟩ := hfirst ht
    refine ⟨hext₁.undefined hnone, ?_⟩
    rw [Code.inst?, hn] at hnew
    rw [Option.some.inj hnew] at hkind
    cases hkind
    rfl
  cases added with
  | error a' =>
    cases h
    refine ⟨hext.grown, fun ht => ?_⟩
    obtain ⟨write, hwrite⟩ := hempty (hnone ht).2
    cases hwrite
  | ok write =>
    obtain ⟨⟨j, w₃⟩, hremove, h⟩ := bind_eq_ok.1 h
    cases h
    obtain ⟨set', hkind'⟩ := hwrites write rfl
    have hnot := not_isLowered_of_combinedWrite hkind'
    obtain ⟨hput, hinst⟩ := bd₂.work.put_grown hn hnot
    -- the store is not the combined write, so that it is still there to be taken out
    have hstore : bd₂.work.code.inst? store = some i := hext.keeps store i hi
    have hne : store ≠ id := by
      rintro rfl
      rw [Code.inst?, hn] at hstore
      rw [Option.some.inj hstore] at hkind
      exact not_isLowered_of_combinedWrite hkind hlow
    have hrest := Workspace.removeInst_grown (w := bd₂.work.put id n write) hremove
      (by rw [hinst, if_neg hne, hstore]) hlow
    refine ⟨(hext.grown.trans hput).trans hrest, fun ht => ⟨?_, id, rfl⟩⟩
    have hchanged : w.code.Changed (bd₂.work.put id n write).code :=
      ⟨id, write, (hnone ht).1, by rw [hinst, if_pos rfl], hnot⟩
    exact hchanged.grown hrest

/-- Whether a result is one of a lowering that has changed something. -/
def altered : Except Aspect Bool → Bool
  | .ok changed => changed
  | .error _ => true

/-- Merging the stores of a segment changes something, unless there are none, or that has been
done before. -/
theorem lowerSegment_grown {n : Nat} {seg : Segment .inst} {r : Except Aspect Bool}
    (h : lowerSegment mask b n seg t w = .ok (w', r)) : w.code.Grown w'.code ∧
      (t = none → w.code.Lowered (altered r) w'.code) ∧ (t ≠ none → altered r = true) := by
  induction n generalizing seg t w with
  | zero => cases h
  | succ n ih =>
    obtain ⟨popped, -, h⟩ := bind_eq_ok.1 h
    cases popped with
    | none =>
      cases h
      refine ⟨.refl _, ?_, fun ht => Option.isSome_iff_ne_none.2 ht⟩
      rintro rfl
      exact .same
    | some p =>
      obtain ⟨id, rest⟩ := p
      obtain ⟨i, hi, h⟩ := bind_eq_ok.1 h
      have hi := Code.inst_eq_ok.1 hi
      cases ha : i.stores? with
      | none =>
        simp only [ha] at h
        exact ih h
      | some a =>
        simp only [ha] at h
        obtain ⟨⟨w₁, merged⟩, hmerge, h⟩ := bind_eq_ok.1 h
        obtain ⟨hgrown, hfirst⟩ := mergeStore_grown hmerge hi ha
        cases merged with
        | error a =>
          cases h
          refine ⟨hgrown, fun ht => ?_, fun _ => rfl⟩
          obtain ⟨-, id, hid⟩ := hfirst ht
          cases hid
        | ok target =>
          obtain ⟨hrest, -, halt⟩ := ih h
          rw [halt (Option.some_ne_none target)]
          refine ⟨hgrown.trans hrest, fun ht => ?_, fun _ => rfl⟩
          exact .changed (hgrown.trans hrest) ((hfirst ht).1.grown hrest)

/-- **The stores of a block are merged** if there are any, and nothing is changed otherwise. -/
theorem lowerBlock_lowered {r : Except Aspect Bool} (h : lowerBlock mask b w = .ok (w', r)) :
    w.code.Lowered (altered r) w'.code := by
  obtain ⟨blk, -, h⟩ := bind_eq_ok.1 h
  exact (lowerSegment_grown h).2.1 rfl

theorem lowerBlocks_lowered {blocks : List BlockId} {r : Except Aspect Bool}
    (h : lowerBlocks mask blocks w = .ok (w', r)) : w.code.Lowered (altered r) w'.code := by
  induction blocks generalizing w w' r with
  | nil =>
    cases h
    exact .same
  | cons b blocks ih =>
    obtain ⟨⟨w₁, here⟩, hblock, h⟩ := bind_eq_ok.1 h
    have hfirst := lowerBlock_lowered hblock
    cases here with
    | error a =>
      cases h
      exact hfirst
    | ok here =>
      obtain ⟨⟨w₂, later⟩, hblocks, h⟩ := bind_eq_ok.1 h
      have hboth := hfirst.trans (ih hblocks)
      cases later with
      | error a =>
        cases h
        simpa [altered] using hboth
      | ok later =>
        cases h
        exact hboth

end DepthStencil

/-! ## Discards -/

namespace Edit

variable {σ : Type} {edit : Edit σ} {b : BlockId} {s s' : σ} {w w' : Workspace} {f : Bool}

/-- An edit says that it has changed the code if and only if it has. -/
def Honest (edit : Edit σ) : Prop :=
  ∀ b id s w f s' w', edit b id s w = .ok (f, s', w') → w.code.Lowered f w'.code

theorem Honest.inSegment (he : edit.Honest) {n : Nat} {seg : Segment .inst}
    (h : edit.inSegment b n seg s w = .ok (f, s', w')) : w.code.Lowered f w'.code := by
  induction n generalizing seg s w w' f with
  | zero => cases h
  | succ n ih =>
    obtain ⟨popped, -, h⟩ := bind_eq_ok.1 h
    cases popped with
    | none =>
      cases h
      exact .same
    | some p =>
      obtain ⟨⟨here, s₁, w₁⟩, hedit, h⟩ := bind_eq_ok.1 h
      obtain ⟨⟨later, s₂, w₂⟩, hrest, h⟩ := bind_eq_ok.1 h
      cases h
      exact (he _ _ _ _ _ _ _ hedit).trans (ih hrest)

theorem Honest.inBlock (he : edit.Honest) (h : edit.inBlock b s w = .ok (f, s', w')) :
    w.code.Lowered f w'.code := by
  obtain ⟨blk, -, h⟩ := bind_eq_ok.1 h
  exact he.inSegment h

theorem Honest.inBlocks (he : edit.Honest) {blocks : List BlockId}
    (h : edit.inBlocks blocks s w = .ok (f, s', w')) : w.code.Lowered f w'.code := by
  induction blocks generalizing s w w' f with
  | nil =>
    cases h
    exact .same
  | cons b blocks ih =>
    obtain ⟨⟨here, s₁, w₁⟩, hblock, h⟩ := bind_eq_ok.1 h
    obtain ⟨⟨later, s₂, w₂⟩, hrest, h⟩ := bind_eq_ok.1 h
    cases h
    exact (he.inBlock hblock).trans (ih hrest)

end Edit

namespace Discard

variable {all nothing : Value}

theorem killed_extends {bd bd' : Builder} {cond : Option Value} {mask : Value}
    (h : killed bd all nothing cond = .ok (mask, bd')) :
    bd.work.code.Extends bd'.work.code := by
  cases cond with
  | none =>
    cases h
    exact .refl _
  | some v =>
    obtain ⟨ty, -, h⟩ := bind_eq_ok.1 h
    exact DepthStencil.alu_extends h

theorem isDiscard_of_condition {i : Inst} {cond : Option Value}
    (h : condition i = .ok (some cond)) : i.IsDiscard := by
  by_contra hnot
  rw [condition_of_not hnot] at h
  cases h

/-- **A discard is replaced**, and any other instruction is left alone. -/
theorem edit_honest : (edit all nothing).Honest := by
  intro b id s w f s' w' h
  obtain ⟨i, hi, h⟩ := bind_eq_ok.1 h
  obtain ⟨cond, hcond, h⟩ := bind_eq_ok.1 h
  have hi := Code.inst_eq_ok.1 hi
  cases cond with
  | none =>
    cases h
    exact .same
  | some cond =>
    have hlow : i.IsLowered := .inr (isDiscard_of_condition hcond)
    obtain ⟨⟨mask, bd₁⟩, hkilled, h⟩ := bind_eq_ok.1 h
    obtain ⟨⟨new, bd₂⟩, hinsert, h⟩ := bind_eq_ok.1 h
    obtain ⟨⟨j, w₃⟩, hremove, h⟩ := bind_eq_ok.1 h
    cases h
    have hext₁ : w.code.Extends bd₁.work.code := killed_extends hkilled
    obtain ⟨hext₂, hnone, hnew⟩ := Builder.insert_ok hinsert
    have hext := hext₁.trans hext₂
    have hrest := Workspace.removeInst_grown hremove (hext.keeps id i hi) hlow
    have hnot : ¬ (Inst.discardSamples mask).IsLowered := not_isLowered_discardSamples
    have hchanged : w.code.Changed bd₂.work.code := ⟨new, _, hext₁.undefined hnone, hnew, hnot⟩
    exact .changed (hext.grown.trans hrest) (hchanged.grown hrest)

end Discard

end ShaderIR
