import ShaderIR.Proofs.Lower.Functions

/-!
# Sound bodies

* `Body.Sound`: a body whose chains are linked, whose blocks are distinct and whose uses are valid
  under some rules.

Principal statements: `Body.Sound.lowerBlocks` and `Body.Sound.inBlocks` (a lowering goes through in
a sound body, and leaves a sound body).
-/

namespace ShaderIR

namespace Body

/-- A body whose chains are linked, whose blocks are distinct, whose uses are valid under some
rules, and in which what a lowering takes away has no result.  All that can be reached is
defined. -/
def Sound (R : Rules) (s : Supply .inst) (body : Body) : Prop :=
  body.blocks.Nodup ∧
  (∀ b, Reached body.entryBlock? body.code.blocks b →
    (body.code.blocks.get? b).isSome = true) ∧
  ∃ rows, (body.workspace s).Stands body.flow R (body.workspace s) rows ∧ body.flow.Untyped rows

variable {R : Rules} {s s' : Supply .inst} {body : Body} {mask all nothing : Value}

theorem Sound.mono (h : body.Sound R s) (hs : s.next ≤ s'.next) : body.Sound R s' := by
  obtain ⟨hn, hr, rows, ⟨hd, hv⟩, hu⟩ := h
  refine ⟨hn, hr, rows, ⟨.refl hd.shows fun id n hid => ?_, hv⟩, hu⟩
  exact Nat.lt_of_lt_of_le (hd.issued id n hid) hs

theorem Sound.placed (h : body.Sound .checked s) : body.Sound .placed s := by
  obtain ⟨hn, hr, rows, ⟨hd, hv⟩, hu⟩ := h
  exact ⟨hn, hr, rows, ⟨hd, hv.placed⟩, hu⟩

/-- What has come from a sound body is sound, whatever analyses are kept. -/
theorem Sound.of_stands (h : body.Sound R s) {w : Workspace} {rows : BlockId → List Row}
    (hw : (body.workspace s).Stands body.flow R w rows) (hu : body.flow.Untyped rows)
    (cache : Analyses) : Sound R w.fresh ⟨w.code, body.blocks, cache⟩ := by
  have hflow : (⟨w.code, body.blocks, cache⟩ : Body).flow = body.flow := body.flow_eq hw.flow
  refine ⟨h.1, fun b hb => ?_, rows, ?_, ?_⟩
  · obtain ⟨blk, hblk⟩ := Option.isSome_iff_exists.1 (h.2.1 b (hw.flow.symm.reached hb))
    obtain ⟨blk', hblk', -⟩ := hw.flow.get? hblk
    rw [hblk']
    rfl
  · rw [hflow]
    exact ⟨.refl hw.shows hw.issued, hw.valid⟩
  · rw [hflow]
    exact hu

/-- **The merging of stores goes through in a sound body, and leaves a sound one.** -/
theorem Sound.lowerBlocks (h : body.Sound R s) (hR : R.Lowers) {k : Constant} (hk : k.ty = .u16)
    (hmask : mask = .const k) : ∃ w r,
      DepthStencil.lowerBlocks mask body.blocks (body.workspace s) = .ok (w, r) ∧
      s.next ≤ w.fresh.next ∧ ∀ cache, Sound R w.fresh ⟨w.code, body.blocks, cache⟩ := by
  obtain ⟨-, -, rows, hstands, hu⟩ := id h
  obtain ⟨w, r, rows', hw, hstands', hu', -⟩ := DepthStencil.lowerBlocks_stands hR hk hmask rfl
    (fun _ => True) (fun _ _ _ _ _ _ _ _ _ => trivial) body.blocks _ rows (fun _ hb => hb) hstands
    hu trivial
  exact ⟨w, r, hw, hstands'.le, h.of_stands hstands' hu'⟩

/-- **The editing of discards goes through in a sound body, and leaves a sound one.** -/
theorem Sound.inBlocks (h : body.Sound R s) (hR : R.Lowers) {ka kn : Constant}
    (hka : ka.ty = .u16) (hkn : kn.ty = .u16) (hall : all = .const ka)
    (hnothing : nothing = .const kn) : ∃ changed w,
      (Discard.edit all nothing).inBlocks body.blocks () (body.workspace s) =
        .ok (changed, (), w) ∧
      s.next ≤ w.fresh.next ∧ ∀ cache, Sound R w.fresh ⟨w.code, body.blocks, cache⟩ := by
  obtain ⟨-, -, rows, hstands, hu⟩ := id h
  obtain ⟨changed, w, rows', hw, hstands', hu', -⟩ := Discard.inBlocks_stands hR hka hkn hall
    hnothing rfl (fun _ => True) (fun _ _ _ _ _ _ _ _ _ => trivial) body.blocks _ rows
    (fun _ hb => hb) hstands hu trivial
  exact ⟨changed, w, hw, hstands'.le, h.of_stands hstands' hu'⟩

end Body

end ShaderIR
