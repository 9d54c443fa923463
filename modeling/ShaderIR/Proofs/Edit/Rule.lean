import ShaderIR.Proofs.Validity.Edits

/-!
# A rule for editing instruction by instruction

The walk over a block splits an instruction off what is ahead of it before the instruction is
edited.  It goes on as if nothing had happened, as long as what is ahead stands together in the
block.

* `Edit.Keeps`: something that holds along the walk over a block.
* `Edit.KeepsRows`: the same, of an edit that puts rows in place of the one that it is called on.
* `Edit.KeepsBlocks`: something that holds along the walk over several blocks.

Principal statements: `Keeps.inBlock`, `KeepsRows.inBlock` and `KeepsBlocks.inBlocks` (a walk ends,
with nothing left ahead).
-/

namespace ShaderIR.Edit

variable {σ : Type} {edit : Edit σ} {b : BlockId} {s : σ} {w : Workspace}

section Block

variable {I : List InstId → Bool → σ → Workspace → Prop}

/-- Something holds along the walk over a block, of the instructions that are ahead, whether
anything has been changed, the state of the edit and the code.  What is ahead stands together in the
block. -/
structure Keeps (edit : Edit σ) (b : BlockId) (I : List InstId → Bool → σ → Workspace → Prop) :
    Prop where
  ahead : ∀ ids changed s w, I ids changed s w →
    ∃ rows, w.code.Shows rows ∧ ids <:+: (rows b).map Prod.fst
  step : ∀ x ids changed s w, I (x :: ids) changed s w →
    ∃ here s' w', edit b x s w = .ok (here, s', w') ∧ I ids (changed || here) s' w'

theorem Keeps.inSegment (h : edit.Keeps b I) {n : Nat} {ids : List InstId} {changed : Bool}
    (hI : I ids changed s w) (hn : ids.length < n) :
    ∃ later s' w', edit.inSegment b n (.ofList ids) s w = .ok (later, s', w') ∧
      I [] (changed || later) s' w' := by
  induction n generalizing ids changed s w with
  | zero => omega
  | succ n ih =>
    cases ids with
    | nil => exact ⟨false, s, w, rfl, by rwa [Bool.or_false]⟩
    | cons x ids =>
      obtain ⟨rows, hrows, hids⟩ := h.ahead _ _ _ _ hI
      obtain ⟨here, s₁, w₁, hedit, hI₁⟩ := h.step x ids changed s w hI
      obtain ⟨later, s₂, w₂, hrest, hI₂⟩ := ih hI₁ (by simp at hn; omega)
      refine ⟨here || later, s₂, w₂, ?_, by rwa [← Bool.or_assoc]⟩
      rw [Edit.inSegment, hrows.popFront_infix hids]
      simp only [ok_bind, hedit, hrest, pure_eq_ok]

/-- **The walk over a block ends**, with nothing left ahead. -/
theorem Keeps.inBlock (h : edit.Keeps b I) {rows : BlockId → List Row} (hrows : w.code.Shows rows)
    (hdef : ∃ blk, w.code.blocks.get? b = some blk) (s : σ)
    (hI : I ((rows b).map Prod.fst) false s w) :
    ∃ changed s' w', edit.inBlock b s w = .ok (changed, s', w') ∧ I [] changed s' w' := by
  obtain ⟨blk, hblk⟩ := hdef
  rw [Edit.inBlock, Defs.find_of_get? hblk, ok_bind, hrows.segment hblk]
  have hlt : ((rows b).map Prod.fst).length < visitBound w.code := by
    rw [List.length_map]
    exact hrows.length_lt_visitBound b
  simpa using h.inSegment hI hlt

end Block

section Rows

variable {I : List Row → List Row → Bool → σ → Workspace → Prop}

/-- Something holds along the walk over a block, of the rows that are done, those that are ahead,
whether anything has been changed, the state of the edit and the code. -/
structure KeepsRows (edit : Edit σ) (b : BlockId)
    (I : List Row → List Row → Bool → σ → Workspace → Prop) : Prop where
  shown : ∀ p q changed s w, I p q changed s w → ∃ rows, w.code.Shows rows ∧ rows b = p ++ q
  step : ∀ p r q changed s w, I p (r :: q) changed s w → ∃ new here s' w',
    edit b r.1 s w = .ok (here, s', w') ∧ I (p ++ new) q (changed || here) s' w'

theorem KeepsRows.keeps (h : edit.KeepsRows b I) :
    edit.Keeps b fun ids changed s w => ∃ p q, ids = q.map Prod.fst ∧ I p q changed s w where
  ahead := by
    rintro ids changed s w ⟨p, q, rfl, hI⟩
    obtain ⟨rows, hrows, hb⟩ := h.shown p q changed s w hI
    refine ⟨rows, hrows, ?_⟩
    rw [hb, List.map_append]
    exact (List.suffix_append _ _).isInfix
  step := by
    rintro x ids changed s w ⟨p, q, hids, hI⟩
    cases q with
    | nil => cases hids
    | cons r q =>
      obtain ⟨rfl, rfl⟩ := List.cons.inj hids
      obtain ⟨new, here, s', w', hedit, hI'⟩ := h.step p r q changed s w hI
      exact ⟨here, s', w', hedit, p ++ new, q, rfl, hI'⟩

/-- **The walk over the rows of a block ends**, with all rows done. -/
theorem KeepsRows.inBlock (h : edit.KeepsRows b I) {rows : BlockId → List Row}
    (hrows : w.code.Shows rows) (hdef : ∃ blk, w.code.blocks.get? b = some blk)
    (s : σ) (hI : I [] (rows b) false s w) : ∃ changed s' w' out,
      edit.inBlock b s w = .ok (changed, s', w') ∧ I out [] changed s' w' := by
  obtain ⟨changed, s', w', hrun, out, q, hq, hout⟩ :=
    h.keeps.inBlock hrows hdef s ⟨[], rows b, rfl, hI⟩
  obtain rfl := List.map_eq_nil_iff.1 hq.symm
  exact ⟨changed, s', w', out, hrun, hout⟩

end Rows

section Blocks

variable {J : List BlockId → Bool → σ → Workspace → Prop}

/-- Something holds along the walk over several blocks, of those that are ahead, whether anything
has been changed, the state of the edit and the code. -/
def KeepsBlocks (edit : Edit σ) (J : List BlockId → Bool → σ → Workspace → Prop) : Prop :=
  ∀ b bs changed s w, J (b :: bs) changed s w → ∃ here s' w',
    edit.inBlock b s w = .ok (here, s', w') ∧ J bs (changed || here) s' w'

theorem KeepsBlocks.inBlocks_from (h : edit.KeepsBlocks J) {bs : List BlockId} {changed : Bool}
    (hJ : J bs changed s w) : ∃ later s' w',
      edit.inBlocks bs s w = .ok (later, s', w') ∧ J [] (changed || later) s' w' := by
  induction bs generalizing changed s w with
  | nil => exact ⟨false, s, w, rfl, by rwa [Bool.or_false]⟩
  | cons b bs ih =>
    obtain ⟨here, s₁, w₁, hblock, hJ₁⟩ := h b bs changed s w hJ
    obtain ⟨later, s₂, w₂, hblocks, hJ₂⟩ := ih hJ₁
    refine ⟨here || later, s₂, w₂, ?_, by rwa [← Bool.or_assoc]⟩
    simp only [Edit.inBlocks, hblock, ok_bind, hblocks, pure_eq_ok]

/-- **The walk over several blocks ends**, with none left ahead. -/
theorem KeepsBlocks.inBlocks (h : edit.KeepsBlocks J) {bs : List BlockId} (s : σ) (w : Workspace)
    (hJ : J bs false s w) :
    ∃ changed s' w', edit.inBlocks bs s w = .ok (changed, s', w') ∧ J [] changed s' w' := by
  simpa using h.inBlocks_from hJ

end Blocks

end ShaderIR.Edit
