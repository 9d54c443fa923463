import ShaderIR.Proofs.Lower.Handover
import ShaderIR.Proofs.Lower.Sweep
import ShaderIR.Proofs.Run.Meaning

/-!
# What a run of the discard lowering has done

As for the depth/stencil lowering, nothing is asked of the code but linked chains.

* `Discard.replace`, `Discard.reference`: what becomes of a row, and of the rows of a block.
* `Discard.Sweep`: what has been made of the rows of a block.

Principal statements: `inBlock_sweep` (what a run has done to one block), `Sweep.rewritten` (what
has been lost has been handed over) and `Body.Linked.inBlocks` (what a run has done to a body).
-/

namespace ShaderIR

instance (i : Inst) : Decidable i.IsDiscard := inferInstanceAs (Decidable (_ ∨ _))

namespace Discard

/-- None of these rows is a discard. -/
def DiscardFree (rs : List Row) : Prop := ∀ r ∈ rs, ¬ r.2.IsDiscard

instance (rs : List Row) : Decidable (DiscardFree rs) :=
  inferInstanceAs (Decidable (∀ r ∈ rs, ¬ r.2.IsDiscard))

/-- What becomes of a row: a discard is replaced by the mask of the samples that it kills.  The
choice of the mask takes the identity `c`, and its use the identity `k`. -/
def replace (all nothing : Value) (c k : InstId) (r : Row) : List Row :=
  match r.2.kind, r.2.inputs with
  | .intrinsic .discard, _ => [(k, .discardSamples all)]
  | .intrinsic .discardIf, cond :: _ =>
    [(c, .selectMask cond all nothing), (k, .discardSamples (.result c))]
  | _, _ => [r]

/-- The rows of a block once its discards have been replaced.  What replaces a discard takes the
identities that `choice` and `kill` give to the discard. -/
def reference (all nothing : Value) (choice kill : InstId → InstId) (rs : List Row) : List Row :=
  rs.flatMap fun r => replace all nothing (choice r.1) (kill r.1) r

/-- What has been made of the rows of a block. -/
structure Sweep (all nothing : Value) (n : Nat) (rs out : List Row) (r : Except LowerError Bool) :
    Prop where
  conditions : ∀ r ∈ rs, r.2.kind = .intrinsic .discardIf → ∃ cond, r.2.input 0 = .ok cond
  rows : ∃ choice kill, (∀ id, n ≤ (choice id).index) ∧ (∀ id, n ≤ (kill id).index) ∧
    out = reference all nothing choice kill rs
  result : r = .ok (decide ¬ DiscardFree rs)

variable {all nothing : Value} {c k : InstId} {choice choice' kill kill' : InstId → InstId}
  {n : Nat} {rs out : List Row} {r q : Row} {res : Except LowerError Bool} {cond : Value}

theorem replace_of_not (h : ¬ r.2.IsDiscard) : replace all nothing c k r = [r] := by
  unfold replace
  split
  · rename_i hkind
    exact absurd (.inl hkind) h
  · rename_i hkind _
    exact absurd (.inr hkind) h
  · rfl

theorem replace_discard (h : r.2.kind = .intrinsic .discard) :
    replace all nothing c k r = [(k, .discardSamples all)] := by
  simp only [replace, h]

theorem input_zero {i : Inst} {v : Value} : i.input 0 = .ok v ↔ ∃ vs, i.inputs = v :: vs := by
  unfold Inst.input
  cases i.inputs with
  | nil => simp
  | cons u us => simp

theorem replace_discardIf (h : r.2.kind = .intrinsic .discardIf) (hv : r.2.input 0 = .ok cond) :
    replace all nothing c k r =
      [(c, .selectMask cond all nothing), (k, .discardSamples (.result c))] := by
  obtain ⟨vs, hvs⟩ := input_zero.1 hv
  simp only [replace, h, hvs]

theorem discardFree_cons : DiscardFree (r :: rs) ↔ ¬ r.2.IsDiscard ∧ DiscardFree rs :=
  List.forall_mem_cons

theorem reference_cons : reference all nothing choice kill (r :: rs) =
    replace all nothing (choice r.1) (kill r.1) r ++ reference all nothing choice kill rs :=
  List.flatMap_cons

theorem reference_of_discardFree (h : DiscardFree rs) :
    reference all nothing choice kill rs = rs := by
  induction rs with
  | nil => rfl
  | cons r rs ih =>
    obtain ⟨hr, hrs⟩ := discardFree_cons.1 h
    rw [reference_cons, replace_of_not hr, ih hrs]
    rfl

theorem reference_congr (h : ∀ r ∈ rs, choice r.1 = choice' r.1 ∧ kill r.1 = kill' r.1) :
    reference all nothing choice kill rs = reference all nothing choice' kill' rs := by
  induction rs with
  | nil => rfl
  | cons r rs ih =>
    obtain ⟨⟨hc, hk⟩, hrs⟩ := List.forall_mem_cons.1 h
    rw [reference_cons, reference_cons, hc, hk, ih hrs]

/-! ## What a run has done -/

section Runs

variable {loose : InstId → Prop} {w₀ w w' : Workspace} {rows : BlockId → List Row} {b : BlockId}
  {p s : List Row} {ka : Constant} {mask : Value} {here : Bool}

/-- The mask of the killed samples has been put in place of an instruction. -/
theorem discardSamples_ran {bd : Builder} {i : Inst}
    (h : Workspace.Tracks loose w₀ w (Function.update rows b (p ++ r :: s)))
    (hinsert : (w.at (.before b r.1)).discardSamples mask = .ok (k, bd))
    (hremove : bd.work.removeInst b r.1 = .ok (i, w')) : w₀.fresh.next ≤ k.index ∧
      Workspace.Tracks loose w₀ w'
        (Function.update rows b (p ++ (k, .discardSamples mask) :: s)) := by
  obtain ⟨w₁, hw₁, h₁⟩ := h.insertBefore (.discardSamples mask)
  have hrun : (w.at (.before b r.1)).discardSamples mask = _ := hw₁
  rw [hrun] at hinsert
  cases hinsert
  rw [List.append_cons] at h₁
  have h₂ := h₁.of_removeInst hremove
  exact ⟨h.le, by simpa using h₂⟩

/-- A mask has been chosen by a condition. -/
theorem select_ran {bd : Builder} (hty : ka.ty = .u16) (hall : all = .const ka)
    (h : Workspace.Tracks loose w₀ w (Function.update rows b (p ++ r :: s)))
    (hrun : killed (w.at (.before b r.1)) all nothing (some cond) = .ok (mask, bd)) :
    ∃ c w', w₀.fresh.next ≤ c.index ∧ mask = .result c ∧ bd = w'.at (.before b r.1) ∧
      Workspace.Tracks loose w₀ w'
        (Function.update rows b (p ++ (c, .selectMask cond all nothing) :: r :: s)) := by
  obtain ⟨w', hw', h'⟩ := h.insertBefore (.selectMask cond all nothing)
  have htype : (w.at (.before b r.1)).typeOf all = .ok .u16 := by
    rw [hall, ← hty]
    rfl
  have hinsert : (w.at (.before b r.1)).insert ⟨.alu .select, [cond, all, nothing], some .u16⟩ =
    _ := hw'
  simp only [killed, Builder.select, htype, ok_bind, Builder.alu, hinsert] at hrun
  cases hrun
  exact ⟨_, w', h.le, rfl, rfl, h'⟩

/-- **An instruction has been edited.** -/
theorem edit_ran (hty : ka.ty = .u16) (hall : all = .const ka)
    (h : Workspace.Tracks loose w₀ w (Function.update rows b (p ++ r :: s)))
    (hrun : edit all nothing b r.1 () w = .ok (here, (), w')) :
    here = decide r.2.IsDiscard ∧ (here = false → w' = w) ∧
    (r.2.kind = .intrinsic .discardIf → ∃ cond, r.2.input 0 = .ok cond) ∧
    ∃ c k : InstId, w₀.fresh.next ≤ c.index ∧ w₀.fresh.next ≤ k.index ∧
      Workspace.Tracks loose w₀ w'
        (Function.update rows b (p ++ (replace all nothing c k r ++ s))) := by
  have hself := Function.update_self b (p ++ r :: s) rows
  have hinst : w.code.inst r.1 = .ok r.2 := h.shows.inst (b := b) (by rw [hself]; simp)
  unfold edit at hrun
  rw [hinst, ok_bind] at hrun
  by_cases hdiscard : r.2.IsDiscard
  swap
  · rw [condition_of_not hdiscard, ok_bind] at hrun
    cases hrun
    refine ⟨(decide_eq_false hdiscard).symm, fun _ => rfl, fun hkind => ?_, ⟨w₀.fresh.next⟩,
      ⟨w₀.fresh.next⟩, Nat.le_refl _, Nat.le_refl _, ?_⟩
    · exact absurd (.inr hkind) hdiscard
    · rwa [replace_of_not hdiscard]
  rw [decide_eq_true hdiscard]
  rcases hdiscard with hkind | hkind
  · simp only [condition, hkind, ok_bind, killed] at hrun
    obtain ⟨⟨k, bd⟩, hinsert, hrun⟩ := bind_eq_ok.1 hrun
    obtain ⟨⟨j, w₁⟩, hremove, hrun⟩ := bind_eq_ok.1 hrun
    cases hrun
    obtain ⟨hk, h'⟩ := discardSamples_ran h hinsert hremove
    refine ⟨rfl, Bool.noConfusion, fun hother => ?_, k, k, hk, hk, ?_⟩
    · rw [hkind] at hother
      cases hother
    · rwa [replace_discard hkind]
  · obtain ⟨o, ho, hrun⟩ := bind_eq_ok.1 hrun
    simp only [condition, hkind] at ho
    obtain ⟨cond, hcond, ho⟩ := bind_eq_ok.1 ho
    cases ho
    obtain ⟨⟨mask, bd⟩, hselect, hrun⟩ := bind_eq_ok.1 hrun
    obtain ⟨⟨k, bd'⟩, hinsert, hrun⟩ := bind_eq_ok.1 hrun
    obtain ⟨⟨j, w₁⟩, hremove, hrun⟩ := bind_eq_ok.1 hrun
    cases hrun
    obtain ⟨c, w₂, hc, rfl, rfl, h₂⟩ := select_ran hty hall h hselect
    rw [List.append_cons] at h₂
    obtain ⟨hk, h'⟩ := discardSamples_ran h₂ hinsert hremove
    refine ⟨rfl, Bool.noConfusion, fun _ => ⟨cond, hcond⟩, c, k, hc, hk, ?_⟩
    rw [replace_discardIf hkind hcond]
    simpa using h'

/-- What a run over a segment has done. -/
theorem inSegment_sweep (hty : ka.ty = .u16) (hall : all = .const ka) {m : Nat} {changed : Bool}
    (h : Workspace.Tracks loose w₀ w (Function.update rows b (p ++ s)))
    (hrun : (edit all nothing).inSegment b m (.ofList (s.map Prod.fst)) () w =
      .ok (changed, (), w')) :
    ∃ out, Workspace.Tracks loose w₀ w' (Function.update rows b (p ++ out)) ∧
      Sweep all nothing w₀.fresh.next s out (.ok changed) ∧ (changed = false → w' = w) := by
  induction m generalizing p s w changed with
  | zero => cases hrun
  | succ m ih =>
    cases s with
    | nil =>
      cases hrun
      exact ⟨[], h, ⟨by simp, ⟨fun _ => ⟨_⟩, fun _ => ⟨_⟩, fun _ => Nat.le_refl _,
        fun _ => Nat.le_refl _, rfl⟩, rfl⟩, fun _ => rfl⟩
    | cons r s =>
      have hself := Function.update_self b (p ++ r :: s) rows
      rw [Edit.inSegment, h.shows.popFront hself] at hrun
      simp only [ok_bind] at hrun
      obtain ⟨⟨here, ⟨⟩, w₁⟩, hedit, hrun⟩ := bind_eq_ok.1 hrun
      obtain ⟨⟨later, ⟨⟩, w₂⟩, hsegment, hrun⟩ := bind_eq_ok.1 hrun
      cases hrun
      obtain ⟨hhere, hsame, hcond, c, k, hc, hk, h₁⟩ := edit_ran hty hall h hedit
      rw [← List.append_assoc] at h₁
      obtain ⟨out, h', ⟨hconds, ⟨choice, kill, hchoice, hkill, rfl⟩, hlater⟩, hsame'⟩ :=
        ih h₁ hsegment
      refine ⟨replace all nothing c k r ++ reference all nothing choice kill s,
        by rwa [← List.append_assoc], ⟨List.forall_mem_cons.2 ⟨hcond, hconds⟩,
          ⟨Function.update choice r.1 c, Function.update kill r.1 k, ?_, ?_, ?_⟩, ?_⟩, ?_⟩
      · exact (Function.forall_update_iff choice fun _ y => _ ≤ y.index).2
          ⟨hc, fun y _ => hchoice y⟩
      · exact (Function.forall_update_iff kill fun _ y => _ ≤ y.index).2 ⟨hk, fun y _ => hkill y⟩
      · -- the rows that follow have other identities
        have hnot := h.shows.not_mem_around hself
        have hsame : ∀ q ∈ s, choice q.1 = Function.update choice r.1 c q.1 ∧
            kill q.1 = Function.update kill r.1 k q.1 := by
          intro q hq
          have hne : q.1 ≠ r.1 := by
            intro e
            exact hnot (e ▸ List.mem_map_of_mem (List.mem_append_right _ hq))
          rw [Function.update_of_ne hne, Function.update_of_ne hne]
          exact ⟨rfl, rfl⟩
        rw [reference_cons, Function.update_self, Function.update_self, ← reference_congr hsame]
      · refine congrArg Except.ok (Bool.eq_iff_iff.2 ?_)
        simp only [hhere, Except.ok.inj hlater, Bool.or_eq_true, decide_eq_true_eq,
          discardFree_cons, not_and_or, not_not]
      · intro hchanged
        obtain ⟨rfl, rfl⟩ := Bool.or_eq_false_iff.1 hchanged
        exact (hsame' rfl).trans (hsame rfl)

/-- **What a run over a block has done.** -/
theorem inBlock_sweep (hty : ka.ty = .u16) (hall : all = .const ka) {changed : Bool}
    (h : Workspace.Tracks loose w₀ w rows)
    (hrun : (edit all nothing).inBlock b () w = .ok (changed, (), w')) :
    ∃ out, Workspace.Tracks loose w₀ w' (Function.update rows b out) ∧
      Sweep all nothing w₀.fresh.next (rows b) out (.ok changed) ∧ (changed = false → w' = w) ∧
      ∃ blk, w.code.blocks.get? b = some blk := by
  obtain ⟨blk, hblk, hrun⟩ := bind_eq_ok.1 hrun
  have hblk := Defs.find_eq_ok.1 hblk
  rw [h.shows.segment hblk] at hrun
  have hstart : Workspace.Tracks loose w₀ w (Function.update rows b ([] ++ rows b)) := by
    rwa [List.nil_append, Function.update_eq_self]
  obtain ⟨out, h', hsweep, hsame⟩ := inSegment_sweep hty hall hstart hrun
  exact ⟨out, h', hsweep, hsame, blk, hblk⟩

/-- What a run over blocks has done. -/
theorem inBlocks_sweeps (hty : ka.ty = .u16) (hall : all = .const ka) {bs : List BlockId}
    {changed : Bool} (h : Workspace.Tracks loose w₀ w rows)
    (hrun : (edit all nothing).inBlocks bs () w = .ok (changed, (), w')) :
    ∃ rows', Workspace.Tracks loose w₀ w' rows' ∧
      Sweeps (Sweep all nothing w₀.fresh.next) bs rows rows' (.ok changed) ∧
      (changed = false → w' = w) ∧ ∀ b ∈ bs, ∃ blk, w₀.code.blocks.get? b = some blk := by
  induction bs generalizing w rows changed with
  | nil =>
    cases hrun
    exact ⟨rows, h, .nil, fun _ => rfl, by simp⟩
  | cons b bs ih =>
    obtain ⟨⟨here, ⟨⟩, w₁⟩, hblock, hrun⟩ := bind_eq_ok.1 hrun
    obtain ⟨⟨later, ⟨⟩, w₂⟩, hblocks, hrun⟩ := bind_eq_ok.1 hrun
    cases hrun
    obtain ⟨out, h₁, hsweep, hsame, blk, hblk⟩ := inBlock_sweep hty hall h hblock
    obtain ⟨rows', h', hsweeps, hsame', hlisted⟩ := ih h₁ hblocks
    refine ⟨rows', h', .cons hsweep hsweeps, fun hchanged => ?_, ?_⟩
    · obtain ⟨rfl, rfl⟩ := Bool.or_eq_false_iff.1 hchanged
      exact (hsame' rfl).trans (hsame rfl)
    · exact List.forall_mem_cons.2 ⟨h.flow.symm.defined ⟨_, hblk⟩, hlisted⟩

end Runs

/-! ## What has become of the rows -/

/-- Once all rows of a block have been looked at, no discard is left. -/
theorem Sweep.cleared {changed : Bool} (h : Sweep all nothing n rs out (.ok changed)) :
    DiscardFree out ∧ (changed = true ↔ ¬ DiscardFree rs) := by
  obtain ⟨choice, kill, -, -, rfl⟩ := h.rows
  refine ⟨fun q hq => ?_, ?_⟩
  · obtain ⟨r, hr, hq⟩ := List.mem_flatMap.1 hq
    by_cases hdiscard : r.2.IsDiscard
    · rcases hdiscard with hkind | hkind
      · rw [replace_discard hkind] at hq
        rw [List.mem_singleton.1 hq]
        exact fun hd => not_isLowered_discardSamples (.inr hd)
      · obtain ⟨cond, hcond⟩ := h.conditions r hr hkind
        rw [replace_discardIf hkind hcond] at hq
        simp only [List.mem_cons, List.not_mem_nil, or_false] at hq
        rcases hq with rfl | rfl
        · exact fun hd => not_isLowered_alu (.inr hd)
        · exact fun hd => not_isLowered_discardSamples (.inr hd)
    · rw [replace_of_not hdiscard] at hq
      rwa [List.mem_singleton.1 hq]
  · rw [Except.ok.inj h.result, decide_eq_true_eq]

/-- **What has been lost of a block has been handed over.** -/
theorem Sweep.rewritten (h : Sweep all nothing n rs out res) :
    Rewritten Inst.IsDiscard n rs out := by
  obtain ⟨choice, kill, hchoice, hkill, rfl⟩ := h.rows
  have hmem : ∀ r ∈ rs, replace all nothing (choice r.1) (kill r.1) r ⊆
      reference all nothing choice kill rs := fun r hr q hq => List.mem_flatMap.2 ⟨r, hr, hq⟩
  refine ⟨fun r hr hother => hmem r hr ?_, fun r hr hlost => ?_, fun q hq => ?_⟩
  · rw [replace_of_not hother]
    exact List.mem_singleton_self r
  · by_cases hdiscard : r.2.IsDiscard
    · rcases hdiscard with hkind | hkind
      · have hsub := hmem r hr
        rw [replace_discard hkind] at hsub
        exact .discard hkind (hsub List.mem_cons_self) (hkill r.1)
      · obtain ⟨cond, hcond⟩ := h.conditions r hr hkind
        have hsub := hmem r hr
        rw [replace_discardIf hkind hcond] at hsub
        exact .discardIf hkind hcond (hsub List.mem_cons_self)
          (hsub (List.mem_cons_of_mem _ List.mem_cons_self)) (hkill r.1)
    · refine absurd (hmem r hr ?_) hlost
      rw [replace_of_not hdiscard]
      exact List.mem_singleton_self r
  · obtain ⟨r, hr, hq⟩ := List.mem_flatMap.1 hq
    by_cases hdiscard : r.2.IsDiscard
    · refine .inr ?_
      rcases hdiscard with hkind | hkind
      · rw [replace_discard hkind] at hq
        rw [List.mem_singleton.1 hq]
        refine ⟨hkill r.1, not_isLowered_discardSamples, fun mask set value a he _ => ?_⟩
        cases he
      · obtain ⟨cond, hcond⟩ := h.conditions r hr hkind
        rw [replace_discardIf hkind hcond] at hq
        simp only [List.mem_cons, List.not_mem_nil, or_false] at hq
        rcases hq with rfl | rfl
        · refine ⟨hchoice r.1, not_isLowered_alu, fun mask set value a he _ => ?_⟩
          cases he
        · refine ⟨hkill r.1, not_isLowered_discardSamples, fun mask set value a he _ => ?_⟩
          cases he
    · rw [replace_of_not hdiscard] at hq
      exact .inl (List.mem_singleton.1 hq ▸ hr)

end Discard

/-- **What a run has done to a body.** -/
theorem Body.Linked.inBlocks {s : Supply .inst} {body : Body} (h : body.Linked s)
    {all nothing : Value} {ka : Constant} (hty : ka.ty = .u16) (hall : all = .const ka)
    {w : Workspace} {changed : Bool}
    (hrun : (Discard.edit all nothing).inBlocks body.blocks () (body.workspace s) =
      .ok (changed, (), w)) :
    body.Swept (Discard.Sweep all nothing) s w.fresh
      ({ body with code := w.code }.preserve (if changed then .flowOnly else .full))
      (.ok changed) := by
  obtain ⟨rows, hrows⟩ := h.chains.exists_shows
  have hstart : Workspace.Tracks (fun _ => True) (body.workspace s) (body.workspace s) rows :=
    ⟨.refl hrows h.issued, fun _ _ _ => .inl trivial⟩
  obtain ⟨rows', ht, hsweeps, hsame, hlisted⟩ := Discard.inBlocks_sweeps hty hall hstart hrun
  refine ⟨rfl, ⟨rows, rows', hrows, ht.toDerived, hsweeps⟩, fun _ _ => hlisted, fun hacc => ?_,
    fun hr => ?_, ?_⟩
  · obtain ⟨rows₂, ht₂, -⟩ := Discard.inBlocks_sweeps hty hall (hacc.tracks hrows h.issued) hrun
    obtain rfl := ht.shows.rows_eq ht₂.shows
    exact hacc.of_tracks hrows ht₂ (fun b hb => hsweeps.others hb) _
  · obtain rfl := Except.ok.inj hr
    obtain rfl := hsame rfl
    exact ⟨rfl, rfl⟩
  · cases changed <;> rfl

namespace Discard

/-- What replacing the discards of a function has done to its body. -/
def Replacing (all nothing : Value) (_ : String) (s : Supply .inst) (body : Body)
    (s' : Supply .inst) (body' : Body) (r : Except LowerError Bool) : Prop :=
  body.Swept (Sweep all nothing) s s' body' r

/-- **What a run has done to functions.** -/
theorem editFuncs_walk {ka : Constant} (hty : ka.ty = .u16) (hall : all = .const ka)
    {fs : List FuncId} {m m' : Module} {changed : Bool} (h : m.Linked fs)
    (hrun : m.editFuncs .flowOnly (edit all nothing) fs () = .ok (changed, (), m')) :
    Module.Walk (Replacing all nothing) fs m m' (.ok changed) := by
  induction fs generalizing m changed with
  | nil =>
    cases hrun
    exact .nil
  | cons f fs ih =>
    obtain ⟨⟨here, ⟨⟩, m₁⟩, hfunc, hrun⟩ := bind_eq_ok.1 hrun
    obtain ⟨⟨later, ⟨⟩, m₂⟩, hfuncs, hrun⟩ := bind_eq_ok.1 hrun
    cases hrun
    obtain ⟨decl, hdecl, hfunc⟩ := bind_eq_ok.1 hfunc
    have hdecl := Defs.access_eq_ok.1 hdecl
    cases himpl : decl.impl with
    | imported link =>
      rw [himpl] at hfunc
      cases hfunc
      exact .imported hdecl himpl (ih h.tail hfuncs)
    | present body =>
      rw [himpl] at hfunc
      obtain ⟨⟨here, ⟨⟩, w⟩, hblocks, hfunc⟩ := bind_eq_ok.1 hfunc
      cases hfunc
      have hswept := (h f (by simp) decl body hdecl himpl).inBlocks hty hall hblocks
      have hrest := ih (h.tail.setBody hdecl hswept.le hswept.linked) hfuncs
      exact Module.Walk.body (Q := Replacing all nothing) hdecl himpl hswept hrest

end Discard

end ShaderIR
