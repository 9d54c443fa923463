import ShaderIR.Proofs.Lower.Handover
import ShaderIR.Proofs.Lower.Reference
import ShaderIR.Proofs.Lower.Sweep

/-!
# What a run of the depth/stencil lowering has done

Here nothing is asked of the code but linked chains: whenever the lowering of a block returns, its
rows have become what is said here.

* `DepthStencil.Gather`: what has been made of the rows that have been looked at.
* `DepthStencil.Sweep`: what has been made of the rows of a block.

Principal statements: `lowerBlock_sweep` (what a run has done to one block), `Sweep.rewritten` (what
has been lost has been handed over), `Sweep.result` (what a run returns depends on the aspects that
are stored, and on nothing else) and `Body.Linked.lowerBlocks` (what a run has done to a body).
-/

namespace ShaderIR

namespace DepthStencil

/-- The stores of the last rows of a block have been merged into a combined write that writes these
values.  It stands between the rows `mid` and the rows `q`.  New instructions have an identity from
`n` on. -/
inductive Gather (n : Nat) :
    List Row → AspectSet → (Aspect → Value) → List Row → List Row → Prop where
  | first {rs conv : List Row} {r : Row} {a : Aspect} {v v' : Value} {ty : ScalarType}
    (stores : r.2.stores? = some a) (input : r.2.input 0 = .ok v)
    (converts : Converts a v ty conv v') (new : ∀ q ∈ conv, n ≤ q.1.index) (free : StoreFree rs) :
    Gather n (r :: rs) (AspectSet.empty.insert a) (Function.update openValues a v') conv rs
  | skip {rs mid q : List Row} {r : Row} {set : AspectSet} {value : Aspect → Value}
    (other : r.2.stores? = none) (rest : Gather n rs set value mid q) :
    Gather n (r :: rs) set value (r :: mid) q
  | later {rs conv mid q : List Row} {r : Row} {a : Aspect} {v v' : Value} {ty : ScalarType}
    {set : AspectSet} {value : Aspect → Value} (stores : r.2.stores? = some a)
    (input : r.2.input 0 = .ok v) (converts : Converts a v ty conv v')
    (new : ∀ q ∈ conv, n ≤ q.1.index) (once : set.contains a = false)
    (rest : Gather n rs set value mid q) :
    Gather n (r :: rs) (set.insert a) (Function.update value a v') (conv ++ mid) q

/-- What has been made of the last rows of a block, and the combined write among them. -/
inductive Gathered (mask : Value) (n : Nat) (rs : List Row) : List Row → Option InstId → Prop where
  | untouched (free : StoreFree rs) : Gathered mask n rs rs none
  | merged {z : InstId} {set : AspectSet} {value : Aspect → Value} {mid q : List Row}
    (newWrite : n ≤ z.index) (gather : Gather n rs set value mid q) :
    Gathered mask n rs (mid ++ (z, .combined mask set value) :: q) (some z)

/-- What has been made of the rows of a block: all of them have been looked at, or those from the
first of two stores of one aspect on. -/
inductive Sweep (mask : Value) (n : Nat) (rs : List Row) :
    List Row → Except Aspect Bool → Prop where
  | all {out : List Row} {t : Option InstId} (gathered : Gathered mask n rs out t) :
    Sweep mask n rs out (.ok t.isSome)
  | twice {p s conv mid q : List Row} {r : Row} {a : Aspect} {v v' : Value} {ty : ScalarType}
    {z : InstId} {set : AspectSet} {value : Aspect → Value} (split : rs = p ++ r :: s)
    (distinct : (rs.map Prod.fst).Nodup) (stores : r.2.stores? = some a)
    (converts : Converts a v ty conv v') (new : ∀ q ∈ conv, n ≤ q.1.index)
    (again : set.contains a = true) (newWrite : n ≤ z.index) (gather : Gather n s set value mid q) :
    Sweep mask n rs (p ++ (conv ++ r :: (mid ++ (z, .combined mask set value) :: q))) (.error a)

theorem Gathered.skip {mask : Value} {n : Nat} {rs done : List Row} {t : Option InstId} {r : Row}
    (h : Gathered mask n rs done t) (other : r.2.stores? = none) :
    Gathered mask n (r :: rs) (r :: done) t := by
  cases h with
  | untouched free => exact .untouched (storeFree_cons.2 ⟨other, free⟩)
  | merged newWrite gather => exact .merged newWrite (.skip other gather)

/-! ## What a run has done -/

section Runs

variable {loose : InstId → Prop} {w₀ w w' : Workspace} {rows : BlockId → List Row} {b : BlockId}
  {p s rs done : List Row} {r : Row} {a : Aspect} {v v' : Value} {mask : Value}
  {t : Option InstId} {z : InstId} {bd : Builder} {res : Except Aspect InstId}

/-- A value has been converted by a new row, if need be. -/
theorem convert_ran (h : Workspace.Tracks loose w₀ w (Function.update rows b (p ++ r :: s)))
    (hrun : convert (w.at (.before b r.1)) a v = .ok (v', bd)) :
    ∃ w' conv ty, bd = w'.at (.before b r.1) ∧ Converts a v ty conv v' ∧
      (∀ q ∈ conv, w₀.fresh.next ≤ q.1.index) ∧
      Workspace.Tracks loose w₀ w' (Function.update rows b (p ++ (conv ++ r :: s))) := by
  obtain ⟨ty, hrun⟩ : ∃ ty, (if ty = a.scalarType then .ok (v, w.at (.before b r.1))
      else (w.at (.before b r.1)).alu a.converter [v] a.scalarType) = .ok (v', bd) := by
    cases a <;> obtain ⟨ty, -, hrun⟩ := bind_eq_ok.1 hrun <;> exact ⟨ty, hrun⟩
  split at hrun
  · rename_i hty
    cases hrun
    exact ⟨w, [], ty, rfl, .same hty, by simp, h⟩
  · rename_i hty
    obtain ⟨w', hw', h'⟩ := h.insertBefore ⟨.alu a.converter, [v], some a.scalarType⟩
    rw [Builder.alu, hw'] at hrun
    cases hrun
    refine ⟨w', _, ty, rfl, .new ⟨w.fresh.next⟩ hty, fun q hq => ?_, h'⟩
    rw [List.mem_singleton.1 hq]
    exact h.le

/-- A combined write has been made that writes nothing yet. -/
theorem combined_ran (h : Workspace.Tracks loose w₀ w (Function.update rows b (p ++ r :: s)))
    (hrun : combined (w.at (.before b r.1)) mask none = .ok (z, bd)) :
    w₀.fresh.next ≤ z.index ∧ ∃ w', bd = w'.at (.before b r.1) ∧
      Workspace.Tracks loose w₀ w' (Function.update rows b
        (p ++ (z, .combined mask .empty openValues) :: r :: s)) := by
  obtain ⟨w', hw', h'⟩ := h.insertBefore (.combined mask .empty openValues)
  have hinsert : combined (w.at (.before b r.1)) mask none = _ := hw'
  rw [hinsert] at hrun
  cases hrun
  exact ⟨h.le, w', rfl, h'⟩

/-- An aspect has been entered into the combined write, or it had been written before. -/
theorem enter_ran {q q' : List Row} {set : AspectSet} {value : Aspect → Value}
    {n : Node .inst Inst} {added : Except Aspect Inst}
    (h : Workspace.Tracks loose w₀ w
      (Function.update rows b (q ++ (z, .combined mask set value) :: q')))
    (hn : w.code.insts.get? z = some n) (hadd : addAspect n.val a v' = .ok added) :
    n.val = .combined mask set value ∧
    ((set.contains a = true ∧ added = .error a) ∨
      (set.contains a = false ∧
        added = .ok (.combined mask (set.insert a) (Function.update value a v')) ∧
        Workspace.Tracks loose w₀
          (w.put z n (.combined mask (set.insert a) (Function.update value a v')))
          (Function.update rows b (q ++ (z, .combined mask (set.insert a)
            (Function.update value a v')) :: q')))) := by
  have hself := Function.update_self b (q ++ (z, Inst.combined mask set value) :: q') rows
  obtain ⟨n', hn', hval, h'⟩ := h.setInst hself
    (.combined mask (set.insert a) (Function.update value a v'))
  obtain rfl := Option.some.inj (hn.symm.trans hn')
  rw [hval, addAspect_combined] at hadd
  refine ⟨hval, ?_⟩
  rw [Function.update_idem] at h'
  cases hset : set.contains a with
  | true =>
    rw [hset] at hadd
    cases hadd
    exact .inl ⟨rfl, rfl⟩
  | false =>
    rw [hset] at hadd
    cases hadd
    exact .inr ⟨rfl, rfl, h'⟩

/-- **One store has been merged**, or its aspect has been written before. -/
theorem mergeStore_ran (h : Workspace.Tracks loose w₀ w (Function.update rows b (p ++ r :: done)))
    (hg : Gathered mask w₀.fresh.next rs done t) (ha : r.2.stores? = some a)
    (hrun : mergeStore mask b r.1 r.2 a t w = .ok (w', res)) :
    ∃ done', Workspace.Tracks loose w₀ w' (Function.update rows b (p ++ done')) ∧
      ((∃ z, res = .ok z ∧ Gathered mask w₀.fresh.next (r :: rs) done' (some z)) ∨
        (res = .error a ∧ ∀ p', ((p' ++ r :: rs).map Prod.fst).Nodup →
          Sweep mask w₀.fresh.next (p' ++ r :: rs) (p' ++ done') (.error a))) := by
  obtain ⟨v, hv, hrun⟩ := bind_eq_ok.1 hrun
  obtain ⟨⟨v', bd₁⟩, hconvert, hrun⟩ := bind_eq_ok.1 hrun
  obtain ⟨⟨z, bd₂⟩, hcombined, hrun⟩ := bind_eq_ok.1 hrun
  obtain ⟨n, hn, hrun⟩ := bind_eq_ok.1 hrun
  obtain ⟨added, hadd, hrun⟩ := bind_eq_ok.1 hrun
  have hn := Defs.access_eq_ok.1 hn
  obtain ⟨w₁, conv, ty, rfl, hconv, hnew, h₁⟩ := convert_ran h hconvert
  rw [← List.append_assoc] at h₁
  cases hg with
  | @merged z₀ set value mid q newWrite gather =>
    -- the combined write is among the rows that have been looked at
    cases hcombined
    have hsplit : ∀ x, p ++ conv ++ r :: (mid ++ x :: q) = (p ++ conv ++ r :: mid) ++ x :: q :=
      fun x => by simp
    have h₂ := h₁
    rw [hsplit] at h₂
    obtain ⟨-, ⟨hset, rfl⟩ | ⟨hset, rfl, h₃⟩⟩ := enter_ran h₂ hn hadd
    · cases hrun
      refine ⟨_, by rwa [← List.append_assoc], .inr ⟨rfl, fun p' hids => ?_⟩⟩
      exact .twice rfl hids ha hconv hnew hset newWrite gather
    · obtain ⟨⟨j, w₄⟩, hremove, hrun⟩ := bind_eq_ok.1 hrun
      cases hrun
      rw [← hsplit] at h₃
      have h₅ := h₃.of_removeInst hremove
      refine ⟨_, ?_, .inl ⟨_, rfl, .merged newWrite (.later ha hv hconv hnew hset gather)⟩⟩
      simpa using h₅
  | untouched free =>
    -- the combined write is made
    obtain ⟨hz, w₂, rfl, h₂⟩ := combined_ran h₁ hcombined
    obtain ⟨-, ⟨hset, -⟩ | ⟨-, rfl, h₃⟩⟩ := enter_ran h₂ hn hadd
    · cases a <;> cases hset
    · obtain ⟨⟨j, w₄⟩, hremove, hrun⟩ := bind_eq_ok.1 hrun
      cases hrun
      have hsplit : ∀ x : Row, p ++ conv ++ x :: r :: rs = (p ++ conv ++ [x]) ++ r :: rs :=
        fun x => by simp
      rw [hsplit] at h₃
      have h₅ := h₃.of_removeInst hremove
      refine ⟨_, ?_, .inl ⟨z, rfl, .merged hz (.first ha hv hconv hnew free)⟩⟩
      simpa using h₅

/-- What a run over a segment has done. -/
theorem lowerSegment_sweep {res : Except Aspect Bool} {n : Nat}
    (h : Workspace.Tracks loose w₀ w (Function.update rows b (p ++ done)))
    (hg : Gathered mask w₀.fresh.next rs done t) (hids : ((p ++ rs).map Prod.fst).Nodup)
    (hrun : lowerSegment mask b n (.ofList (p.map Prod.fst)) t w = .ok (w', res)) :
    ∃ out, Workspace.Tracks loose w₀ w' (Function.update rows b out) ∧
      Sweep mask w₀.fresh.next (p ++ rs) out res ∧ (res = .ok false → w' = w) := by
  induction n generalizing p rs done t w with
  | zero => cases hrun
  | succ n ih =>
    rcases List.eq_nil_or_concat p with rfl | ⟨p, r, rfl⟩
    · cases hrun
      exact ⟨done, h, .all hg, fun _ => rfl⟩
    rw [List.concat_eq_append] at *
    have hrows : p ++ [r] ++ done = p ++ r :: done := by simp
    have hsource : p ++ [r] ++ rs = p ++ r :: rs := by simp
    rw [hrows] at h
    rw [hsource] at hids ⊢
    have hself := Function.update_self b (p ++ r :: done) rows
    have hinst : w.code.inst r.1 = .ok r.2 := h.shows.inst (b := b) (by rw [hself]; simp)
    rw [lowerSegment, h.shows.popBack hself] at hrun
    simp only [ok_bind, hinst] at hrun
    cases hs : r.2.stores? with
    | none =>
      simp only [hs] at hrun
      exact ih h (hg.skip hs) hids hrun
    | some a =>
      simp only [hs] at hrun
      obtain ⟨⟨w₁, merged⟩, hmerge, hrun⟩ := bind_eq_ok.1 hrun
      obtain ⟨done', h₁, ⟨z, rfl, hg₁⟩ | ⟨rfl, hsweep⟩⟩ := mergeStore_ran h hg hs hmerge
      · obtain ⟨out, h', hsweep, -⟩ := ih h₁ hg₁ hids hrun
        refine ⟨out, h', hsweep, fun hres => ?_⟩
        obtain ⟨-, -, haltered⟩ := lowerSegment_grown hrun
        rw [hres] at haltered
        cases haltered (Option.some_ne_none z)
      · cases hrun
        exact ⟨_, h₁, hsweep p hids, nofun⟩

/-- **What a run over a block has done.** -/
theorem lowerBlock_sweep {res : Except Aspect Bool} (h : Workspace.Tracks loose w₀ w rows)
    (hrun : lowerBlock mask b w = .ok (w', res)) :
    ∃ out, Workspace.Tracks loose w₀ w' (Function.update rows b out) ∧
      Sweep mask w₀.fresh.next (rows b) out res ∧ (res = .ok false → w' = w) ∧
      ∃ blk, w.code.blocks.get? b = some blk := by
  obtain ⟨blk, hblk, hrun⟩ := bind_eq_ok.1 hrun
  have hblk := Defs.find_eq_ok.1 hblk
  rw [h.shows.segment hblk] at hrun
  have hall : rows b = rows b ++ [] := (List.append_nil _).symm
  have hstart : Workspace.Tracks loose w₀ w (Function.update rows b (rows b ++ [])) := by
    rwa [List.append_nil, Function.update_eq_self]
  obtain ⟨out, h', hsweep, hsame⟩ := lowerSegment_sweep hstart (.untouched storeFree_nil)
    (hall ▸ h.shows.ids_nodup b) hrun
  exact ⟨out, h', hall ▸ hsweep, hsame, blk, hblk⟩

/-- What a run over blocks has done. -/
theorem lowerBlocks_sweeps {bs : List BlockId} {res : Except Aspect Bool}
    (h : Workspace.Tracks loose w₀ w rows)
    (hrun : lowerBlocks mask bs w = .ok (w', res)) :
    ∃ rows', Workspace.Tracks loose w₀ w' rows' ∧
      Sweeps (Sweep mask w₀.fresh.next) bs rows rows' res ∧ (res = .ok false → w' = w) ∧
      ∀ c, res = .ok c → ∀ b ∈ bs, ∃ blk, w₀.code.blocks.get? b = some blk := by
  induction bs generalizing w w' rows res with
  | nil =>
    cases hrun
    exact ⟨rows, h, .nil, fun _ => rfl, by simp⟩
  | cons b bs ih =>
    obtain ⟨⟨w₁, here⟩, hblock, hrun⟩ := bind_eq_ok.1 hrun
    obtain ⟨out, h₁, hsweep, hsame, blk, hblk⟩ := lowerBlock_sweep h hblock
    cases here with
    | error a =>
      cases hrun
      exact ⟨_, h₁, .stop hsweep, nofun, nofun⟩
    | ok here =>
      obtain ⟨⟨w₂, later⟩, hblocks, hrun⟩ := bind_eq_ok.1 hrun
      obtain ⟨rows', h₂, hsweeps, hsame', hlisted⟩ := ih h₁ hblocks
      have hres : res = later.map (here || ·) ∧ w' = w₂ := by
        cases later <;> cases hrun <;> exact ⟨rfl, rfl⟩
      obtain ⟨rfl, rfl⟩ := hres
      refine ⟨rows', h₂, .cons hsweep hsweeps, fun hres => ?_, fun c hres => ?_⟩
      · cases later with
        | error a => cases hres
        | ok later =>
          obtain ⟨rfl, rfl⟩ := Bool.or_eq_false_iff.1 (Except.ok.inj hres)
          exact (hsame' rfl).trans (hsame rfl)
      · cases later with
        | error a => cases hres
        | ok later =>
          exact List.forall_mem_cons.2 ⟨h.flow.symm.defined ⟨_, hblk⟩, hlisted later rfl⟩

end Runs

/-! ## What has become of the rows -/

section Rows

variable {mask mask' : Value} {n n' : Nat} {rs rs' done out out' mid q : List Row}
  {t : Option InstId} {r x : Row} {a : Aspect} {res res' : Except Aspect Bool} {set : AspectSet}
  {value : Aspect → Value}

namespace Gather

/-- The combined write writes the aspects that are stored. -/
theorem contains_iff (h : Gather n rs set value mid q) :
    set.contains a = true ↔ ∃ r ∈ rs, r.2.stores? = some a := by
  induction h with
  | @first rs conv r a' v v' ty stores _ _ _ free =>
    have hempty : AspectSet.empty.contains a = false := by cases a <;> decide
    have hrest : ¬ ∃ r ∈ rs, r.2.stores? = some a := by
      rintro ⟨r, hr, hra⟩
      rw [free r hr] at hra
      cases hra
    rw [AspectSet.contains_insert, hempty, Bool.false_or, decide_eq_true_eq,
      List.exists_mem_cons_iff, or_iff_left hrest, stores, Option.some_inj, eq_comm]
  | skip other _ ih => simp [ih, other]
  | later stores _ _ _ _ _ ih =>
    rw [AspectSet.contains_insert, Bool.or_eq_true, ih, decide_eq_true_eq,
      List.exists_mem_cons_iff, stores, Option.some_inj, or_comm, eq_comm]

/-- No aspect is stored twice. -/
theorem nodup (h : Gather n rs set value mid q) :
    (rs.filterMap fun r => r.2.stores?).Nodup := by
  induction h with
  | @first rs conv r a' v v' ty stores _ _ _ free =>
    rw [List.filterMap_cons_some (f := fun r : Row => r.2.stores?) stores,
      List.filterMap_eq_nil_iff.2 free]
    exact List.nodup_singleton _
  | skip other _ ih =>
    rwa [List.filterMap_cons_none (f := fun r : Row => r.2.stores?) other]
  | later stores _ _ _ once rest ih =>
    rw [List.filterMap_cons_some (f := fun r : Row => r.2.stores?) stores, List.nodup_cons]
    refine ⟨fun hmem => ?_, ih⟩
    rw [rest.contains_iff.2 (List.mem_filterMap.1 hmem)] at once
    cases once

theorem not_storeFree (h : Gather n rs set value mid q) : ¬ StoreFree rs := by
  induction h with
  | first stores _ _ _ _ => simp [storeFree_cons, stores]
  | skip other _ ih => exact fun hfree => ih (storeFree_cons.1 hfree).2
  | later stores _ _ _ _ _ _ => simp [storeFree_cons, stores]

/-- The rows around the combined write are the others, and conversions. -/
theorem mem_around (h : Gather n rs set value mid q) (hx : x ∈ mid ++ q) :
    (x ∈ rs ∧ x.2.stores? = none) ∨
      (n ≤ x.1.index ∧ ∃ op inputs ty, x.2 = ⟨.alu op, inputs, ty⟩) := by
  have hconv : ∀ {conv : List Row} {a v ty v'}, Converts a v ty conv v' →
      (∀ q ∈ conv, n ≤ q.1.index) → x ∈ conv →
        n ≤ x.1.index ∧ ∃ op inputs ty, x.2 = ⟨.alu op, inputs, ty⟩ := by
    intro conv a v ty v' hconv hnew hx
    refine ⟨hnew x hx, ?_⟩
    cases hconv with
    | same _ => cases hx
    | new id _ =>
      rw [List.mem_singleton.1 hx]
      exact ⟨_, _, _, rfl⟩
  induction h with
  | first _ _ converts new free =>
    rcases List.mem_append.1 hx with hx | hx
    · exact .inr (hconv converts new hx)
    · exact .inl ⟨List.mem_cons_of_mem _ hx, free x hx⟩
  | skip other _ ih =>
    rcases List.mem_cons.1 hx with rfl | hx
    · exact .inl ⟨List.mem_cons_self, other⟩
    · exact (ih hx).imp_left fun ⟨hx, hnone⟩ => ⟨List.mem_cons_of_mem _ hx, hnone⟩
  | later _ _ converts new _ _ ih =>
    rw [List.append_assoc] at hx
    rcases List.mem_append.1 hx with hx | hx
    · exact .inr (hconv converts new hx)
    · exact (ih hx).imp_left fun ⟨hx, hnone⟩ => ⟨List.mem_cons_of_mem _ hx, hnone⟩

/-- All rows but the stores are kept. -/
theorem kept (h : Gather n rs set value mid q) (hr : r ∈ rs) (other : r.2.stores? = none) :
    r ∈ mid ++ q := by
  induction h with
  | first stores _ _ _ _ =>
    rcases List.mem_cons.1 hr with rfl | hr
    · rw [other] at stores
      cases stores
    · exact List.mem_append_right _ hr
  | skip _ _ ih =>
    rcases List.mem_cons.1 hr with rfl | hr
    · exact List.mem_cons_self
    · exact List.mem_cons_of_mem _ (ih hr)
  | later stores _ _ _ _ _ ih =>
    rcases List.mem_cons.1 hr with rfl | hr
    · rw [other] at stores
      cases stores
    · rw [List.append_assoc]
      exact List.mem_append_right _ (ih hr)

/-- The combined write takes every stored value. -/
theorem takes (h : Gather n rs set value mid q) (hr : r ∈ rs) (ha : r.2.stores? = some a) :
    ∃ v conv ty, r.2.input 0 = .ok v ∧ Converts a v ty conv (value a) ∧ conv ⊆ mid := by
  induction h with
  | first stores input converts _ free =>
    rcases List.mem_cons.1 hr with rfl | hr
    · rw [stores] at ha
      cases ha
      exact ⟨_, _, _, input, by rwa [Function.update_self], fun x hx => hx⟩
    · rw [free r hr] at ha
      cases ha
  | skip other _ ih =>
    rcases List.mem_cons.1 hr with rfl | hr
    · rw [other] at ha
      cases ha
    · obtain ⟨v, conv, ty, hv, hconv, hsub⟩ := ih hr
      exact ⟨v, conv, ty, hv, hconv, List.Subset.trans hsub (List.subset_cons_self _ _)⟩
  | @later rs conv mid q r' a' v v' ty set value stores input converts _ once rest ih =>
    rcases List.mem_cons.1 hr with rfl | hr
    · rw [stores] at ha
      cases ha
      exact ⟨_, _, _, input, by rwa [Function.update_self], List.subset_append_left _ _⟩
    · obtain ⟨v, conv', ty, hv, hconv, hsub⟩ := ih hr
      have hne : a ≠ a' := by
        rintro rfl
        rw [rest.contains_iff.2 ⟨r, hr, ha⟩] at once
        cases once
      refine ⟨v, conv', ty, hv, by rwa [Function.update_of_ne hne], ?_⟩
      exact List.Subset.trans hsub (List.subset_append_right _ _)

end Gather

theorem Gathered.storeFree (h : Gathered mask n rs done t) : StoreFree done := by
  cases h with
  | untouched free => exact free
  | @merged z set value mid q newWrite gather =>
    intro x hx
    rw [List.mem_append, List.mem_cons, or_left_comm, ← List.mem_append] at hx
    rcases hx with rfl | hx
    · rfl
    · rcases gather.mem_around hx with ⟨-, hnone⟩ | ⟨-, op, inputs, ty, hi⟩
      · exact hnone
      · rw [hi]
        rfl

/-- The walk from the end of a block says that it has changed something if there was a store. -/
theorem Gathered.isSome_iff (h : Gathered mask n rs done t) : t.isSome = true ↔ ¬ StoreFree rs := by
  cases h with
  | untouched free => simpa using free
  | merged newWrite gather => simpa using gather.not_storeFree

/-- What the walk along some aspects from the end of the list comes to: it stops at the first that
it has met before. -/
def verdict : List Aspect → Except Aspect Bool
  | [] => .ok false
  | a :: l =>
    match verdict l with
    | .error e => .error e
    | .ok _ => if a ∈ l then .error a else .ok true

theorem verdict_of_nodup {l : List Aspect} (h : l.Nodup) : verdict l = .ok !l.isEmpty := by
  induction l with
  | nil => rfl
  | cons a l ih =>
    obtain ⟨ha, hl⟩ := List.nodup_cons.1 h
    simp only [verdict, ih hl, if_neg ha, List.isEmpty_cons, Bool.not_false]

theorem verdict_append {l l' : List Aspect} (h : verdict l' = .error a) :
    verdict (l ++ l') = .error a := by
  induction l with
  | nil => exact h
  | cons b l ih => simp only [List.cons_append, verdict, ih]

theorem isEmpty_stored : (rs.filterMap fun r => r.2.stores?).isEmpty = true ↔ StoreFree rs := by
  rw [List.isEmpty_iff, List.filterMap_eq_nil_iff]
  rfl

/-- **What a run returns depends on the aspects that are stored**, and on nothing else. -/
theorem Sweep.result (h : Sweep mask n rs out res) :
    res = verdict (rs.filterMap fun r => r.2.stores?) := by
  cases h with
  | all gathered =>
    have hsome := gathered.isSome_iff
    rw [← isEmpty_stored] at hsome
    cases gathered with
    | untouched free => rw [List.filterMap_eq_nil_iff.2 free]; rfl
    | merged newWrite gather =>
      rw [verdict_of_nodup gather.nodup]
      simpa using hsome
  | @twice p s conv mid q r a v v' ty z set value split _ stores _ _ again _ gather =>
    have hmem : a ∈ s.filterMap fun r => r.2.stores? :=
      List.mem_filterMap.2 (gather.contains_iff.1 again)
    rw [split, List.filterMap_append,
      List.filterMap_cons_some (f := fun r : Row => r.2.stores?) stores, verdict_append]
    simp only [verdict, verdict_of_nodup gather.nodup, if_pos hmem]

/-- Once all rows of a block have been looked at, no store is left. -/
theorem Sweep.cleared {c : Bool} (h : Sweep mask n rs out (.ok c)) :
    StoreFree out ∧ (c = true ↔ ¬ StoreFree rs) := by
  cases h with
  | all gathered => exact ⟨gathered.storeFree, gathered.isSome_iff⟩

/-- Once all rows of a block have been looked at, no aspect was stored twice. -/
theorem Sweep.nodup {c : Bool} (h : Sweep mask n rs out (.ok c)) :
    (rs.filterMap fun r => r.2.stores?).Nodup := by
  cases h with
  | all gathered =>
    cases gathered with
    | untouched free =>
      rw [List.filterMap_eq_nil_iff.2 free]
      exact .nil
    | merged newWrite gather => exact gather.nodup

/-- What has been lost of the last rows of a block has been handed over. -/
theorem Gathered.rewritten (h : Gathered mask n rs done t) :
    Rewritten (fun i => i.stores? ≠ none) n rs done := by
  have hfree := h.storeFree
  cases h with
  | untouched free => exact .refl _ n rs
  | @merged z set value mid q newWrite gather =>
    have hmid : ∀ {x}, x ∈ mid ++ q → x ∈ mid ++ (z, .combined mask set value) :: q := by
      intro x hx
      rw [List.mem_append, List.mem_cons, or_left_comm, ← List.mem_append]
      exact .inr hx
    have hwrite : (z, .combined mask set value) ∈ mid ++ (z, .combined mask set value) :: q := by
      simp
    have htakes : ∀ r ∈ rs, ∀ a, r.2.stores? = some a → ∃ v, r.2.input 0 = .ok v ∧
        Takes (mid ++ (z, .combined mask set value) :: q) a v (.combined mask set value) := by
      intro r hr a ha
      obtain ⟨v, conv, ty, hv, hconv, hsub⟩ := gather.takes hr ha
      exact ⟨v, hv, mask, set, value, conv, ty, rfl, gather.contains_iff.2 ⟨r, hr, ha⟩, hconv,
        fun x hx => List.mem_append_left _ (hsub hx)⟩
    refine ⟨fun r hr hother => ?_, fun r hr hlost => ?_, fun x hx => ?_⟩
    · exact hmid (gather.kept hr (not_not.1 hother))
    · cases ha : r.2.stores? with
      | none => exact absurd (hmid (gather.kept hr ha)) hlost
      | some a =>
        obtain ⟨v, hv, ht⟩ := htakes r hr a ha
        exact .store ha hv hwrite newWrite ht
    · rw [List.mem_append, List.mem_cons, or_left_comm, ← List.mem_append] at hx
      rcases hx with rfl | hx
      · refine .inr ⟨newWrite, not_isLowered_combined, fun mask' set' value' a he ha => ?_⟩
        obtain rfl : set = set' := by simpa [Inst.combined] using congrArg Inst.kind he
        obtain ⟨r, hr, hra⟩ := gather.contains_iff.1 ha
        obtain ⟨v, hv, ht⟩ := htakes r hr a hra
        refine ⟨r, hr, fun hmem => ?_, hra, v, hv, ht⟩
        rw [hfree r hmem] at hra
        cases hra
      · rcases gather.mem_around hx with ⟨hx, -⟩ | ⟨hnew, op, inputs, ty, hi⟩
        · exact .inl hx
        · rw [hi]
          refine .inr ⟨hnew, not_isLowered_alu, fun mask' set' value' a he _ => ?_⟩
          cases he

/-- **What has been lost of a block has been handed over**, also if an aspect is stored twice. -/
theorem Sweep.rewritten (h : Sweep mask n rs out res) :
    Rewritten (fun i => i.stores? ≠ none) n rs out := by
  cases h with
  | all gathered => exact gathered.rewritten
  | @twice p s conv mid q r a v v' ty z set value split distinct stores converts new _ newWrite
      gather =>
    generalize hdone : mid ++ (z, Inst.combined mask set value) :: q = done
    have hs : Rewritten (fun i => i.stores? ≠ none) n s done :=
      hdone ▸ (Gathered.merged newWrite gather).rewritten
    subst split
    have hsub : ∀ x ∈ done, x ∈ p ++ (conv ++ r :: done) := fun x hx => by simp [hx]
    refine ⟨fun x hx hother => ?_, fun x hx hlost => ?_, fun x hx => ?_⟩
    · rw [List.mem_append, List.mem_cons] at hx
      rcases hx with hx | rfl | hx
      · exact List.mem_append_left _ hx
      · simp
      · exact hsub x (hs.kept x hx hother)
    · simp only [List.mem_append, List.mem_cons, not_or] at hx hlost
      obtain ⟨hp, -, hr, hd⟩ := hlost
      have hxs : x ∈ s := (hx.resolve_left hp).resolve_left hr
      exact (hs.lost x hxs hd).mono fun y hy _ => hsub y hy
    · simp only [List.mem_append, List.mem_cons] at hx
      rcases hx with hx | hx | rfl | hx
      · exact .inl (by simp [hx])
      · refine .inr ⟨new x hx, converts.not_isLowered hx, fun mask' set' value' a' he _ => ?_⟩
        cases converts with
        | same _ => cases hx
        | new id _ =>
          rw [List.mem_singleton.1 hx] at he
          cases he
      · exact .inl (by simp)
      · refine (hs.new x hx).imp (fun hx => by simp [hx]) ?_
        rintro ⟨hn, hnot, htakes⟩
        refine ⟨hn, hnot, fun mask' set' value' a' he ha => ?_⟩
        obtain ⟨y, hy, hlost, hya, v, hv, ht⟩ := htakes mask' set' value' a' he ha
        refine ⟨y, by simp [hy], fun hmem => ?_, hya, v, hv, ht.mono fun y hy _ => hsub y hy⟩
        -- a store that is lost does not stand before the two stores of one aspect
        have hids : y.1 ∉ (p ++ [r]).map Prod.fst := by
          have hnd := distinct
          rw [List.append_cons, List.map_append] at hnd
          exact fun hmem => (List.nodup_append.1 hnd).2.2 _ hmem _ (List.mem_map_of_mem hy) rfl
        simp only [List.mem_append, List.mem_cons] at hmem
        rcases hmem with hmem | hmem | rfl | hmem
        · exact hids (List.mem_map_of_mem (List.mem_append_left _ hmem))
        · exact converts.not_isLowered hmem (.inl (by simp [hya]))
        · exact hids (by simp)
        · exact hlost hmem

end Rows

end DepthStencil

theorem DepthStencil.kept_eq_keptAfter (r : Except Aspect Bool) : kept r = Body.keptAfter r := by
  cases r with
  | error a => rfl
  | ok c => cases c <;> rfl

/-- **What a run has done to a body.** -/
theorem Body.Linked.lowerBlocks {s : Supply .inst} {body : Body} (h : body.Linked s) {mask : Value}
    {w : Workspace} {r : Except Aspect Bool}
    (hrun : DepthStencil.lowerBlocks mask body.blocks (body.workspace s) = .ok (w, r)) :
    body.Swept (DepthStencil.Sweep mask) s w.fresh
      ({ body with code := w.code }.preserve (DepthStencil.kept r)) r := by
  obtain ⟨rows, hrows⟩ := h.chains.exists_shows
  have hstart : Workspace.Tracks (fun _ => True) (body.workspace s) (body.workspace s) rows :=
    ⟨.refl hrows h.issued, fun _ _ _ => .inl trivial⟩
  obtain ⟨rows', ht, hsweeps, hsame, hlisted⟩ := DepthStencil.lowerBlocks_sweeps hstart hrun
  refine ⟨rfl, ⟨rows, rows', hrows, ht.toDerived, hsweeps⟩, hlisted, fun hacc => ?_, fun hr => ?_,
    ?_⟩
  · obtain ⟨rows₂, ht₂, -⟩ := DepthStencil.lowerBlocks_sweeps (hacc.tracks hrows h.issued) hrun
    obtain rfl := ht.shows.rows_eq ht₂.shows
    exact hacc.of_tracks hrows ht₂ (fun b hb => hsweeps.others hb) _
  · obtain rfl := hsame hr
    rw [hr]
    exact ⟨rfl, rfl⟩
  · rw [← DepthStencil.kept_eq_keptAfter]
    rfl

namespace DepthStencil

/-- What merging the stores of a function has done to its body. -/
def Merging (mask : Value) (name : String) (s : Supply .inst) (body : Body) (s' : Supply .inst)
    (body' : Body) (r : Except LowerError Bool) : Prop :=
  ∃ r', r = r'.mapError (.doubleWrite name) ∧ body.Swept (Sweep mask) s s' body' r'

theorem Merging.swept {mask : Value} {name : String} {s s' : Supply .inst} {body body' : Body}
    {c : Bool} (h : Merging mask name s body s' body' (.ok c)) :
    body.Swept (Sweep mask) s s' body' (.ok c) := by
  obtain ⟨r, hr, hswept⟩ := h
  cases r with
  | error a => cases hr
  | ok c' =>
    cases hr
    exact hswept

/-- **What a run has done to functions.** -/
theorem lowerFuncs_walk {mask : Value} {fs : List FuncId} {m m' : Module}
    {r : Except LowerError Bool} (h : m.Linked fs) (hrun : lowerFuncs mask fs m = .ok (m', r)) :
    Module.Walk (Merging mask) fs m m' r := by
  induction fs generalizing m m' r with
  | nil =>
    cases hrun
    exact .nil
  | cons f fs ih =>
    obtain ⟨⟨m₁, here⟩, hfunc, hrun⟩ := bind_eq_ok.1 hrun
    obtain ⟨decl, hdecl, hfunc⟩ := bind_eq_ok.1 hfunc
    have hdecl := Defs.access_eq_ok.1 hdecl
    cases himpl : decl.impl with
    | imported link =>
      rw [himpl] at hfunc
      cases hfunc
      obtain ⟨⟨m₂, later⟩, hfuncs, hrun⟩ := bind_eq_ok.1 hrun
      have hrest := ih h.tail hfuncs
      cases later <;> cases hrun <;> exact .imported hdecl himpl hrest
    | present body =>
      rw [himpl] at hfunc
      obtain ⟨⟨w, merged⟩, hblocks, hfunc⟩ := bind_eq_ok.1 hfunc
      cases hfunc
      have hswept := (h f (by simp) decl body hdecl himpl).lowerBlocks hblocks
      cases merged with
      | error a =>
        cases hrun
        exact .stop hdecl himpl ⟨.error a, rfl, hswept⟩
      | ok here =>
        obtain ⟨⟨m₂, later⟩, hfuncs, hrun⟩ := bind_eq_ok.1 hrun
        have hrest := ih (h.tail.setBody hdecl hswept.le hswept.linked) hfuncs
        have hboth := Module.Walk.body (Q := Merging mask) hdecl himpl ⟨.ok here, rfl, hswept⟩ hrest
        cases later <;> cases hrun <;> exact hboth

end DepthStencil

end ShaderIR
