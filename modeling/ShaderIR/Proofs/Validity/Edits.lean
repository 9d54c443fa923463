import ShaderIR.Edit
import ShaderIR.Proofs.Validity.Uses

/-!
# Edits of valid code

* `Code.Shows.segment`, `Code.Shows.length_lt_visitBound`: a walk along a block sees its rows, and
  has enough fuel.
* `Workspace.Stands`: a workspace that has come from another is valid.

Principal statements: `Stands.insertBefore`, `Stands.setInst` and `Stands.removeInst` (an edit keeps
it valid if what is new is a user with the inputs that are required, and nothing is taken away that
has a result).
-/

namespace ShaderIR

namespace Code.Shows

variable {c : Code} {rows : BlockId → List Row} {b : BlockId}

theorem segment (h : c.Shows rows) {blk : Block} (hb : c.blocks.get? b = some blk) :
    blk.insts.segment = .ofList ((rows b).map Prod.fst) := by
  have hchain : c.chainOf b = _ := h.layout.chain b
  have hblk : c.chainOf b = blk.insts := by rw [chainOf, hb]
  rw [← hblk, hchain, Chain.segment_ofList]

/-- The last row of a part of a block is met next, on the way from the end. -/
theorem popBack (h : c.Shows rows) {p s : List Row} {r : Row} (hb : rows b = p ++ r :: s) :
    (Segment.ofList ((p ++ [r]).map Prod.fst)).popBack c.insts =
      .ok (some (r.1, .ofList (p.map Prod.fst))) := by
  have hlinked := h.layout.linked b
  have hnd := h.ids_nodup b
  rw [hb, List.map_append, List.map_cons] at hlinked hnd
  rw [List.map_append, List.map_singleton]
  apply hlinked.popBack
  intro hmem
  exact (List.nodup_append.1 hnd).2.2 _ hmem _ List.mem_cons_self rfl

/-- The first of some instructions that stand together in a block is met next, whatever comes behind
them. -/
theorem popFront_infix (h : c.Shows rows) {x : InstId} {ids : List InstId}
    (hids : x :: ids <:+: (rows b).map Prod.fst) :
    (Segment.ofList (x :: ids)).popFront c.insts = .ok (some (x, .ofList ids)) := by
  have hnd : (x :: ids).Nodup := (h.ids_nodup b).sublist hids.sublist
  obtain ⟨p, q, e⟩ := hids
  have hlinked := h.layout.linked b
  rw [← e, List.append_assoc] at hlinked
  exact (Nodes.Linked.append_iff.1 hlinked).2.popFront (List.nodup_cons.1 hnd).1

/-- The first row of a part of a block is met next, on the way from the start. -/
theorem popFront (h : c.Shows rows) {p s : List Row} {r : Row} (hb : rows b = p ++ r :: s) :
    (Segment.ofList ((r :: s).map Prod.fst)).popFront c.insts =
      .ok (some (r.1, .ofList (s.map Prod.fst))) := by
  have hids : r.1 :: s.map Prod.fst <:+: (rows b).map Prod.fst := by
    rw [hb, List.map_append, List.map_cons]
    exact (List.suffix_append _ _).isInfix
  exact h.popFront_infix hids

theorem length_lt_visitBound (h : c.Shows rows) (b : BlockId) :
    (rows b).length < Edit.visitBound c := by
  have hle : ((rows b).map Prod.fst).length ≤ c.insts.size :=
    Defs.length_le_size (h.ids_nodup b) (h.layout.linked b).isSome
  rw [List.length_map] at hle
  have hlt : (rows b).length < 4 * (c.insts.size + 1) := by omega
  exact Nat.lt_of_lt_of_le hlt (Nat.le_mul_self _)

end Code.Shows

/-- A workspace that has come from another shows these rows, and they are valid. -/
structure Workspace.Stands (f : Flow) (R : Rules) (w₀ w : Workspace) (rows : BlockId → List Row) :
    Prop extends Workspace.Derived w₀ w rows where
  valid : f.Valid R rows

namespace Workspace.Stands

variable {f : Flow} {R : Rules} {w₀ w : Workspace} {rows : BlockId → List Row} {b : BlockId}
  {x : InstId} {i i' : Inst} {p s : List Row}

/-- The instruction of a row has the inputs that are required. -/
theorem user (h : Stands f R w₀ w rows) (hl : b ∈ f.listed) (hb : rows b = p ++ (x, i) :: s) :
    f.UserOk R rows b p i.ty i.inputs (R.wants i.kind) := by
  have hrows := (h.valid b hl).rowsOk
  exact Flow.rowsOk_iff.1 hrows p (x, i) s hb

theorem insertBefore (h : Stands f R w₀ w rows) (hb : rows b = p ++ (x, i') :: s) (i : Inst)
    (hu : f.UserOk R rows b p i.ty i.inputs (R.wants i.kind)) :
    ∃ w', (w.at (.before b x)).insert i = .ok (⟨w.fresh.next⟩, w'.at (.before b x)) ∧
      Stands f R w₀ w' (Function.update rows b (p ++ (⟨w.fresh.next⟩, i) :: (x, i') :: s)) := by
  obtain ⟨w', hw', hd⟩ := h.toDerived.insertBefore hb i
  refine ⟨w', hw', hd, ?_⟩
  have hsplit : rows b = p ++ ([] ++ ((x, i') :: s)) := hb
  refine h.valid.splice (n := [(⟨w.fresh.next⟩, i)]) hsplit ?_ ⟨hu, trivial⟩
  rintro id ty ⟨j, hj, -⟩
  cases hj

theorem setInst (h : Stands f R w₀ w rows) (hb : rows b = p ++ (x, i') :: s) (i : Inst)
    (hty : i.ty = i'.ty) (hu : f.UserOk R rows b p i.ty i.inputs (R.wants i.kind)) :
    ∃ n, w.code.insts.get? x = some n ∧ n.val = i' ∧
      Stands f R w₀ (w.put x n i) (Function.update rows b (p ++ (x, i) :: s)) := by
  obtain ⟨n, hn, hv, hd⟩ := h.toDerived.setInst hb i
  refine ⟨n, hn, hv, hd, ?_⟩
  have hsplit : rows b = p ++ ([(x, i')] ++ s) := hb
  refine h.valid.splice (n := [(x, i)]) hsplit ?_ ⟨hu, trivial⟩
  rintro id ty ⟨j, hj, hjty⟩
  obtain ⟨rfl, rfl⟩ := Prod.mk.inj (List.mem_singleton.1 hj)
  exact ⟨i, List.mem_singleton_self _, hty.trans hjty⟩

theorem removeInst (h : Stands f R w₀ w rows) (hb : rows b = p ++ (x, i) :: s)
    (hty : i.ty = none) : ∃ w', w.removeInst b x = .ok (i, w') ∧
      Stands f R w₀ w' (Function.update rows b (p ++ s)) := by
  obtain ⟨w', hw', hd⟩ := h.toDerived.removeInst hb
  refine ⟨w', hw', hd, ?_⟩
  have hsplit : rows b = p ++ ([(x, i)] ++ s) := hb
  refine h.valid.splice (n := []) hsplit ?_ trivial
  rintro id ty ⟨j, hj, hjty⟩
  obtain ⟨rfl, rfl⟩ := Prod.mk.inj (List.mem_singleton.1 hj)
  rw [hty] at hjty
  cases hjty

end Workspace.Stands

end ShaderIR
