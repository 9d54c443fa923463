import Mathlib.Logic.ExistsUnique
import ShaderIR.Proofs.Body.Growth
import ShaderIR.Proofs.Validity.Violations

/-!
# Instructions are defined where they are linked

Definitions and links are kept apart, and every change of a body has to keep the two in step.

* `Code.Links`: an instruction is linked in a block.
* `Body.Accounted`: the chains of a body are linked, and an instruction is defined if and only if it
  is linked in exactly one listed block.
* `Workspace.Tracks`: a workspace has come from another by changes of instructions, and every
  instruction that is defined is in a row, but for some that have been in none from the start.

Principal statements: `Tracks.insert`, `Tracks.setInst` and `Tracks.removeInst` (the three changes
of instructions keep track of what is defined), `Body.Accounted.of_tracks` (so a body stays
accounted for).
-/

namespace ShaderIR

namespace Code

/-- An instruction is linked in a block. -/
def Links (c : Code) (b : BlockId) (id : InstId) : Prop := ∃ ids, c.instsOf b = .ok ids ∧ id ∈ ids

namespace Shows

variable {c : Code} {rows : BlockId → List Row} {b : BlockId} {id : InstId} {r : Row}

theorem links_iff (h : c.Shows rows) : c.Links b id ↔ id ∈ (rows b).map Prod.fst := by
  constructor
  · rintro ⟨ids, hids, hid⟩
    obtain ⟨blk, hblk, -⟩ := bind_eq_ok.1 hids
    rw [h.instsOf (Defs.find_eq_ok.1 hblk)] at hids
    rwa [← Except.ok.inj hids] at hid
  · intro hid
    obtain ⟨r, hr, -⟩ := List.mem_map.1 hid
    obtain ⟨blk, hblk⟩ := h.get?_of_mem hr
    exact ⟨_, h.instsOf hblk, hid⟩

theorem inst? (h : c.Shows rows) (hr : r ∈ rows b) : c.inst? r.1 = some r.2 := h.val b r hr

/-- The row of an instruction is known from its definition. -/
theorem mem_of_links (h : c.Shows rows) {i : Inst} (hid : id ∈ (rows b).map Prod.fst)
    (hi : c.inst? id = some i) : (id, i) ∈ rows b := by
  obtain ⟨⟨x, j⟩, hr, rfl⟩ := List.mem_map.1 hid
  rw [h.inst? hr] at hi
  rwa [← Option.some.inj hi]

end Shows

end Code

namespace Workspace

/-- A workspace has come from another by changes of instructions, these are its rows now, and every
instruction that is defined is in a row or loose. -/
structure Tracks (loose : InstId → Prop) (w₀ w : Workspace) (rows : BlockId → List Row) : Prop
    extends Derived w₀ w rows where
  placed : ∀ id i, w.code.inst? id = some i → loose id ∨ ∃ b, (id, i) ∈ rows b

/-- A row stays in some block if it stays in the one that changes. -/
theorem exists_row_update {rows : BlockId → List Row} {b : BlockId} {new : List Row} {r : Row}
    (h : ∃ d, r ∈ rows d) (hb : r ∈ rows b → r ∈ new) :
    ∃ d, r ∈ Function.update rows b new d := by
  obtain ⟨d, hd⟩ := h
  refine ⟨d, ?_⟩
  by_cases hdb : d = b
  · subst hdb
    rw [Function.update_self]
    exact hb hd
  · rwa [Function.update_of_ne hdb]

namespace Tracks

variable {loose : InstId → Prop} {w₀ w w₁ : Workspace} {rows rows₁ : BlockId → List Row}
  {b : BlockId} {x : InstId} {i i' : Inst} {p s : List Row} {anchor : Anchor}

/-- **Inserting an instruction at an anchor.** -/
theorem insert (h : Tracks loose w₀ w rows) (hb : rows b = p ++ s) (ha : anchor.At p s)
    (hdef : ∃ blk, w.code.blocks.get? b = some blk) (i : Inst) :
    ∃ w', (w.at ⟨b, anchor⟩).insert i =
        .ok (⟨w.fresh.next⟩, w'.at ⟨b, anchor.advance ⟨w.fresh.next⟩⟩) ∧
      Tracks loose w₀ w' (Function.update rows b (p ++ (⟨w.fresh.next⟩, i) :: s)) := by
  obtain ⟨w', hw', hderived⟩ := h.toDerived.insert hb ha hdef i
  obtain ⟨-, -, hinst⟩ := Builder.insert_inst? hw'
  refine ⟨w', hw', hderived, fun y j hy => ?_⟩
  change w'.code.inst? y = some j at hy
  rw [show w'.code.inst? y = _ from hinst y] at hy
  split at hy
  · rename_i hyx
    obtain rfl := Option.some.inj hy
    exact .inr ⟨b, by simp [hyx]⟩
  · refine (h.placed y j hy).imp_right fun hrow => exists_row_update hrow fun hd => ?_
    rw [hb, List.mem_append] at hd
    exact List.mem_append.2 (hd.imp_right (List.mem_cons_of_mem _))

/-- **Replacing the definition of an instruction.** -/
theorem setInst (h : Tracks loose w₀ w rows) (hb : rows b = p ++ (x, i') :: s) (i : Inst) :
    ∃ n, w.code.insts.get? x = some n ∧ n.val = i' ∧
      Tracks loose w₀ (w.put x n i) (Function.update rows b (p ++ (x, i) :: s)) := by
  obtain ⟨n, hn, hv, hderived⟩ := h.toDerived.setInst hb i
  have hx : (x, i') ∈ rows b := by simp [hb]
  have hinst : ∀ y, (w.put x n i).code.inst? y = if y = x then some i else w.code.inst? y := by
    intro y
    rw [Code.inst?, put, Defs.get?_set_of_get? hn]
    split <;> rfl
  refine ⟨n, hn, hv, hderived, fun y j hy => ?_⟩
  rw [hinst] at hy
  split at hy
  · rename_i hyx
    obtain rfl := Option.some.inj hy
    exact .inr ⟨b, by simp [hyx]⟩
  · rename_i hyx
    refine (h.placed y j hy).imp_right fun hrow => exists_row_update hrow fun hd => ?_
    rw [hb] at hd
    simpa [hyx] using hd

/-- **Taking an instruction out of its block.** -/
theorem removeInst (h : Tracks loose w₀ w rows) (hb : rows b = p ++ (x, i) :: s) :
    ∃ w', w.removeInst b x = .ok (i, w') ∧
      Tracks loose w₀ w' (Function.update rows b (p ++ s)) := by
  obtain ⟨w', hw', hderived⟩ := h.toDerived.removeInst hb
  obtain ⟨-, hinst⟩ := removeInst_ok hw'
  refine ⟨w', hw', hderived, fun y j hy => ?_⟩
  rw [hinst] at hy
  split at hy
  · cases hy
  · rename_i hyx
    refine (h.placed y j hy).imp_right fun hrow => exists_row_update hrow fun hd => ?_
    rw [hb] at hd
    simpa [hyx] using hd

/-- Inserting an instruction before another of the block. -/
theorem insertBefore {r : Row} (h : Tracks loose w₀ w (Function.update rows b (p ++ r :: s)))
    (i : Inst) :
    ∃ w', (w.at (.before b r.1)).insert i = .ok (⟨w.fresh.next⟩, w'.at (.before b r.1)) ∧
      Tracks loose w₀ w' (Function.update rows b (p ++ (⟨w.fresh.next⟩, i) :: r :: s)) := by
  have hself := Function.update_self b (p ++ r :: s) rows
  have hmem : r ∈ Function.update rows b (p ++ r :: s) b := by simp
  obtain ⟨w', hw', h'⟩ := h.insert hself (.before (r := r)) (h.shows.get?_of_mem hmem) i
  rw [Function.update_idem] at h'
  exact ⟨w', hw', h'⟩

/-- What is left once an instruction has been taken out of its block. -/
theorem of_removeInst {j : Inst}
    (h : Tracks loose w₀ w (Function.update rows b (p ++ (x, i) :: s)))
    (hrun : w.removeInst b x = .ok (j, w₁)) :
    Tracks loose w₀ w₁ (Function.update rows b (p ++ s)) := by
  obtain ⟨w', hw', h'⟩ := h.removeInst (Function.update_self b _ rows)
  rw [Function.update_idem] at h'
  rw [hrun] at hw'
  cases hw'
  exact h'

end Tracks

end Workspace

namespace Body

/-- The chains of a body are linked, and an instruction is defined if and only if it is linked in
exactly one listed block. -/
structure Accounted (body : Body) : Prop where
  linked : body.ChainsLinked
  defined : ∀ id, (∃ i, body.code.inst? id = some i) ↔
    ∃! b, b ∈ body.blocks ∧ body.code.Links b id

variable {body : Body} {rows : BlockId → List Row}

theorem accounted_iff (h : body.code.Shows rows) : body.Accounted ↔
    ∀ id i, body.code.inst? id = some i → ∃ b ∈ body.blocks, (id, i) ∈ rows b := by
  constructor
  · intro hacc id i hi
    obtain ⟨b, ⟨hb, hid⟩, -⟩ := (hacc.defined id).1 ⟨i, hi⟩
    exact ⟨b, hb, h.mem_of_links (h.links_iff.1 hid) hi⟩
  · intro hplaced
    refine ⟨⟨_, h.layout⟩, fun id => ⟨?_, ?_⟩⟩
    · rintro ⟨i, hi⟩
      obtain ⟨b, hb, hr⟩ := hplaced id i hi
      have hid : id ∈ (rows b).map Prod.fst := List.mem_map_of_mem hr
      refine ⟨b, ⟨hb, h.links_iff.2 hid⟩, ?_⟩
      rintro d ⟨-, hd⟩
      exact h.layout.unique (h.links_iff.1 hd) hid
    · rintro ⟨b, ⟨-, hid⟩, -⟩
      obtain ⟨r, hr, rfl⟩ := List.mem_map.1 (h.links_iff.1 hid)
      exact ⟨r.2, h.inst? hr⟩

/-- All that is defined in a body that is accounted for is in a row. -/
theorem Accounted.tracks (h : body.Accounted) (hrows : body.code.Shows rows) {s : Supply .inst}
    (hi : (body.workspace s).Issued) :
    (body.workspace s).Tracks (fun _ => False) (body.workspace s) rows := by
  refine ⟨.refl hrows hi, fun id i hid => .inr ?_⟩
  obtain ⟨b, -, hr⟩ := (accounted_iff hrows).1 h id i hid
  exact ⟨b, hr⟩

/-- **A body stays accounted for** if all that is defined is still in a row, and only the rows of
listed blocks have changed. -/
theorem Accounted.of_tracks (h : body.Accounted) (hrows : body.code.Shows rows) {w₀ w : Workspace}
    {rows' : BlockId → List Row} (ht : w₀.Tracks (fun _ => False) w rows')
    (others : ∀ b, b ∉ body.blocks → rows' b = rows b) (cache : Analyses) :
    Accounted ⟨w.code, body.blocks, cache⟩ := by
  have hshows : (⟨w.code, body.blocks, cache⟩ : Body).code.Shows rows' := ht.shows
  refine (accounted_iff hshows).2 fun id i hi => ?_
  obtain ⟨b, hr⟩ := (ht.placed id i hi).resolve_left not_false
  refine ⟨b, ?_, hr⟩
  by_contra hb
  rw [others b hb] at hr
  obtain ⟨d, hd, hr'⟩ := (accounted_iff hrows).1 h id i (hrows.inst? hr)
  exact hb ((hrows.unique hr hr' rfl).1 ▸ hd)

end Body

end ShaderIR
