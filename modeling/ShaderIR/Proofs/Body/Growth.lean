import Mathlib.Logic.Relation
import ShaderIR.Proofs.Body.Rows

/-!
# What edits of code leave alone

Whatever the links are like, an edit that goes through changes no definition but the one that it is
told to change, and no terminator.

* `Nodes.Relinks`: the links of nodes have been changed, and nothing else.
* `Code.inst?`: the definition of an instruction, if it has one.
* `Code.Extends`: instructions have been added.

Principal statements: `Builder.insert_ok` and `Workspace.removeInst_ok` (what there is after an
instruction has been inserted, or taken out).
-/

namespace ShaderIR

namespace Nodes

variable {κ : Kind} {α : Type} {ns ns' ns₀ : Nodes κ α} {id : Id κ} {n n' : Node κ α}
  {p q o : Option (Id κ)} {how : Insertion}

/-- The links of nodes have been changed, of one after the other. -/
def Relinks : Nodes κ α → Nodes κ α → Prop :=
  Relation.ReflTransGen fun ns ns' => ∃ id n n', ns.get? id = some n ∧ n'.val = n.val ∧
    ns' = ns.set id n'

theorem relinks_set (h : ns.access id = .ok n) (hv : n'.val = n.val) : Relinks ns (ns.set id n') :=
  .single ⟨id, n, n', Defs.access_eq_ok.1 h, hv, rfl⟩

/-- The same nodes are defined as before, with the same content. -/
theorem Relinks.vals (h : Relinks ns ns') (y : Id κ) :
    (ns'.get? y).map Node.val = (ns.get? y).map Node.val := by
  induction h with
  | refl => rfl
  | @tail ns₁ _ _ step ih =>
    obtain ⟨id, n, n', hn, hv, rfl⟩ := step
    rw [← ih, Defs.get?_set_of_get? hn]
    split
    · rename_i hy
      rw [hy, hn, Option.map_some, Option.map_some, hv]
    · rfl

theorem swapNext_ok (h : swapNext ns id q = .ok (o, ns')) : Relinks ns ns' := by
  obtain ⟨n, hn, h⟩ := bind_eq_ok.1 h
  cases h
  exact relinks_set hn rfl

theorem swapPrev_ok (h : swapPrev ns id p = .ok (o, ns')) : Relinks ns ns' := by
  obtain ⟨n, hn, h⟩ := bind_eq_ok.1 h
  cases h
  exact relinks_set hn rfl

theorem attach_ok (h : attach ns how id p q = .ok ns') : Relinks ns ns' := by
  obtain ⟨n, hn, h⟩ := bind_eq_ok.1 h
  split at h
  · cases h
  · cases h
    exact relinks_set hn rfl

theorem detach_ok {r : Option (Id κ) × Option (Id κ) × Nodes κ α} (h : detach ns id = .ok r) :
    Relinks ns r.2.2 := by
  obtain ⟨n, hn, h⟩ := bind_eq_ok.1 h
  cases h
  exact relinks_set hn rfl

end Nodes

namespace Chain

variable {κ : Kind} {α : Type} {c : Chain κ} {ns ns' : Nodes κ α} {new x : Id κ}
  {r : Chain κ × Nodes κ α} {p q : Option (Id κ)}

theorem insertLast_ok (h : c.insertLast new ns = .ok r) : ns.Relinks r.2 := by
  obtain ⟨ns₁, h₁, h⟩ := bind_eq_ok.1 h
  have hvals := Nodes.attach_ok h₁
  split at h
  · cases h
    exact hvals
  · obtain ⟨⟨o, ns₂⟩, h₂, h⟩ := bind_eq_ok.1 h
    dsimp only at h
    split at h <;> cases h
    exact hvals.trans (Nodes.swapNext_ok h₂)

theorem insertBefore_ok (h : c.insertBefore new x ns = .ok r) : ns.Relinks r.2 := by
  obtain ⟨⟨o, ns₁⟩, h₁, h⟩ := bind_eq_ok.1 h
  obtain ⟨ns₂, h₂, h⟩ := bind_eq_ok.1 h
  have hvals := (Nodes.swapPrev_ok h₁).trans (Nodes.attach_ok h₂)
  split at h
  · obtain ⟨⟨o', ns₃⟩, h₃, h⟩ := bind_eq_ok.1 h
    dsimp only at h
    split at h <;> cases h
    exact hvals.trans (Nodes.swapNext_ok h₃)
  · obtain ⟨c', -, h⟩ := bind_eq_ok.1 h
    cases h
    exact hvals

theorem insertAfter_ok (h : c.insertAfter new x ns = .ok r) : ns.Relinks r.2 := by
  obtain ⟨⟨o, ns₁⟩, h₁, h⟩ := bind_eq_ok.1 h
  obtain ⟨ns₂, h₂, h⟩ := bind_eq_ok.1 h
  have hvals := (Nodes.swapNext_ok h₁).trans (Nodes.attach_ok h₂)
  split at h
  · obtain ⟨⟨o', ns₃⟩, h₃, h⟩ := bind_eq_ok.1 h
    dsimp only at h
    split at h <;> cases h
    exact hvals.trans (Nodes.swapPrev_ok h₃)
  · obtain ⟨c', -, h⟩ := bind_eq_ok.1 h
    cases h
    exact hvals

theorem bridgeNext_ok (h : c.bridgeNext x p q ns = .ok ns') : ns.Relinks ns' := by
  unfold bridgeNext at h
  split at h
  · obtain ⟨⟨o, ns₁⟩, h₁, h⟩ := bind_eq_ok.1 h
    dsimp only at h
    split at h <;> cases h
    exact Nodes.swapNext_ok h₁
  · split at h <;> cases h
    exact .refl

theorem bridgePrev_ok (h : c.bridgePrev x p q ns = .ok ns') : ns.Relinks ns' := by
  unfold bridgePrev at h
  split at h
  · obtain ⟨⟨o, ns₁⟩, h₁, h⟩ := bind_eq_ok.1 h
    dsimp only at h
    split at h <;> cases h
    exact Nodes.swapPrev_ok h₁
  · split at h <;> cases h
    exact .refl

theorem remove_ok (h : c.remove x ns = .ok r) : ns.Relinks r.2 := by
  obtain ⟨⟨p, q, ns₁⟩, h₁, h⟩ := bind_eq_ok.1 h
  obtain ⟨ns₂, h₂, h⟩ := bind_eq_ok.1 h
  obtain ⟨ns₃, h₃, h⟩ := bind_eq_ok.1 h
  obtain ⟨c', -, h⟩ := bind_eq_ok.1 h
  cases h
  exact ((Nodes.detach_ok h₁).trans (bridgeNext_ok h₂)).trans (bridgePrev_ok h₃)

end Chain

theorem Anchor.link_ok {a : Anchor} {new : InstId} {c : Chain .inst} {ns : Nodes .inst Inst}
    {r : Chain .inst × Nodes .inst Inst} (h : a.link new c ns = .ok r) : ns.Relinks r.2 := by
  cases a with
  | after prev => exact Chain.insertAfter_ok h
  | before next => exact Chain.insertBefore_ok h
  | last => exact Chain.insertLast_ok h

namespace Code

variable {c c' c₀ : Code} {id : InstId} {i : Inst} {b : BlockId}

/-- The definition of an instruction, if it has one. -/
def inst? (c : Code) (id : InstId) : Option Inst := (c.insts.get? id).map Node.val

theorem inst_eq_ok : c.inst id = .ok i ↔ c.inst? id = some i := by
  rw [inst, inst?, bind_eq_ok, Option.map_eq_some_iff]
  simp only [Defs.find_eq_ok, pure_eq_ok, Except.ok.injEq]

/-- The result of an instruction has the type that is declared for it. -/
theorem typeOf_result {ty : ScalarType} :
    c.typeOf (.result id) = .ok ty ↔ ∃ i, c.inst? id = some i ∧ i.ty = some ty := by
  rw [typeOf, bind_eq_ok]
  constructor
  · rintro ⟨i, hi, hty⟩
    refine ⟨i, inst_eq_ok.1 hi, ?_⟩
    cases h : i.ty <;> rw [h] at hty <;> cases hty
    rfl
  · rintro ⟨i, hi, hty⟩
    refine ⟨i, inst_eq_ok.2 hi, ?_⟩
    rw [hty]
    rfl

/-- Editing a chain changes links only. -/
theorem editChain_ok
    {edit : Chain .inst → Nodes .inst Inst → Except Fault (Chain .inst × Nodes .inst Inst)}
    (he : ∀ ch r, edit ch c.insts = .ok r → c.insts.Relinks r.2)
    (h : c.editChain b edit = .ok c') : c.SameFlow c' ∧ ∀ y, c'.inst? y = c.inst? y := by
  obtain ⟨blk, hblk, h⟩ := bind_eq_ok.1 h
  obtain ⟨⟨ch, ns⟩, hedit, h⟩ := bind_eq_ok.1 h
  cases h
  exact ⟨sameFlow_set (Defs.access_eq_ok.1 hblk) ch ns, (he _ _ hedit).vals⟩

/-- Instructions have been added, and nothing else has changed. -/
structure Extends (c c' : Code) : Prop where
  flow : c.SameFlow c'
  keeps : ∀ id i, c.inst? id = some i → c'.inst? id = some i

theorem Extends.refl (c : Code) : c.Extends c := ⟨.refl c, fun _ _ h => h⟩

theorem Extends.trans (h : c₀.Extends c) (h' : c.Extends c') : c₀.Extends c' :=
  ⟨h.flow.trans h'.flow, fun id i hi => h'.keeps id i (h.keeps id i hi)⟩

/-- A value that has a type keeps it. -/
theorem Extends.typeOf (h : c.Extends c') {v : Value} {ty : ScalarType}
    (hv : c.typeOf v = .ok ty) : c'.typeOf v = .ok ty := by
  cases v with
  | const k => exact hv
  | result id =>
    obtain ⟨i, hi, hty⟩ := typeOf_result.1 hv
    exact typeOf_result.2 ⟨i, h.keeps id i hi, hty⟩

/-- What is not defined in the end has not been defined before. -/
theorem Extends.undefined (h : c.Extends c') (hid : c'.inst? id = none) : c.inst? id = none := by
  cases hi : c.inst? id with
  | none => rfl
  | some i =>
    rw [h.keeps id i hi] at hid
    cases hid

end Code

/-- What there is once an instruction has been inserted. -/
theorem Builder.insert_inst? {b b' : Builder} {i : Inst} {id : InstId}
    (h : b.insert i = .ok (id, b')) : b.work.code.SameFlow b'.work.code ∧
      b.work.code.inst? id = none ∧
      ∀ y, b'.work.code.inst? y = if y = id then some i else b.work.code.inst? y := by
  obtain ⟨⟨id, w⟩, hdefine, h⟩ := bind_eq_ok.1 h
  obtain ⟨c, hlink, h⟩ := bind_eq_ok.1 h
  cases h
  obtain ⟨⟨id, insts, fresh⟩, hnew, hdefine⟩ := bind_eq_ok.1 hdefine
  cases hdefine
  obtain ⟨hnone, heq⟩ := Defs.define_eq_ok.1 hnew
  cases heq
  obtain ⟨hflow, hvals⟩ := Code.editChain_ok (fun _ _ => Anchor.link_ok) hlink
  refine ⟨hflow, by rw [Code.inst?, hnone, Option.map_none], fun y => ?_⟩
  show c.inst? y = _
  rw [hvals, Code.inst?, Defs.get?_insert]
  split <;> rfl

/-- An inserted instruction is new, and nothing else has changed. -/
theorem Builder.insert_ok {b b' : Builder} {i : Inst} {id : InstId}
    (h : b.insert i = .ok (id, b')) : b.work.code.Extends b'.work.code ∧
      b.work.code.inst? id = none ∧ b'.work.code.inst? id = some i := by
  obtain ⟨hflow, hundefined, hinst⟩ := insert_inst? h
  refine ⟨⟨hflow, fun y j hy => ?_⟩, hundefined, by rw [hinst, if_pos rfl]⟩
  have hne : y ≠ id := by
    rintro rfl
    rw [hundefined] at hy
    cases hy
  rw [hinst, if_neg hne, hy]

/-- An instruction has been taken out, and nothing else has changed. -/
theorem Workspace.removeInst_ok {w w' : Workspace} {b : BlockId} {id : InstId} {i : Inst}
    (h : w.removeInst b id = .ok (i, w')) : w.code.SameFlow w'.code ∧
      ∀ y, w'.code.inst? y = if y = id then none else w.code.inst? y := by
  obtain ⟨⟨i, c⟩, hremove, h⟩ := bind_eq_ok.1 h
  cases h
  obtain ⟨c₁, hedit, hremove⟩ := bind_eq_ok.1 hremove
  obtain ⟨⟨n, insts⟩, herase, hremove⟩ := bind_eq_ok.1 hremove
  cases hremove
  obtain ⟨hflow, hvals⟩ := Code.editChain_ok (fun _ _ => Chain.remove_ok) hedit
  obtain ⟨_, -, heq⟩ := Defs.remove_eq_ok.1 herase
  cases heq
  refine ⟨hflow, fun y => ?_⟩
  rw [← hvals, Code.inst?, Defs.get?_erase]
  split <;> rfl

end ShaderIR
