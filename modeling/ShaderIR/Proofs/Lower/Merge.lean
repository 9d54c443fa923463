import ShaderIR.Lower.DepthStencil
import ShaderIR.Proofs.Validity.Edits

/-!
# One block of the depth/stencil lowering

The lowering of a block is told again as a relation between rows, which says of every step what it
puts where.

* `Inst.IsStore`, `Inst.combined`: the instructions that it takes away and makes.
* `Converts`: the conversion of a stored value, which takes a row unless the type is right already.
* `MergeStep`: what happens to the rows at one store; `Merges`: at all rows of a block, from the
  last to the first.
* `Rules.Lowers`: rules that the instructions which it makes obey.

Principal statements: `mergeStore_step` (one store is merged as `MergeStep` says, and the code stays
valid) and `lowerBlock_merges` (so is a block).
-/

namespace ShaderIR

/-- The operation that converts to the type of an aspect. -/
def Aspect.converter : Aspect → AluOp
  | depth => .fconvert
  | stencil => .uconvert

/-- What can be converted to the type of an aspect. -/
def Aspect.wanted : Aspect → Expected
  | depth => .anyFloat
  | stencil => .anyInt

theorem Aspect.expected_converter (a : Aspect) : a.converter.expected = [a.wanted] := by
  cases a <;> rfl

namespace Inst

/-- An instruction stores a value to the output of an aspect. -/
structure IsStore (i : Inst) (a : Aspect) (v : Value) : Prop where
  stores : i.stores? = some a
  inputs : i.inputs = [v]
  untyped : i.ty = none

/-- A combined write. -/
def combined (mask : Value) (s : AspectSet) (value : Aspect → Value) : Inst :=
  ⟨.intrinsic (.combinedWrite s), [mask, value .depth, value .stencil], none⟩

end Inst

/-- Rules that what a lowering makes obeys where it takes the place of what it lowers. -/
structure Rules.Lowers (R : Rules) : Prop where
  admits : ∀ e ty result, e.Admits ty result → R.accepts e ty result
  alu : ∀ op, R.wants (.alu op) = op.expected
  combined : ∀ s, R.wants (.intrinsic (.combinedWrite s)) =
    [.exactly .u16, .exactly .f32, .exactly .u16]
  discardSamples : R.wants (.intrinsic .discardSamples) = [.exactly .u16]
  discardIf : ∃ e, R.wants (.intrinsic .discardIf) = [e] ∧ ∀ ty r, R.accepts e ty r → ty = .bool
  stores : ∀ target a, Aspect.ofSlot? target.slot = some a →
    ∃ e, R.wants (.intrinsic (.storeOutput target)) = [e] ∧
      ∀ ty r r', R.accepts e ty r → R.accepts a.wanted ty r'

namespace DepthStencil

/-- The conversion of a stored value of some type: its rows, and the value that comes out. -/
inductive Converts (a : Aspect) (v : Value) (ty : ScalarType) : List Row → Value → Prop where
  | same (h : ty = a.scalarType) : Converts a v ty [] v
  | new (id : InstId) (h : ty ≠ a.scalarType) :
    Converts a v ty [(id, ⟨.alu a.converter, [v], some a.scalarType⟩)] (.result id)

/-- The values of a combined write that writes nothing yet. -/
def openValues (a : Aspect) : Value := .const (.undef a.scalarType)

/-- The combined write that a block has so far, if any, is among the rows that are done. -/
inductive Target (mask : Value) (done : List Row) : Option InstId → Prop where
  | none : Target mask done none
  | some {z : InstId} {mid s : List Row} {set : AspectSet} {value : Aspect → Value}
    (at_ : done = mid ++ (z, .combined mask set value) :: s) : Target mask done (some z)

/-- What happens to the rows at one store, with the rows `p` before it and `done` after it: the rows
that are done afterwards, and the combined write or the aspect that has been written twice.  New
instructions have an identity from `n` on. -/
inductive MergeStep (f : Flow) (mask : Value) (n : Nat) (rows : BlockId → List Row) (b : BlockId)
    (p : List Row) (store : Row) :
    List Row → Option InstId → List Row → Except Aspect InstId → Prop where
  | first {a : Aspect} {v v' : Value} {ty : ScalarType} {conv done : List Row} {z : InstId}
    (shown : ∃ c : Code, c.Shows (Function.update rows b (p ++ store :: done)))
    (isStore : store.2.IsStore a v) (hasType : f.HasType rows b p v ty)
    (converts : Converts a v ty conv v')
    (fresh : ∀ id ∈ conv.map Prod.fst, ∀ d,
      id ∉ (Function.update rows b (p ++ store :: done) d).map Prod.fst)
    (new : ∀ id ∈ conv.map Prod.fst, n ≤ id.index) (newWrite : n ≤ z.index) :
    MergeStep f mask n rows b p store done none
      (conv ++ (z, .combined mask (AspectSet.empty.insert a)
        (Function.update openValues a v')) :: done) (.ok z)
  | later {a : Aspect} {v v' : Value} {ty : ScalarType} {conv mid s : List Row} {z : InstId}
    {set : AspectSet} {value : Aspect → Value}
    (shown : ∃ c : Code, c.Shows (Function.update rows b
      (p ++ store :: (mid ++ (z, .combined mask set value) :: s))))
    (isStore : store.2.IsStore a v) (hasType : f.HasType rows b p v ty)
    (converts : Converts a v ty conv v')
    (fresh : ∀ id ∈ conv.map Prod.fst, ∀ d, id ∉ (Function.update rows b
      (p ++ store :: (mid ++ (z, .combined mask set value) :: s)) d).map Prod.fst)
    (once : set.contains a = false) (new : ∀ id ∈ conv.map Prod.fst, n ≤ id.index) :
    MergeStep f mask n rows b p store (mid ++ (z, .combined mask set value) :: s) (some z)
      (conv ++ mid ++ (z, .combined mask (set.insert a) (Function.update value a v')) :: s) (.ok z)
  | twice {a : Aspect} {v v' : Value} {ty : ScalarType} {conv mid s : List Row} {z : InstId}
    {set : AspectSet} {value : Aspect → Value}
    (shown : ∃ c : Code, c.Shows (Function.update rows b
      (p ++ store :: (mid ++ (z, .combined mask set value) :: s))))
    (isStore : store.2.IsStore a v) (hasType : f.HasType rows b p v ty)
    (converts : Converts a v ty conv v')
    (fresh : ∀ id ∈ conv.map Prod.fst, ∀ d, id ∉ (Function.update rows b
      (p ++ store :: (mid ++ (z, .combined mask set value) :: s)) d).map Prod.fst)
    (again : set.contains a = true) (new : ∀ id ∈ conv.map Prod.fst, n ≤ id.index) :
    MergeStep f mask n rows b p store (mid ++ (z, .combined mask set value) :: s) (some z)
      (conv ++ store :: (mid ++ (z, .combined mask set value) :: s)) (.error a)

/-- What happens to the rows of a block, those before `done` being still to be looked at. -/
inductive Merges (f : Flow) (mask : Value) (n : Nat) (rows : BlockId → List Row) (b : BlockId) :
    List Row → List Row → Option InstId → List Row → Except Aspect Bool → Prop where
  | nil {done : List Row} {t : Option InstId} : Merges f mask n rows b [] done t done (.ok t.isSome)
  | skip {p done out : List Row} {r : Row} {t : Option InstId} {res : Except Aspect Bool}
    (other : r.2.stores? = none) (rest : Merges f mask n rows b p (r :: done) t out res) :
    Merges f mask n rows b (p ++ [r]) done t out res
  | merge {p done done' out : List Row} {r : Row} {t : Option InstId} {z : InstId}
    {res : Except Aspect Bool} (step : MergeStep f mask n rows b p r done t done' (.ok z))
    (rest : Merges f mask n rows b p done' (some z) out res) :
    Merges f mask n rows b (p ++ [r]) done t out res
  | stop {p done done' : List Row} {r : Row} {t : Option InstId} {a : Aspect}
    (step : MergeStep f mask n rows b p r done t done' (.error a)) :
    Merges f mask n rows b (p ++ [r]) done t (p ++ done') (.error a)

theorem addAspect_combined (mask : Value) (set : AspectSet) (value : Aspect → Value) (a : Aspect)
    (v : Value) : addAspect (.combined mask set value) a v =
      .ok (if set.contains a then .error a
        else .ok (.combined mask (set.insert a) (Function.update value a v))) := by
  unfold addAspect Inst.combined AspectSet.insertOnce
  by_cases h : set.contains a = true
  · simp [h]
  · cases a <;> simp [h, Inst.withInput, Aspect.inputIndex]

section Steps

variable {f : Flow} {R : Rules} {w₀ w : Workspace} {rows : BlockId → List Row} {b : BlockId}
  {p s done : List Row} {a : Aspect} {v : Value} {ty : ScalarType} {r : Row} {mask : Value}
  {value : Aspect → Value} {set : AspectSet} {t : Option InstId}

theorem userOk_combined (hR : R.Lowers) :
    f.UserOk R rows b p none [mask, value .depth, value .stencil]
      (R.wants (.intrinsic (.combinedWrite set))) ↔
    (∃ ty, f.HasType rows b p mask ty ∧ R.accepts (.exactly .u16) ty none) ∧
      ∀ a, ∃ ty, f.HasType rows b p (value a) ty ∧ R.accepts (.exactly a.scalarType) ty none := by
  rw [hR.combined, Flow.UserOk, List.forall₂_cons, List.forall₂_cons, List.forall₂_cons]
  constructor
  · rintro ⟨hm, hd, hs, -⟩
    refine ⟨hm, fun a => ?_⟩
    cases a with
    | depth => exact hd
    | stencil => exact hs
  · rintro ⟨hm, hv⟩
    exact ⟨hm, hv .depth, hv .stencil, .nil⟩

theorem admits_exactly (hR : R.Lowers) (ty : ScalarType) (result : Option ScalarType) :
    R.accepts (.exactly ty) ty result :=
  hR.admits _ _ _ (by simp [Expected.Admits, Expected.admits])

/-- A converted value has the type of the aspect where its conversion ends. -/
theorem Converts.hasType {conv : List Row} {v' : Value} (h : Converts a v ty conv v')
    (hv : f.HasType rows b p v ty) : f.HasType rows b (p ++ conv) v' a.scalarType := by
  cases h with
  | same h =>
    subst h
    rwa [List.append_nil]
  | new id h =>
    refine .inl ⟨⟨.alu a.converter, [v], some a.scalarType⟩, ?_, rfl⟩
    exact List.mem_append_right _ (List.mem_singleton_self _)

/-- **A value is converted**, by a new row if need be. -/
theorem convert_converts (hR : R.Lowers)
    (h : w₀.Stands f R w (Function.update rows b (p ++ r :: s)))
    (hv : f.HasType rows b p v ty) (haccepts : R.accepts a.wanted ty (some a.scalarType)) :
    ∃ w' conv v', convert (w.at (.before b r.1)) a v = .ok (v', w'.at (.before b r.1)) ∧
      Converts a v ty conv v' ∧
      (∀ id ∈ conv.map Prod.fst, ∀ d,
        id ∉ (Function.update rows b (p ++ r :: s) d).map Prod.fst) ∧
      (∀ id ∈ conv.map Prod.fst, w₀.fresh.next ≤ id.index) ∧
      w₀.Stands f R w' (Function.update rows b (p ++ (conv ++ r :: s))) := by
  have htype : w.code.typeOf v = .ok ty :=
    (Flow.hasType_update.2 hv).typeOf h.shows (Function.update_self b (p ++ r :: s) rows)
  have hconvert : ∀ w : Workspace, w.code.typeOf v = .ok ty →
      convert (w.at (.before b r.1)) a v =
        if ty = a.scalarType then .ok (v, w.at (.before b r.1))
        else (w.at (.before b r.1)).alu a.converter [v] a.scalarType := by
    intro w hw
    have htypeOf : (w.at (.before b r.1)).typeOf v = .ok ty := hw
    cases a
    · show Builder.fconvert _ v .f32 = _
      simp only [Builder.fconvert, ScalarType.isFloat, if_true, htypeOf, ok_bind, pure_eq_ok]
      rfl
    · show Builder.uconvert _ v .u16 = _
      simp only [Builder.uconvert, ScalarType.isUnsigned, if_true, htypeOf, ok_bind, pure_eq_ok]
      rfl
  rw [hconvert w htype]
  by_cases hty : ty = a.scalarType
  · rw [if_pos hty]
    exact ⟨w, [], v, rfl, .same hty, by simp, by simp, h⟩
  · rw [if_neg hty]
    have hsplit := Function.update_self b (p ++ r :: s) rows
    obtain ⟨w', hw', hstands⟩ := h.insertBefore hsplit
      ⟨.alu a.converter, [v], some a.scalarType⟩ (by
        rw [hR.alu, a.expected_converter]
        exact .cons ⟨ty, Flow.hasType_update.2 hv, haccepts⟩ .nil)
    rw [Function.update_idem] at hstands
    refine ⟨w', _, _, ?_, .new ⟨w.fresh.next⟩ hty, ?_, ?_, hstands⟩
    · rw [Builder.alu, hw']
      rfl
    · intro id hid d
      obtain rfl : id = ⟨w.fresh.next⟩ := by simpa using hid
      exact h.fresh_not_mem d
    · intro id hid
      obtain rfl : id = ⟨w.fresh.next⟩ := by simpa using hid
      exact h.le

/-- The value of an aspect is entered into the combined write, and the store is removed. -/
theorem enter_stands (hR : R.Lowers) (hl : b ∈ f.listed) {z : InstId} {q q' : List Row}
    (h : w₀.Stands f R w (Function.update rows b (q ++ (z, .combined mask set value) :: q')))
    (hv : f.HasType rows b q v a.scalarType) :
    ∃ n, w.code.insts.get? z = some n ∧ n.val = .combined mask set value ∧
      w₀.Stands f R (w.put z n (.combined mask (set.insert a) (Function.update value a v)))
        (Function.update rows b
          (q ++ (z, .combined mask (set.insert a) (Function.update value a v)) :: q')) := by
  have hsplit := Function.update_self b (q ++ (z, .combined mask set value) :: q') rows
  obtain ⟨hmask, hvalue⟩ := (userOk_combined hR).1 (h.user hl hsplit)
  obtain ⟨n, hn, hval, hstands⟩ := h.setInst hsplit
    (.combined mask (set.insert a) (Function.update value a v)) rfl (by
      refine (userOk_combined hR).2 ⟨hmask, fun a' => ?_⟩
      by_cases ha : a' = a
      · subst ha
        rw [Function.update_self]
        exact ⟨_, Flow.hasType_update.2 hv, admits_exactly hR _ _⟩
      · rw [Function.update_of_ne ha]
        exact hvalue a')
  rw [Function.update_idem] at hstands
  exact ⟨n, hn, hval, hstands⟩

/-- The type of a stored value, which can be converted. -/
theorem exists_hasType (hR : R.Lowers) (hl : b ∈ f.listed)
    (h : w₀.Stands f R w (Function.update rows b (p ++ r :: s))) (hi : r.2.stores? = some a)
    (hty : r.2.ty = none) : ∃ v ty, r.2.IsStore a v ∧ f.HasType rows b p v ty ∧
      R.accepts a.wanted ty (some a.scalarType) := by
  have huser := h.user hl (Function.update_self b (p ++ r :: s) rows)
  obtain ⟨target, hkind, hslot⟩ : ∃ target, r.2.kind = .intrinsic (.storeOutput target) ∧
      Aspect.ofSlot? target.slot = some a := by
    unfold Inst.stores? at hi
    split at hi
    · rename_i target hkind
      exact ⟨target, hkind, hi⟩
    · cases hi
  obtain ⟨e, he, haccepts⟩ := hR.stores target a hslot
  rw [hkind, he, Flow.UserOk] at huser
  cases hinputs : r.2.inputs with
  | nil =>
    rw [hinputs] at huser
    cases huser
  | cons v vs =>
    rw [hinputs, List.forall₂_cons] at huser
    obtain ⟨⟨ty, hv, hok⟩, hrest⟩ := huser
    obtain rfl : vs = [] := List.forall₂_nil_right_iff.1 hrest
    exact ⟨v, ty, ⟨hi, hinputs, hty⟩, Flow.hasType_update.1 hv, haccepts ty _ _ hok⟩

/-- What is left to do once the value has been converted and the combined write is there. -/
theorem mergeStore_eq {i : Inst} {st z : InstId} {c : Cursor} {v' : Value} {w₁ w₂ : Workspace}
    {n : Node .inst Inst} (hc : c = .before b st) (hi : i.input 0 = .ok v)
    (hconv : convert (w.at c) a v = .ok (v', w₁.at c))
    (hcombined : combined (w₁.at c) mask t = .ok (z, w₂.at c))
    (hn : w₂.code.insts.get? z = some n) (hval : n.val = .combined mask set value) :
    mergeStore mask b st i a t w =
      if set.contains a = true then .ok (w₂, .error a)
      else do
        let (_, w) ← (w₂.put z n
          (.combined mask (set.insert a) (Function.update value a v'))).removeInst b st
        return (w, .ok z) := by
  subst hc
  have hadd : addAspect n.val a v' = _ := hval ▸ addAspect_combined mask set value a v'
  unfold mergeStore
  simp only [hi, ok_bind, hconv, hcombined]
  simp only [Workspace.at, Defs.access_of_get? hn, ok_bind, hadd]
  by_cases h : set.contains a = true
  · simp only [h, if_true]
    rfl
  · simp only [h]
    rfl

/-- **One store is merged as `MergeStep` says, and the code stays valid.** -/
theorem mergeStore_step (hR : R.Lowers) (hl : b ∈ f.listed) {k : Constant} (hk : k.ty = .u16)
    (hmask : mask = .const k)
    (h : w₀.Stands f R w (Function.update rows b (p ++ r :: done)))
    (hi : r.2.stores? = some a) (hty : r.2.ty = none) (ht : Target mask done t) :
    ∃ w' res done', mergeStore mask b r.1 r.2 a t w = .ok (w', res) ∧
      MergeStep f mask w₀.fresh.next rows b p r done t done' res ∧
      w₀.Stands f R w' (Function.update rows b (p ++ done')) := by
  obtain ⟨v, ty, hstore, hv, haccepts⟩ := exists_hasType hR hl h hi hty
  obtain ⟨w₁, conv, v', hconv, hc, hfresh, hnew, h₁⟩ := convert_converts hR h hv haccepts
  have hv' : f.HasType rows b (p ++ conv) v' a.scalarType := hc.hasType hv
  have hinput : r.2.input 0 = .ok v := by simp [Inst.input, hstore.inputs]
  rw [← List.append_assoc] at h₁
  cases ht with
  | none =>
    -- a new combined write takes the place of the store
    have hsplit := Function.update_self b (p ++ conv ++ r :: done) rows
    obtain ⟨w₂, hw₂, h₂⟩ := h₁.insertBefore hsplit (.combined mask .empty openValues) (by
      refine (userOk_combined hR).2 ⟨⟨.u16, ?_, admits_exactly hR _ _⟩, fun a' => ?_⟩
      · rw [hmask]
        exact hk
      · exact ⟨a'.scalarType, rfl, admits_exactly hR _ _⟩)
    rw [Function.update_idem] at h₂
    obtain ⟨n, hn, hval, h₃⟩ := enter_stands hR hl h₂ hv'
    have hshift : ∀ x : Row, p ++ conv ++ x :: r :: done = (p ++ conv ++ [x]) ++ r :: done :=
      fun x => by simp
    rw [hshift] at h₃
    obtain ⟨w₄, hw₄, h₄⟩ := h₃.removeInst (Function.update_self b _ rows) hty
    rw [Function.update_idem] at h₄
    have hcombined : combined (w₁.at (.before b r.1)) mask none =
        .ok (⟨w₁.fresh.next⟩, w₂.at (.before b r.1)) := hw₂
    refine ⟨w₄, .ok ⟨w₁.fresh.next⟩, _, ?_, .first ⟨_, h.shows⟩ hstore hv hc hfresh hnew h₁.le,
      by simpa using h₄⟩
    rw [mergeStore_eq (c := .before b r.1) rfl hinput hconv hcombined hn hval]
    have hnot : AspectSet.empty.contains a = false := by cases a <;> decide
    rw [hnot, if_neg Bool.false_ne_true, hw₄]
    rfl
  | @some z mid s set value hdone =>
    subst hdone
    have hshift : p ++ conv ++ r :: (mid ++ (z, .combined mask set value) :: s) =
        (p ++ conv ++ r :: mid) ++ (z, .combined mask set value) :: s := by simp
    have hlater : f.HasType rows b (p ++ conv ++ r :: mid) v' a.scalarType :=
      hv'.mono (fun _ _ hy => Flow.yields_append.2 (.inl hy)) fun _ _ _ hy => hy
    have h₂ := h₁
    rw [hshift] at h₂
    obtain ⟨n, hn, hval, h₃⟩ := enter_stands hR hl h₂ hlater
    have heq := mergeStore_eq (c := .before b r.1) rfl hinput hconv
      (rfl : combined (w₁.at _) mask (some z) = _) hn hval
    cases hset : set.contains a with
    | true =>
      refine ⟨w₁, .error a, _, ?_, .twice ⟨_, h.shows⟩ hstore hv hc hfresh hset hnew,
        by simpa using h₁⟩
      rw [heq, if_pos hset]
    | false =>
      have hback : ∀ x : Row, (p ++ conv ++ r :: mid) ++ x :: s =
          (p ++ conv) ++ r :: (mid ++ x :: s) := fun x => by simp
      rw [hback] at h₃
      obtain ⟨w₄, hw₄, h₄⟩ := h₃.removeInst (Function.update_self b _ rows) hty
      rw [Function.update_idem] at h₄
      refine ⟨w₄, .ok z, _, ?_, .later ⟨_, h.shows⟩ hstore hv hc hfresh hset hnew,
        by simpa using h₄⟩
      rw [heq, hset, if_neg Bool.false_ne_true, hw₄]
      rfl

/-- A combined write that a step leaves behind is there. -/
theorem MergeStep.target {n : Nat} {done' : List Row} {z : InstId}
    (h : MergeStep f mask n rows b p r done t done' (.ok z)) : Target mask done' (some z) := by
  cases h with
  | first _ _ _ _ _ => exact .some rfl
  | later _ _ _ _ _ _ => exact .some rfl

theorem Target.cons (h : Target mask done t) (r : Row) : Target mask (r :: done) t := by
  cases h with
  | none => exact .none
  | @some z mid s set value hdone =>
    have hcons : r :: done = (r :: mid) ++ (z, .combined mask set value) :: s := by
      rw [hdone]
      rfl
    exact .some hcons

/-- **The rows of a segment are merged as `Merges` says, and the code stays valid.** -/
theorem lowerSegment_merges (hR : R.Lowers) (hl : b ∈ f.listed) {k : Constant} (hk : k.ty = .u16)
    (hmask : mask = .const k) : ∀ (n : Nat) (p done : List Row) (t : Option InstId)
    (w : Workspace), p.length < n → w₀.Stands f R w (Function.update rows b (p ++ done)) →
    (∀ r ∈ p, r.2.stores? ≠ none → r.2.ty = none) → Target mask done t →
    ∃ w' res out, lowerSegment mask b n (.ofList (p.map Prod.fst)) t w = .ok (w', res) ∧
      Merges f mask w₀.fresh.next rows b p done t out res ∧
      w₀.Stands f R w' (Function.update rows b out)
  | 0, _, _, _, _, hn, _, _, _ => absurd hn (Nat.not_lt_zero _)
  | n + 1, p, done, t, w, hn, h, hty, ht => by
    rcases List.eq_nil_or_concat p with rfl | ⟨p, r, rfl⟩
    · exact ⟨w, .ok t.isSome, done, rfl, .nil, h⟩
    rw [List.concat_eq_append] at *
    rw [List.length_append, List.length_singleton] at hn
    have hrows : p ++ [r] ++ done = p ++ r :: done := by simp
    rw [hrows] at h
    have hself := Function.update_self b (p ++ r :: done) rows
    have hinst : w.code.inst r.1 = .ok r.2 := h.shows.inst (b := b) (by rw [hself]; simp)
    have hty' : ∀ q ∈ p, q.2.stores? ≠ none → q.2.ty = none := fun q hq =>
      hty q (List.mem_append_left _ hq)
    rw [lowerSegment, h.shows.popBack hself]
    simp only [ok_bind, hinst]
    cases hs : r.2.stores? with
    | none =>
      obtain ⟨w', res, out, hw', hm, h'⟩ := lowerSegment_merges hR hl hk hmask n p (r :: done) t w
        (by omega) h hty' (ht.cons r)
      exact ⟨w', res, out, hw', .skip hs hm, h'⟩
    | some a =>
      obtain ⟨w₁, res₁, done', hw₁, hstep, h₁⟩ := mergeStore_step hR hl hk hmask h hs
        (hty r (by simp) (by simp [hs])) ht
      simp only [hw₁, ok_bind]
      cases res₁ with
      | error a => exact ⟨w₁, .error a, p ++ done', rfl, .stop hstep, h₁⟩
      | ok z =>
        obtain ⟨w', res, out, hw', hm, h'⟩ := lowerSegment_merges hR hl hk hmask n p done'
          (some z) w₁ (by omega) h₁ hty' hstep.target
        exact ⟨w', res, out, hw', .merge hstep hm, h'⟩

/-- **A block is lowered as `Merges` says, and the code stays valid.** -/
theorem lowerBlock_merges (hR : R.Lowers) (hl : b ∈ f.listed) {k : Constant} (hk : k.ty = .u16)
    (hmask : mask = .const k) (h : w₀.Stands f R w rows)
    (hdef : ∃ blk, w.code.blocks.get? b = some blk)
    (hty : ∀ r ∈ rows b, r.2.stores? ≠ none → r.2.ty = none) :
    ∃ w' res out, lowerBlock mask b w = .ok (w', res) ∧
      Merges f mask w₀.fresh.next rows b (rows b) [] none out res ∧
      w₀.Stands f R w' (Function.update rows b out) := by
  obtain ⟨blk, hblk⟩ := hdef
  have hstart : w₀.Stands f R w (Function.update rows b (rows b ++ [])) := by
    rwa [List.append_nil, Function.update_eq_self]
  obtain ⟨w', res, out, hw', hm, h'⟩ := lowerSegment_merges hR hl hk hmask _ (rows b) [] none w
    (h.shows.length_lt_visitBound b) hstart hty .none
  refine ⟨w', res, out, ?_, hm, h'⟩
  rw [lowerBlock, Defs.find_of_get? hblk, ok_bind, h.shows.segment hblk, hw']

end Steps

end DepthStencil

end ShaderIR
