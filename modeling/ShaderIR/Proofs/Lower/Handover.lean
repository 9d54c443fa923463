import ShaderIR.Proofs.Lower.Functions

/-!
# What becomes of the rows of a block

A lowering takes stores and discards away, and puts something new in their place.

* `Takes`: a combined write takes a stored value.
* `HandedOver`: something new does what an instruction was there for.
* `Rewritten`: some rows have become others; what has been lost has been handed over.

Principal statement: `Rewritten.trans` (what has been handed over stays so).
-/

namespace ShaderIR

/-- A combined write takes a value for an aspect, converted among some rows if need be. -/
def Takes (rs : List Row) (a : Aspect) (v : Value) (write : Inst) : Prop :=
  ∃ mask set value conv ty, write = .combined mask set value ∧ set.contains a = true ∧
    DepthStencil.Converts a v ty conv (value a) ∧ conv ⊆ rs

/-- Something among some rows, with an identity from `n` on, does what an instruction was there
for. -/
inductive HandedOver (n : Nat) (rs : List Row) (i : Inst) : Prop where
  | store {a : Aspect} {v : Value} {write : Row} (stores : i.stores? = some a)
    (input : i.input 0 = .ok v) (mem : write ∈ rs) (new : n ≤ write.1.index)
    (takes : Takes rs a v write.2)
  | discard {k : InstId} {mask : Value} (kind : i.kind = .intrinsic .discard)
    (mem : (k, .discardSamples mask) ∈ rs) (new : n ≤ k.index)
  | discardIf {k c : InstId} {cond all nothing : Value} (kind : i.kind = .intrinsic .discardIf)
    (input : i.input 0 = .ok cond) (choice : (c, .selectMask cond all nothing) ∈ rs)
    (mem : (k, .discardSamples (.result c)) ∈ rs) (new : n ≤ k.index)

/-- Some rows have become others.  Only what `lowers` holds of can have been lost, and it has been
handed over.  All that is new has an identity from `n` on, and a new combined write has got what it
writes from stores that have been lost. -/
structure Rewritten (lowers : Inst → Prop) (n : Nat) (rs out : List Row) : Prop where
  kept : ∀ r ∈ rs, ¬ lowers r.2 → r ∈ out
  lost : ∀ r ∈ rs, r ∉ out → HandedOver n out r.2
  new : ∀ q ∈ out, q ∈ rs ∨ (n ≤ q.1.index ∧ ¬ q.2.IsLowered ∧
    ∀ mask set value a, q.2 = .combined mask set value → set.contains a = true →
      ∃ r ∈ rs, r ∉ out ∧ r.2.stores? = some a ∧ ∃ v, r.2.input 0 = .ok v ∧ Takes out a v q.2)

variable {n : Nat} {rs mid out : List Row} {i : Inst} {a : Aspect} {v : Value}
  {lowers lowers' : Inst → Prop} {q : Row}

theorem Takes.not_isLowered (h : Takes rs a v i) : ¬ i.IsLowered := by
  obtain ⟨mask, set, value, conv, ty, rfl, -, -, -⟩ := h
  exact not_isLowered_combined

theorem Takes.mono (h : Takes rs a v i) (hkeep : ∀ q ∈ rs, ¬ q.2.IsLowered → q ∈ out) :
    Takes out a v i := by
  obtain ⟨mask, set, value, conv, ty, hi, ha, hconv, hsub⟩ := h
  exact ⟨mask, set, value, conv, ty, hi, ha, hconv, fun q hq =>
    hkeep q (hsub hq) (hconv.not_isLowered hq)⟩

/-- What something has been handed over to is not lost itself. -/
theorem HandedOver.mono (h : HandedOver n rs i) (hkeep : ∀ q ∈ rs, ¬ q.2.IsLowered → q ∈ out) :
    HandedOver n out i := by
  cases h with
  | store stores input mem new takes =>
    exact .store stores input (hkeep _ mem takes.not_isLowered) new (takes.mono hkeep)
  | discard kind mem new =>
    exact .discard kind (hkeep _ mem not_isLowered_discardSamples) new
  | discardIf kind input choice mem new =>
    exact .discardIf kind input (hkeep _ choice not_isLowered_alu)
      (hkeep _ mem not_isLowered_discardSamples) new

theorem HandedOver.of_le {n' : Nat} (h : HandedOver n rs i) (hn : n' ≤ n) : HandedOver n' rs i := by
  cases h with
  | store stores input mem new takes => exact .store stores input mem (hn.trans new) takes
  | discard kind mem new => exact .discard kind mem (hn.trans new)
  | discardIf kind input choice mem new => exact .discardIf kind input choice mem (hn.trans new)

namespace Rewritten

theorem refl (lowers : Inst → Prop) (n : Nat) (rs : List Row) : Rewritten lowers n rs rs :=
  ⟨fun _ hr _ => hr, fun _ hr hnot => absurd hr hnot, fun _ hq => .inl hq⟩

theorem mono (h : Rewritten lowers n rs out) (hl : ∀ i, lowers i → lowers' i) :
    Rewritten lowers' n rs out :=
  ⟨fun r hr hnot => h.kept r hr fun h' => hnot (hl _ h'), h.lost, h.new⟩

theorem of_le {n' : Nat} (h : Rewritten lowers n rs out) (hn : n' ≤ n) :
    Rewritten lowers n' rs out :=
  ⟨h.kept, fun r hr hlost => (h.lost r hr hlost).of_le hn, fun q hq =>
    (h.new q hq).imp_right fun ⟨hnew, hrest⟩ => ⟨hn.trans hnew, hrest⟩⟩

/-- Nothing comes that a lowering takes away. -/
theorem old (h : Rewritten lowers n rs out) (hq : q ∈ out) (hl : q.2.IsLowered) : q ∈ rs :=
  (h.new q hq).resolve_right fun hnew => hnew.2.1 hl

/-- **What has been handed over stays so.** -/
theorem trans (hl : ∀ i, lowers i → i.IsLowered) (h : Rewritten lowers n rs mid)
    (h' : Rewritten lowers n mid out) : Rewritten lowers n rs out := by
  have hkeep : ∀ q ∈ mid, ¬ q.2.IsLowered → q ∈ out := fun q hq hnot =>
    h'.kept q hq fun h => hnot (hl _ h)
  refine ⟨fun r hr hnot => h'.kept r (h.kept r hr hnot) hnot, fun r hr hout => ?_, fun q hq => ?_⟩
  · by_cases hmid : r ∈ mid
    · exact h'.lost r hmid hout
    · exact (h.lost r hr hmid).mono hkeep
  · rcases h'.new q hq with hmid | ⟨hn, hnot, htakes⟩
    · refine (h.new q hmid).imp_right fun ⟨hn, hnot, htakes⟩ => ⟨hn, hnot, ?_⟩
      intro mask set value a hwrite ha
      obtain ⟨r, hr, hmid', hstores, v, hv, ht⟩ := htakes mask set value a hwrite ha
      refine ⟨r, hr, fun hout => ?_, hstores, v, hv, ht.mono hkeep⟩
      exact hmid' (h'.old hout (.inl (by simp [hstores])))
    · refine .inr ⟨hn, hnot, fun mask set value a hwrite ha => ?_⟩
      obtain ⟨r, hr, hout, hstores, v, hv, ht⟩ := htakes mask set value a hwrite ha
      exact ⟨r, h.old hr (.inl (by simp [hstores])), hout, hstores, v, hv, ht⟩

end Rewritten

end ShaderIR
