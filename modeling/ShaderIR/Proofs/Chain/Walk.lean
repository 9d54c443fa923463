import ShaderIR.Proofs.Chain.Linked

/-!
# Walks along the links

* `Segment.ofList`: the segment between the ends of a sequence.
* `Linked.popFront`, `Linked.popBack`: splitting a node off a segment of a linked sequence, whatever
  the sequence goes on with at the other side.
* `Layout.toList_eq`: a walk along a chain meets the sequence that the chain spells.
-/

namespace ShaderIR

variable {κ : Kind} {α : Type}

namespace Segment

/-- The segment between the ends of a sequence. -/
def ofList (ids : List (Id κ)) : Segment κ := ⟨ids.head?, ids.getLast?⟩

theorem popFront_nil (ns : Nodes κ α) : (ofList ([] : List (Id κ))).popFront ns = .ok none := rfl

end Segment

theorem Chain.segment_ofList (ids : List (Id κ)) :
    (Chain.ofList ids).segment = Segment.ofList ids := by
  simp [segment, Segment.ofList]

namespace Nodes

open Segment

variable {ns : Nodes κ α} {prev next : Option (Id κ)} {p s ids : List (Id κ)} {x : Id κ}

theorem Linked.popFront (h : Linked ns prev (x :: ids ++ s) next) (hx : x ∉ ids) :
    (ofList (x :: ids)).popFront ns = .ok (some (x, ofList ids)) := by
  obtain ⟨⟨v, hv⟩, -⟩ := h
  cases ids with
  | nil => simp [Segment.popFront, ofList, Segment.empty]
  | cons y ys =>
    have hne : x ≠ (y :: ys).getLast?.getD x := by
      intro e
      rw [List.getLast?_cons, Option.getD_some] at e
      refine hx (List.mem_of_getLast? (a := x) ?_)
      rw [List.getLast?_cons, ← e]
    have hlast : (ofList (x :: y :: ys)).last = some ((y :: ys).getLast?.getD x) := by
      simp [ofList, List.getLast?_cons]
    simp only [Segment.popFront, hlast]
    simp only [ofList, List.head?_cons, if_neg hne, Defs.find_of_get? hv, ok_bind]
    simp [List.getLast?_cons]

theorem Linked.popBack (h : Linked ns prev (p ++ x :: s) next) (hx : x ∉ p) :
    (ofList (p ++ [x])).popBack ns = .ok (some (x, ofList p)) := by
  rcases List.eq_nil_or_concat p with rfl | ⟨p, q, rfl⟩
  · simp [Segment.popBack, ofList, Segment.empty]
  · rw [List.concat_eq_append] at *
    obtain ⟨-, ⟨v, hv⟩, -⟩ := Linked.append_iff.1 h
    obtain ⟨f, hf⟩ : ∃ f, (p ++ [q]).head? = some f := by cases p <;> simp
    have hprev : (p ++ [q]).getLast? = some q := List.getLast?_concat
    have hlast : (ofList (p ++ [q] ++ [x])).last = some x := by simp [ofList]
    have hfirst : (ofList (p ++ [q] ++ [x])).first = some f := by
      rw [ofList, List.head?_append, hf]
      rfl
    have hne : f ≠ x := fun e => hx (e ▸ List.mem_of_head? hf)
    have hrest : ofList (p ++ [q]) = ⟨some f, some q⟩ := by rw [ofList, hf, hprev]
    simp only [Segment.popBack, hlast, hfirst, if_neg hne, Defs.find_of_get? hv, ok_bind, hprev,
      hrest]
    rfl

theorem Linked.collect (h : Linked ns prev ids next) (hn : ids.Nodup) :
    ∀ fuel, ids.length < fuel → Segment.collect fuel (ofList ids) ns = .ok ids := by
  intro fuel hf
  obtain ⟨fuel, rfl⟩ : ∃ k, fuel = k + 1 := ⟨fuel - 1, by omega⟩
  induction ids generalizing prev fuel with
  | nil => simp [Segment.collect, popFront_nil]
  | cons x xs ih =>
    have hpop := Linked.popFront (s := []) (by simpa using h) (List.nodup_cons.1 hn).1
    obtain ⟨fuel, rfl⟩ : ∃ k, fuel = k + 1 := ⟨fuel - 1, by simp at hf; omega⟩
    have hrest := ih h.2 (List.nodup_cons.1 hn).2 fuel (by simpa using hf)
    rw [Segment.collect, hpop, ok_bind]
    simp only [hrest, ok_bind, pure_eq_ok]

/-- A walk from the first to the last node of a linked sequence meets all of it. -/
theorem Linked.toList (h : Linked ns prev ids next) (hn : ids.Nodup) :
    (ofList ids).toList ns = .ok ids := by
  have hle : ids.length ≤ Defs.size ns := Defs.length_le_size hn h.isSome
  exact h.collect hn _ (by omega)

end Nodes

/-- **A walk along a chain meets the sequence that the chain spells.** -/
theorem Layout.toList_eq {ι : Type} {cs : ι → Chain κ} {ns : Nodes κ α} {ls : ι → List (Id κ)}
    (h : Layout cs ns ls) (i : ι) : (cs i).toList ns = .ok (ls i) := by
  rw [h.chain i, Chain.toList, Chain.segment_ofList]
  exact (h.linked i).toList (h.nodup i)

end ShaderIR
