import ShaderIR.Proofs.Chain.Linked

/-!
# What the edits of a chain do to its sequence

Each edit changes the links of one node and of its neighbours, one after the other.  Here the links
after an edit are computed as one function of the links before it, and read as an exchange of a part
of one sequence.

* `Nodes.relink`: the links after a node `x₀` has got links of its own and the nodes around it have
  been made to lead past it or to it.
* `Chain.insertBefore_eq` and the like: when an edit of one sequence succeeds, and with what links.
* `Chain.first?_of_insertBefore` and the like: what an edit that succeeded says of the chain it was
  made through.

Principal statements: `Layout.insertFirst`, `Layout.insertLast`, `Layout.insertBefore`,
`Layout.insertAfter` and `Layout.remove` (each edit succeeds, and what it makes of a layout).
-/

namespace ShaderIR

variable {κ : Kind} {α : Type}

namespace Nodes

variable {ns ns' : Nodes κ α} {p m s : List (Id κ)} {id : Id κ} {n : Node κ α}

theorem attach_of_get? (how : Insertion) (prev next : Option (Id κ)) (h : ns.get? id = some n)
    (hl : n.hasNeighbors = false) :
    Nodes.attach ns how id prev next = .ok (ns.set id { n with prev, next }) := by
  simp [attach, Defs.access_of_get? h, hl]

theorem swapNext_of_get? (next : Option (Id κ)) (h : ns.get? id = some n) :
    Nodes.swapNext ns id next = .ok (n.next, ns.set id { n with next }) := by
  simp [swapNext, Defs.access_of_get? h]

theorem swapPrev_of_get? (prev : Option (Id κ)) (h : ns.get? id = some n) :
    Nodes.swapPrev ns id prev = .ok (n.prev, ns.set id { n with prev }) := by
  simp [swapPrev, Defs.access_of_get? h]

theorem detach_of_get? (h : ns.get? id = some n) :
    Nodes.detach ns id = .ok (n.prev, n.next, ns.set id n.unlinked) := by
  simp [detach, Defs.access_of_get? h]

/-- The links after the part between `p` and `s` of a sequence has been exchanged for `m`, where
`x₀`, the node that comes or goes, is given links of its own. -/
def relink (ns : Nodes κ α) (p m s : List (Id κ)) (x₀ : Id κ) (prev next : Option (Id κ))
    (x : Id κ) : Option (Node κ α) :=
  (ns.get? x).map fun n =>
    if x = x₀ then { n with prev, next }
    else if p.getLast? = some x then { n with next := m.head?.or s.head? }
    else if s.head? = some x then { n with prev := m.getLast?.or p.getLast? }
    else n

/-- What an edit leaves behind: the links around `x₀` have changed, and nothing else has. -/
structure Relinked (ns ns' : Nodes κ α) (p m s : List (Id κ)) (x₀ : Id κ) : Prop where
  spliced : Spliced ns ns' p m s
  frame : ∀ x, x ∉ p → x ∉ s → x ≠ x₀ → ns'.get? x = ns.get? x
  val : ∀ x, (ns'.get? x).map Node.val = (ns.get? x).map Node.val

theorem Relinked.of_relink {x₀ : Id κ} {prev next : Option (Id κ)} (hn : (p ++ s).Nodup)
    (hp : x₀ ∉ p) (hs : x₀ ∉ s) (h : ∀ x, ns'.get? x = relink ns p m s x₀ prev next x)
    (hm : Linked ns' p.getLast? m s.head?) : Relinked ns ns' p m s x₀ := by
  have hd : ∀ x ∈ p, x ∉ s := fun x hxp hxs => (List.nodup_append.1 hn).2.2 x hxp x hxs rfl
  refine ⟨⟨fun x hx => ?_, fun x hx => ?_, hm⟩, fun x hxp hxs hx => ?_, fun x => ?_⟩
  · have hne : x ≠ x₀ := fun e => hp (e ▸ hx)
    have hhead : s.head? ≠ some x := fun e => hd x hx (List.mem_of_head? e)
    rw [h, relink]
    simp only [if_neg hne, if_neg hhead]
  · have hne : x ≠ x₀ := fun e => hs (e ▸ hx)
    have hlast : p.getLast? ≠ some x := fun e => hd x (List.mem_of_getLast? e) hx
    rw [h, relink]
    simp only [if_neg hne, if_neg hlast]
  · have hhead : s.head? ≠ some x := fun e => hxs (List.mem_of_head? e)
    have hlast : p.getLast? ≠ some x := fun e => hxp (List.mem_of_getLast? e)
    rw [h, relink]
    simp [if_neg hx, if_neg hhead, if_neg hlast]
  · rw [h, relink, Option.map_map]
    refine congrArg (fun f => (ns.get? x).map f) (funext fun n => ?_)
    simp only [Function.comp]
    split_ifs <;> rfl

/-- A node that has come in between `p` and `s` is linked to both. -/
theorem linked_singleton {x₀ : Id κ}
    (h : ∀ x, ns'.get? x = relink ns p [x₀] s x₀ p.getLast? s.head? x) (hx : ns.get? x₀ = some n) :
    Linked ns' p.getLast? [x₀] s.head? := by
  refine ⟨⟨n.val, ?_⟩, trivial⟩
  rw [h, relink, hx]
  simp

end Nodes

namespace Chain

open Nodes

variable {ns : Nodes κ α} {p s : List (Id κ)} {new at' : Id κ} {v : α}

theorem insertFirst_eq (h : Linked ns none s none) (hn : s.Nodup) (hs : new ∉ s)
    (hnew : ns.get? new = some (.loose v)) :
    ∃ ns', (ofList s).insertFirst new ns = .ok (ofList (new :: s), ns') ∧
      Relinked ns ns' [] [new] s new := by
  cases s with
  | nil =>
    refine ⟨ns.set new ⟨none, none, v⟩, ?_, ?_⟩
    · simp [insertFirst, ofList, empty, first?, attach_of_get? _ _ _ hnew rfl, Node.loose]
    · have hget : ∀ x, (ns.set new ⟨none, none, v⟩).get? x =
          relink ns [] [new] [] new none none x := by
        intro x
        rw [Defs.get?_set_of_get? hnew, relink]
        by_cases hx : x = new
        · subst hx; simp [hnew, Node.loose]
        · simp [hx]
      exact .of_relink List.nodup_nil (by simp) (by simp) hget (linked_singleton hget hnew)
  | cons f s =>
    obtain ⟨⟨w, hw⟩, -⟩ := h
    have hne : f ≠ new := fun e => hs (e ▸ List.mem_cons_self ..)
    have hf : (ns.set new ⟨none, some f, v⟩).get? f = some ⟨none, s.head?, w⟩ := by
      rw [Defs.get?_set_of_get? hnew, if_neg hne, hw, Option.or_none]
    refine ⟨(ns.set new ⟨none, some f, v⟩).set f ⟨some new, s.head?, w⟩, ?_, ?_⟩
    · simp [insertFirst, ofList, first?, attach_of_get? _ _ _ hnew rfl, Node.loose,
        swapPrev_of_get? _ hf, List.getLast?_cons]
    · have hget : ∀ x, ((ns.set new ⟨none, some f, v⟩).set f ⟨some new, s.head?, w⟩).get? x =
          relink ns [] [new] (f :: s) new none (some f) x := by
        intro x
        rw [Defs.get?_set_of_get? hf, Defs.get?_set_of_get? hnew, relink]
        by_cases hx : x = new
        · subst hx; simp [hnew, Node.loose, Ne.symm hne]
        · by_cases hxf : x = f
          · subst hxf; simp [hne, hw]
          · simp [hx, hxf, Ne.symm hxf]
      exact .of_relink hn (by simp) hs hget (linked_singleton hget hnew)

theorem insertLast_eq (h : Linked ns none p none) (hn : p.Nodup) (hp : new ∉ p)
    (hnew : ns.get? new = some (.loose v)) :
    ∃ ns', (ofList p).insertLast new ns = .ok (ofList (p ++ [new]), ns') ∧
      Relinked ns ns' p [new] [] new := by
  rcases List.eq_nil_or_concat p with rfl | ⟨p, l, rfl⟩
  · refine ⟨ns.set new ⟨none, none, v⟩, ?_, ?_⟩
    · simp [insertLast, ofList, empty, last?, attach_of_get? _ _ _ hnew rfl, Node.loose]
    · have hget : ∀ x, (ns.set new ⟨none, none, v⟩).get? x =
          relink ns [] [new] [] new none none x := by
        intro x
        rw [Defs.get?_set_of_get? hnew, relink]
        by_cases hx : x = new
        · subst hx; simp [hnew, Node.loose]
        · simp [hx]
      exact .of_relink List.nodup_nil (by simp) (by simp) hget (linked_singleton hget hnew)
  · rw [List.concat_eq_append] at *
    obtain ⟨w, hw⟩ := h.node
    have hne : l ≠ new := fun e => hp (by simp [e])
    have hl : (ns.set new ⟨some l, none, v⟩).get? l = some ⟨p.getLast?, none, w⟩ := by
      rw [Defs.get?_set_of_get? hnew, if_neg hne, hw]
      rfl
    have hends : (ofList (p ++ [l])).ends = some ⟨(p ++ [l]).head?.getD l, l⟩ := by
      cases p <;> simp [ofList]
    refine ⟨(ns.set new ⟨some l, none, v⟩).set l ⟨p.getLast?, some new, w⟩, ?_, ?_⟩
    · have hc : (⟨some ⟨(p ++ [l]).head?.getD l, new⟩⟩ : Chain κ) = ofList (p ++ [l] ++ [new]) := by
        refine eq_ofList ?_ (by simp [last?])
        cases p <;> simp [first?]
      rw [← hc]
      simp [insertLast, hends, last?, attach_of_get? _ _ _ hnew rfl, Node.loose,
        swapNext_of_get? _ hl]
    · have hget : ∀ x, ((ns.set new ⟨some l, none, v⟩).set l ⟨p.getLast?, some new, w⟩).get? x =
          relink ns (p ++ [l]) [new] [] new (some l) none x := by
        intro x
        rw [Defs.get?_set_of_get? hl, Defs.get?_set_of_get? hnew, relink]
        by_cases hx : x = new
        · subst hx; simp [hnew, Node.loose, Ne.symm hne]
        · by_cases hxl : x = l
          · subst hxl; simp [hne, hw]
          · simp [hx, hxl, Ne.symm hxl]
      refine .of_relink (by simpa using hn) hp (by simp) hget ?_
      exact linked_singleton (by simpa using hget) hnew

/-- The links after an insertion before a node do not depend on the chain it is made through. -/
theorem insertBefore_eq (h : Linked ns none (p ++ at' :: s) none) (hn : (p ++ at' :: s).Nodup)
    (hnot : new ∉ p ++ at' :: s) (hnew : ns.get? new = some (.loose v)) :
    ∃ ns', Relinked ns ns' p [new] (at' :: s) new ∧
      ∀ c : Chain κ, c.insertBefore new at' ns =
        (if p = [] then c.extendFront new at' else .ok c) >>= fun c' => .ok (c', ns') := by
  obtain ⟨w, hw⟩ := h.node
  have hne : new ≠ at' := fun e => hnot (by simp [e])
  have hnew₁ : (ns.set at' ⟨some new, s.head?, w⟩).get? new = some (.loose v) := by
    rw [Defs.get?_set_of_get? hw, if_neg hne, hnew]
  rcases List.eq_nil_or_concat p with rfl | ⟨p, q, rfl⟩
  · have hget : ∀ x, ((ns.set at' ⟨some new, s.head?, w⟩).set new ⟨none, some at', v⟩).get? x =
        relink ns [] [new] (at' :: s) new none (some at') x := by
      intro x
      rw [Defs.get?_set_of_get? hnew₁, Defs.get?_set_of_get? hw, relink]
      by_cases hx : x = new
      · subst hx; simp [hnew, Node.loose]
      · by_cases hxa : x = at'
        · subst hxa; simp [Ne.symm hne, hw]
        · simp [hx, hxa, Ne.symm hxa]
    refine ⟨_, .of_relink hn (by simp) hnot hget (linked_singleton hget hnew), fun c => ?_⟩
    simp [insertBefore, swapPrev_of_get? _ hw, attach_of_get? _ _ _ hnew₁ rfl, Node.loose]
  · rw [List.concat_eq_append] at *
    rw [List.append_assoc] at h hn
    obtain ⟨u, hu⟩ := h.node
    have hqn : q ≠ new := fun e => hnot (by simp [e])
    have hqa : q ≠ at' := by
      have := (List.nodup_append.1 hn).2.1
      simp only [List.cons_append, List.nil_append, List.nodup_cons, List.mem_cons, not_or] at this
      exact this.1.1
    have hq : ((ns.set at' ⟨some new, s.head?, w⟩).set new ⟨some q, some at', v⟩).get? q =
        some ⟨p.getLast?, some at', u⟩ := by
      rw [Defs.get?_set_of_get? hnew₁, if_neg hqn, Defs.get?_set_of_get? hw, if_neg hqa, hu]
      rfl
    have hget : ∀ x, (((ns.set at' ⟨some new, s.head?, w⟩).set new ⟨some q, some at', v⟩).set q
        ⟨p.getLast?, some new, u⟩).get? x =
          relink ns (p ++ [q]) [new] (at' :: s) new (some q) (some at') x := by
      intro x
      rw [Defs.get?_set_of_get? hq, Defs.get?_set_of_get? hnew₁, Defs.get?_set_of_get? hw, relink]
      by_cases hx : x = new
      · subst hx; simp [hnew, Node.loose, Ne.symm hqn]
      · by_cases hxq : x = q
        · subst hxq; simp [hqn, hu]
        · by_cases hxa : x = at'
          · subst hxa; simp [Ne.symm hne, hqa, Ne.symm hqa, hw]
          · simp [hx, hxa, Ne.symm hxa, hxq, Ne.symm hxq]
    refine ⟨_, .of_relink (by simpa using hn) (by simp_all) (by simp_all) hget ?_, fun c => ?_⟩
    · exact linked_singleton (by simpa using hget) hnew
    · simp [insertBefore, swapPrev_of_get? _ hw, attach_of_get? _ _ _ hnew₁ rfl, Node.loose,
        swapNext_of_get? _ hq]

/-- The links after an insertion after a node do not depend on the chain it is made through. -/
theorem insertAfter_eq (h : Linked ns none (p ++ at' :: s) none) (hn : (p ++ at' :: s).Nodup)
    (hnot : new ∉ p ++ at' :: s) (hnew : ns.get? new = some (.loose v)) :
    ∃ ns', Relinked ns ns' (p ++ [at']) [new] s new ∧
      ∀ c : Chain κ, c.insertAfter new at' ns =
        (if s = [] then c.extendBack new at' else .ok c) >>= fun c' => .ok (c', ns') := by
  obtain ⟨w, hw⟩ := h.node
  have hne : new ≠ at' := fun e => hnot (by simp [e])
  have hnew₁ : (ns.set at' ⟨p.getLast?, some new, w⟩).get? new = some (.loose v) := by
    rw [Defs.get?_set_of_get? hw, if_neg hne, hnew]
  cases s with
  | nil =>
    have hget : ∀ x, ((ns.set at' ⟨p.getLast?, some new, w⟩).set new ⟨some at', none, v⟩).get? x =
        relink ns (p ++ [at']) [new] [] new (some at') none x := by
      intro x
      rw [Defs.get?_set_of_get? hnew₁, Defs.get?_set_of_get? hw, relink]
      by_cases hx : x = new
      · subst hx; simp [hnew, Node.loose]
      · by_cases hxa : x = at'
        · subst hxa; simp [Ne.symm hne, hw]
        · simp [hx, hxa, Ne.symm hxa]
    refine ⟨_, .of_relink (by simpa using hn) hnot (by simp) hget ?_, fun c => ?_⟩
    · exact linked_singleton (by simpa using hget) hnew
    · simp [insertAfter, swapNext_of_get? _ hw, attach_of_get? _ _ _ hnew₁ rfl, Node.loose]
  | cons f s =>
    have h' : Linked ns none ((p ++ [at']) ++ f :: s) none := by simpa using h
    obtain ⟨u, hu⟩ := h'.node
    have hfn : f ≠ new := fun e => hnot (by simp [e])
    have hfa : f ≠ at' := by
      have := (List.nodup_append.1 hn).2.1
      simp only [List.nodup_cons, List.mem_cons, not_or] at this
      exact Ne.symm this.1.1
    have hf : ((ns.set at' ⟨p.getLast?, some new, w⟩).set new ⟨some at', some f, v⟩).get? f =
        some ⟨some at', s.head?, u⟩ := by
      rw [Defs.get?_set_of_get? hnew₁, if_neg hfn, Defs.get?_set_of_get? hw, if_neg hfa, hu]
      simp
    have hget : ∀ x, (((ns.set at' ⟨p.getLast?, some new, w⟩).set new ⟨some at', some f, v⟩).set f
        ⟨some new, s.head?, u⟩).get? x =
          relink ns (p ++ [at']) [new] (f :: s) new (some at') (some f) x := by
      intro x
      rw [Defs.get?_set_of_get? hf, Defs.get?_set_of_get? hnew₁, Defs.get?_set_of_get? hw, relink]
      by_cases hx : x = new
      · subst hx; simp [hnew, Node.loose, Ne.symm hfn]
      · by_cases hxf : x = f
        · subst hxf; simp [hfn, Ne.symm hfa, hu]
        · by_cases hxa : x = at'
          · subst hxa; simp [Ne.symm hne, Ne.symm hfa, hw]
          · simp [hx, hxa, Ne.symm hxa, hxf, Ne.symm hxf]
    refine ⟨_, .of_relink (by simpa using hn) (by simp_all) (by simp_all) hget ?_, fun c => ?_⟩
    · exact linked_singleton (by simpa using hget) hnew
    · simp [insertAfter, swapNext_of_get? _ hw, attach_of_get? _ _ _ hnew₁ rfl, Node.loose,
        swapPrev_of_get? _ hf]

theorem bridgeNext_eq {x₀ : Id κ} {prev : Option (Id κ)} (next : Option (Id κ))
    (hq : ∀ q, prev = some q → ∃ n, ns.get? q = some n ∧ n.next = some x₀) :
    ∃ ns' : Nodes κ α, (∀ x, ns'.get? x =
        (ns.get? x).map fun n => if prev = some x then { n with next } else n) ∧
      ∀ c : Chain κ, c.bridgeNext x₀ prev next ns =
        if prev = none ∧ c.first? ≠ some x₀ then .error .notFirst else .ok ns' := by
  cases prev with
  | none =>
    refine ⟨ns, by simp, fun c => ?_⟩
    by_cases hc : c.first? = some x₀ <;> simp [bridgeNext, hc]
  | some q =>
    obtain ⟨n, hn, hx⟩ := hq q rfl
    refine ⟨ns.set q { n with next }, fun x => ?_, fun c => ?_⟩
    · rw [Defs.get?_set_of_get? hn]
      by_cases hxq : x = q
      · subst hxq; simp [hn]
      · simp [hxq, Ne.symm hxq]
    · simp [bridgeNext, swapNext_of_get? _ hn, hx]

theorem bridgePrev_eq {x₀ : Id κ} {next : Option (Id κ)} (prev : Option (Id κ))
    (hf : ∀ f, next = some f → ∃ n, ns.get? f = some n ∧ n.prev = some x₀) :
    ∃ ns' : Nodes κ α, (∀ x, ns'.get? x =
        (ns.get? x).map fun n => if next = some x then { n with prev } else n) ∧
      ∀ c : Chain κ, c.bridgePrev x₀ prev next ns =
        if next = none ∧ c.last? ≠ some x₀ then .error .notLast else .ok ns' := by
  cases next with
  | none =>
    refine ⟨ns, by simp, fun c => ?_⟩
    by_cases hc : c.last? = some x₀ <;> simp [bridgePrev, hc]
  | some f =>
    obtain ⟨n, hn, hx⟩ := hf f rfl
    refine ⟨ns.set f { n with prev }, fun x => ?_, fun c => ?_⟩
    · rw [Defs.get?_set_of_get? hn]
      by_cases hxf : x = f
      · subst hxf; simp [hn]
      · simp [hxf, Ne.symm hxf]
    · simp [bridgePrev, swapPrev_of_get? _ hn, hx]

/-- What a removal asks of the chain it is made through, which is its ends only. -/
def shrink (c : Chain κ) (x₀ : Id κ) (prev next : Option (Id κ)) : Except Fault (Chain κ) :=
  if prev = none ∧ c.first? ≠ some x₀ then .error .notFirst
  else if next = none ∧ c.last? ≠ some x₀ then .error .notLast
  else c.closeGap prev next

theorem shrink_ofList (p : List (Id κ)) (x₀ : Id κ) (s : List (Id κ)) :
    (ofList (p ++ x₀ :: s)).shrink x₀ p.getLast? s.head? = .ok (ofList (p ++ s)) := by
  cases p with
  | nil => cases s <;> simp [shrink, closeGap, ofList, first?, last?, List.getLast?_cons]
  | cons a p =>
    cases s <;> simp [shrink, closeGap, ofList, last?, List.getLast?_cons]

/-- The links after a removal do not depend on the chain it is made through. -/
theorem remove_eq {x₀ : Id κ} (h : Linked ns none (p ++ x₀ :: s) none)
    (hn : (p ++ x₀ :: s).Nodup) :
    ∃ ns', Relinked ns ns' p [] s x₀ ∧ (∃ v, ns'.get? x₀ = some (.loose v)) ∧
      ∀ c : Chain κ, c.remove x₀ ns =
        c.shrink x₀ p.getLast? s.head? >>= fun c' => .ok (c', ns') := by
  obtain ⟨w, hw⟩ := h.node
  obtain ⟨hnp, hns, hd⟩ := List.nodup_append.1 hn
  have hxp : x₀ ∉ p := fun hx => hd x₀ hx x₀ (List.mem_cons_self ..) rfl
  have hxs : x₀ ∉ s := (List.nodup_cons.1 hns).1
  have hps : ∀ x, p.getLast? = some x → s.head? ≠ some x := fun x hp hs =>
    hd x (List.mem_of_getLast? hp) x (List.mem_cons_of_mem _ (List.mem_of_head? hs)) rfl
  have hlast : ∀ q, p.getLast? = some q → ∃ n, (ns.set x₀ (.loose w)).get? q = some n ∧
      n.next = some x₀ := by
    intro q hq
    obtain ⟨p', rfl⟩ := List.getLast?_eq_some_iff.1 hq
    rw [List.append_assoc] at h
    obtain ⟨u, hu⟩ := h.node
    have hne : q ≠ x₀ := fun e => hxp (by simp [e])
    exact ⟨_, by rw [Defs.get?_set_of_get? hw, if_neg hne, hu], rfl⟩
  obtain ⟨ns₂, hget₂, hbn⟩ := bridgeNext_eq s.head? hlast
  have hhead : ∀ f, s.head? = some f → ∃ n, ns₂.get? f = some n ∧ n.prev = some x₀ := by
    intro f hf
    obtain ⟨s', rfl⟩ := List.head?_eq_some_iff.1 hf
    have h' : Linked ns none ((p ++ [x₀]) ++ f :: s') none := by simpa using h
    obtain ⟨u, hu⟩ := h'.node
    have hne : f ≠ x₀ := fun e => hxs (by simp [e])
    have hpf : p.getLast? ≠ some f := fun e => hps f e rfl
    refine ⟨⟨some x₀, s'.head?, u⟩, ?_, rfl⟩
    rw [hget₂, Defs.get?_set_of_get? hw, if_neg hne, hu]
    simp [hpf]
  obtain ⟨ns₃, hget₃, hbp⟩ := bridgePrev_eq p.getLast? hhead
  have hget : ∀ x, ns₃.get? x = relink ns p [] s x₀ none none x := by
    intro x
    rw [hget₃, hget₂, Defs.get?_set_of_get? hw, relink]
    by_cases hx : x = x₀
    · subst hx
      have hp' : p.getLast? ≠ some x := fun e => hxp (List.mem_of_getLast? e)
      have hs' : s.head? ≠ some x := fun e => hxs (List.mem_of_head? e)
      simp [hw, hp', hs', Node.loose]
    · by_cases hp' : p.getLast? = some x
      · simp [hx, hp', hps x hp', Function.comp_def]
      · simp [hx, hp']
  refine ⟨ns₃, .of_relink ?_ hxp hxs hget trivial, ⟨w, ?_⟩, fun c => ?_⟩
  · exact List.nodup_append.2 ⟨hnp, (List.nodup_cons.1 hns).2, fun a ha b hb =>
      hd a ha b (List.mem_cons_of_mem _ hb)⟩
  · rw [hget, relink, hw]
    simp [Node.loose]
  · have hdet := detach_of_get? hw
    simp only [Node.unlinked] at hdet
    simp only [remove, hdet, ok_bind, shrink]
    rw [show (⟨none, none, w⟩ : Node κ α) = .loose w from rfl, hbn]
    by_cases h₁ : p.getLast? = none ∧ c.first? ≠ some x₀
    · rw [if_pos h₁, if_pos h₁]
      rfl
    · rw [if_neg h₁, if_neg h₁, ok_bind, hbp]
      by_cases h₂ : s.head? = none ∧ c.last? ≠ some x₀
      · rw [if_pos h₂, if_pos h₂]
        rfl
      · rw [if_neg h₂, if_neg h₂, ok_bind]

theorem extendFront_eq_ok {c c' : Chain κ} :
    c.extendFront new at' = .ok c' ↔ ∃ l, c.ends = some ⟨at', l⟩ ∧ ⟨some ⟨new, l⟩⟩ = c' := by
  obtain ⟨_ | ⟨f, l⟩⟩ := c
  · simp [extendFront]
  · by_cases hf : f = at' <;> simp [extendFront, hf]

theorem extendBack_eq_ok {c c' : Chain κ} :
    c.extendBack new at' = .ok c' ↔ ∃ f, c.ends = some ⟨f, at'⟩ ∧ ⟨some ⟨f, new⟩⟩ = c' := by
  obtain ⟨_ | ⟨f, l⟩⟩ := c
  · simp [extendBack]
  · by_cases hl : l = at' <;> simp [extendBack, hl]

/-- An insertion before a node without predecessor has to be made through a chain that starts with
it. -/
theorem first?_of_insertBefore {c : Chain κ} {r : Chain κ × Nodes κ α}
    (h : c.insertBefore new at' ns = .ok r) :
    ∃ n, ns.get? at' = some n ∧ (n.prev = none → c.first? = some at') := by
  simp only [insertBefore, swapPrev, bind_eq_ok, Except.ok.injEq] at h
  obtain ⟨-, ⟨n, hn, rfl⟩, ns₂, -, h⟩ := h
  refine ⟨n, Defs.access_eq_ok.1 hn, fun hp => ?_⟩
  simp only [hp, bind_eq_ok] at h
  obtain ⟨c', hc', -⟩ := h
  obtain ⟨l, hl, -⟩ := extendFront_eq_ok.1 hc'
  rw [first?, hl]
  rfl

/-- An insertion after a node without successor has to be made through a chain that ends with it. -/
theorem last?_of_insertAfter {c : Chain κ} {r : Chain κ × Nodes κ α}
    (h : c.insertAfter new at' ns = .ok r) :
    ∃ n, ns.get? at' = some n ∧ (n.next = none → c.last? = some at') := by
  simp only [insertAfter, swapNext, bind_eq_ok, Except.ok.injEq] at h
  obtain ⟨-, ⟨n, hn, rfl⟩, ns₂, -, h⟩ := h
  refine ⟨n, Defs.access_eq_ok.1 hn, fun hp => ?_⟩
  simp only [hp, bind_eq_ok] at h
  obtain ⟨c', hc', -⟩ := h
  obtain ⟨f, hf, -⟩ := extendBack_eq_ok.1 hc'
  rw [last?, hf]
  rfl

/-- A removal of a node without predecessor has to be made through a chain that starts with it. -/
theorem first?_of_remove {c : Chain κ} {x₀ : Id κ} {r : Chain κ × Nodes κ α}
    (h : c.remove x₀ ns = .ok r) :
    ∃ n, ns.get? x₀ = some n ∧ (n.prev = none → c.first? = some x₀) := by
  simp only [remove, detach, bind_eq_ok, Except.ok.injEq] at h
  obtain ⟨-, ⟨n, hn, rfl⟩, ns₂, hb, -⟩ := h
  refine ⟨n, Defs.access_eq_ok.1 hn, fun hp => ?_⟩
  by_contra hc
  simp [hp, bridgeNext, hc] at hb

end Chain

section Layouts

variable {ι : Type} [DecidableEq ι] {cs : ι → Chain κ} {ns ns' : Nodes κ α}
  {ls : ι → List (Id κ)} {p s : List (Id κ)} {new at' x₀ : Id κ} {v : α} {i j : ι}

open Nodes

/-- What an edit of chains leaves as it was: the links of all nodes in no chain, but for the node it
is about, and all that is in the nodes. -/
structure Untouched (ls : ι → List (Id κ)) (x₀ : Id κ) (ns ns' : Nodes κ α) : Prop where
  frame : ∀ x, (∀ i, x ∉ ls i) → x ≠ x₀ → ns'.get? x = ns.get? x
  val : ∀ x, (ns'.get? x).map Node.val = (ns.get? x).map Node.val

theorem Layout.insert_between (h : Layout cs ns ls) (hj : ls j = p ++ s)
    (hnot : ∀ i, new ∉ ls i) (hr : Relinked ns ns' p [new] s new) :
    Layout (Function.update cs j (Chain.ofList (p ++ new :: s))) ns'
        (Function.update ls j (p ++ new :: s)) ∧
      Untouched ls new ns ns' := by
  have hout : ∀ x, x ∉ p ++ s → x ≠ new → ns'.get? x = ns.get? x := by
    intro x hx hne
    rw [List.mem_append, not_or] at hx
    exact hr.frame x hx.1 hx.2 hne
  refine ⟨?_, fun x hx hne => hout x (hj ▸ hx j) hne, hr.val⟩
  refine h.splice (c := []) (m := [new]) hj hr.spliced (fun x hx hne => ?_) (by simp) ?_
  · exact hout x hx (by simpa using hne)
  · intro x hx i
    rw [List.mem_singleton.1 hx]
    exact hnot i

/-- **Inserting in front of a chain.** -/
theorem Layout.insertFirst (h : Layout cs ns ls) (i : ι) (hnew : ns.get? new = some (.loose v))
    (hnot : ∀ i, new ∉ ls i) :
    ∃ ns', (cs i).insertFirst new ns = .ok (Chain.ofList (new :: ls i), ns') ∧
      Layout (Function.update cs i (Chain.ofList (new :: ls i))) ns'
        (Function.update ls i (new :: ls i)) ∧ Untouched ls new ns ns' := by
  rw [h.chain i]
  obtain ⟨ns', hok, hr⟩ := Chain.insertFirst_eq (h.linked i) (h.nodup i) (hnot i) hnew
  exact ⟨ns', hok, h.insert_between rfl hnot hr⟩

/-- **Inserting at the end of a chain.** -/
theorem Layout.insertLast (h : Layout cs ns ls) (i : ι) (hnew : ns.get? new = some (.loose v))
    (hnot : ∀ i, new ∉ ls i) :
    ∃ ns', (cs i).insertLast new ns = .ok (Chain.ofList (ls i ++ [new]), ns') ∧
      Layout (Function.update cs i (Chain.ofList (ls i ++ [new]))) ns'
        (Function.update ls i (ls i ++ [new])) ∧ Untouched ls new ns ns' := by
  rw [h.chain i]
  obtain ⟨ns', hok, hr⟩ := Chain.insertLast_eq (h.linked i) (h.nodup i) (hnot i) hnew
  exact ⟨ns', hok, h.insert_between (List.append_nil _).symm hnot hr⟩

/-- **Inserting before a node.**  The chain at hand need not be the one that holds the node, unless
the node is the first of its chain. -/
theorem Layout.insertBefore (h : Layout cs ns ls) (hj : ls j = p ++ at' :: s)
    (hnew : ns.get? new = some (.loose v)) (hnot : ∀ i, new ∉ ls i) :
    ∃ ns', Layout (Function.update cs j (Chain.ofList (p ++ new :: at' :: s))) ns'
        (Function.update ls j (p ++ new :: at' :: s)) ∧ Untouched ls new ns ns' ∧
      ∀ i, (i = j ∨ p ≠ []) → ∃ c', (cs i).insertBefore new at' ns = .ok (c', ns') ∧
        Function.update cs i c' =
          Function.update cs j (Chain.ofList (p ++ new :: at' :: s)) := by
  have hlj := h.linked j
  have hnj := h.nodup j
  rw [hj] at hlj hnj
  obtain ⟨ns', hr, heq⟩ := Chain.insertBefore_eq hlj hnj (hj ▸ hnot j) hnew
  obtain ⟨hl, hu⟩ := h.insert_between hj hnot hr
  refine ⟨ns', hl, hu, fun i hi => ?_⟩
  rw [heq]
  by_cases hp : p = []
  · obtain rfl : i = j := hi.resolve_right (not_not_intro hp)
    have hends : (cs i).ends = some ⟨at', s.getLast?.getD at'⟩ := by
      rw [h.chain i, hj, hp]
      rfl
    refine ⟨_, by rw [if_pos hp, Chain.extendFront_eq_ok.2 ⟨_, hends, rfl⟩, ok_bind], ?_⟩
    simp [hp, Chain.ofList, List.getLast?_cons]
  · have hsame : Chain.ofList (p ++ new :: at' :: s) = cs j := by
      rw [h.chain j, hj]
      refine Chain.ofList_congr ?_ (by simp)
      obtain ⟨a, p', rfl⟩ := List.exists_cons_of_ne_nil hp
      rfl
    refine ⟨cs i, by rw [if_neg hp, ok_bind], ?_⟩
    rw [hsame, Function.update_eq_self, Function.update_eq_self]

/-- **Inserting after a node.**  The chain at hand need not be the one that holds the node, unless
the node is the last of its chain. -/
theorem Layout.insertAfter (h : Layout cs ns ls) (hj : ls j = p ++ at' :: s)
    (hnew : ns.get? new = some (.loose v)) (hnot : ∀ i, new ∉ ls i) :
    ∃ ns', Layout (Function.update cs j (Chain.ofList (p ++ at' :: new :: s))) ns'
        (Function.update ls j (p ++ at' :: new :: s)) ∧ Untouched ls new ns ns' ∧
      ∀ i, (i = j ∨ s ≠ []) → ∃ c', (cs i).insertAfter new at' ns = .ok (c', ns') ∧
        Function.update cs i c' =
          Function.update cs j (Chain.ofList (p ++ at' :: new :: s)) := by
  have hlj := h.linked j
  have hnj := h.nodup j
  rw [hj] at hlj hnj
  have hpart : ∀ t : List (Id κ), p ++ at' :: t = (p ++ [at']) ++ t := by simp
  obtain ⟨ns', hr, heq⟩ := Chain.insertAfter_eq hlj hnj (hj ▸ hnot j) hnew
  obtain ⟨hl, hu⟩ := h.insert_between (hj.trans (hpart s)) hnot hr
  rw [← hpart] at hl
  refine ⟨ns', hl, hu, fun i hi => ?_⟩
  rw [heq]
  by_cases hs : s = []
  · obtain rfl : i = j := hi.resolve_right (not_not_intro hs)
    have hends : (cs i).ends = some ⟨(p ++ [at']).head?.getD at', at'⟩ := by
      rw [h.chain i, hj, hs]
      cases p <;> simp [Chain.ofList]
    refine ⟨_, by rw [if_pos hs, Chain.extendBack_eq_ok.2 ⟨_, hends, rfl⟩, ok_bind], ?_⟩
    refine congrArg (Function.update cs i) (Chain.eq_ofList ?_ (by simp [hs, Chain.last?]))
    rw [hs]
    cases p <;> rfl
  · have hsame : Chain.ofList (p ++ at' :: new :: s) = cs j := by
      rw [h.chain j, hj]
      obtain ⟨a, s', rfl⟩ := List.exists_cons_of_ne_nil hs
      exact Chain.ofList_congr (by simp) (by simp)
    refine ⟨cs i, by rw [if_neg hs, ok_bind], ?_⟩
    rw [hsame, Function.update_eq_self, Function.update_eq_self]

/-- **Removing a node.**  The chain at hand need not be the one that holds the node, unless the node
is at an end of its chain; it must have some node, however. -/
theorem Layout.remove (h : Layout cs ns ls) (hj : ls j = p ++ x₀ :: s) :
    ∃ ns', Layout (Function.update cs j (Chain.ofList (p ++ s))) ns'
        (Function.update ls j (p ++ s)) ∧ Untouched ls x₀ ns ns' ∧
      (∃ v, ns'.get? x₀ = some (.loose v)) ∧
      ∀ i, (i = j ∨ p ≠ [] ∧ s ≠ [] ∧ ls i ≠ []) → ∃ c', (cs i).remove x₀ ns = .ok (c', ns') ∧
        Function.update cs i c' = Function.update cs j (Chain.ofList (p ++ s)) := by
  have hlj := h.linked j
  have hnj := h.nodup j
  rw [hj] at hlj hnj
  obtain ⟨ns', hr, hx₀, heq⟩ := Chain.remove_eq hlj hnj
  have hout : ∀ x, x ∉ p ++ ([x₀] ++ s) → ns'.get? x = ns.get? x := by
    intro x hx
    simp only [List.mem_append, List.mem_singleton, not_or] at hx
    exact hr.frame x hx.1 hx.2.2 hx.2.1
  refine ⟨ns', ?_, ⟨fun x hx hne => hout x (hj ▸ hx j), hr.val⟩, hx₀, fun i hi => ?_⟩
  · exact h.splice (c := [x₀]) (m := []) hj hr.spliced (fun x hx _ => hout x hx) (by simp)
      (by simp)
  rw [heq]
  rcases hi with rfl | ⟨hp, hs, hi⟩
  · -- through the chain that holds the node
    exact ⟨_, by rw [h.chain i, hj, Chain.shrink_ofList, ok_bind], rfl⟩
  · -- through another chain, which keeps its ends
    have hsame : Chain.ofList (p ++ s) = cs j := by
      rw [h.chain j, hj]
      obtain ⟨a, p', rfl⟩ := List.exists_cons_of_ne_nil hp
      obtain ⟨b, s', rfl⟩ := List.exists_cons_of_ne_nil hs
      exact Chain.ofList_congr (by simp) (by simp [List.getLast?_cons])
    obtain ⟨a, l, hal⟩ := List.exists_cons_of_ne_nil hi
    obtain ⟨q, hq⟩ := Option.isSome_iff_exists.1 (List.getLast?_isSome.2 hp)
    obtain ⟨f, s', rfl⟩ := List.exists_cons_of_ne_nil hs
    refine ⟨cs i, ?_, by rw [hsame, Function.update_eq_self, Function.update_eq_self]⟩
    rw [Chain.shrink, hq, if_neg (by simp), if_neg (by simp), h.chain i, hal]
    simp [Chain.closeGap, Chain.ofList]

end Layouts

end ShaderIR
