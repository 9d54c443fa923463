import ShaderIR.Proofs.Chain.Edits

/-!
# Edits through any chain

An edit is called through one chain, but the links decide which chain it changes.

* `ChainEdit`: one call of an edit, and `ChainEdit.run`.
* `ChainEdit.Alters`: what a call through a chain means for the sequences of all chains.

Principal statement: `ChainEdit.run_wellLinked` (a call that returns leaves all chains well linked,
and has altered just the sequence that it had to).
-/

namespace ShaderIR

variable {κ : Kind} {α : Type}

/-- A call of an edit of a chain. -/
inductive ChainEdit (κ : Kind) where
  | insertFirst (new : Id κ)
  | insertLast (new : Id κ)
  | insertBefore (new next : Id κ)
  | insertAfter (new prev : Id κ)
  | remove (node : Id κ)

namespace ChainEdit

/-- Carries out a call through a chain. -/
def run : ChainEdit κ → Chain κ → Nodes κ α → Except Fault (Chain κ × Nodes κ α)
  | insertFirst new, c, ns => c.insertFirst new ns
  | insertLast new, c, ns => c.insertLast new ns
  | insertBefore new next, c, ns => c.insertBefore new next ns
  | insertAfter new prev, c, ns => c.insertAfter new prev ns
  | remove node, c, ns => c.remove node ns

/-- The node that a call inserts. -/
def inserted? : ChainEdit κ → Option (Id κ)
  | insertFirst new => some new
  | insertLast new => some new
  | insertBefore new _ => some new
  | insertAfter new _ => some new
  | remove _ => none

variable {ι : Type} [DecidableEq ι]

/-- What a call through chain `i` makes of the sequences of all chains.  An insertion next to a
node, or a removal, alters the sequence that holds that node. -/
def Alters (e : ChainEdit κ) (i : ι) (ls ls' : ι → List (Id κ)) : Prop :=
  match e with
  | insertFirst new => ls' = Function.update ls i (new :: ls i)
  | insertLast new => ls' = Function.update ls i (ls i ++ [new])
  | insertBefore new next => ∃ j p s, ls j = p ++ next :: s ∧
      ls' = Function.update ls j (p ++ new :: next :: s)
  | insertAfter new prev => ∃ j p s, ls j = p ++ prev :: s ∧
      ls' = Function.update ls j (p ++ prev :: new :: s)
  | remove node => ∃ j p s, ls j = p ++ node :: s ∧ ls' = Function.update ls j (p ++ s)

end ChainEdit

section Calls

variable {ι : Type} {cs : ι → Chain κ} {ns ns' : Nodes κ α} {ls : ι → List (Id κ)}
  {new at' x₀ : Id κ} {n : Node κ α} {i j : ι}

/-- A node that is in no chain has no links. -/
theorem WellLinked.get?_loose (h : WellLinked cs ns ls) (hd : (ns.get? x₀).isSome)
    (hnot : ∀ i, x₀ ∉ ls i) : ∃ v, ns.get? x₀ = some (.loose v) := by
  obtain ⟨⟨prev, next, v⟩, hn⟩ := Option.isSome_iff_exists.1 hd
  obtain ⟨rfl, rfl⟩ := h.loose x₀ _ hn hnot
  exact ⟨v, hn⟩

/-- A node that has a predecessor, or is the first node of some chain, is in a chain.  If it has no
predecessor there, then that chain is the one it is the first node of. -/
theorem WellLinked.split_of_first? (h : WellLinked cs ns ls) (hn : ns.get? x₀ = some n)
    (hf : n.prev = none → (cs i).first? = some x₀) :
    ∃ j p s, ls j = p ++ x₀ :: s ∧ (i = j ∨ p ≠ []) := by
  have hmem : n.prev = none → x₀ ∈ ls i := by
    intro hp
    have hfi := hf hp
    rw [h.chain i, Chain.first?_ofList] at hfi
    exact List.mem_of_head? hfi
  obtain ⟨j, hj⟩ : ∃ j, x₀ ∈ ls j := by
    by_contra hnot
    rw [not_exists] at hnot
    exact hnot i (hmem (h.loose x₀ n hn hnot).1)
  obtain ⟨p, s, hps⟩ := List.append_of_mem hj
  refine ⟨j, p, s, hps, ?_⟩
  by_cases hp : p = []
  · left
    have hlj := h.linked j
    rw [hps] at hlj
    obtain ⟨v, hv⟩ := hlj.node
    rw [hn, hp, Option.some.injEq] at hv
    exact h.unique (hmem (by rw [hv]; rfl)) hj
  · exact Or.inr hp

/-- A node that has a successor, or is the last node of some chain, is in a chain.  If it has no
successor there, then that chain is the one it is the last node of. -/
theorem WellLinked.split_of_last? (h : WellLinked cs ns ls) (hn : ns.get? x₀ = some n)
    (hl : n.next = none → (cs i).last? = some x₀) :
    ∃ j p s, ls j = p ++ x₀ :: s ∧ (i = j ∨ s ≠ []) := by
  have hmem : n.next = none → x₀ ∈ ls i := by
    intro hp
    have hli := hl hp
    rw [h.chain i, Chain.last?_ofList] at hli
    exact List.mem_of_getLast? hli
  obtain ⟨j, hj⟩ : ∃ j, x₀ ∈ ls j := by
    by_contra hnot
    rw [not_exists] at hnot
    exact hnot i (hmem (h.loose x₀ n hn hnot).2)
  obtain ⟨p, s, hps⟩ := List.append_of_mem hj
  refine ⟨j, p, s, hps, ?_⟩
  by_cases hs : s = []
  · left
    have hlj := h.linked j
    rw [hps] at hlj
    obtain ⟨v, hv⟩ := hlj.node
    rw [hn, hs, Option.some.injEq] at hv
    exact h.unique (hmem (by rw [hv]; rfl)) hj
  · exact Or.inr hs

/-- A removal that returned was made through the chain of the node, or of an inner node through a
chain with some node. -/
theorem WellLinked.split_of_remove (h : WellLinked cs ns ls) {r : Chain κ × Nodes κ α}
    (hr : (cs i).remove x₀ ns = .ok r) :
    ∃ j p s, ls j = p ++ x₀ :: s ∧ (i = j ∨ p ≠ [] ∧ s ≠ [] ∧ ls i ≠ []) := by
  obtain ⟨n, hn, hf⟩ := Chain.first?_of_remove hr
  obtain ⟨j, p, s, hps, hp⟩ := h.split_of_first? hn hf
  refine ⟨j, p, s, hps, ?_⟩
  by_cases hij : i = j
  · exact Or.inl hij
  right
  have hlj := h.linked j
  have hnj := h.nodup j
  rw [hps] at hlj hnj
  obtain ⟨ns', -, -, heq⟩ := Chain.remove_eq hlj hnj
  rw [heq, bind_eq_ok] at hr
  obtain ⟨c', hc', -⟩ := hr
  have hpne : p ≠ [] := hp.resolve_left hij
  obtain ⟨q, hq⟩ := Option.isSome_iff_exists.1 (List.getLast?_isSome.2 hpne)
  rw [Chain.shrink, hq, if_neg (by simp)] at hc'
  split_ifs at hc' with hl
  have hsne : s ≠ [] := by
    rintro rfl
    have hli : (cs i).last? = some x₀ := by
      by_contra hne
      exact hl ⟨rfl, hne⟩
    rw [h.chain i, Chain.last?_ofList] at hli
    exact hij (h.unique (List.mem_of_getLast? hli) (hps ▸ by simp))
  refine ⟨hpne, hsne, fun hi => ?_⟩
  obtain ⟨f, s', rfl⟩ := List.exists_cons_of_ne_nil hsne
  rw [h.chain i, hi] at hc'
  simp [Chain.closeGap, Chain.ofList, Chain.empty] at hc'

/-- Nodes in no chain stay without links, if the edit was about a node that is now in a chain, or
that has no links. -/
theorem WellLinked.of_untouched (h : WellLinked cs ns ls) {cs' : ι → Chain κ}
    {ls' : ι → List (Id κ)} (hl : Layout cs' ns' ls') (hu : Untouched ls x₀ ns ns')
    (hsub : ∀ x, (∀ i, x ∉ ls' i) → x ≠ x₀ → ∀ i, x ∉ ls i)
    (hx₀ : (∃ i, x₀ ∈ ls' i) ∨ ∃ v, ns'.get? x₀ = some (.loose v)) : WellLinked cs' ns' ls' := by
  refine ⟨hl, fun x n hn hnot => ?_⟩
  by_cases hx : x = x₀
  · subst hx
    rcases hx₀ with ⟨i, hi⟩ | ⟨v, hv⟩
    · exact absurd hi (hnot i)
    · rw [hv, Option.some.injEq] at hn
      rw [← hn]
      exact ⟨rfl, rfl⟩
  · have hold := hsub x hnot hx
    rw [hu.frame x hold hx] at hn
    exact h.loose x n hn hold

variable [DecidableEq ι]

theorem not_mem_of_not_mem_update {l : List (Id κ)} {x : Id κ} (hsub : x ∈ ls j → x ∈ l)
    (hnot : ∀ i, x ∉ Function.update ls j l i) : ∀ i, x ∉ ls i := by
  intro i hx
  by_cases hi : i = j
  · subst hi
    exact hnot i (by rw [Function.update_self]; exact hsub hx)
  · exact hnot i (by rwa [Function.update_of_ne hi])

/-- A layout after one sequence has got one more node. -/
theorem WellLinked.of_insert (h : WellLinked cs ns ls) {c : Chain κ} {l : List (Id κ)}
    (hl : Layout (Function.update cs j c) ns' (Function.update ls j l))
    (hu : Untouched ls new ns ns') (hsub : ∀ x ∈ ls j, x ∈ l) (hnew : new ∈ l) :
    WellLinked (Function.update cs j c) ns' (Function.update ls j l) :=
  h.of_untouched hl hu (fun x hx _ => not_mem_of_not_mem_update (hsub x) hx)
    (Or.inl ⟨j, by rwa [Function.update_self]⟩)

/-- **A call that returns leaves all chains well linked.**  It has altered the sequence that holds
the node it is about, or else the sequence of the chain it was made through, and no other; no node
has another content than before. -/
theorem ChainEdit.run_wellLinked (h : WellLinked cs ns ls) (i : ι) (e : ChainEdit κ)
    (hnew : ∀ new, e.inserted? = some new → (ns.get? new).isSome ∧ ∀ j, new ∉ ls j)
    {c' : Chain κ} (hrun : e.run (cs i) ns = .ok (c', ns')) :
    ∃ ls', WellLinked (Function.update cs i c') ns' ls' ∧ e.Alters i ls ls' ∧
      (∀ x, e = .remove x → ∃ v, ns'.get? x = some (.loose v)) ∧
      ∀ x, (ns'.get? x).map Node.val = (ns.get? x).map Node.val := by
  cases e with
  | insertFirst new =>
    obtain ⟨hd, hnot⟩ := hnew new rfl
    obtain ⟨v, hv⟩ := h.get?_loose hd hnot
    obtain ⟨ns₁, hok, hl, hu⟩ := h.toLayout.insertFirst i hv hnot
    obtain ⟨rfl, rfl⟩ := Prod.mk.inj (Except.ok.inj (hok.symm.trans hrun))
    exact ⟨_, h.of_insert hl hu (by simp +contextual) (by simp), rfl, by simp, hu.val⟩
  | insertLast new =>
    obtain ⟨hd, hnot⟩ := hnew new rfl
    obtain ⟨v, hv⟩ := h.get?_loose hd hnot
    obtain ⟨ns₁, hok, hl, hu⟩ := h.toLayout.insertLast i hv hnot
    obtain ⟨rfl, rfl⟩ := Prod.mk.inj (Except.ok.inj (hok.symm.trans hrun))
    exact ⟨_, h.of_insert hl hu (by simp +contextual) (by simp), rfl, by simp, hu.val⟩
  | insertBefore new next =>
    obtain ⟨hd, hnot⟩ := hnew new rfl
    obtain ⟨v, hv⟩ := h.get?_loose hd hnot
    obtain ⟨n, hn, hf⟩ := Chain.first?_of_insertBefore hrun
    obtain ⟨j, p, s, hj, hi⟩ := h.split_of_first? hn hf
    obtain ⟨ns₁, hl, hu, hcall⟩ := h.toLayout.insertBefore hj hv hnot
    obtain ⟨c₁, hok, hc⟩ := hcall i hi
    obtain ⟨rfl, rfl⟩ := Prod.mk.inj (Except.ok.inj (hok.symm.trans hrun))
    refine ⟨_, hc ▸ h.of_insert hl hu ?_ (by simp), ⟨j, p, s, hj, rfl⟩, by simp, hu.val⟩
    rw [hj]
    simp +contextual [or_imp]
  | insertAfter new prev =>
    obtain ⟨hd, hnot⟩ := hnew new rfl
    obtain ⟨v, hv⟩ := h.get?_loose hd hnot
    obtain ⟨n, hn, hf⟩ := Chain.last?_of_insertAfter hrun
    obtain ⟨j, p, s, hj, hi⟩ := h.split_of_last? hn hf
    obtain ⟨ns₁, hl, hu, hcall⟩ := h.toLayout.insertAfter hj hv hnot
    obtain ⟨c₁, hok, hc⟩ := hcall i hi
    obtain ⟨rfl, rfl⟩ := Prod.mk.inj (Except.ok.inj (hok.symm.trans hrun))
    refine ⟨_, hc ▸ h.of_insert hl hu ?_ (by simp), ⟨j, p, s, hj, rfl⟩, by simp, hu.val⟩
    rw [hj]
    simp +contextual [or_imp]
  | remove node =>
    obtain ⟨j, p, s, hj, hi⟩ := h.split_of_remove hrun
    obtain ⟨ns₁, hl, hu, hloose, hcall⟩ := h.toLayout.remove hj
    obtain ⟨c₁, hok, hc⟩ := hcall i hi
    obtain ⟨rfl, rfl⟩ := Prod.mk.inj (Except.ok.inj (hok.symm.trans hrun))
    refine ⟨Function.update ls j (p ++ s), ?_, ⟨j, p, s, hj, rfl⟩, ?_, hu.val⟩
    · rw [hc]
      refine h.of_untouched hl hu (fun x hx hne => ?_) (Or.inr hloose)
      refine not_mem_of_not_mem_update (fun hm => ?_) hx
      rw [hj] at hm
      simpa [hne] using hm
    · intro x hx
      cases hx
      exact hloose

end Calls

/-! ## An inner node, reached through another chain -/

/-- Two nodes in one chain, one alone in another, and a loose one. -/
def sampleNodes : Nodes .inst Nat :=
  ⟨[(⟨0⟩, ⟨none, some ⟨1⟩, 10⟩), (⟨1⟩, ⟨some ⟨0⟩, none, 11⟩), (⟨2⟩, .loose 12), (⟨3⟩, .loose 13)]⟩

def sampleLists : Bool → List InstId
  | false => [⟨0⟩, ⟨1⟩]
  | true => [⟨2⟩]

theorem sample_wellLinked :
    WellLinked (fun i => Chain.ofList (sampleLists i)) sampleNodes sampleLists := by
  refine ⟨⟨fun _ => rfl, fun i => ?_, fun i => ?_, fun i j hij x hi hj => ?_⟩,
    fun x n hn hnot => ?_⟩
  · cases i
    · exact ⟨⟨10, rfl⟩, ⟨11, rfl⟩, trivial⟩
    · exact ⟨⟨12, rfl⟩, trivial⟩
  · cases i <;> decide
  · cases i <;> cases j <;> simp_all [sampleLists]
  · have h₀ : x ≠ ⟨0⟩ := fun e => hnot false (by simp [sampleLists, e])
    have h₁ : x ≠ ⟨1⟩ := fun e => hnot false (by simp [sampleLists, e])
    simp only [sampleNodes, Defs.get?_cons, if_neg h₀, if_neg h₁] at hn
    split_ifs at hn
    · cases hn
      exact ⟨rfl, rfl⟩
    · cases hn
      exact ⟨rfl, rfl⟩
    · simp [Defs.get?] at hn

/-- The loose node goes before an inner node of one chain, by a call through the other chain. -/
theorem ChainEdit.run_wellLinked_through_other :
    WellLinked (fun i => Chain.ofList (sampleLists i)) sampleNodes sampleLists ∧
    (sampleNodes.get? ⟨3⟩).isSome ∧ (∀ j, ⟨3⟩ ∉ sampleLists j) ∧
    ∃ c' ns', (ChainEdit.insertBefore ⟨3⟩ ⟨1⟩).run (Chain.ofList (sampleLists true)) sampleNodes =
        .ok (c', ns') ∧
      ∃ ls', WellLinked (Function.update (fun i => Chain.ofList (sampleLists i)) true c') ns' ls' ∧
        (ChainEdit.insertBefore ⟨3⟩ ⟨1⟩).Alters true sampleLists ls' ∧
        (∀ x, ChainEdit.insertBefore ⟨3⟩ ⟨1⟩ = .remove x → ∃ v, ns'.get? x = some (.loose v)) ∧
        ∀ x, (ns'.get? x).map Node.val = (sampleNodes.get? x).map Node.val := by
  have hfree : ∀ j, ⟨3⟩ ∉ sampleLists j := fun j => by cases j <;> decide
  refine ⟨sample_wellLinked, rfl, hfree, _, _, rfl, ?_⟩
  refine ChainEdit.run_wellLinked sample_wellLinked true (.insertBefore ⟨3⟩ ⟨1⟩) ?_ rfl
  intro new hnew
  cases hnew
  exact ⟨rfl, hfree⟩

end ShaderIR
