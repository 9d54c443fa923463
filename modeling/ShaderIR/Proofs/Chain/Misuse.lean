import ShaderIR.Proofs.Chain.Calls

/-!
# Misuse of chains

An edit looks only at the links that it is about to replace, and at the ends of the chain that it is
called through.  Here it is said of the sequences when that makes it fail.

* `Crowded`, `Foremost`, `Hindmost`: a node has a neighbour, has none before it, has none after it.
* `ChainEdit.Misuses`: a call through a chain is not one that the sequences allow.
* `Chain.insertFirst_isOk_iff` and the like: when an insertion succeeds, said of the links.

Principal statement: `ChainEdit.run_fails_iff` (a call fails if and only if it is a misuse).
-/

namespace ShaderIR

variable {κ : Kind} {α : Type}

section Sequences

variable {ι : Type}

/-- A node is in a sequence of two or more. -/
def Crowded (ls : ι → List (Id κ)) (x : Id κ) : Prop := ∃ j, x ∈ ls j ∧ 2 ≤ (ls j).length

/-- A node has no predecessor in any sequence. -/
def Foremost (ls : ι → List (Id κ)) (x : Id κ) : Prop := ∀ j p s, ls j = p ++ x :: s → p = []

/-- A node has no successor in any sequence. -/
def Hindmost (ls : ι → List (Id κ)) (x : Id κ) : Prop := ∀ j p s, ls j = p ++ x :: s → s = []

namespace ChainEdit

/-- The nodes that a call is about. -/
def nodes : ChainEdit κ → List (Id κ)
  | insertFirst new => [new]
  | insertLast new => [new]
  | insertBefore new next => [new, next]
  | insertAfter new prev => [new, prev]
  | remove node => [node]

/-- A call through chain `i` is a misuse: the node to insert has a neighbour already, or is to be
its own; the place to insert it at is an end, of no chain or of another than `i`; the node to remove
is in no chain, or is an end of another than `i`, or `i` has no ends that could stay as they are. -/
def Misuses (e : ChainEdit κ) (i : ι) (ls : ι → List (Id κ)) : Prop :=
  match e with
  | insertFirst new => Crowded ls new
  | insertLast new => Crowded ls new
  | insertBefore new next =>
    new = next ∨ Crowded ls new ∨ Foremost ls next ∧ (ls i).head? ≠ some next
  | insertAfter new prev =>
    new = prev ∨ Crowded ls new ∨ Hindmost ls prev ∧ (ls i).getLast? ≠ some prev
  | remove node =>
    (∀ j, node ∉ ls j) ∨
    (∃ j, j ≠ i ∧ ((ls j).head? = some node ∨ (ls j).getLast? = some node)) ∨
    ∃ j p s, j ≠ i ∧ ls j = p ++ node :: s ∧ p ≠ [] ∧ s ≠ [] ∧ ls i = []

end ChainEdit

end Sequences

/-! ## Insertions, by the links -/

/-- A property of a definition survives the change of another, or of itself if it then holds of the
new definition. -/
theorem Nodes.exists_get?_set {P : Node κ α → Prop} {ns : Nodes κ α} {id x : Id κ}
    {m n : Node κ α} (hid : ns.get? id = some m) (hx : ∃ u, ns.get? x = some u ∧ P u)
    (hn : x = id → P n) : ∃ u, (ns.set id n).get? x = some u ∧ P u := by
  rw [Defs.get?_set_of_get? hid]
  by_cases h : x = id
  · rw [if_pos h]
    exact ⟨n, rfl, hn h⟩
  · rwa [if_neg h]

namespace Chain

open Nodes

variable {ns : Nodes κ α} {c : Chain κ} {new at' : Id κ} {m n : Node κ α}

theorem extendFront_isOk_iff (new : Id κ) :
    (∃ c', c.extendFront new at' = .ok c') ↔ c.first? = some at' := by
  obtain ⟨_ | ⟨f, l⟩⟩ := c
  · simp [extendFront, first?]
  · by_cases hf : f = at' <;> simp [extendFront, first?, hf]

theorem extendBack_isOk_iff (new : Id κ) :
    (∃ c', c.extendBack new at' = .ok c') ↔ c.last? = some at' := by
  obtain ⟨_ | ⟨f, l⟩⟩ := c
  · simp [extendBack, last?]
  · by_cases hl : l = at' <;> simp [extendBack, last?, hl]

/-- A node with a neighbour is not attached anywhere. -/
theorem attach_of_hasNeighbors (how : Insertion) (prev next : Option (Id κ))
    (hm : ns.get? new = some m) (hl : m.hasNeighbors = true) :
    Nodes.attach ns how new prev next = .error (.alreadyLinked how) := by
  simp [attach, Defs.access_of_get? hm, hl]

/-- An insertion in front of a chain asks for a node without neighbours, and for nothing else. -/
theorem insertFirst_isOk_iff (hm : ns.get? new = some m)
    (hfirst : ∀ f, c.first? = some f → ∃ u, ns.get? f = some u ∧ u.prev = none) :
    (∃ r, c.insertFirst new ns = .ok r) ↔ m.hasNeighbors = false := by
  cases hl : m.hasNeighbors with
  | true => simp [insertFirst, attach_of_hasNeighbors _ _ _ hm hl, bind, Except.bind]
  | false =>
    refine iff_of_true ?_ rfl
    rw [insertFirst, attach_of_get? _ _ _ hm hl, ok_bind]
    cases hc : c.ends with
    | none => exact ⟨_, rfl⟩
    | some e =>
      -- the first node may be the new one, which has just been told that it has no predecessor
      obtain ⟨u, hu, hp⟩ := exists_get?_set (n := { m with prev := none, next := c.first? }) hm
        (hfirst e.first (by rw [first?, hc]; rfl)) fun _ => rfl
      simp only [swapPrev_of_get? _ hu, ok_bind, hp]
      exact ⟨_, rfl⟩

/-- An insertion at the end of a chain asks for a node without neighbours, and for nothing else. -/
theorem insertLast_isOk_iff (hm : ns.get? new = some m)
    (hlast : ∀ l, c.last? = some l → ∃ u, ns.get? l = some u ∧ u.next = none) :
    (∃ r, c.insertLast new ns = .ok r) ↔ m.hasNeighbors = false := by
  cases hl : m.hasNeighbors with
  | true => simp [insertLast, attach_of_hasNeighbors _ _ _ hm hl, bind, Except.bind]
  | false =>
    refine iff_of_true ?_ rfl
    rw [insertLast, attach_of_get? _ _ _ hm hl, ok_bind]
    cases hc : c.ends with
    | none => exact ⟨_, rfl⟩
    | some e =>
      obtain ⟨u, hu, hp⟩ := exists_get?_set (n := { m with prev := c.last?, next := none }) hm
        (hlast e.last (by rw [last?, hc]; rfl)) fun _ => rfl
      simp only [swapNext_of_get? _ hu, ok_bind, hp]
      exact ⟨_, rfl⟩

/-- An insertion before a node asks for another node without neighbours; and for the chain that
starts with the node, if nothing comes before it. -/
theorem insertBefore_isOk_iff (hn : ns.get? at' = some n) (hm : ns.get? new = some m)
    (hprev : ∀ q, n.prev = some q → ∃ u, ns.get? q = some u ∧ u.next = some at') :
    (∃ r, c.insertBefore new at' ns = .ok r) ↔
      new ≠ at' ∧ m.hasNeighbors = false ∧ (n.prev = none → c.first? = some at') := by
  simp only [insertBefore, swapPrev_of_get? _ hn, ok_bind]
  by_cases he : new = at'
  · -- the node has just been told that it comes before itself
    subst he
    have hset : (ns.set new { n with prev := some new }).get? new =
        some { n with prev := some new } := by
      rw [Defs.get?_set_of_get? hn, if_pos rfl]
    simp [attach_of_hasNeighbors _ _ _ hset (by simp [Node.hasNeighbors]), bind, Except.bind]
  have hset : (ns.set at' { n with prev := some new }).get? new = some m := by
    rw [Defs.get?_set_of_get? hn, if_neg he, hm]
  cases hl : m.hasNeighbors with
  | true => simp [attach_of_hasNeighbors _ _ _ hset hl, bind, Except.bind]
  | false =>
    simp only [attach_of_get? _ _ _ hset hl, ok_bind]
    cases hp : n.prev with
    | none =>
      simp only [bind_eq_ok, ← extendFront_isOk_iff new]
      constructor
      · rintro ⟨r, c', hc', -⟩
        exact ⟨he, trivial, fun _ => ⟨c', hc'⟩⟩
      · rintro ⟨-, -, hc⟩
        obtain ⟨c', hc'⟩ := hc trivial
        exact ⟨_, c', hc', rfl⟩
    | some q =>
      -- the changes so far leave the predecessor leading on to the node
      have hq : ∃ u, (ns.set at' { n with prev := some new }).get? q = some u ∧
          u.next = some at' := exists_get?_set hn (hprev q hp) (by
        rintro rfl
        obtain ⟨u, hu, hx⟩ := hprev q hp
        rw [hn, Option.some.injEq] at hu
        rw [← hx, ← hu])
      obtain ⟨u, hu, hx⟩ := exists_get?_set (n := { m with prev := some q, next := some at' }) hset
        hq fun _ => rfl
      simp only [swapNext_of_get? _ hu, ok_bind, hx]
      simp [he]

/-- An insertion after a node asks for another node without neighbours; and for the chain that ends
with the node, if nothing comes after it. -/
theorem insertAfter_isOk_iff (hn : ns.get? at' = some n) (hm : ns.get? new = some m)
    (hnext : ∀ q, n.next = some q → ∃ u, ns.get? q = some u ∧ u.prev = some at') :
    (∃ r, c.insertAfter new at' ns = .ok r) ↔
      new ≠ at' ∧ m.hasNeighbors = false ∧ (n.next = none → c.last? = some at') := by
  simp only [insertAfter, swapNext_of_get? _ hn, ok_bind]
  by_cases he : new = at'
  · subst he
    have hset : (ns.set new { n with next := some new }).get? new =
        some { n with next := some new } := by
      rw [Defs.get?_set_of_get? hn, if_pos rfl]
    simp [attach_of_hasNeighbors _ _ _ hset (by simp [Node.hasNeighbors]), bind, Except.bind]
  have hset : (ns.set at' { n with next := some new }).get? new = some m := by
    rw [Defs.get?_set_of_get? hn, if_neg he, hm]
  cases hl : m.hasNeighbors with
  | true => simp [attach_of_hasNeighbors _ _ _ hset hl, bind, Except.bind]
  | false =>
    simp only [attach_of_get? _ _ _ hset hl, ok_bind]
    cases hp : n.next with
    | none =>
      simp only [bind_eq_ok, ← extendBack_isOk_iff new]
      constructor
      · rintro ⟨r, c', hc', -⟩
        exact ⟨he, trivial, fun _ => ⟨c', hc'⟩⟩
      · rintro ⟨-, -, hc⟩
        obtain ⟨c', hc'⟩ := hc trivial
        exact ⟨_, c', hc', rfl⟩
    | some q =>
      have hq : ∃ u, (ns.set at' { n with next := some new }).get? q = some u ∧
          u.prev = some at' := exists_get?_set hn (hnext q hp) (by
        rintro rfl
        obtain ⟨u, hu, hx⟩ := hnext q hp
        rw [hn, Option.some.injEq] at hu
        rw [← hx, ← hu])
      obtain ⟨u, hu, hx⟩ := exists_get?_set (n := { m with prev := some at', next := some q }) hset
        hq fun _ => rfl
      simp only [swapPrev_of_get? _ hu, ok_bind, hx]
      simp [he]

end Chain

/-! ## Calls, by the sequences -/

section Calls

variable {ι : Type} {cs : ι → Chain κ} {ns : Nodes κ α} {ls : ι → List (Id κ)} {x q : Id κ}
  {n : Node κ α} {i j : ι}

/-- The links of a node are those of its place in a sequence. -/
theorem Layout.links (h : Layout cs ns ls) {p s : List (Id κ)} (hj : ls j = p ++ x :: s) :
    ∃ u, ns.get? x = some u ∧ u.prev = p.getLast? ∧ u.next = s.head? := by
  have hlj := h.linked j
  rw [hj] at hlj
  obtain ⟨v, hv⟩ := hlj.node
  exact ⟨_, hv, rfl, rfl⟩

theorem Layout.links_eq (h : Layout cs ns ls) (hn : ns.get? x = some n) {p s : List (Id κ)}
    (hj : ls j = p ++ x :: s) : n.prev = p.getLast? ∧ n.next = s.head? := by
  obtain ⟨u, hu, hlinks⟩ := h.links hj
  rw [hn, Option.some.injEq] at hu
  rwa [hu]

/-- A node that is defined has a place in a sequence, or no links. -/
theorem WellLinked.placed_or_loose (h : WellLinked cs ns ls) (hn : ns.get? x = some n) :
    (∃ j p s, ls j = p ++ x :: s) ∨ n.prev = none ∧ n.next = none := by
  by_cases hx : ∃ j, x ∈ ls j
  · obtain ⟨j, hj⟩ := hx
    exact .inl ⟨j, List.append_of_mem hj⟩
  · exact .inr (h.loose x n hn (not_exists.1 hx))

theorem WellLinked.hasNeighbors_iff (h : WellLinked cs ns ls) (hn : ns.get? x = some n) :
    n.hasNeighbors = true ↔ Crowded ls x := by
  rw [Node.hasNeighbors, Bool.or_eq_true]
  constructor
  · intro hl
    rcases h.placed_or_loose hn with ⟨j, p, s, hj⟩ | ⟨hp, hs⟩
    · obtain ⟨hp, hs⟩ := h.links_eq hn hj
      refine ⟨j, by simp [hj], ?_⟩
      rw [hp, hs, List.getLast?_isSome, List.isSome_head?] at hl
      rw [hj, List.length_append, List.length_cons]
      have hlen := hl.imp List.length_pos_iff.2 List.length_pos_iff.2
      omega
    · simp [hp, hs] at hl
  · rintro ⟨j, hx, hlen⟩
    obtain ⟨p, s, hj⟩ := List.append_of_mem hx
    obtain ⟨hp, hs⟩ := h.links_eq hn hj
    rw [hp, hs, List.getLast?_isSome, List.isSome_head?, ← List.length_pos_iff,
      ← List.length_pos_iff]
    rw [hj, List.length_append, List.length_cons] at hlen
    omega

theorem WellLinked.prev_eq_none_iff (h : WellLinked cs ns ls) (hn : ns.get? x = some n) :
    n.prev = none ↔ Foremost ls x := by
  constructor
  · intro hp j p s hj
    rwa [(h.links_eq hn hj).1, List.getLast?_eq_none_iff] at hp
  · intro hx
    rcases h.placed_or_loose hn with ⟨j, p, s, hj⟩ | ⟨hp, -⟩
    · rw [(h.links_eq hn hj).1, hx j p s hj, List.getLast?_nil]
    · exact hp

theorem WellLinked.next_eq_none_iff (h : WellLinked cs ns ls) (hn : ns.get? x = some n) :
    n.next = none ↔ Hindmost ls x := by
  constructor
  · intro hs j p s hj
    rwa [(h.links_eq hn hj).2, List.head?_eq_none_iff] at hs
  · intro hx
    rcases h.placed_or_loose hn with ⟨j, p, s, hj⟩ | ⟨-, hs⟩
    · rw [(h.links_eq hn hj).2, hx j p s hj, List.head?_nil]
    · exact hs

/-- The predecessor of a node leads on to it. -/
theorem WellLinked.prev_leads (h : WellLinked cs ns ls) (hn : ns.get? x = some n)
    (hq : n.prev = some q) : ∃ u, ns.get? q = some u ∧ u.next = some x := by
  rcases h.placed_or_loose hn with ⟨j, p, s, hj⟩ | ⟨hp, -⟩
  · rw [(h.links_eq hn hj).1] at hq
    obtain ⟨p', rfl⟩ := List.getLast?_eq_some_iff.1 hq
    rw [List.append_assoc] at hj
    obtain ⟨u, hu, -, hnext⟩ := h.links hj
    exact ⟨u, hu, hnext⟩
  · rw [hp] at hq
    cases hq

/-- The successor of a node leads back to it. -/
theorem WellLinked.next_leads (h : WellLinked cs ns ls) (hn : ns.get? x = some n)
    (hq : n.next = some q) : ∃ u, ns.get? q = some u ∧ u.prev = some x := by
  rcases h.placed_or_loose hn with ⟨j, p, s, hj⟩ | ⟨-, hs⟩
  · rw [(h.links_eq hn hj).2] at hq
    obtain ⟨s', rfl⟩ := List.head?_eq_some_iff.1 hq
    rw [List.append_cons] at hj
    obtain ⟨u, hu, hprev, -⟩ := h.links hj
    exact ⟨u, hu, by simpa using hprev⟩
  · rw [hs] at hq
    cases hq

theorem Layout.first_links (h : Layout cs ns ls) (hq : (cs i).first? = some q) :
    ∃ u, ns.get? q = some u ∧ u.prev = none := by
  rw [h.chain i, Chain.first?_ofList] at hq
  obtain ⟨s, hs⟩ := List.head?_eq_some_iff.1 hq
  obtain ⟨u, hu, hprev, -⟩ := h.links (p := []) hs
  exact ⟨u, hu, hprev⟩

theorem Layout.last_links (h : Layout cs ns ls) (hq : (cs i).last? = some q) :
    ∃ u, ns.get? q = some u ∧ u.next = none := by
  rw [h.chain i, Chain.last?_ofList] at hq
  obtain ⟨p, hp⟩ := List.getLast?_eq_some_iff.1 hq
  obtain ⟨u, hu, -, hnext⟩ := h.links hp
  exact ⟨u, hu, hnext⟩

/-- A removal succeeds through the chain of the node, and of an inner node through any chain with
some node. -/
theorem WellLinked.remove_isOk_iff [DecidableEq ι] (h : WellLinked cs ns ls) :
    (∃ r, (cs i).remove x ns = .ok r) ↔
      ∃ j p s, ls j = p ++ x :: s ∧ (i = j ∨ p ≠ [] ∧ s ≠ [] ∧ ls i ≠ []) := by
  constructor
  · rintro ⟨r, hr⟩
    exact h.split_of_remove hr
  · rintro ⟨j, p, s, hj, hi⟩
    obtain ⟨ns', -, -, -, hcall⟩ := h.toLayout.remove hj
    obtain ⟨c', hc', -⟩ := hcall i hi
    exact ⟨_, hc'⟩

/-- A removal is no misuse if the chain can be one that the node is taken out of. -/
theorem ChainEdit.not_misuses_remove_iff (h : Layout cs ns ls) :
    ¬ (remove x).Misuses i ls ↔
      ∃ j p s, ls j = p ++ x :: s ∧ (i = j ∨ p ≠ [] ∧ s ≠ [] ∧ ls i ≠ []) := by
  rw [Misuses, not_or, not_or]
  constructor
  · rintro ⟨hmem, hend, hinner⟩
    obtain ⟨j, hj⟩ : ∃ j, x ∈ ls j := by simpa using hmem
    obtain ⟨p, s, hps⟩ := List.append_of_mem hj
    refine ⟨j, p, s, hps, ?_⟩
    by_cases hij : i = j
    · exact .inl hij
    have hp : p ≠ [] := by
      rintro rfl
      exact hend ⟨j, Ne.symm hij, .inl (by rw [hps]; rfl)⟩
    have hs : s ≠ [] := by
      rintro rfl
      exact hend ⟨j, Ne.symm hij, .inr (by rw [hps]; simp)⟩
    exact .inr ⟨hp, hs, fun hi => hinner ⟨j, p, s, Ne.symm hij, hps, hp, hs, hi⟩⟩
  · rintro ⟨j, p, s, hj, hi⟩
    obtain ⟨n, hn, hp, hs⟩ := h.links hj
    -- a chain that holds the node and is not the one at hand is its own, so that the node is inner
    have hother : ∀ k, k ≠ i → x ∈ ls k → p ≠ [] ∧ s ≠ [] ∧ ls i ≠ [] := by
      intro k hk hx
      obtain rfl := h.unique hx (by rw [hj]; simp : x ∈ ls j)
      exact hi.resolve_left (Ne.symm hk)
    refine ⟨fun hmem => hmem j (by simp [hj]), ?_, ?_⟩
    · rintro ⟨k, hk, hend⟩
      obtain ⟨hpne, hsne, -⟩ := hother k hk (hend.elim List.mem_of_head? List.mem_of_getLast?)
      rcases hend with hend | hend
      · obtain ⟨t, ht⟩ := List.head?_eq_some_iff.1 hend
        have hprev := (h.links_eq hn (p := []) ht).1
        rw [hp, List.getLast?_nil, List.getLast?_eq_none_iff] at hprev
        exact hpne hprev
      · obtain ⟨t, ht⟩ := List.getLast?_eq_some_iff.1 hend
        have hnext := (h.links_eq hn ht).2
        rw [hs, List.head?_nil, List.head?_eq_none_iff] at hnext
        exact hsne hnext
    · rintro ⟨k, q, t, hk, hkx, -, -, hempty⟩
      exact (hother k hk (by rw [hkx]; simp)).2.2 hempty

/-- A call succeeds if and only if it is no misuse. -/
theorem ChainEdit.run_isOk_iff [DecidableEq ι] (h : WellLinked cs ns ls) (i : ι) (e : ChainEdit κ)
    (defined : ∀ x ∈ e.nodes, (ns.get? x).isSome) :
    (∃ r, e.run (cs i) ns = .ok r) ↔ ¬ e.Misuses i ls := by
  cases e with
  | insertFirst new =>
    obtain ⟨m, hm⟩ := Option.isSome_iff_exists.1 (defined new (by simp [nodes]))
    rw [run, Chain.insertFirst_isOk_iff hm fun _ => h.first_links, Misuses,
      ← h.hasNeighbors_iff hm, Bool.not_eq_true]
  | insertLast new =>
    obtain ⟨m, hm⟩ := Option.isSome_iff_exists.1 (defined new (by simp [nodes]))
    rw [run, Chain.insertLast_isOk_iff hm fun _ => h.last_links, Misuses,
      ← h.hasNeighbors_iff hm, Bool.not_eq_true]
  | insertBefore new next =>
    obtain ⟨m, hm⟩ := Option.isSome_iff_exists.1 (defined new (by simp [nodes]))
    obtain ⟨n, hn⟩ := Option.isSome_iff_exists.1 (defined next (by simp [nodes]))
    rw [run, Chain.insertBefore_isOk_iff hn hm fun _ => h.prev_leads hn, Misuses,
      ← h.hasNeighbors_iff hm, ← h.prev_eq_none_iff hn, h.chain i, Chain.first?_ofList]
    simp only [not_or, not_and, not_not, Bool.not_eq_true, ne_eq]
  | insertAfter new prev =>
    obtain ⟨m, hm⟩ := Option.isSome_iff_exists.1 (defined new (by simp [nodes]))
    obtain ⟨n, hn⟩ := Option.isSome_iff_exists.1 (defined prev (by simp [nodes]))
    rw [run, Chain.insertAfter_isOk_iff hn hm fun _ => h.next_leads hn, Misuses,
      ← h.hasNeighbors_iff hm, ← h.next_eq_none_iff hn, h.chain i, Chain.last?_ofList]
    simp only [not_or, not_and, not_not, Bool.not_eq_true, ne_eq]
  | remove node =>
    rw [run, h.remove_isOk_iff, not_misuses_remove_iff h.toLayout]

/-- **Misuse of chains is detected exactly.**  Let all chains be well linked, and the nodes that a
call is about be defined.  The call fails if and only if it is a misuse; so of the nodes in a chain,
just one that is alone in it can be inserted. -/
theorem ChainEdit.run_fails_iff [DecidableEq ι] (h : WellLinked cs ns ls) (i : ι) (e : ChainEdit κ)
    (defined : ∀ x ∈ e.nodes, (ns.get? x).isSome) :
    ((∃ f, e.run (cs i) ns = .error f) ↔ e.Misuses i ls) ∧
      ∀ new j r, e.inserted? = some new → e.run (cs i) ns = .ok r → new ∈ ls j → ls j = [new] := by
  have hok := e.run_isOk_iff h i defined
  constructor
  · cases hrun : e.run (cs i) ns with
    | error f =>
      rw [hrun] at hok
      simpa using hok
    | ok r =>
      rw [hrun] at hok
      simpa using hok
  · intro new j r hnew hrun hj
    have huncrowded : ¬ Crowded ls new := by
      have hnot := hok.1 ⟨r, hrun⟩
      cases e <;> simp_all [inserted?, Misuses]
    have hlen : (ls j).length < 2 := by
      by_contra hge
      exact huncrowded ⟨j, hj, by omega⟩
    have hone : (ls j).length = 1 := by
      have hpos := List.length_pos_of_mem hj
      omega
    obtain ⟨y, hy⟩ := List.length_eq_one_iff.1 hone
    rw [hy, List.mem_singleton] at hj
    rw [hy, hj]

end Calls

/-- The first node of a chain cannot be taken out through another chain.  The only node of that
other chain, however, can be inserted a second time. -/
theorem ChainEdit.run_fails_iff_through_other :
    WellLinked (fun i => Chain.ofList (sampleLists i)) sampleNodes sampleLists ∧
    (∀ x ∈ [(⟨0⟩ : InstId), ⟨2⟩, ⟨1⟩], (sampleNodes.get? x).isSome) ∧
    (remove ⟨0⟩).Misuses true sampleLists ∧
    (∃ f, (remove ⟨0⟩).run (Chain.ofList (sampleLists true)) sampleNodes = .error f) ∧
    (∃ r, (insertBefore ⟨2⟩ ⟨1⟩).run (Chain.ofList (sampleLists true)) sampleNodes = .ok r) ∧
    ¬ (insertBefore ⟨2⟩ ⟨1⟩).Misuses true sampleLists ∧ sampleLists true = [⟨2⟩] := by
  have hmisuse : (remove (⟨0⟩ : InstId)).Misuses true sampleLists :=
    .inr (.inl ⟨false, by decide, .inl rfl⟩)
  have hremove := run_fails_iff sample_wellLinked true (remove ⟨0⟩) (by decide)
  have hinsert := run_fails_iff sample_wellLinked true (insertBefore ⟨2⟩ ⟨1⟩) (by decide)
  refine ⟨sample_wellLinked, by decide, hmisuse, hremove.1.2 hmisuse, ⟨_, rfl⟩, fun hm => ?_, ?_⟩
  · obtain ⟨f, hf⟩ := hinsert.1.2 hm
    cases hf
  · exact hinsert.2 ⟨2⟩ true _ rfl rfl (by decide)

end ShaderIR
