import Mathlib.Logic.Function.Basic
import Mathlib.Data.List.Basic
import ShaderIR.Proofs.Entity
import ShaderIR.Chain.Segment

/-!
# What the links of a chain spell

A chain holds its two ends only, and all else is in the links of its nodes.  Here a chain is seen
as the sequence of identities that its links spell.

* `Nodes.Linked`: consecutive identities lead to each other, forward and backward, between two given
  neighbours.
* `Chain.ofList`: the ends of a sequence.
* `Layout`: any number of chains over one collection, the sequence that each spells, and that they
  share no node; `WellLinked` adds that a node in no chain has no links.
* `Spliced`: the part of a sequence between two others has been exchanged, and nothing else.

Principal statements: `Linked.append_iff` (a sequence is linked iff its parts are, each as a
neighbour of the other), `Linked.splice` and `Layout.splice` (exchanging a part of one sequence
leaves everything linked).
-/

namespace ShaderIR

variable {κ : Kind} {α : Type}

namespace Nodes

/-- The identities lead to each other in order.  The first leads back to `prev`, and the last leads
on to `next`. -/
def Linked (ns : Nodes κ α) : Option (Id κ) → List (Id κ) → Option (Id κ) → Prop
  | _, [], _ => True
  | prev, id :: ids, next =>
    (∃ v, ns.get? id = some ⟨prev, ids.head?.or next, v⟩) ∧ Linked ns (some id) ids next

variable {ns ns' : Nodes κ α} {prev next : Option (Id κ)} {ids xs ys : List (Id κ)}

theorem Linked.append_iff :
    Linked ns prev (xs ++ ys) next ↔
      Linked ns prev xs (ys.head?.or next) ∧ Linked ns (xs.getLast?.or prev) ys next := by
  induction xs generalizing prev with
  | nil => simp [Linked]
  | cons x xs ih =>
    have hlast : (x :: xs).getLast?.or prev = xs.getLast?.or (some x) := by
      rw [List.getLast?_cons]
      cases xs.getLast? <;> rfl
    rw [List.cons_append, Linked, Linked, ih, hlast, and_assoc, List.head?_append, Option.or_assoc]

/-- Only the nodes of a sequence matter for how it is linked. -/
theorem Linked.congr (h : Linked ns prev ids next) (he : ∀ x ∈ ids, ns'.get? x = ns.get? x) :
    Linked ns' prev ids next := by
  induction ids generalizing prev with
  | nil => trivial
  | cons x xs ih =>
    obtain ⟨⟨v, hv⟩, hxs⟩ := h
    refine ⟨⟨v, ?_⟩, ih hxs fun y hy => he y (List.mem_cons_of_mem _ hy)⟩
    rw [he x (List.mem_cons_self ..), hv]

/-- What is in the nodes does not matter for how they are linked. -/
theorem Linked.relabel (h : Linked ns prev ids next)
    (he : ∀ x ∈ ids, ∀ n, ns.get? x = some n → ∃ v, ns'.get? x = some { n with val := v }) :
    Linked ns' prev ids next := by
  induction ids generalizing prev with
  | nil => trivial
  | cons x xs ih =>
    obtain ⟨⟨v, hv⟩, hxs⟩ := h
    obtain ⟨hx, he⟩ := List.forall_mem_cons.1 he
    exact ⟨hx _ hv, ih hxs he⟩

theorem Linked.isSome (h : Linked ns prev ids next) : ∀ x ∈ ids, (ns.get? x).isSome := by
  induction ids generalizing prev with
  | nil => simp
  | cons x xs ih =>
    obtain ⟨⟨v, hv⟩, hxs⟩ := h
    intro y hy
    rcases List.mem_cons.1 hy with rfl | hy
    · rw [hv]; rfl
    · exact ih hxs y hy

/-- The links of one node of a sequence. -/
theorem Linked.node {x : Id κ} (h : Linked ns none (xs ++ x :: ys) none) :
    ∃ v, ns.get? x = some ⟨xs.getLast?, ys.head?, v⟩ := by
  obtain ⟨-, ⟨v, hv⟩, -⟩ := Linked.append_iff.1 h
  exact ⟨v, by simpa using hv⟩

/-- A sequence whose last node has been made to lead on to another one. -/
theorem Linked.turnLast {next' : Option (Id κ)} (hn : ids.Nodup) (h : Linked ns prev ids next)
    (he : ∀ x ∈ ids, ns'.get? x =
      (ns.get? x).map fun n => if ids.getLast? = some x then { n with next := next' } else n) :
    Linked ns' prev ids next' := by
  induction ids generalizing prev with
  | nil => trivial
  | cons x xs ih =>
    obtain ⟨⟨v, hv⟩, hxs⟩ := h
    have hx := he x (List.mem_cons_self ..)
    rw [hv, Option.map_some] at hx
    have hxn : x ∉ xs := (List.nodup_cons.1 hn).1
    cases xs with
    | nil => exact ⟨⟨v, by simpa using hx⟩, trivial⟩
    | cons y ys =>
      -- the last node of the sequence is the last node of its rest, and is not `x`
      have hlast : (x :: y :: ys).getLast? = (y :: ys).getLast? := List.getLast?_cons_cons
      have hne : (y :: ys).getLast? ≠ some x := fun hl => hxn (List.mem_of_getLast? hl)
      refine ⟨⟨v, ?_⟩, ih (List.nodup_cons.1 hn).2 hxs fun z hz => ?_⟩
      · rw [hx, hlast, if_neg hne]
        rfl
      · rw [he z (List.mem_cons_of_mem _ hz), hlast]

/-- A sequence whose first node has been made to lead back to another one. -/
theorem Linked.turnFirst {prev' : Option (Id κ)} (hn : ids.Nodup) (h : Linked ns prev ids next)
    (he : ∀ x ∈ ids, ns'.get? x =
      (ns.get? x).map fun n => if ids.head? = some x then { n with prev := prev' } else n) :
    Linked ns' prev' ids next := by
  cases ids with
  | nil => trivial
  | cons x xs =>
    obtain ⟨⟨v, hv⟩, hxs⟩ := h
    have hxn : x ∉ xs := (List.nodup_cons.1 hn).1
    refine ⟨⟨v, ?_⟩, hxs.congr fun y hy => ?_⟩
    · rw [he x (List.mem_cons_self ..), hv]
      simp
    · have hne : x ≠ y := fun e => hxn (e ▸ hy)
      rw [he y (List.mem_cons_of_mem _ hy)]
      simp [hne]

/-- The links after the part between `p` and `s` of a sequence has been exchanged for `m`: only the
nodes next to that part lead elsewhere than before. -/
structure Spliced (ns ns' : Nodes κ α) (p m s : List (Id κ)) : Prop where
  left : ∀ x ∈ p, ns'.get? x = (ns.get? x).map fun n =>
    if p.getLast? = some x then { n with next := m.head?.or s.head? } else n
  right : ∀ x ∈ s, ns'.get? x = (ns.get? x).map fun n =>
    if s.head? = some x then { n with prev := m.getLast?.or p.getLast? } else n
  mid : Linked ns' p.getLast? m s.head?

/-- Exchanging a part of a sequence leaves it linked. -/
theorem Linked.splice {p c m s : List (Id κ)} (hn : (p ++ (c ++ s)).Nodup)
    (h : Linked ns none (p ++ (c ++ s)) none) (hs : Spliced ns ns' p m s) :
    Linked ns' none (p ++ (m ++ s)) none := by
  obtain ⟨hp, hms⟩ := Linked.append_iff.1 h
  obtain ⟨-, hs₀⟩ := Linked.append_iff.1 hms
  have hnp : p.Nodup := (List.nodup_append.1 hn).1
  have hns : s.Nodup := (List.nodup_append.1 (List.nodup_append.1 hn).2.1).2.1
  refine Linked.append_iff.2 ⟨?_, Linked.append_iff.2 ⟨?_, ?_⟩⟩
  · rw [List.head?_append, Option.or_none]
    exact hp.turnLast hnp hs.left
  · simpa using hs.mid
  · rw [Option.or_none]
    exact hs₀.turnFirst hns hs.right

end Nodes

namespace Chain

/-- The chain with the ends of a sequence. -/
def ofList : List (Id κ) → Chain κ
  | [] => empty
  | id :: ids => ⟨some ⟨id, ids.getLast?.getD id⟩⟩

@[simp] theorem first?_ofList (ids : List (Id κ)) : (ofList ids).first? = ids.head? := by
  cases ids <;> rfl

@[simp] theorem last?_ofList (ids : List (Id κ)) : (ofList ids).last? = ids.getLast? := by
  cases ids with
  | nil => rfl
  | cons id ids => rw [List.getLast?_cons]; rfl

/-- A chain is known by its first and its last node. -/
theorem eq_ofList {c : Chain κ} {ids : List (Id κ)} (hf : c.first? = ids.head?)
    (hl : c.last? = ids.getLast?) : c = ofList ids := by
  obtain ⟨_ | ⟨f, l⟩⟩ := c
  · cases ids with
    | nil => rfl
    | cons id ids => simp [first?] at hf
  · cases ids with
    | nil => simp [first?] at hf
    | cons id ids =>
      rw [List.getLast?_cons] at hl
      simp only [first?, last?, Option.map_some, List.head?_cons, Option.some.injEq] at hf hl
      rw [hf, hl]
      rfl

/-- Sequences with the same ends give one chain. -/
theorem ofList_congr {xs ys : List (Id κ)} (hf : xs.head? = ys.head?)
    (hl : xs.getLast? = ys.getLast?) : ofList xs = ofList ys :=
  eq_ofList (by rw [first?_ofList, hf]) (by rw [last?_ofList, hl])

end Chain

section Layouts

variable {ι : Type}

/-- Any number of chains over one collection of nodes, and the sequence that each of them spells. -/
structure Layout (cs : ι → Chain κ) (ns : Nodes κ α) (ls : ι → List (Id κ)) : Prop where
  chain : ∀ i, cs i = Chain.ofList (ls i)
  linked : ∀ i, Nodes.Linked ns none (ls i) none
  nodup : ∀ i, (ls i).Nodup
  disjoint : ∀ i j, i ≠ j → (ls i).Disjoint (ls j)

/-- A layout in which the nodes of no chain have no links. -/
structure WellLinked (cs : ι → Chain κ) (ns : Nodes κ α) (ls : ι → List (Id κ)) : Prop
    extends Layout cs ns ls where
  loose : ∀ id n, ns.get? id = some n → (∀ i, id ∉ ls i) → n.prev = none ∧ n.next = none

variable {cs : ι → Chain κ} {ns ns' : Nodes κ α} {ls : ι → List (Id κ)}

/-- A node is in one sequence only. -/
theorem Layout.unique (h : Layout cs ns ls) {i j : ι} {x : Id κ} (hi : x ∈ ls i) (hj : x ∈ ls j) :
    i = j := by
  by_contra hne
  exact h.disjoint i j hne hi hj

variable [DecidableEq ι]

/-- Exchanging a part of one sequence leaves all chains linked, if the new part shares no node with
them. -/
theorem Layout.splice (h : Layout cs ns ls) {j : ι} {p c m s : List (Id κ)}
    (hj : ls j = p ++ (c ++ s)) (hs : Nodes.Spliced ns ns' p m s)
    (hframe : ∀ x, x ∉ p ++ (c ++ s) → x ∉ m → ns'.get? x = ns.get? x)
    (hm : m.Nodup) (hnew : ∀ x ∈ m, ∀ i, x ∉ ls i) :
    Layout (Function.update cs j (Chain.ofList (p ++ (m ++ s)))) ns'
      (Function.update ls j (p ++ (m ++ s))) := by
  have hnj := h.nodup j
  have hlj := h.linked j
  rw [hj] at hnj hlj
  have hsub : (p ++ (m ++ s)).Nodup := by
    have hmem : ∀ x ∈ m, x ∉ p ++ (c ++ s) := fun x hx => hj ▸ hnew x hx j
    simp only [List.mem_append, not_or] at hmem
    simp only [List.nodup_append, List.mem_append] at hnj ⊢
    obtain ⟨hp, ⟨-, hns, -⟩, hd⟩ := hnj
    refine ⟨hp, ⟨hm, hns, ?_⟩, ?_⟩
    · rintro a ha b hb rfl
      exact (hmem a ha).2.2 hb
    · rintro a ha b (hb | hb) rfl
      · exact (hmem a hb).1 ha
      · exact hd a ha a (Or.inr hb) rfl
  -- a node of another sequence is neither in the old nor in the new one
  have hother : ∀ i, i ≠ j → ∀ x ∈ ls i, x ∉ p ++ (c ++ s) ∧ x ∉ m := by
    intro i hi x hx
    exact ⟨fun hx' => h.disjoint i j hi hx (hj ▸ hx'), fun hx' => hnew x hx' i hx⟩
  have hpart : ∀ i, i ≠ j → ∀ x ∈ ls i, x ∉ p ++ (m ++ s) := by
    intro i hi x hx hx'
    obtain ⟨h₁, h₂⟩ := hother i hi x hx
    simp only [List.mem_append, not_or] at h₁ hx'
    rcases hx' with hx' | hx' | hx'
    · exact h₁.1 hx'
    · exact h₂ hx'
    · exact h₁.2.2 hx'
  refine ⟨fun i => ?_, fun i => ?_, fun i => ?_, fun i k hik => ?_⟩
  · by_cases hi : i = j
    · subst hi; simp
    · simp [hi, h.chain i]
  · by_cases hi : i = j
    · subst hi
      rw [Function.update_self]
      exact hlj.splice hnj hs
    · rw [Function.update_of_ne hi]
      exact (h.linked i).congr fun x hx => hframe x (hother i hi x hx).1 (hother i hi x hx).2
  · by_cases hi : i = j
    · subst hi; rwa [Function.update_self]
    · rw [Function.update_of_ne hi]
      exact h.nodup i
  · by_cases hi : i = j
    · subst hi
      rw [Function.update_self, Function.update_of_ne (Ne.symm hik)]
      exact fun x hx hx' => hpart k (Ne.symm hik) x hx' hx
    · by_cases hk : k = j
      · subst hk
        rw [Function.update_self, Function.update_of_ne hi]
        exact hpart i hi
      · rw [Function.update_of_ne hi, Function.update_of_ne hk]
        exact h.disjoint i k hik

end Layouts

end ShaderIR
