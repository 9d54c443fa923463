import Mathlib.Data.List.Nodup
import ShaderIR.Body.Builder
import ShaderIR.Proofs.Chain.Edits
import ShaderIR.Proofs.Chain.Tour
import ShaderIR.Proofs.Flow.Paths

/-!
# The rows of a block

Code is seen here as the rows of every block: its instructions in program order, each with its
identity.

* `Code.Shows`: the chains of all blocks are linked, and these are their rows.
* `Code.SameFlow`: two versions of code have the same terminators, and so the same paths.
* `Anchor.Between`, `Anchor.At`: where among the instructions of its block, and among their rows, an
  anchor stands.
* `Workspace.Derived`: a workspace has come from another by changes of instructions, and these are
  its rows now.

Principal statements: `Derived.insert`, `Derived.setInst` and `Derived.removeInst` (what the three
changes of instructions do to the rows).
-/

namespace ShaderIR

/-- An instruction with its identity. -/
abbrev Row := InstId × Inst

section Rows

variable {rows : BlockId → List Row} {b d : BlockId} {p m n s : List Row} {r : Row}

/-- What is in the rows once a part of one block has been exchanged. -/
theorem mem_update_rows (hb : rows b = p ++ (m ++ s))
    (h : r ∈ Function.update rows b (p ++ (n ++ s)) d) : (d = b ∧ r ∈ n) ∨ r ∈ rows d := by
  by_cases hd : d = b
  · subst hd
    rw [Function.update_self] at h
    simp only [hb, List.mem_append] at h ⊢
    rcases h with h | h | h
    · exact .inr (.inl h)
    · exact .inl ⟨trivial, h⟩
    · exact .inr (.inr (.inr h))
  · rw [Function.update_of_ne hd] at h
    exact .inr h

/-- The identities once the rows of one block have been exchanged. -/
theorem map_update_rows (rows : BlockId → List Row) (b : BlockId) (new : List Row) :
    (fun d => (Function.update rows b new d).map Prod.fst) =
      Function.update (fun d => (rows d).map Prod.fst) b (new.map Prod.fst) := by
  funext d
  by_cases hd : d = b
  · subst hd
    rw [Function.update_self, Function.update_self]
  · rw [Function.update_of_ne hd, Function.update_of_ne hd]

end Rows

namespace Code

/-- The chain of a block; a block that is not defined has none. -/
def chainOf (c : Code) (b : BlockId) : Chain .inst :=
  match c.blocks.get? b with
  | some blk => blk.insts
  | none => .empty

/-- The terminator of a block. -/
def terminator? (c : Code) (b : BlockId) : Option Terminator :=
  (c.blocks.get? b).map Block.terminator

/-- The chains of all blocks are linked, and spell these rows. -/
structure Shows (c : Code) (rows : BlockId → List Row) : Prop where
  layout : Layout c.chainOf c.insts fun b => (rows b).map Prod.fst
  val : ∀ b, ∀ r ∈ rows b, (c.insts.get? r.1).map Node.val = some r.2

/-- Two versions of code have the same terminators. -/
def SameFlow (c c' : Code) : Prop := ∀ b, c'.terminator? b = c.terminator? b

variable {c c' : Code} {rows : BlockId → List Row} {b d : BlockId} {r r' : Row} {blk : Block}

/-- Linked chains of blocks have rows. -/
theorem exists_shows {ls : BlockId → List InstId} (h : Layout c.chainOf c.insts ls) :
    ∃ rows, c.Shows rows ∧ ∀ b, (rows b).map Prod.fst = ls b := by
  let row := fun id : InstId => (c.insts.get? id).map fun n => (id, n.val)
  have hids : ∀ ids : List InstId, (∀ id ∈ ids, (c.insts.get? id).isSome = true) →
      (ids.filterMap row).map Prod.fst = ids := by
    intro ids hids
    induction ids with
    | nil => rfl
    | cons id ids ih =>
      obtain ⟨n, hn⟩ := Option.isSome_iff_exists.1 (hids id (by simp))
      have hrow : row id = some (id, n.val) := by simp only [row, hn, Option.map_some]
      rw [List.filterMap_cons_some hrow, List.map_cons,
        ih fun id hid => hids id (by simp [hid])]
  have hls : ∀ b, ((ls b).filterMap row).map Prod.fst = ls b := fun b =>
    hids (ls b) (h.linked b).isSome
  refine ⟨fun b => (ls b).filterMap row, ⟨?_, fun b r hr => ?_⟩, hls⟩
  · simp only [hls]
    exact h
  · obtain ⟨id, -, hid⟩ := List.mem_filterMap.1 hr
    obtain ⟨n, hn, rfl⟩ := Option.map_eq_some_iff.1 hid
    rw [hn]
    rfl

/-- Code with one block only has that chain only. -/
theorem layout_of_single {t : Terminator} {ids : List InstId}
    (hc : c.blocks = ⟨[(b, ⟨.ofList ids, t⟩)]⟩) (linked : Nodes.Linked c.insts none ids none)
    (nodup : ids.Nodup) : Layout c.chainOf c.insts fun d => if d = b then ids else [] := by
  refine ⟨fun d => ?_, fun d => ?_, fun d => ?_, fun d d' hne x hx hx' => ?_⟩
  · rw [chainOf, hc, Defs.get?_cons]
    by_cases hd : d = b
    · rw [if_pos hd, if_pos hd]
    · rw [if_neg hd, if_neg hd]
      rfl
  · split
    · exact linked
    · trivial
  · split
    · exact nodup
    · exact .nil
  · split at hx <;> split at hx'
    · exact hne (by simp_all)
    · cases hx'
    · cases hx
    · cases hx

namespace Shows

theorem get? (h : c.Shows rows) (hr : r ∈ rows b) :
    ∃ n, c.insts.get? r.1 = some n ∧ n.val = r.2 :=
  Option.map_eq_some_iff.1 (h.val b r hr)

/-- A row is the definition of its instruction. -/
theorem inst (h : c.Shows rows) (hr : r ∈ rows b) : c.inst r.1 = .ok r.2 := by
  obtain ⟨n, hn, hv⟩ := h.get? hr
  rw [Code.inst, Defs.find_of_get? hn, ok_bind, hv]
  rfl

theorem typeOf (h : c.Shows rows) {ty : ScalarType} (hr : r ∈ rows b) (hty : r.2.ty = some ty) :
    c.typeOf (.result r.1) = .ok ty := by
  simp only [Code.typeOf, h.inst hr, ok_bind, hty, pure_eq_ok]

theorem instsOf (h : c.Shows rows) (hb : c.blocks.get? b = some blk) :
    c.instsOf b = .ok ((rows b).map Prod.fst) := by
  have hlist := h.layout.toList_eq b
  rw [chainOf, hb] at hlist
  rw [Code.instsOf, Defs.find_of_get? hb, ok_bind, hlist]

/-- An instruction is in one row only. -/
theorem unique (h : c.Shows rows) (hr : r ∈ rows b) (hr' : r' ∈ rows d) (e : r.1 = r'.1) :
    b = d ∧ r = r' := by
  refine ⟨?_, Prod.ext e ?_⟩
  · apply h.layout.unique (x := r.1) (List.mem_map_of_mem hr)
    rw [e]
    exact List.mem_map_of_mem hr'
  · have hinst := h.inst hr
    rw [e, h.inst hr'] at hinst
    exact (Except.ok.inj hinst).symm

theorem ids_nodup (h : c.Shows rows) (b : BlockId) : ((rows b).map Prod.fst).Nodup :=
  h.layout.nodup b

/-- An instruction is at one place only. -/
theorem place_unique (h : c.Shows rows) {k l : Nat} {id : InstId} {i i' : Inst}
    (hi : (rows b)[k]? = some (id, i)) (hi' : (rows d)[l]? = some (id, i')) : b = d ∧ k = l := by
  obtain ⟨rfl, -⟩ := h.unique (List.mem_of_getElem? hi) (List.mem_of_getElem? hi') rfl
  have hlt : k < ((rows b).map Prod.fst).length := by
    rw [List.length_map]
    exact (List.getElem?_eq_some_iff.1 hi).1
  refine ⟨rfl, (List.getElem?_inj hlt (h.ids_nodup b)).1 ?_⟩
  rw [List.getElem?_map, hi, List.getElem?_map, hi']
  rfl

/-- A block that is not defined has no rows. -/
theorem get?_of_mem (h : c.Shows rows) (hr : r ∈ rows b) :
    ∃ blk, c.blocks.get? b = some blk := by
  cases hb : c.blocks.get? b with
  | some blk => exact ⟨blk, rfl⟩
  | none =>
    have hchain := h.layout.chain b
    rw [chainOf, hb] at hchain
    cases hrows : rows b with
    | nil =>
      rw [hrows] at hr
      cases hr
    | cons r rs =>
      rw [hrows] at hchain
      cases hchain

/-- The identity of a row is not in the rows around it. -/
theorem not_mem_around (h : c.Shows rows) {p s : List Row} (hb : rows b = p ++ r :: s) :
    r.1 ∉ (p ++ s).map Prod.fst := by
  have hnd := h.ids_nodup b
  rw [hb, List.map_append, List.map_cons, List.nodup_middle, List.nodup_cons] at hnd
  rw [List.map_append]
  exact hnd.1

end Shows

namespace SameFlow

theorem refl (c : Code) : c.SameFlow c := fun _ => rfl

theorem symm (h : c.SameFlow c') : c'.SameFlow c := fun b => (h b).symm

theorem trans {c₀ : Code} (h : c₀.SameFlow c) (h' : c.SameFlow c') : c₀.SameFlow c' := fun b =>
  (h' b).trans (h b)

theorem get? (h : c.SameFlow c') (hb : c.blocks.get? b = some blk) :
    ∃ blk', c'.blocks.get? b = some blk' ∧ blk'.terminator = blk.terminator := by
  have hflow := h b
  rw [terminator?, terminator?, hb] at hflow
  exact Option.map_eq_some_iff.1 hflow

theorem defined (h : c.SameFlow c') (hb : ∃ blk, c.blocks.get? b = some blk) :
    ∃ blk, c'.blocks.get? b = some blk := by
  obtain ⟨blk, hblk⟩ := hb
  exact (h.get? hblk).imp fun _ h => h.1

theorem leads (h : c.SameFlow c') {u v : BlockId} (hl : Leads c.blocks u v) :
    Leads c'.blocks u v := by
  obtain ⟨blk, hblk, hv⟩ := hl
  obtain ⟨blk', hblk', ht⟩ := h.get? hblk
  exact ⟨blk', hblk', ht ▸ hv⟩

theorem path (h : c.SameFlow c') {entry : Option BlockId} {ids : List BlockId}
    (hp : Path entry c.blocks ids b) : Path entry c'.blocks ids b := by
  induction hp with
  | start first => exact .start first
  | step path leads ih => exact .step ih (h.leads leads)

theorem reached (h : c.SameFlow c') {entry : Option BlockId} (hb : Reached entry c.blocks b) :
    Reached entry c'.blocks b := by
  obtain ⟨ids, hp⟩ := hb
  exact ⟨ids, h.path hp⟩

theorem onPaths (h : c.SameFlow c') {entry : Option BlockId} (ho : OnPaths entry c.blocks d b) :
    OnPaths entry c'.blocks d b := fun ids hp => ho ids (h.symm.path hp)

end SameFlow

/-- The chains after the chain of one block has been exchanged. -/
theorem chainOf_set (hb : c.blocks.get? b = some blk) (ch : Chain .inst)
    (ns : Nodes .inst Inst) :
    chainOf ⟨c.blocks.set b { blk with insts := ch }, ns⟩ = Function.update c.chainOf b ch := by
  funext d
  simp only [chainOf, Defs.get?_set_of_get? hb]
  by_cases hd : d = b
  · subst hd
    rw [if_pos rfl, Function.update_self]
  · rw [if_neg hd, Function.update_of_ne hd, chainOf]

theorem sameFlow_set (hb : c.blocks.get? b = some blk) (ch : Chain .inst)
    (ns : Nodes .inst Inst) : c.SameFlow ⟨c.blocks.set b { blk with insts := ch }, ns⟩ := by
  intro d
  simp only [terminator?, Defs.get?_set_of_get? hb]
  by_cases hd : d = b
  · subst hd
    rw [if_pos rfl, hb]
    rfl
  · rw [if_neg hd]

/-- A chain is edited in its block. -/
theorem editChain_eq (hb : c.blocks.get? b = some blk)
    {edit : Chain .inst → Nodes .inst Inst → Except Fault (Chain .inst × Nodes .inst Inst)}
    {ch : Chain .inst} {ns : Nodes .inst Inst} (he : edit (c.chainOf b) c.insts = .ok (ch, ns)) :
    c.editChain b edit = .ok ⟨c.blocks.set b { blk with insts := ch }, ns⟩ := by
  rw [chainOf, hb] at he
  rw [editChain, Defs.access_of_get? hb, ok_bind, he]
  rfl

end Code

namespace Anchor

/-- Where an anchor stands: after the instructions `p` and before the instructions `s`. -/
inductive Between : Anchor → List InstId → List InstId → Prop where
  | after {p s : List InstId} {x : InstId} : Between (.after x) (p ++ [x]) s
  | before {p s : List InstId} {x : InstId} : Between (.before x) p (x :: s)
  | last {p : List InstId} : Between .last p []

/-- Where an anchor stands in its block: between the rows `p` and the rows `s`. -/
inductive At : Anchor → List Row → List Row → Prop where
  | after {p s : List Row} {r : Row} : At (.after r.1) (p ++ [r]) s
  | before {p s : List Row} {r : Row} : At (.before r.1) p (r :: s)
  | last {p : List Row} : At .last p []

variable {a : Anchor}

/-- To link an instruction in at an anchor is to insert it there. -/
theorem Between.link {p s : List InstId} (h : a.Between p s) (new : InstId) : ∃ e : ChainEdit .inst,
    e.InsertsAt (p ++ s) new p s ∧
      ∀ (c : Chain .inst) (ns : Nodes .inst Inst), a.link new c ns = e.run c ns := by
  cases h with
  | @after p s x =>
    exact ⟨.insertAfter new x, .after (by simp), fun _ _ => rfl⟩
  | @before p s x => exact ⟨.insertBefore new x, .before rfl, fun _ _ => rfl⟩
  | @last p =>
    refine ⟨.insertLast new, ?_, fun _ _ => rfl⟩
    rw [List.append_nil]
    exact .last new

theorem At.between {p s : List Row} (ha : a.At p s) :
    a.Between (p.map Prod.fst) (s.map Prod.fst) := by
  cases ha with
  | after =>
    rw [List.map_append]
    exact .after
  | before => exact .before
  | last => exact .last

/-- A new instruction is linked in at an anchor. -/
theorem At.link {p s : List Row} (ha : a.At p s) {c : Code} {rows : BlockId → List Row}
    (h : c.Shows rows) {b : BlockId} (hb : rows b = p ++ s) {new : InstId} {i : Inst}
    (hnew : c.insts.get? new = some (.loose i)) (hnot : ∀ d, new ∉ (rows d).map Prod.fst) :
    ∃ ch ns, a.link new (c.chainOf b) c.insts = .ok (ch, ns) ∧
      Layout (Function.update c.chainOf b ch) ns (Function.update (fun d => (rows d).map Prod.fst) b
        (p.map Prod.fst ++ new :: s.map Prod.fst)) ∧
      Untouched (fun d => (rows d).map Prod.fst) new c.insts ns := by
  obtain ⟨e, place, hlink⟩ := ha.between.link new
  rw [← List.map_append, ← hb] at place
  obtain ⟨ch, ns, hrun, hl, hu⟩ := h.layout.insert (j := b) place hnew hnot
  exact ⟨ch, ns, (hlink _ _).trans hrun, hl, hu⟩

end Anchor

namespace Workspace

/-- Every instruction that is defined has an identity that the supply has given away. -/
def Issued (w : Workspace) : Prop :=
  ∀ id n, w.code.insts.get? id = some n → id.index < w.fresh.next

section Issued

variable {w : Workspace}

theorem Issued.not_defined (h : w.Issued) : w.code.insts.get? ⟨w.fresh.next⟩ = none := by
  cases hn : w.code.insts.get? ⟨w.fresh.next⟩ with
  | none => rfl
  | some n => exact absurd (h _ n hn) (Nat.lt_irrefl _)

/-- A new instruction gets the identity that the supply gives next. -/
theorem Issued.define (h : w.Issued) (i : Inst) :
    ∃ w', w.define i = .ok (⟨w.fresh.next⟩, w') ∧ w'.Issued ∧ w'.code.blocks = w.code.blocks ∧
      w'.fresh.next = w.fresh.next + 1 ∧ ∀ y, w'.code.insts.get? y =
        if y = ⟨w.fresh.next⟩ then some (.loose i) else w.code.insts.get? y := by
  have hget : ∀ y, (w.code.insts.insert ⟨w.fresh.next⟩ (.loose i)).get? y =
      if y = ⟨w.fresh.next⟩ then some (.loose i) else w.code.insts.get? y :=
    fun y => Defs.get?_insert _ _ y _
  refine ⟨⟨{ w.code with insts := w.code.insts.insert ⟨w.fresh.next⟩ (.loose i) },
    ⟨w.fresh.next + 1⟩⟩, ?_, fun y n hn => ?_, rfl, rfl, hget⟩
  · simp only [Workspace.define, Defs.define, Supply.take, Defs.contains, h.not_defined]
    rfl
  · show y.index < w.fresh.next + 1
    simp only [hget] at hn
    by_cases hy : y = ⟨w.fresh.next⟩
    · rw [hy]
      exact Nat.lt_succ_self _
    · rw [if_neg hy] at hn
      exact Nat.lt_succ_of_lt (h y n hn)

/-- Changing links only leaves all identities given away. -/
theorem Issued.of_vals (h : w.Issued) {w' : Workspace} (hs : w'.fresh = w.fresh)
    (hv : ∀ y, (w'.code.insts.get? y).map Node.val = (w.code.insts.get? y).map Node.val) :
    w'.Issued := by
  intro y n hn
  have hval := hv y
  rw [hn] at hval
  obtain ⟨m, hm, -⟩ := Option.map_eq_some_iff.1 hval.symm
  rw [hs]
  exact h y m hm

end Issued

/-- A workspace has come from another by changes of instructions, and these are its rows now. -/
structure Derived (w₀ w : Workspace) (rows : BlockId → List Row) : Prop where
  shows : w.code.Shows rows
  issued : w.Issued
  flow : w₀.code.SameFlow w.code
  le : w₀.fresh.next ≤ w.fresh.next

/-- Replaces what is in the node of an instruction. -/
def put (w : Workspace) (x : InstId) (n : Node .inst Inst) (i : Inst) : Workspace :=
  { w with code := { w.code with insts := w.code.insts.set x { n with val := i } } }

namespace Derived

variable {w₀ w : Workspace} {rows : BlockId → List Row} {b d : BlockId} {x : InstId} {i i' : Inst}
  {p s : List Row}

theorem refl (h : w.code.Shows rows) (hi : w.Issued) : Derived w w rows :=
  ⟨h, hi, .refl _, Nat.le_refl _⟩

/-- The identity that the supply gives next is in no row. -/
theorem fresh_not_mem (h : Derived w₀ w rows) (d : BlockId) :
    (⟨w.fresh.next⟩ : InstId) ∉ (rows d).map Prod.fst := by
  intro hmem
  obtain ⟨r, hr, e⟩ := List.mem_map.1 hmem
  obtain ⟨n, hn, -⟩ := h.shows.get? hr
  rw [e, h.issued.not_defined] at hn
  cases hn

/-- Defines an instruction that is in no block yet. -/
theorem define (h : Derived w₀ w rows) (i : Inst) :
    ∃ w', w.define i = .ok (⟨w.fresh.next⟩, w') ∧ Derived w₀ w' rows ∧
      w'.code.blocks = w.code.blocks ∧
      w'.code.insts.get? ⟨w.fresh.next⟩ = some (.loose i) := by
  obtain ⟨w', hdefine, hissued, hblocks, hnext, hget⟩ := h.issued.define i
  have hne : ∀ d, ∀ y ∈ (rows d).map Prod.fst, y ≠ ⟨w.fresh.next⟩ := by
    intro d y hy e
    exact h.fresh_not_mem d (e ▸ hy)
  have hchain : ∀ d, w'.code.chainOf d = w.code.chainOf d := by
    intro d
    rw [Code.chainOf, Code.chainOf, hblocks]
  refine ⟨w', hdefine, ⟨⟨?_, fun d r hr => ?_⟩, hissued, fun d => ?_, ?_⟩, hblocks, ?_⟩
  · refine ⟨fun d => (hchain d).trans (h.shows.layout.chain d), fun d => ?_, h.shows.layout.nodup,
      h.shows.layout.disjoint⟩
    apply (h.shows.layout.linked d).congr
    intro y hy
    rw [hget, if_neg (hne d y hy)]
  · rw [hget, if_neg (hne d r.1 (List.mem_map_of_mem hr))]
    exact h.shows.val d r hr
  · rw [Code.terminator?, hblocks]
    exact h.flow d
  · rw [hnext]
    exact Nat.le_succ_of_le h.le
  · rw [hget, if_pos rfl]

/-- **Inserting an instruction at an anchor.** -/
theorem insert (h : Derived w₀ w rows) (hb : rows b = p ++ s) {anchor : Anchor}
    (ha : anchor.At p s) (hdef : ∃ blk, w.code.blocks.get? b = some blk) (i : Inst) :
    ∃ w', (w.at ⟨b, anchor⟩).insert i =
        .ok (⟨w.fresh.next⟩, w'.at ⟨b, anchor.advance ⟨w.fresh.next⟩⟩) ∧
      Derived w₀ w' (Function.update rows b (p ++ (⟨w.fresh.next⟩, i) :: s)) := by
  have hnot := h.fresh_not_mem
  obtain ⟨w₁, hdefine, hd, hsame, hnew⟩ := h.define i
  obtain ⟨blk, hblk⟩ := hdef
  rw [← hsame] at hblk
  obtain ⟨ch, ns, hch, hl, hu⟩ := ha.link hd.shows hb hnew hnot
  refine ⟨⟨⟨w₁.code.blocks.set b { blk with insts := ch }, ns⟩, w₁.fresh⟩, ?_,
    ⟨⟨?_, fun d r hr => ?_⟩, hd.issued.of_vals rfl hu.val, ?_, hd.le⟩⟩
  · have hlink : w₁.code.editChain b (anchor.link ⟨w.fresh.next⟩) =
        .ok ⟨w₁.code.blocks.set b { blk with insts := ch }, ns⟩ := Code.editChain_eq hblk hch
    simp only [Builder.insert, Workspace.at, hdefine, ok_bind, hlink]
    rfl
  · rw [map_update_rows, Code.chainOf_set hblk, List.map_append, List.map_cons]
    exact hl
  · rw [hu.val]
    rcases mem_update_rows (m := []) (n := [(⟨w.fresh.next⟩, i)]) hb hr with ⟨-, hmem⟩ | hmem
    · rw [List.mem_singleton.1 hmem, hnew]
      rfl
    · exact hd.shows.val d r hmem
  · exact hd.flow.trans (Code.sameFlow_set hblk ch ns)

/-- **Inserting an instruction before another.** -/
theorem insertBefore (h : Derived w₀ w rows) (hb : rows b = p ++ (x, i') :: s) (i : Inst) :
    ∃ w', (w.at (.before b x)).insert i = .ok (⟨w.fresh.next⟩, w'.at (.before b x)) ∧
      Derived w₀ w' (Function.update rows b (p ++ (⟨w.fresh.next⟩, i) :: (x, i') :: s)) :=
  h.insert hb .before (h.shows.get?_of_mem (r := (x, i')) (by simp [hb])) i

/-- **Replacing the definition of an instruction.** -/
theorem setInst (h : Derived w₀ w rows) (hb : rows b = p ++ (x, i') :: s) (i : Inst) :
    ∃ n, w.code.insts.get? x = some n ∧ n.val = i' ∧
      Derived w₀ (w.put x n i) (Function.update rows b (p ++ (x, i) :: s)) := by
  obtain ⟨n, hn, hv⟩ := h.shows.get? (r := (x, i')) (b := b) (by simp [hb])
  have hget : ∀ y, (w.code.insts.set x { n with val := i }).get? y =
      if y = x then some { n with val := i } else w.code.insts.get? y :=
    Defs.get?_set_of_get? hn
  have hids : (fun d => (Function.update rows b (p ++ (x, i) :: s) d).map Prod.fst) =
      fun d => (rows d).map Prod.fst := by
    rw [map_update_rows, Function.update_eq_self_iff, hb]
    simp
  refine ⟨n, hn, hv, ⟨?_, fun d r hr => ?_⟩, fun y m hm => ?_, h.flow, h.le⟩
  · rw [hids]
    refine ⟨h.shows.layout.chain, fun d => ?_, h.shows.layout.nodup, h.shows.layout.disjoint⟩
    apply (h.shows.layout.linked d).relabel
    intro y _ m hm
    show ∃ v, (w.code.insts.set x { n with val := i }).get? y = some { m with val := v }
    rw [hget]
    by_cases hy : y = x
    · rw [hy, hn] at hm
      obtain rfl := Option.some.inj hm
      exact ⟨i, by rw [if_pos hy]⟩
    · exact ⟨m.val, by rw [if_neg hy, hm]⟩
  · show ((w.code.insts.set x { n with val := i }).get? r.1).map Node.val = some r.2
    rw [hget]
    have haround := h.shows.not_mem_around hb
    by_cases hd : d = b
    · subst hd
      rw [Function.update_self, List.mem_append, List.mem_cons, or_left_comm, ← List.mem_append]
        at hr
      rcases hr with rfl | hr
      · rw [if_pos rfl]
        rfl
      · have hx : r.1 ≠ x := by
          intro e
          exact haround (List.mem_map.2 ⟨r, hr, e⟩)
        rw [if_neg hx]
        apply h.shows.val d r
        rw [hb, List.mem_append, List.mem_cons, or_left_comm, ← List.mem_append]
        exact .inr hr
    · rw [Function.update_of_ne hd] at hr
      have hmem : (x, i') ∈ rows b := by simp [hb]
      have hx : r.1 ≠ x := fun e => hd (h.shows.unique hr hmem e).1
      rw [if_neg hx]
      exact h.shows.val d r hr
  · change (w.code.insts.set x { n with val := i }).get? y = some m at hm
    rw [hget] at hm
    by_cases hy : y = x
    · exact hy ▸ h.issued x n hn
    · rw [if_neg hy] at hm
      exact h.issued y m hm

/-- **Taking an instruction out of its block.** -/
theorem removeInst (h : Derived w₀ w rows) (hb : rows b = p ++ (x, i) :: s) :
    ∃ w', w.removeInst b x = .ok (i, w') ∧ Derived w₀ w' (Function.update rows b (p ++ s)) := by
  have hx : (x, i) ∈ rows b := by simp [hb]
  obtain ⟨blk, hblk⟩ := h.shows.get?_of_mem hx
  have hids : (rows b).map Prod.fst = p.map Prod.fst ++ x :: s.map Prod.fst := by simp [hb]
  obtain ⟨ns, hl, hu, ⟨v, hv⟩, hrun⟩ := h.shows.layout.remove hids
  obtain ⟨ch, hch, hupd⟩ := hrun b (.inl rfl)
  obtain rfl : v = i := by
    have hval := hu.val x
    rw [hv, h.shows.val b _ hx] at hval
    exact Option.some.inj hval
  have hmem : ∀ {d r}, r ∈ Function.update rows b (p ++ s) d → r ∈ rows d := by
    intro d r hr
    rcases mem_update_rows (m := [(x, v)]) (n := []) hb hr with ⟨-, hnil⟩ | hr
    · cases hnil
    · exact hr
  have hout : ∀ d, x ∉ (Function.update rows b (p ++ s) d).map Prod.fst := by
    intro d hxd
    obtain ⟨r, hr, e⟩ := List.mem_map.1 hxd
    obtain ⟨rfl, rfl⟩ := h.shows.unique (hmem hr) hx e
    rw [Function.update_self] at hr
    exact h.shows.not_mem_around hb (List.mem_map_of_mem hr)
  refine ⟨⟨⟨w.code.blocks.set b { blk with insts := ch }, ns.erase x⟩, w.fresh⟩, ?_,
    ⟨?_, fun d r hr => ?_⟩, fun y n hn => ?_, ?_, h.le⟩
  · have hedit : w.code.editChain b (fun ch ns => ch.remove x ns) = _ :=
      Code.editChain_eq hblk hch
    simp only [Workspace.removeInst, Code.removeInst, hedit, ok_bind, Defs.remove_of_get? hv]
    rfl
  · rw [Code.chainOf_set hblk, hupd]
    have hl' : Layout (Function.update w.code.chainOf b
        (Chain.ofList (p.map Prod.fst ++ s.map Prod.fst))) ns
        fun d => (Function.update rows b (p ++ s) d).map Prod.fst := by
      rw [map_update_rows, List.map_append]
      exact hl
    refine ⟨hl'.chain, fun d => ?_, hl'.nodup, hl'.disjoint⟩
    apply (hl'.linked d).congr
    intro y hy
    have hyx : y ≠ x := fun e => hout d (e ▸ hy)
    rw [Defs.get?_erase, if_neg hyx]
  · have hne : r.1 ≠ x := fun e => hout d (e ▸ List.mem_map_of_mem hr)
    show ((ns.erase x).get? r.1).map Node.val = some r.2
    rw [Defs.get?_erase, if_neg hne, hu.val]
    exact h.shows.val d r (hmem hr)
  · change (ns.erase x).get? y = some n at hn
    rw [Defs.get?_erase] at hn
    by_cases hy : y = x
    · rw [if_pos hy] at hn
      cases hn
    · rw [if_neg hy] at hn
      have hval := hu.val y
      rw [hn] at hval
      obtain ⟨m, hm, -⟩ := Option.map_eq_some_iff.1 hval.symm
      exact h.issued y m hm
  · exact h.flow.trans (Code.sameFlow_set hblk ch _)

end Derived

end Workspace

end ShaderIR
