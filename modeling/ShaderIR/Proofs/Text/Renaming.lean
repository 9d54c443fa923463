import Mathlib.Data.Set.Function
import ShaderIR.Proofs.Run.Meaning
import ShaderIR.Proofs.Text.Listing

/-!
# Bodies under other identities

* `Value.rename`, `Inst.rename`, `Terminator.rename`, `Row.rename`: the same under other identities.
* `Body.Uses`, `Body.Takes`: what is taken as an input in the listed blocks.
* `Body.Recast`: the rows of a body are other rows under other identities.
* `Body.Renaming`: two bodies are the same under other identities.

Principal statements: `Body.Recast.listing_eq` (the same is printed of rows under other identities)
and `Body.Renaming.of_rows`, `Body.Renaming.recast` (a renaming of bodies is one of their rows).
-/

namespace ShaderIR

def Value.rename (ι : InstId → InstId) : Value → Value
  | .const c => .const c
  | .result id => .result (ι id)

def Inst.rename (ι : InstId → InstId) (i : Inst) : Inst :=
  { i with inputs := i.inputs.map (Value.rename ι) }

def Terminator.rename (β : BlockId → BlockId) (ι : InstId → InstId) (t : Terminator) : Terminator :=
  ⟨t.kind, t.inputs.map (Value.rename ι), t.targets.map β⟩

/-- A row under other identities. -/
def Row.rename (ι : InstId → InstId) (r : Row) : Row := (ι r.1, r.2.rename ι)

namespace Body

/-- Something that is linked in a listed block, or the terminator of one, takes a value. -/
inductive Uses (body : Body) (v : Value) : Prop where
  | inst {b : BlockId} {k : Nat} {id : InstId} {i : Inst} (linked : body.LinkedAt b k id)
    (defined : body.code.inst id = .ok i) (input : v ∈ i.inputs)
  | terminator {b : BlockId} {t : Terminator} (listed : b ∈ body.blocks)
    (ends : body.code.terminator? b = some t) (input : v ∈ t.inputs)

/-- Two bodies are the same but for the identities of their listed blocks and of what is linked
there, which correspond one to one. -/
structure Renaming (β : BlockId → BlockId) (ι : InstId → InstId) (body body' : Body) : Prop where
  blocks : body'.blocks = body.blocks.map β
  blocks_injective : Set.InjOn β {b | b ∈ body.blocks}
  insts : ∀ b ∈ body.blocks, ∃ ids, body.code.instsOf b = .ok ids ∧
    body'.code.instsOf (β b) = .ok (ids.map ι)
  insts_injective : Set.InjOn ι {id | ∃ b k, body.LinkedAt b k id}
  definitions : ∀ b k id, body.LinkedAt b k id → ∃ i, body.code.inst id = .ok i ∧
    body'.code.inst (ι id) = .ok (i.rename ι)
  terminators : ∀ b ∈ body.blocks, ∃ t, body.code.terminator? b = some t ∧
    body'.code.terminator? (β b) = some (t.rename β ι)

variable {body body' : Body} {rows rows' : BlockId → List Row} {β : BlockId → BlockId}
  {ι : InstId → InstId} {b : BlockId} {id : InstId} {r : Row}

/-- What is linked is what is in the rows. -/
theorem exists_linkedAt_iff (hs : body.code.Shows rows) :
    (∃ b k, body.LinkedAt b k id) ↔ ∃ b ∈ body.blocks, ∃ i, (id, i) ∈ rows b := by
  constructor
  · rintro ⟨b, k, h⟩
    obtain ⟨hb, i, hi⟩ := (linkedAt_iff hs).1 h
    exact ⟨b, hb, i, List.mem_of_getElem? hi⟩
  · rintro ⟨b, hb, i, hi⟩
    obtain ⟨k, hk⟩ := List.getElem?_of_mem hi
    exact ⟨b, k, (linkedAt_iff hs).2 ⟨hb, i, hk⟩⟩

theorem linkedAt_of_mem (hs : body.code.Shows rows) (hb : b ∈ body.blocks) (hr : r ∈ rows b) :
    ∃ k, body.LinkedAt b k r.1 := by
  obtain ⟨k, hk⟩ := List.getElem?_of_mem hr
  exact ⟨k, (linkedAt_iff hs).2 ⟨hb, r.2, hk⟩⟩

/-- A row of a listed block, or the terminator of one, takes a value. -/
def Takes (body : Body) (rows : BlockId → List Row) (v : Value) : Prop :=
  (∃ b ∈ body.blocks, ∃ r ∈ rows b, v ∈ r.2.inputs) ∨
    ∃ b ∈ body.blocks, ∃ t, body.code.terminator? b = some t ∧ v ∈ t.inputs

/-- What is taken in the rows of a body is used in the body. -/
theorem Takes.uses {v : Value} (h : body.Takes rows v) (hs : body.code.Shows rows) :
    body.Uses v := by
  rcases h with ⟨b, hb, r, hr, hv⟩ | ⟨b, hb, t, ht, hv⟩
  · obtain ⟨k, hk⟩ := linkedAt_of_mem hs hb hr
    exact .inst hk (hs.inst hr) hv
  · exact .terminator hb ht hv

/-- The identities of all rows of listed blocks. -/
def linkedIds (body : Body) (rows : BlockId → List Row) : List InstId :=
  body.blocks.flatMap fun b => (rows b).map Prod.fst

theorem mem_linkedIds :
    id ∈ body.linkedIds rows ↔ ∃ b ∈ body.blocks, ∃ r ∈ rows b, r.1 = id := by
  simp [linkedIds]

theorem linkedIds_nodup (hs : body.code.Shows rows) (hn : body.blocks.Nodup) :
    (body.linkedIds rows).Nodup := by
  unfold linkedIds
  rw [List.nodup_flatMap]
  refine ⟨fun b _ => hs.ids_nodup b, hn.imp fun {b d} hne => ?_⟩
  intro id hb hd
  obtain ⟨r, hr, rfl⟩ := List.mem_map.1 hb
  obtain ⟨q, hq, e⟩ := List.mem_map.1 hd
  exact hne (hs.unique hr hq e.symm).1

/-! ## What is printed under other identities -/

/-- The position of what corresponds. -/
theorem idxOf?_map {α γ : Type} [DecidableEq α] [DecidableEq γ] {f : α → γ} {l : List α} {a : α}
    (hf : ∀ x ∈ l, f x = f a → x = a) : (l.map f).idxOf? (f a) = l.idxOf? a := by
  induction l with
  | nil => rfl
  | cons x l ih =>
    have hx : f x = f a ↔ x = a := ⟨hf x (by simp), congrArg f⟩
    rw [List.map_cons, List.idxOf?_cons, List.idxOf?_cons, ih fun y hy => hf y (by simp [hy])]
    by_cases hxa : x = a
    · simp [hxa]
    · simp [hxa, mt hx.1 hxa]

/-- The rows of a body are other rows under other identities, and all that is printed by number is
still told apart. -/
structure Recast (β : BlockId → BlockId) (ι : InstId → InstId) (body : Body)
    (rows : BlockId → List Row) (body' : Body) (rows' : BlockId → List Row) : Prop where
  blocks : body'.blocks = body.blocks.map β
  recast : ∀ b ∈ body.blocks, rows' (β b) = (rows b).map (Row.rename ι)
  terminators : ∀ b ∈ body.blocks,
    body'.code.terminator? (β b) = (body.code.terminator? b).map (Terminator.rename β ι)
  names : ∀ d, (d ∈ body.blocks ∨ ∃ b ∈ body.blocks, ∃ t, body.code.terminator? b = some t ∧
    d ∈ t.targets) → ∀ b ∈ body.blocks, β b = β d → b = d
  results : ∀ id, (id ∈ body.linkedIds rows ∨ body.Takes rows (.result id)) →
    ∀ x ∈ body.linkedIds rows, ι x = ι id → x = id

namespace Recast

variable (h : Recast β ι body rows body' rows')

include h

theorem numbering_eq :
    (body'.numbering rows').results = (body.numbering rows).results.map ι := by
  show body'.blocks.flatMap _ = (body.blocks.flatMap _).map ι
  rw [h.blocks, List.flatMap_map, List.map_flatMap]
  apply List.flatMap_congr
  intro b hb
  rw [h.recast b hb, typedIds, typedIds, List.filter_map, List.map_map, List.map_map]
  rfl

theorem number_eq (hid : id ∈ body.linkedIds rows ∨ body.Takes rows (.result id)) :
    (body'.numbering rows').results.idxOf? (ι id) = (body.numbering rows).results.idxOf? id := by
  rw [h.numbering_eq]
  apply idxOf?_map
  intro x hx
  obtain ⟨b, hb, hx⟩ := List.mem_flatMap.1 hx
  obtain ⟨r, hr, rfl⟩ := List.mem_map.1 hx
  exact h.results id hid r.1 (mem_linkedIds.2 ⟨b, hb, r, List.mem_of_mem_filter hr, rfl⟩)

theorem operands_eq (vs : List Value) (hvs : ∀ v ∈ vs, body.Takes rows v) :
    (vs.map (Value.rename ι)).map (body'.numbering rows').operand =
      vs.map (body.numbering rows).operand := by
  rw [List.map_map]
  apply List.map_congr_left
  intro v hv
  cases v with
  | const c => rfl
  | result id => exact congrArg Listing.Operand.result (h.number_eq (.inr (hvs _ hv)))

/-- **The same is printed under other identities.** -/
theorem listing_eq : body'.listing rows' = body.listing rows := by
  have hname : ∀ d, (d ∈ body.blocks ∨ ∃ b ∈ body.blocks, ∃ t, body.code.terminator? b = some t ∧
      d ∈ t.targets) → body'.blocks.idxOf? (β d) = body.blocks.idxOf? d := by
    intro d hd
    rw [h.blocks]
    exact idxOf?_map (h.names d hd)
  unfold listing
  rw [h.blocks, List.map_map]
  apply List.map_congr_left
  intro b hb
  have hsteps : (rows' (β b)).map (fun r => (body'.numbering rows').step r.1 r.2) =
      (rows b).map fun r => (body.numbering rows).step r.1 r.2 := by
    rw [h.recast b hb, List.map_map]
    apply List.map_congr_left
    intro r hr
    have hinputs := h.operands_eq r.2.inputs fun v hv => .inl ⟨b, hb, r, hr, hv⟩
    have hnumber := h.number_eq (.inl (mem_linkedIds.2 ⟨b, hb, r, hr, rfl⟩))
    simp only [Function.comp_apply, Row.rename, Names.step, Inst.rename, hinputs, hnumber]
  have hexit : (body'.numbering rows').exit ((body'.code.terminator? (β b)).getD .ret) =
      (body.numbering rows).exit ((body.code.terminator? b).getD .ret) := by
    rw [h.terminators b hb]
    cases ht : body.code.terminator? b with
    | none => rfl
    | some t =>
      have hinputs := h.operands_eq t.inputs fun v hv => .inr ⟨b, hb, t, ht, hv⟩
      have htargets : (t.targets.map β).map body'.blocks.idxOf? =
          t.targets.map body.blocks.idxOf? := by
        rw [List.map_map]
        exact List.map_congr_left fun d hd => hname d (.inr ⟨b, hb, t, ht, hd⟩)
      show (body'.numbering rows').exit (t.rename β ι) = (body.numbering rows).exit t
      unfold Names.exit Terminator.rename
      rw [hinputs]
      exact congrArg (Listing.Exit.mk t.kind _) htargets
  show body'.part rows' (β b) = body.part rows b
  unfold part
  rw [hname b (.inl hb), hsteps, hexit]

end Recast

/-! ## Bodies -/

namespace Renaming

theorem listed (h : Renaming β ι body body') : body.Listed ∧ body'.Listed := by
  constructor
  · intro b hb
    obtain ⟨ids, hids, -⟩ := h.insts b hb
    obtain ⟨blk, hblk, -⟩ := bind_eq_ok.1 hids
    exact ⟨blk, Defs.find_eq_ok.1 hblk⟩
  · intro b' hb'
    rw [h.blocks] at hb'
    obtain ⟨b, hb, rfl⟩ := List.mem_map.1 hb'
    obtain ⟨ids, -, hids⟩ := h.insts b hb
    obtain ⟨blk, hblk, -⟩ := bind_eq_ok.1 hids
    exact ⟨blk, Defs.find_eq_ok.1 hblk⟩

/-- The rows of corresponding blocks correspond. -/
theorem rows_eq (h : Renaming β ι body body') (hs : body.code.Shows rows)
    (hs' : body'.code.Shows rows') (hb : b ∈ body.blocks) :
    rows' (β b) = (rows b).map (Row.rename ι) := by
  obtain ⟨blk', hblk'⟩ := h.listed.2 (β b) (by rw [h.blocks]; exact List.mem_map_of_mem hb)
  obtain ⟨blk, hblk⟩ := h.listed.1 b hb
  obtain ⟨ids, hids, hids'⟩ := h.insts b hb
  rw [hs.instsOf hblk] at hids
  obtain rfl := Except.ok.inj hids
  have hrows : body'.code.rowsOf (β b) = .ok ((rows b).map (Row.rename ι)) := by
    rw [Code.rowsOf, hids', ok_bind, List.map_map, List.mapM_map]
    apply mapM_eq_ok
    intro r hr
    obtain ⟨k, hk⟩ := linkedAt_of_mem hs hb hr
    obtain ⟨i, hi, hi'⟩ := h.definitions b k r.1 hk
    rw [hs.inst hr] at hi
    obtain rfl := Except.ok.inj hi
    show (do return (ι r.1, ← body'.code.inst (ι r.1))) = _
    rw [hi']
    rfl
  rw [hs'.rowsOf hblk'] at hrows
  exact Except.ok.inj hrows

/-- Rows that correspond are what a renaming is made of. -/
theorem of_rows (hs : body.code.Shows rows) (hs' : body'.code.Shows rows') (hl : body.Listed)
    (hn : body'.blocks.Nodup) (hblocks : body'.blocks = body.blocks.map β)
    (hrows : ∀ b ∈ body.blocks, rows' (β b) = (rows b).map (Row.rename ι))
    (hterminators : ∀ b ∈ body.blocks, ∃ t, body.code.terminator? b = some t ∧
      body'.code.terminator? (β b) = some (t.rename β ι)) : Renaming β ι body body' where
  blocks := hblocks
  blocks_injective b hb d hd e := List.inj_on_of_nodup_map (hblocks ▸ hn) hb hd e
  insts b hb := by
    obtain ⟨blk, hblk⟩ := hl b hb
    obtain ⟨t, -, ht⟩ := hterminators b hb
    obtain ⟨blk', hblk', -⟩ := Option.map_eq_some_iff.1 ht
    refine ⟨_, hs.instsOf hblk, ?_⟩
    rw [hs'.instsOf hblk', hrows b hb, List.map_map, List.map_map]
    rfl
  insts_injective x hx y hy e := by
    obtain ⟨b, hb, i, hi⟩ := (exists_linkedAt_iff hs).1 hx
    obtain ⟨d, hd, j, hj⟩ := (exists_linkedAt_iff hs).1 hy
    have hrow : ∀ b ∈ body.blocks, ∀ r ∈ rows b, Row.rename ι r ∈ rows' (β b) := by
      intro b hb r hr
      rw [hrows b hb]
      exact List.mem_map_of_mem hr
    obtain ⟨hβ, -⟩ := hs'.unique (hrow b hb _ hi) (hrow d hd _ hj) e
    obtain rfl := List.inj_on_of_nodup_map (hblocks ▸ hn) hb hd hβ
    have hids : (((rows b).map Prod.fst).map ι).Nodup := by
      have hnd := hs'.ids_nodup (β b)
      rw [hrows b hb, List.map_map] at hnd
      rw [List.map_map]
      exact hnd
    exact List.inj_on_of_nodup_map hids (List.mem_map_of_mem (f := Prod.fst) hi)
      (List.mem_map_of_mem (f := Prod.fst) hj) e
  definitions b k id hk := by
    obtain ⟨hb, i, hi⟩ := (linkedAt_iff hs).1 hk
    have hmem := List.mem_of_getElem? hi
    have hmem' : Row.rename ι (id, i) ∈ rows' (β b) := by
      rw [hrows b hb]
      exact List.mem_map_of_mem hmem
    exact ⟨i, hs.inst hmem, hs'.inst hmem'⟩
  terminators := hterminators

/-- The rows of bodies that correspond are the same under other identities, if all that is used is
linked. -/
theorem recast (h : Renaming β ι body body') (hs : body.code.Shows rows)
    (hs' : body'.code.Shows rows')
    (targets : ∀ b ∈ body.blocks, ∀ t, body.code.terminator? b = some t →
      ∀ d ∈ t.targets, d ∈ body.blocks)
    (used : ∀ id, body.Uses (.result id) → ∃ b k, body.LinkedAt b k id) :
    Recast β ι body rows body' rows' := by
  have hlinked : ∀ id, id ∈ body.linkedIds rows → ∃ b k, body.LinkedAt b k id := by
    intro id hid
    obtain ⟨b, hb, r, hr, rfl⟩ := mem_linkedIds.1 hid
    obtain ⟨k, hk⟩ := linkedAt_of_mem hs hb hr
    exact ⟨b, k, hk⟩
  refine ⟨h.blocks, fun b hb => h.rows_eq hs hs' hb, fun b hb => ?_, fun d hd b hb e => ?_,
    fun id hid x hx e => ?_⟩
  · obtain ⟨t, ht, ht'⟩ := h.terminators b hb
    rw [ht, ht', Option.map_some]
  · refine h.blocks_injective hb ?_ e
    rcases hd with hd | ⟨b', hb', t, ht, hd⟩
    · exact hd
    · exact targets b' hb' t ht d hd
  · refine h.insts_injective (hlinked x hx) ?_ e
    rcases hid with hid | hid
    · exact hlinked id hid
    · exact used id (hid.uses hs)

end Renaming

end Body

end ShaderIR
