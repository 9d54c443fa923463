import ShaderIR.Proofs.Text.Renaming
import ShaderIR.Proofs.Text.Steps

/-!
# What the text of a body tells

The text of a body tells everything but the identities of its blocks and instructions.

* `Body.Legible`: what is printed of a body stands for it.
* `Body.Matching`: the same is printed of blocks and instructions that correspond.

Principal statement: `Module.funcText_eq_iff` (two functions of the same name have the same text if
and only if their bodies are the same under other identities).
-/

namespace ShaderIR

namespace Body

/-- What is printed of a body stands for the body, up to identities. -/
structure Legible (body : Body) : Prop where
  linked : body.ChainsLinked
  distinct : body.blocks.Nodup
  /-- What is used is linked in a listed block and has a result. -/
  results : ∀ id, body.Uses (.result id) →
    ∃ b k i ty, body.LinkedAt b k id ∧ body.code.inst id = .ok i ∧ i.ty = some ty
  consts : ∀ c, body.Uses (.const c) → c.Plain
  targets : ∀ b ∈ body.blocks, ∀ t, body.code.terminator? b = some t →
    ∀ d ∈ t.targets, d ∈ body.blocks
  /-- No combined write is marked with anything but aspects. -/
  written : ∀ b k id i, body.LinkedAt b k id → body.code.inst id = .ok i → i.kind.Plain

variable {body body' : Body} {rows rows' : BlockId → List Row} {β : BlockId → BlockId}
  {ι : InstId → InstId} {b : BlockId} {id : InstId} {r : Row}

section Known

variable {α : Type}

/-- Distinct elements can be carried to any others, as many as they are. -/
theorem exists_map [DecidableEq α] {l l' : List α} (hn : l.Nodup) (hlen : l'.length = l.length) :
    ∃ f : α → α, l' = l.map f := by
  induction l generalizing l' with
  | nil => exact ⟨id, List.length_eq_zero_iff.1 hlen⟩
  | cons a l ih =>
    cases l' with
    | nil => cases hlen
    | cons b l' =>
      obtain ⟨ha, hl⟩ := List.nodup_cons.1 hn
      obtain ⟨f, rfl⟩ := ih hl (Nat.succ.inj hlen)
      refine ⟨Function.update f a b, ?_⟩
      rw [List.map_cons, Function.update_self]
      congr 1
      apply List.map_congr_left
      intro x hx
      have hxa : x ≠ a := fun e => ha (e ▸ hx)
      rw [Function.update_of_ne hxa]

/-- Groups are known from all elements in a row, if their lengths are. -/
theorem groups_eq {γ : Type} {bs : List γ} {f g : γ → List α} (h : bs.flatMap f = bs.flatMap g)
    (hlen : ∀ b ∈ bs, (f b).length = (g b).length) : ∀ b ∈ bs, f b = g b := by
  induction bs with
  | nil => simp
  | cons b bs ih =>
    obtain ⟨hb, hbs⟩ := List.forall_mem_cons.1 hlen
    rw [List.flatMap_cons, List.flatMap_cons] at h
    obtain ⟨hhead, hrest⟩ := List.append_inj h hb
    exact List.forall_mem_cons.2 ⟨hhead, ih hrest hbs⟩

/-- An element is known from its position. -/
theorem eq_of_idxOf? [DecidableEq α] {l : List α} {a b : α} {k : Nat} (ha : l.idxOf? a = some k)
    (hb : l.idxOf? b = some k) : b = a := by
  obtain ⟨_, hka, -⟩ := List.idxOf?_eq_some_iff.1 ha
  obtain ⟨_, hkb, -⟩ := List.idxOf?_eq_some_iff.1 hb
  rw [← hkb, hka]

theorem exists_idxOf? [DecidableEq α] {l : List α} {a : α} (h : a ∈ l) :
    ∃ k, l.idxOf? a = some k := by
  cases hk : l.idxOf? a with
  | none => exact absurd h (List.idxOf?_eq_none_iff.1 hk)
  | some k => exact ⟨k, rfl⟩

end Known

/-- Listed blocks and what is linked there correspond, and the same is printed of both. -/
structure Matching (β : BlockId → BlockId) (ι : InstId → InstId) (body : Body)
    (rows : BlockId → List Row) (body' : Body) (rows' : BlockId → List Row) : Prop where
  blocks : body'.blocks = body.blocks.map β
  parts : ∀ b ∈ body.blocks, body'.part rows' (β b) = body.part rows b
  ids : ∀ b ∈ body.blocks, (rows' (β b)).map Prod.fst = ((rows b).map Prod.fst).map ι

/-- Where the same is printed, blocks and instructions correspond. -/
theorem exists_matching (h : body'.listing rows' = body.listing rows) (hs : body.code.Shows rows)
    (hn : body.blocks.Nodup) : ∃ β ι, Matching β ι body rows body' rows' := by
  have hlisted := congrArg List.length h
  rw [listing, listing, List.length_map, List.length_map] at hlisted
  obtain ⟨β, hβ⟩ := exists_map hn hlisted
  have hparts : ∀ b ∈ body.blocks, body'.part rows' (β b) = body.part rows b := by
    rw [listing, listing, hβ, List.map_map] at h
    exact List.map_inj_left.1 h
  have hlen : ∀ b ∈ body.blocks, (rows' (β b)).length = (rows b).length := by
    intro b hb
    have hsteps := congrArg (fun p => p.steps.length) (hparts b hb)
    simpa [part] using hsteps
  have hids : body'.linkedIds rows' = body.blocks.flatMap fun b => (rows' (β b)).map Prod.fst := by
    rw [linkedIds, hβ, List.flatMap_map]
  have hlinked : (body'.linkedIds rows').length = (body.linkedIds rows).length := by
    rw [hids, linkedIds, List.length_flatMap, List.length_flatMap]
    congr 1
    exact List.map_congr_left fun b hb => by simp [hlen b hb]
  obtain ⟨ι, hι⟩ := exists_map (linkedIds_nodup hs hn) hlinked
  refine ⟨β, ι, hβ, hparts, groups_eq ?_ fun b hb => by simp [hlen b hb]⟩
  rw [← hids, hι, linkedIds, List.map_flatMap]

namespace Matching

variable (h : Matching β ι body rows body' rows')

include h

/-- What is printed of an instruction is printed of the one that corresponds. -/
theorem steps (hb : b ∈ body.blocks) :
    (rows' (β b)).map (fun r => (r.1, (body'.numbering rows').step r.1 r.2)) =
      (rows b).map fun r => (ι r.1, (body.numbering rows).step r.1 r.2) := by
  have hsteps : (rows' (β b)).map (fun r => (body'.numbering rows').step r.1 r.2) =
      (rows b).map fun r => (body.numbering rows).step r.1 r.2 :=
    congrArg Listing.Part.steps (h.parts b hb)
  have hids := h.ids b hb
  rw [List.map_map] at hids
  rw [← List.zip_map', ← List.zip_map', hsteps]
  exact congrArg (List.zip · _) hids

/-- A result and the one that corresponds have the same number: it is printed where they are
computed. -/
theorem number_eq (hb : b ∈ body.blocks) (hr : r ∈ rows b) {ty : ScalarType}
    (hty : r.2.ty = some ty) : (body'.numbering rows').results.idxOf? (ι r.1) =
      (body.numbering rows).results.idxOf? r.1 := by
  have hmem : (ι r.1, (body.numbering rows).step r.1 r.2) ∈
      (rows' (β b)).map fun r => (r.1, (body'.numbering rows').step r.1 r.2) := by
    rw [h.steps hb]
    exact List.mem_map.2 ⟨r, hr, rfl⟩
  obtain ⟨r', -, e⟩ := List.mem_map.1 hmem
  obtain ⟨hid, hstep⟩ := Prod.mk.inj e
  have hresult := congrArg Listing.Step.result hstep
  simp only [Names.step, hty, Option.map_some] at hresult
  obtain ⟨ty', -, hpair⟩ := Option.map_eq_some_iff.1 hresult
  rw [← hid]
  exact (Prod.mk.inj hpair).1

/-- What is used corresponds if the same is printed of it. -/
theorem value_eq (hs : body.code.Shows rows) (hl : body.Legible) {v v' : Value}
    (hv : body.Uses v)
    (e : (body'.numbering rows').operand v' = (body.numbering rows).operand v) :
    v' = v.rename ι := by
  cases v with
  | const c =>
    cases v' with
    | const c' => rw [Listing.Operand.const.inj e, Value.rename]
    | result id' => cases e
  | result id =>
    cases v' with
    | const c' => cases e
    | result id' =>
      obtain ⟨b, k, i, ty, hk, hi, hty⟩ := hl.results id hv
      obtain ⟨hb, j, hj⟩ := (linkedAt_iff hs).1 hk
      have hr := List.mem_of_getElem? hj
      obtain rfl : j = i := Except.ok.inj ((hs.inst hr).symm.trans hi)
      have htyped : (id, j) ∈ (rows b).filter (·.2.ty.isSome) :=
        List.mem_filter.2 ⟨hr, by rw [hty]; rfl⟩
      have hmem : id ∈ (body.numbering rows).results :=
        List.mem_flatMap.2 ⟨b, hb, List.mem_map_of_mem (f := Prod.fst) htyped⟩
      obtain ⟨l, hpos⟩ := exists_idxOf? hmem
      have hpos' := (h.number_eq hb hr hty).trans hpos
      rw [eq_of_idxOf? hpos' ((Listing.Operand.result.inj e).trans hpos), Value.rename]

theorem values_eq (hs : body.code.Shows rows) (hl : body.Legible) {vs vs' : List Value}
    (hvs : ∀ v ∈ vs, body.Uses v) (e : vs'.map (body'.numbering rows').operand =
      vs.map (body.numbering rows).operand) : vs' = vs.map (Value.rename ι) :=
  Text.map_known (fun v hv _ _ => h.value_eq hs hl (hvs v hv)) e

/-- Instructions correspond with all that belongs to them. -/
theorem rows_eq (hs : body.code.Shows rows) (hl : body.Legible) (hb : b ∈ body.blocks) :
    rows' (β b) = (rows b).map (Row.rename ι) := by
  refine Text.map_known (fun r hr r' _ e => ?_) (h.steps hb)
  obtain ⟨hid, hstep⟩ := Prod.mk.inj e
  obtain ⟨k, hk⟩ := linkedAt_of_mem hs hb hr
  obtain ⟨id', kind', inputs', ty'⟩ := r'
  obtain ⟨hkind, hinputs, hresult⟩ := Listing.Step.mk.inj hstep
  have hty : ty' = r.2.ty := by
    have hmap := congrArg (Option.map Prod.snd) hresult
    simpa [Function.comp_def] using hmap
  have hinputs' : inputs' = r.2.inputs.map (Value.rename ι) :=
    h.values_eq hs hl (fun v hv => .inst hk (hs.inst hr) hv) hinputs
  rw [show id' = ι r.1 from hid, show kind' = r.2.kind from hkind, hty, hinputs']
  rfl

/-- Terminators correspond with all that belongs to them. -/
theorem terminator_eq (hs : body.code.Shows rows) (hl : body.Legible) (hn : body'.blocks.Nodup)
    (hb : b ∈ body.blocks) {t t' : Terminator} (ht : body.code.terminator? b = some t)
    (ht' : body'.code.terminator? (β b) = some t') : t' = t.rename β ι := by
  have hexit : (body'.numbering rows').exit t' = (body.numbering rows).exit t := by
    have hpart := congrArg Listing.Part.exit (h.parts b hb)
    simpa only [part, ht, ht', Option.getD_some] using hpart
  obtain ⟨kind', inputs', targets'⟩ := t'
  obtain ⟨hkind, hinputs, htargets⟩ := Listing.Exit.mk.inj hexit
  have hinputs' : inputs' = t.inputs.map (Value.rename ι) :=
    h.values_eq hs hl (fun v hv => .terminator hb ht hv) hinputs
  have htargets' : targets' = t.targets.map β := by
    refine Text.map_known (fun d hd d' _ e => ?_) htargets
    have hmem := hl.targets b hb t ht d hd
    obtain ⟨k, hk⟩ := exists_idxOf? hmem
    have hinjective := List.inj_on_of_nodup_map (h.blocks ▸ hn)
    have hk' : body'.blocks.idxOf? (β d) = some k := by
      rw [h.blocks, idxOf?_map fun x hx e => hinjective hx hmem e, hk]
    exact eq_of_idxOf? hk' (e.trans hk)
  rw [show kind' = t.kind from hkind, hinputs', htargets']
  rfl

/-- **Bodies of which the same is printed are the same under other identities.** -/
theorem isRenaming (hs : body.code.Shows rows) (hs' : body'.code.Shows rows') (hl : body.Legible)
    (hn : body'.blocks.Nodup) (listed : body.Listed) (listed' : body'.Listed) :
    Renaming β ι body body' := by
  refine .of_rows hs hs' listed hn h.blocks (fun b hb => h.rows_eq hs hl hb) fun b hb => ?_
  obtain ⟨blk, hblk⟩ := listed b hb
  obtain ⟨blk', hblk'⟩ := listed' (β b) (h.blocks ▸ List.mem_map_of_mem hb)
  have ht : body.code.terminator? b = some blk.terminator := by
    rw [Code.terminator?, hblk, Option.map_some]
  have ht' : body'.code.terminator? (β b) = some blk'.terminator := by
    rw [Code.terminator?, hblk', Option.map_some]
  exact ⟨blk.terminator, ht, ht'.trans (congrArg some (h.terminator_eq hs hl hn hb ht ht'))⟩

end Matching

/-! ## From the text to the listing -/

namespace Legible

/-- What is printed of a legible body stands for it, block by block. -/
theorem plain (hl : body.Legible) (hs : body.code.Shows rows) (listed : body.Listed) :
    ∀ p ∈ body.listing rows, p.Plain := by
  have hoperand : ∀ (n : Names) (vs : List Value), (∀ v ∈ vs, body.Uses v) →
      ∀ o ∈ vs.map n.operand, o.Plain := by
    intro n vs hvs o ho c hc
    obtain ⟨v, hv, rfl⟩ := List.mem_map.1 ho
    cases v with
    | const c' =>
      obtain rfl := Listing.Operand.const.inj hc
      exact hl.consts _ (hvs _ hv)
    | result id => cases hc
  intro p hp
  obtain ⟨b, hb, rfl⟩ := List.mem_map.1 hp
  constructor
  · intro s hstep
    obtain ⟨r, hr, rfl⟩ := List.mem_map.1 hstep
    obtain ⟨k, hk⟩ := linkedAt_of_mem hs hb hr
    exact ⟨hl.written b k r.1 r.2 hk (hs.inst hr),
      hoperand _ r.2.inputs fun v hv => .inst hk (hs.inst hr) hv⟩
  · obtain ⟨blk, hblk⟩ := listed b hb
    have ht : body.code.terminator? b = some blk.terminator := by
      rw [Code.terminator?, hblk, Option.map_some]
    show ((body.numbering rows).exit ((body.code.terminator? b).getD .ret)).Plain
    rw [ht, Option.getD_some]
    exact hoperand _ _ fun v hv => .terminator hb ht hv

/-- **Two legible bodies have the same text if and only if they are the same under other
identities.** -/
theorem text_eq_iff (hl : body.Legible) (hl' : body'.Legible) :
    (∃ s, body.text = .ok s ∧ body'.text = .ok s) ↔ ∃ β ι, Renaming β ι body body' := by
  obtain ⟨rows, hs⟩ := hl.linked.exists_shows
  obtain ⟨rows', hs'⟩ := hl'.linked.exists_shows
  constructor
  · rintro ⟨s, hs₁, hs₂⟩
    have listed := listed_of_text hl.distinct hs₁
    have listed' := listed_of_text hl'.distinct hs₂
    rw [text_eq hs hl.distinct listed] at hs₁
    rw [text_eq hs' hl'.distinct listed'] at hs₂
    have htext := Except.ok.inj (hs₂.trans hs₁.symm)
    have hlisting := Listing.text_injective (hl'.plain hs' listed') (hl.plain hs listed) htext
    obtain ⟨β, ι, hmatching⟩ := exists_matching hlisting hs hl.distinct
    exact ⟨β, ι, hmatching.isRenaming hs hs' hl hl'.distinct listed listed'⟩
  · rintro ⟨β, ι, h⟩
    obtain ⟨listed, listed'⟩ := h.listed
    have hrecast : Recast β ι body rows body' rows' := by
      refine h.recast hs hs' hl.targets fun id hid => ?_
      obtain ⟨b, k, _, _, hk, -⟩ := hl.results id hid
      exact ⟨b, k, hk⟩
    refine ⟨_, text_eq hs hl.distinct listed, ?_⟩
    rw [text_eq hs' hl'.distinct listed', hrecast.listing_eq]

end Legible

end Body

namespace Module

variable {m m' : Module} {f f' : FuncId} {decl decl' : FuncDecl} {body body' : Body} {s : String}

/-- The text of a function that is present. -/
theorem funcText_eq_ok (hdecl : m.funcs.get? f = some decl) (himpl : decl.impl = .present body) :
    m.funcText f = .ok s ↔ ∃ t, body.text = .ok t ∧
      Text.line ("func " ++ decl.name ++ " \x7b") ++ t ++ Text.line "\x7d" = s := by
  rw [funcText, Defs.find_of_get? hdecl, ok_bind, FuncDecl.text, himpl]
  constructor
  · intro h
    obtain ⟨t, ht, e⟩ := bind_eq_ok.1 h
    exact ⟨t, ht, Except.ok.inj e⟩
  · rintro ⟨t, ht, rfl⟩
    simp only [ht, ok_bind, pure_eq_ok]

/-- **Two functions of the same name have the same text if and only if their bodies are the same
under other identities**, if what is printed of both bodies stands for them. -/
theorem funcText_eq_iff (hdecl : m.funcs.get? f = some decl) (himpl : decl.impl = .present body)
    (hdecl' : m'.funcs.get? f' = some decl') (himpl' : decl'.impl = .present body')
    (name : decl.name = decl'.name) (legible : body.Legible) (legible' : body'.Legible) :
    (∃ s, m.funcText f = .ok s ∧ m'.funcText f' = .ok s) ↔
      ∃ β ι, Body.Renaming β ι body body' := by
  rw [← legible.text_eq_iff legible']
  constructor
  · rintro ⟨s, h, h'⟩
    obtain ⟨t, ht, rfl⟩ := (funcText_eq_ok hdecl himpl).1 h
    obtain ⟨t', ht', e⟩ := (funcText_eq_ok hdecl' himpl').1 h'
    rw [name, String.append_left_inj, String.append_right_inj] at e
    subst e
    exact ⟨t', ht, ht'⟩
  · rintro ⟨t, ht, ht'⟩
    exact ⟨_, (funcText_eq_ok hdecl himpl).2 ⟨t, ht, rfl⟩,
      (funcText_eq_ok hdecl' himpl').2 ⟨t, ht', by rw [name]⟩⟩

end Module

/-- A block that is repeated while an input is below one half, under given identities. -/
def Body.sampleRepeat (b : BlockId) (x y : InstId) : Body where
  code :=
    { blocks := ⟨[(b, ⟨.ofList [x, y], .branchIf (.result y) b b⟩)]⟩
      insts := ⟨[
        (x, ⟨none, some y, ⟨.intrinsic (.loadInput 3), [], some .f32⟩⟩),
        (y, ⟨some x, none, ⟨.alu .flt,
          [.result x, .const (.ofScalar (.truncate .f32 0x3f000000))], some .bool⟩⟩)]⟩ }
  blocks := [b]
  cache := .empty

/-- The rows of the repeated block. -/
def Body.repeatRows (x y : InstId) : List Row :=
  [(x, ⟨.intrinsic (.loadInput 3), [], some .f32⟩),
    (y, ⟨.alu .flt, [.result x, .const (.ofScalar (.truncate .f32 0x3f000000))], some .bool⟩)]

/-- A module with the repeated block only. -/
def Module.sampleRepeat (b : BlockId) (x y : InstId) : Module where
  info := .fragment
  funcs := ⟨[(⟨0⟩, ⟨"main", .present (.sampleRepeat b x y)⟩)]⟩
  allFuncs := [⟨0⟩]
  freshFuncs := ⟨1⟩
  freshBlocks := ⟨8⟩
  freshInsts := ⟨8⟩

namespace Body

variable {b : BlockId} {x y : InstId}

theorem sampleRepeat_shows (h : x ≠ y) : (sampleRepeat b x y).code.Shows fun d =>
    if d = b then repeatRows x y else [] := by
  have hchain : ∀ d, (sampleRepeat b x y).code.chainOf d =
      if d = b then .ofList [x, y] else .empty := by
    intro d
    rw [Code.chainOf, sampleRepeat, Defs.get?_cons]
    by_cases hd : d = b
    · simp [hd]
    · simp [hd, Defs.get?]
  have hget : ∀ z, (sampleRepeat b x y).code.insts.get? z =
      if z = x then some ⟨none, some y, ⟨.intrinsic (.loadInput 3), [], some .f32⟩⟩
      else if z = y then some ⟨some x, none, ⟨.alu .flt,
        [.result x, .const (.ofScalar (.truncate .f32 0x3f000000))], some .bool⟩⟩
      else none := by
    intro z
    rw [sampleRepeat, Defs.get?_cons, Defs.get?_cons]
    rfl
  refine ⟨⟨fun d => ?_, fun d => ?_, fun d => ?_, fun d d' hne z hz hz' => ?_⟩, fun d r hr => ?_⟩
  · rw [hchain]
    split <;> rfl
  · split
    · refine ⟨⟨⟨.intrinsic (.loadInput 3), [], some .f32⟩, ?_⟩, ⟨⟨.alu .flt,
        [.result x, .const (.ofScalar (.truncate .f32 0x3f000000))], some .bool⟩, ?_⟩, trivial⟩
      · rw [hget, if_pos rfl]
        rfl
      · rw [hget, if_neg h.symm, if_pos rfl]
        rfl
    · trivial
  · split
    · simp [repeatRows, h]
    · simp
  · split at hz <;> split at hz'
    · exact hne (by simp_all)
    · cases hz'
    · cases hz
    · cases hz
  · split at hr
    · rcases List.mem_pair.1 hr with rfl | rfl
      · simp [hget]
      · simp [hget, h.symm]
    · cases hr

theorem sampleRepeat_legible (h : x ≠ y) : (sampleRepeat b x y).Legible := by
  have hs := sampleRepeat_shows (b := b) h
  have hlinked : ∀ d k id i, (sampleRepeat b x y).LinkedAt d k id →
      (sampleRepeat b x y).code.inst id = .ok i → (id, i) ∈ repeatRows x y := by
    intro d k id i hk hi
    obtain ⟨hd, j, hj⟩ := (linkedAt_iff hs).1 hk
    obtain rfl := List.mem_singleton.1 hd
    have hr := List.mem_of_getElem? hj
    rw [hs.inst hr] at hi
    cases hi
    simpa using hr
  have hends : ∀ d t, (sampleRepeat b x y).code.terminator? d = some t →
      t = .branchIf (.result y) b b := by
    intro d t ht
    rw [Code.terminator?, sampleRepeat, Defs.get?_cons] at ht
    split at ht
    · cases ht
      rfl
    · cases ht
  have huses : ∀ v, (sampleRepeat b x y).Uses v →
      v ∈ [.result x, .result y, .const (.ofScalar (.truncate .f32 0x3f000000))] := by
    rintro v (⟨hk, hi, hv⟩ | ⟨-, ht, hv⟩)
    · have hr := hlinked _ _ _ _ hk hi
      rcases List.mem_pair.1 hr with e | e
      · cases e
        cases hv
      · cases e
        simp only [List.mem_cons] at hv ⊢
        tauto
    · rw [hends _ _ ht] at hv
      simp only [Terminator.branchIf, List.mem_cons] at hv ⊢
      tauto
  have hrow : ∀ r ∈ repeatRows x y, ∃ k, (sampleRepeat b x y).LinkedAt b k r.1 ∧
      (sampleRepeat b x y).code.inst r.1 = .ok r.2 := by
    intro r hr
    have hmem : r ∈ if b = b then repeatRows x y else [] := by simpa using hr
    obtain ⟨k, hk⟩ := linkedAt_of_mem hs (List.mem_singleton_self b) hmem
    exact ⟨k, hk, hs.inst hmem⟩
  refine ⟨⟨_, hs.layout⟩, List.nodup_singleton b, fun id hid => ?_, fun c hc => ?_,
    fun d _ t ht c hc => ?_, fun d k id i hk hi set e => ?_⟩
  · obtain ⟨kx, hkx, hx⟩ := hrow _ (List.mem_cons_self ..)
    obtain ⟨ky, hky, hy⟩ := hrow _ (List.mem_cons_of_mem _ (List.mem_singleton_self _))
    have hmem := huses _ hid
    simp only [List.mem_cons, Value.result.injEq, reduceCtorEq, List.not_mem_nil, or_false] at hmem
    rcases hmem with rfl | rfl
    · exact ⟨b, kx, _, .f32, hkx, hx, rfl⟩
    · exact ⟨b, ky, _, .bool, hky, hy, rfl⟩
  · have hmem := huses _ hc
    simp only [List.mem_cons, Value.const.injEq, reduceCtorEq, List.not_mem_nil, or_false,
      false_or] at hmem
    subst hmem
    intro s e
    cases e
    exact ⟨rfl, by unfold Scalar.NotNan; decide⟩
  · rw [hends d t ht] at hc
    simpa [Terminator.branchIf, sampleRepeat] using hc
  · rcases List.mem_pair.1 (hlinked d k id i hk hi) with e' | e' <;> cases e' <;> cases e

end Body

/-- The repeated block is printed in the same way under any identities, and is known from what is
printed. -/
theorem Module.sampleRepeat_funcText :
    (∃ s, (sampleRepeat ⟨0⟩ ⟨0⟩ ⟨1⟩).funcText ⟨0⟩ = .ok s ∧
      (sampleRepeat ⟨5⟩ ⟨4⟩ ⟨2⟩).funcText ⟨0⟩ = .ok s) ∧
    ∃ β ι, Body.Renaming β ι (.sampleRepeat ⟨0⟩ ⟨0⟩ ⟨1⟩) (.sampleRepeat ⟨5⟩ ⟨4⟩ ⟨2⟩) := by
  have htext : ∃ s, (sampleRepeat ⟨0⟩ ⟨0⟩ ⟨1⟩).funcText ⟨0⟩ = .ok s ∧
      (sampleRepeat ⟨5⟩ ⟨4⟩ ⟨2⟩).funcText ⟨0⟩ = .ok s := ⟨_, rfl, rfl⟩
  have hdecl : ∀ b x y, (sampleRepeat b x y).funcs.get? ⟨0⟩ =
      some ⟨"main", .present (.sampleRepeat b x y)⟩ := fun _ _ _ => rfl
  exact ⟨htext, (funcText_eq_iff (hdecl ⟨0⟩ ⟨0⟩ ⟨1⟩) rfl (hdecl ⟨5⟩ ⟨4⟩ ⟨2⟩) rfl rfl
    (Body.sampleRepeat_legible (by decide)) (Body.sampleRepeat_legible (by decide))).1 htext⟩

end ShaderIR
