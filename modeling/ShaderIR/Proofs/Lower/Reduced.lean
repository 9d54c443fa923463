import ShaderIR.Proofs.Lower.Consolidation
import ShaderIR.Proofs.Lower.Interchange

/-!
# Bodies whose stores have been merged and whose discards have been replaced

* `Body.Replaced`: the discards of a body have been replaced, as `Body.Consolidated` says that its
  stores have been merged.
* `Body.Reduced`: both has been done to a body.
* `Body.KeepsAnalyses`: what is kept of the analyses if what is of some kind is taken away.
* `Body.Merged`, `Body.Masked`: what each of the lowerings has done to a body.

Principal statements: `Body.Consolidated.reduced` and `Body.Replaced.reduced` (either order leads to
a body that is reduced), `Body.Reduced.text_eq` (all bodies that come of a body in this way have one
text) and `Body.Sound.either_order`.
-/

namespace ShaderIR

namespace Body

/-- All discards in the listed blocks of a body have been replaced, with new identities from `n` on,
and nothing else has changed. -/
structure Replaced (all nothing : Value) (n : Nat) (body body' : Body) : Prop where
  blocks : body'.blocks = body.blocks
  flow : body.code.SameFlow body'.code
  rows : ∃ rows rows', body.code.Shows rows ∧ body'.code.Shows rows' ∧
    (∀ b ∈ body.blocks, ∃ choice kill : InstId → InstId, (∀ x, n ≤ (choice x).index) ∧
      (∀ x, n ≤ (kill x).index) ∧ rows' b = Discard.reference all nothing choice kill (rows b)) ∧
    ∀ b, b ∉ body.blocks → rows' b = rows b

/-- In the listed blocks of a body, all stores have been merged and all discards replaced, with new
identities from `n` on. -/
structure Reduced (all nothing : Constant) (n : Nat) (body body' : Body) : Prop where
  blocks : body'.blocks = body.blocks
  flow : body.code.SameFlow body'.code
  rows : ∃ rows rows', body.code.Shows rows ∧ body'.code.Shows rows' ∧
    ∀ b ∈ body.blocks, Reduces body.code all nothing n (rows b) (rows' b)

/-- All analyses have been kept if there was nothing of a kind, and else those of the flow. -/
structure KeepsAnalyses (P : Inst → Prop) (body body' : Body) : Prop where
  all : body.Free P → body'.cache = body.cache
  flow : ¬ body.Free P → body'.cache = body.cache.preserve .flowOnly

/-- What merging the stores of a body has done to it. -/
structure Merged (mask : Value) (n : Nat) (body body' : Body) : Prop where
  consolidated : body.Consolidated mask n body'
  keeps : body.KeepsAnalyses Inst.Stores body'
  rewritten : body.Rewritten Inst.Stores n body'

/-- What replacing the discards of a body by masks has done to it. -/
structure Masked (all nothing : Value) (n : Nat) (body body' : Body) : Prop where
  replaced : body.Replaced all nothing n body'
  keeps : body.KeepsAnalyses Inst.IsDiscard body'
  rewritten : body.Rewritten Inst.IsDiscard n body'

variable {body body' body'' : Body} {rows rows' : BlockId → List Row} {s s' : Supply .inst}
  {R : Rules} {c : Bool} {P : Inst → Prop} {n n' : Nat} {all nothing : Constant} {mask : Value}

/-! ## What runs have done -/

/-- The rows that a sound body shows are valid. -/
theorem Sound.stands (h : body.Sound R s) (hrows : body.code.Shows rows) :
    (body.workspace s).Stands body.flow R (body.workspace s) rows ∧ body.flow.Untyped rows := by
  obtain ⟨-, -, rows', hstands, hu⟩ := h
  obtain rfl := hrows.rows_eq hstands.shows
  exact ⟨hstands, hu⟩

theorem Sound.linked (h : body.Sound R s) : body.Linked s := by
  obtain ⟨-, -, rows, hstands, -⟩ := h
  exact ⟨⟨_, hstands.shows.layout⟩, hstands.issued⟩

theorem Swept.keepsAnalyses {ε : Type} {B : Nat → List Row → List Row → Except ε Bool → Prop}
    (h : Swept B s body s' body' (.ok c)) (hc : c = true ↔ ¬ body.Free P) :
    body.KeepsAnalyses P body' := by
  refine ⟨fun hfree => ?_, fun hfree => ?_⟩
  · obtain rfl : c = false := by simpa [hfree] using hc
    rw [(h.same rfl).2]
  · obtain rfl : c = true := hc.2 hfree
    exact h.cache

/-- What is clear is left as it is. -/
theorem Swept.idle {ε : Type} {B : Nat → List Row → List Row → Except ε Bool → Prop}
    (h : Swept B s body s' body' (.ok c)) (hc : c = true ↔ ¬ body.Free P) (hfree : body.Free P) :
    body' = body := by
  obtain rfl : c = false := by simpa [hfree] using hc
  exact (h.same rfl).2

theorem Swept.replaced {all nothing : Value}
    (h : Swept (Discard.Sweep all nothing) s body s' body' (.ok c : Except LowerError Bool))
    (distinct : body.blocks.Nodup) : body.Replaced all nothing s.next body' := by
  obtain ⟨rows, rows', hrows, hd, hsweeps⟩ := h.rows
  refine ⟨h.blocks, hd.flow, rows, rows', hrows, hd.shows, fun b hb => ?_,
    fun b hb => hsweeps.others hb⟩
  obtain ⟨here, hsweep⟩ := hsweeps.single distinct rfl b hb
  exact hsweep.rows

/-- Where the merging of stores has gone through, no aspect was stored twice. -/
theorem Swept.storesOnce
    (h : Swept (DepthStencil.Sweep mask) s body s' body' (.ok c : Except Aspect Bool))
    (distinct : body.blocks.Nodup) : body.StoresOnce := by
  obtain ⟨rows, rows', hrows, -, hsweeps⟩ := h.rows
  intro b hb rs hrs
  obtain ⟨blk, hblk⟩ := h.listed c rfl b hb
  obtain rfl := Except.ok.inj ((hrows.rowsOf hblk).symm.trans hrs)
  obtain ⟨here, hsweep⟩ := hsweeps.single distinct rfl b hb
  exact hsweep.nodup

/-- The rows of a body whose stores have been merged. -/
theorem Consolidated.consolidates (h : body.Consolidated mask n body')
    (hrows : body.code.Shows rows) (hrows' : body'.code.Shows rows') :
    ∀ b ∈ body.blocks, DepthStencil.Consolidates body.code mask n (rows b) (rows' b) := by
  intro b hb
  obtain ⟨rs, out, hrs, hout, hc⟩ := h.listed b hb
  obtain ⟨ids, hids, -⟩ := bind_eq_ok.1 hrs
  obtain ⟨blk, hblk, -⟩ := bind_eq_ok.1 hids
  have hblk := Defs.find_eq_ok.1 hblk
  obtain ⟨blk', hblk', -⟩ := h.flow.get? hblk
  obtain rfl := Except.ok.inj ((hrows.rowsOf hblk).symm.trans hrs)
  obtain rfl := Except.ok.inj ((hrows'.rowsOf hblk').symm.trans hout)
  exact hc

theorem Replaced.mono {all nothing : Value} (h : body.Replaced all nothing n body') (hn : n' ≤ n) :
    body.Replaced all nothing n' body' := by
  obtain ⟨rows, rows', hrows, hrows', hlisted, hothers⟩ := h.rows
  refine ⟨h.blocks, h.flow, rows, rows', hrows, hrows', fun b hb => ?_, hothers⟩
  obtain ⟨choice, kill, hchoice, hkill, hout⟩ := hlisted b hb
  exact ⟨choice, kill, fun x => hn.trans (hchoice x), fun x => hn.trans (hkill x), hout⟩

/-- **Stores are merged, and then discards are replaced.** -/
theorem Consolidated.reduced (h : body.Consolidated (.const all) n body')
    (h' : body'.Replaced (.const all) (.const nothing) n body'') (linked : body.ChainsLinked) :
    body.Reduced all nothing n body'' := by
  obtain ⟨rows₁, rows₂, hrows₁, hrows₂, hlisted, -⟩ := h'.rows
  obtain ⟨rows, hrows⟩ := linked.exists_shows
  refine ⟨h'.blocks.trans h.blocks, h.flow.trans h'.flow, rows, rows₂, hrows, hrows₂,
    fun b hb => ?_⟩
  obtain ⟨conv, z, hconv, hz, hmerged⟩ := h.consolidates hrows hrows₁ b hb
  obtain ⟨choice, kill, hchoice, hkill, hout⟩ := hlisted b (h.blocks ▸ hb)
  exact ⟨conv, choice, kill, z, hconv, hchoice, hkill, hz, by rw [hout, hmerged]⟩

/-- What is stored keeps its type once discards have been replaced. -/
theorem Replaced.typeOf_eq {all nothing : Value} (h : body.Replaced all nothing n body')
    (sound : body.Sound R s) (hrows : body.code.Shows rows) {b : BlockId} (hb : b ∈ body.blocks)
    {r : Row} (hr : r ∈ rows b) {v : Value} (hv : v ∈ r.2.inputs) :
    body'.code.typeOf v = body.code.typeOf v := by
  obtain ⟨hstands, untyped⟩ := sound.stands hrows
  obtain ⟨rows₁, rows', hrows₁, hrows', hlisted, hothers⟩ := h.rows
  obtain rfl := hrows.rows_eq hrows₁
  have hyields : ∀ d x ty, Yields (rows d) x ty → Yields (rows' d) x ty := by
    intro d x ty hy
    by_cases hd : d ∈ body.blocks
    · obtain ⟨choice, kill, -, -, hout⟩ := hlisted d hd
      rw [hout]
      exact Discard.yields_reference (fun q hq hdiscard => untyped d hd q hq (.inr hdiscard)) hy
    · rwa [hothers d hd]
  obtain ⟨p, q, hsplit⟩ := List.append_of_mem hr
  obtain ⟨ty, hty⟩ := (hstands.user hb (x := r.1) (i := r.2) hsplit).hasType hv
  have hprefix : ∀ x ty, Yields p x ty → Yields (rows' b) x ty := by
    intro x ty hy
    apply hyields
    rw [hsplit, Flow.yields_append]
    exact .inl hy
  have hty' := hty.mono hprefix hyields
  rw [hty.typeOf hrows hsplit, hty'.typeOf hrows' (List.append_nil _).symm]

/-- **Discards are replaced, and then stores are merged.** -/
theorem Replaced.reduced (h : body.Replaced (.const all) (.const nothing) n body')
    (h' : body'.Consolidated (.const all) n body'') (sound : body.Sound R s) :
    body.Reduced all nothing n body'' := by
  obtain ⟨rows, rows₁, hrows, hrows₁, hlisted, -⟩ := id h.rows
  obtain ⟨rows₂, hrows₂⟩ := h'.linked.exists_shows
  refine ⟨h'.blocks.trans h.blocks, h.flow.trans h'.flow, rows, rows₂, hrows, hrows₂,
    fun b hb => ?_⟩
  obtain ⟨choice, kill, hchoice, hkill, hreplaced⟩ := hlisted b hb
  obtain ⟨conv, z, hconv, hz, hout⟩ := h'.consolidates hrows₁ hrows₂ b (h.blocks ▸ hb)
  have htypes : ∀ r ∈ rows₁ b, r.2.Stores → ∀ v, r.2.inputs = [v] →
      body'.code.typeOf v = body.code.typeOf v := by
    intro r hr hstores v hv
    rw [hreplaced] at hr
    have hold := Discard.mem_of_isLowered hr (.inl hstores)
    exact h.typeOf_eq sound hrows hb hold (by simp [hv])
  refine ⟨conv, choice, kill, z, hconv, hchoice, hkill, hz, ?_⟩
  rw [hout, DepthStencil.reference_congr_type htypes, hreplaced, DepthStencil.reference_discards]

/-! ## Texts -/

theorem Sound.listed (h : body.Sound R s) : body.Listed := by
  obtain ⟨-, -, rows, hstands, -⟩ := h
  exact fun b hb => hstands.get? rfl hb

theorem Sound.exists_text (h : body.Sound R s) : ∃ t, body.text = .ok t := by
  obtain ⟨rows, hrows⟩ := h.linked.chains.exists_shows
  exact ⟨_, Body.text_eq hrows h.1 h.listed⟩

/-- All that is in a sound body, or used there, has got its identity before. -/
theorem Sound.older (h : body.Sound R s) (hrows : body.code.Shows rows) :
    ∀ b ∈ body.blocks, Older s.next (rows b) ∧ ∀ t, body.code.terminator? b = some t →
      ∀ x, .result x ∈ t.inputs → x.index < s.next := by
  obtain ⟨hstands, -⟩ := h.stands hrows
  have hrow : ∀ {d r}, r ∈ rows d → r.1.index < s.next := by
    intro d r hr
    obtain ⟨node, hnode, -⟩ := hrows.get? hr
    exact hstands.issued r.1 node hnode
  have hresult : ∀ {b p q x ty}, rows b = p ++ q → body.flow.HasType rows b p (.result x) ty →
      x.index < s.next := by
    rintro b p q x ty hb (⟨i, hi, -⟩ | ⟨d, -, -, -, i, hi, -⟩)
    · exact hrow (d := b) (r := (x, i)) (by simp [hb, hi])
    · exact hrow hi
  intro b hb
  refine ⟨fun r hr => ⟨hrow hr, fun x hx => ?_⟩, fun t ht x hx => ?_⟩
  · obtain ⟨p, q, hsplit⟩ := List.append_of_mem hr
    obtain ⟨ty, hty⟩ := (hstands.user hb (x := r.1) (i := r.2) hsplit).hasType hx
    exact hresult hsplit hty
  · obtain ⟨-, t', ht', hleaves⟩ := hstands.valid b hb
    obtain rfl := Option.some.inj (ht.symm.trans ht')
    obtain ⟨ty, hty⟩ := hleaves.hasType hx
    exact hresult (List.append_nil _).symm hty

theorem linkedIds_map {ι : InstId → InstId} (hblocks : body'.blocks = body.blocks)
    (hrows : ∀ b ∈ body.blocks, rows' b = (rows b).map (Row.rename ι)) :
    body'.linkedIds rows' = (body.linkedIds rows).map ι := by
  unfold linkedIds
  rw [hblocks, List.map_flatMap]
  apply List.flatMap_congr
  intro b hb
  rw [hrows b hb, List.map_map, List.map_map]
  rfl

/-- The rows of a body once it has been lowered, with an identity for every role. -/
def loweredRows (body : Body) (all nothing : Constant) (n : Nat) (rows : BlockId → List Row) :
    BlockId → List Row :=
  fun b => lowered body.code all nothing (Role.fresh n) b (rows b)

/-- What has been made of a body are the lowered rows under other identities. -/
theorem Reduced.recast (h : body.Reduced all nothing s.next body') (sound : body.Sound R s)
    (hrows : body.code.Shows rows) (hrows' : body'.code.Shows rows') :
    ∃ ι, Recast id ι body (body.loweredRows all nothing s.next rows) body' rows' := by
  obtain ⟨rows₁, rows₂, hrows₁, hrows₂, hreduces⟩ := h.rows
  obtain rfl := hrows.rows_eq hrows₁
  obtain rfl := hrows'.rows_eq hrows₂
  obtain ⟨name, hname, hlowered⟩ := exists_names hreduces
  have holder := sound.older hrows
  have hrecast : ∀ b ∈ body.blocks, rows' b =
      (body.loweredRows all nothing s.next rows b).map (Row.rename (Role.carry s.next name)) :=
    fun b hb => (hlowered b hb).trans (lowered_rename (holder b hb).1).symm
  have hdistinct : body'.blocks.Nodup := h.blocks ▸ sound.1
  have hnodup := linkedIds_nodup hrows' hdistinct
  rw [linkedIds_map h.blocks hrecast] at hnodup
  refine ⟨Role.carry s.next name, by rw [h.blocks, List.map_id], hrecast, fun b hb => ?_,
    fun d _ b _ e => e, fun x hx y hy e => ?_⟩
  · rw [id, h.flow b]
    cases ht : body.code.terminator? b with
    | none => rfl
    | some t =>
      have hinputs : t.inputs.map (Value.rename (Role.carry s.next name)) = t.inputs :=
        map_rename_eq_self fun v hv => rename_carry fun x hx => (holder b hb).2 t ht x (hx ▸ hv)
      rw [Option.map_some, Terminator.rename, hinputs, List.map_id]
  · -- what was there before has kept its identity, which nothing new has got
    have hold : x.index < s.next → y = x := by
      intro hlt
      rw [Role.carry_of_lt hlt] at e
      rw [← e] at hlt ⊢
      exact (Role.eq_of_carry_lt hname hlt).symm
    have hlinked : x ∈ body.linkedIds (body.loweredRows all nothing s.next rows) → y = x :=
      fun hx => List.inj_on_of_nodup_map hnodup hy hx e
    rcases hx with hx | ⟨b, hb, r, hr, hv⟩ | ⟨b, hb, t, ht, hv⟩
    · exact hlinked hx
    · rcases lowered_takes (holder b hb).1 hr hv with hx | hlt
      · exact hlinked (mem_linkedIds.2 ⟨b, hb, hx⟩)
      · exact hold hlt
    · exact hold ((holder b hb).2 t ht x hv)

/-- **All bodies that come of a body in this way have one text.** -/
theorem Reduced.text_eq (h : body.Reduced all nothing s.next body') (sound : body.Sound R s)
    (hrows : body.code.Shows rows) (linked : body'.ChainsLinked) :
    body'.text = .ok (Listing.text (body.listing (body.loweredRows all nothing s.next rows))) := by
  obtain ⟨rows', hrows'⟩ := linked.exists_shows
  obtain ⟨ι, hrecast⟩ := h.recast sound hrows hrows'
  have hlisted : body'.Listed :=
    fun b hb => h.flow.defined (sound.listed b (h.blocks ▸ hb))
  rw [Body.text_eq hrows' (h.blocks ▸ sound.1) hlisted, hrecast.listing_eq]

/-- What is kept of the analyses does not depend on the order. -/
theorem KeepsAnalyses.comm {Q : Inst → Prop} {a a' b b' : Body} (h : body.KeepsAnalyses P a)
    (h' : a.KeepsAnalyses Q a') (k : body.KeepsAnalyses Q b) (k' : b.KeepsAnalyses P b')
    (hQ : a.Free Q ↔ body.Free Q) (hP : b.Free P ↔ body.Free P) : b'.cache = a'.cache := by
  by_cases hp : body.Free P <;> by_cases hq : body.Free Q
  · rw [k'.all (hP.2 hp), k.all hq, h'.all (hQ.2 hq), h.all hp]
  · rw [k'.all (hP.2 hp), k.flow hq, h'.flow (mt hQ.1 hq), h.all hp]
  · rw [k'.flow (mt hP.1 hp), k.all hq, h'.all (hQ.2 hq), h.flow hp]
  · rw [k'.flow (mt hP.1 hp), k.flow hq, h'.flow (mt hQ.1 hq), h.flow hp]

/-- **In either order, a body gets the same text and keeps the same analyses.** -/
theorem Sound.either_order (sound : body.Sound R s) {a a' b b' : Body}
    (h : body.Merged (.const all) s.next a)
    (h' : a.Masked (.const all) (.const nothing) s.next a')
    (k : body.Masked (.const all) (.const nothing) s.next b)
    (k' : b.Merged (.const all) s.next b') :
    b'.cache = a'.cache ∧ ∃ t, a'.text = .ok t ∧ b'.text = .ok t := by
  obtain ⟨rows, hrows⟩ := sound.linked.chains.exists_shows
  have hfirst := h.consolidated.reduced h'.replaced sound.linked.chains
  have hsecond := k.replaced.reduced k'.consolidated sound
  have hdiscards : a.Free Inst.IsDiscard ↔ body.Free Inst.IsDiscard :=
    h.rewritten.free_iff (fun _ => .inr) fun _ hi => hi.not_stores
  have hstores : b.Free Inst.Stores ↔ body.Free Inst.Stores :=
    k.rewritten.free_iff (fun _ => .inl) fun _ hi hdiscard => hdiscard.not_stores hi
  exact ⟨h.keeps.comm h'.keeps k.keeps k'.keeps hdiscards hstores, _,
    hfirst.text_eq sound hrows h'.rewritten.linked,
    hsecond.text_eq sound hrows k'.rewritten.linked⟩

end Body

end ShaderIR
