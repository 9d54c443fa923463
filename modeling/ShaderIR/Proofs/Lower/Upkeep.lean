import ShaderIR.Proofs.Lower.Passes

/-!
# No instruction is leaked or lost

* `Code.Anchored`: an anchor stands in a block.
* `Body.HandsOver`: what a lowering destroys, and what it keeps.

Principal statements: `Body.Accounted.insert` and `Body.Accounted.removeInst` (an insertion and a
removal keep a body accounted for), `Body.Rewritten.handsOver` (a lowering destroys what it has
handed over and nothing else) and `Module.accounted_kept` (so all bodies of a module stay accounted
for, whatever a lowering returns).
-/

namespace ShaderIR

/-- An anchor stands in a block: it is an instruction that is linked there, or the end of the
block. -/
def Code.Anchored (c : Code) (b : BlockId) : Anchor → Prop
  | .after x => c.Links b x
  | .before x => c.Links b x
  | .last => ∃ blk, c.blocks.get? b = some blk

namespace Code.Shows

variable {c : Code} {rows : BlockId → List Row} {b : BlockId} {x : InstId} {anchor : Anchor}

theorem exists_split (h : c.Shows rows) (hx : c.Links b x) :
    ∃ p i s, rows b = p ++ (x, i) :: s := by
  obtain ⟨⟨y, i⟩, hr, rfl⟩ := List.mem_map.1 (h.links_iff.1 hx)
  obtain ⟨p, s, hb⟩ := List.append_of_mem hr
  exact ⟨p, i, s, hb⟩

theorem exists_at (h : c.Shows rows) (ha : c.Anchored b anchor) :
    (∃ blk, c.blocks.get? b = some blk) ∧ ∃ p s, rows b = p ++ s ∧ anchor.At p s := by
  have hdefined : ∀ {x}, c.Links b x → ∃ blk, c.blocks.get? b = some blk := by
    rintro x ⟨ids, hids, -⟩
    obtain ⟨blk, hblk, -⟩ := bind_eq_ok.1 hids
    exact ⟨blk, Defs.find_eq_ok.1 hblk⟩
  cases anchor with
  | after x =>
    obtain ⟨p, i, s, hb⟩ := h.exists_split ha
    exact ⟨hdefined ha, p ++ [(x, i)], s, by simpa using hb, .after (r := (x, i))⟩
  | before x =>
    obtain ⟨p, i, s, hb⟩ := h.exists_split ha
    exact ⟨hdefined ha, p, (x, i) :: s, hb, .before (r := (x, i))⟩
  | last => exact ⟨ha, rows b, [], (List.append_nil _).symm, .last⟩

end Code.Shows

namespace Body

/-- What a lowering that takes away what `lowers` holds of does to the instructions of a body.  It
destroys some of those, each of which has been handed over to something in the same block with an
identity from `n` on.  All others are as they were.  A combined write that is new has got what it
writes from stores that have been destroyed. -/
structure HandsOver (lowers : Inst → Prop) (n : Nat) (body body' : Body) : Prop where
  blocks : body'.blocks = body.blocks
  kept : ∀ x i, body.code.inst? x = some i → ¬ lowers i → body'.code.inst? x = some i
  lost : ∀ x i, body.code.inst? x = some i → body'.code.inst? x = some i ∨
    (body'.code.inst? x = none ∧ ∃ b ∈ body.blocks, body.code.Links b x ∧
      ∃ rows, body'.code.rowsOf b = .ok rows ∧ ShaderIR.HandedOver n rows i)
  written : ∀ b rows z mask set value a, body'.code.rowsOf b = .ok rows →
    (z, .combined mask set value) ∈ rows → body.code.inst? z = none → set.contains a = true →
      ∃ x i v, body.code.Links b x ∧ body.code.inst? x = some i ∧ body'.code.inst? x = none ∧
        i.stores? = some a ∧ i.input 0 = .ok v ∧ ShaderIR.Takes rows a v (.combined mask set value)

variable {body body' : Body} {s : Supply .inst} {b : BlockId} {anchor : Anchor} {x : InstId}
  {n : Nat} {lowers : Inst → Prop}

/-- **An insertion keeps a body accounted for**, and its instruction is the only one that is new. -/
theorem Accounted.insert (h : body.Accounted) (issued : (body.workspace s).Issued)
    (hb : b ∈ body.blocks) (ha : body.code.Anchored b anchor) (i : Inst) :
    ∃ (x : InstId) (w : Workspace),
      ((body.workspace s).at ⟨b, anchor⟩).insert i = .ok (x, w.at ⟨b, anchor.advance x⟩) ∧
      body.code.inst? x = none ∧ w.code.Links b x ∧
      (∀ y, w.code.inst? y = if y = x then some i else body.code.inst? y) ∧
      Accounted { body with code := w.code } ∧ w.Issued ∧ s.next ≤ w.fresh.next := by
  obtain ⟨rows, hrows⟩ := h.linked.exists_shows
  obtain ⟨hdef, p, q, hsplit, hat⟩ := hrows.exists_at ha
  obtain ⟨w, hw, ht⟩ := (h.tracks hrows issued).insert hsplit hat hdef i
  obtain ⟨-, hnone, hinst⟩ := Builder.insert_inst? hw
  refine ⟨_, w, hw, hnone, ht.shows.links_iff.2 (by simp), hinst,
    h.of_tracks hrows ht (fun d hd => Function.update_of_ne ?_ _ _) _, ht.issued, ht.le⟩
  rintro rfl
  exact hd hb

/-- **A removal keeps a body accounted for**, and destroys the one instruction only. -/
theorem Accounted.removeInst (h : body.Accounted) (issued : (body.workspace s).Issued)
    (hx : body.code.Links b x) :
    ∃ (i : Inst) (w : Workspace),
      (body.workspace s).removeInst b x = .ok (i, w) ∧ body.code.inst? x = some i ∧
      (∀ y, w.code.inst? y = if y = x then none else body.code.inst? y) ∧
      Accounted { body with code := w.code } ∧ w.Issued ∧ s.next ≤ w.fresh.next := by
  obtain ⟨rows, hrows⟩ := h.linked.exists_shows
  obtain ⟨p, i, q, hsplit⟩ := hrows.exists_split hx
  have hr : (x, i) ∈ rows b := by simp [hsplit]
  have hb : b ∈ body.blocks := by
    obtain ⟨d, hd, hr'⟩ := (accounted_iff hrows).1 h x i (hrows.inst? hr)
    exact (hrows.unique hr hr' rfl).1 ▸ hd
  obtain ⟨w, hw, ht⟩ := (h.tracks hrows issued).removeInst hsplit
  obtain ⟨-, hinst⟩ := Workspace.removeInst_ok hw
  refine ⟨i, w, hw, hrows.inst? hr, hinst,
    h.of_tracks hrows ht (fun d hd => Function.update_of_ne ?_ _ _) _, ht.issued, ht.le⟩
  rintro rfl
  exact hd hb

/-- **A lowering destroys what it has handed over**, and nothing else. -/
theorem Rewritten.handsOver (h : body.Rewritten lowers n body') (hacc : body.Accounted)
    (issued : (body.workspace ⟨n⟩).Issued) : body.HandsOver lowers n body' := by
  obtain ⟨rows, rows', hrows, hrows', hR⟩ := h.rows
  have hrow : ∀ {x i}, body.code.inst? x = some i → ∃ b ∈ body.blocks, (x, i) ∈ rows b :=
    fun hi => (accounted_iff hrows).1 hacc _ _ hi
  have hrowsOf : ∀ b ∈ body.blocks, ∀ r ∈ rows b, body'.code.rowsOf b = .ok (rows' b) := by
    intro b hb r hr
    obtain ⟨blk, hblk⟩ := hrows.get?_of_mem hr
    obtain ⟨blk', hblk', -⟩ := h.flow.get? hblk
    exact hrows'.rowsOf hblk'
  -- what has left its rows is in no others, and so it is not defined
  have hdestroyed : ∀ {x i b}, (x, i) ∈ rows b → (x, i) ∉ rows' b →
      body'.code.inst? x = none := by
    intro x i b hr hlost
    by_contra hdefined
    obtain ⟨j, hj⟩ := Option.ne_none_iff_exists'.1 hdefined
    obtain ⟨d, -, hr'⟩ := (accounted_iff hrows').1 (h.accounted hacc) x j hj
    rcases (hR d).new _ hr' with hold | ⟨hnew, -⟩
    · obtain ⟨rfl, e⟩ := hrows.unique hr hold rfl
      exact hlost (e ▸ hr')
    · obtain ⟨m, hm, -⟩ := hrows.get? hr
      exact absurd (issued x m hm) (Nat.not_lt.2 hnew)
  refine ⟨h.blocks, fun x i hi hother => ?_, fun x i hi => ?_,
    fun b rs z mask set value a hrs hz hnone ha => ?_⟩
  · obtain ⟨b, -, hr⟩ := hrow hi
    exact hrows'.inst? ((hR b).kept _ hr hother)
  · obtain ⟨b, hb, hr⟩ := hrow hi
    by_cases hr' : (x, i) ∈ rows' b
    · exact .inl (hrows'.inst? hr')
    · refine .inr ⟨hdestroyed hr hr', b, hb, hrows.links_iff.2 (List.mem_map_of_mem hr), rows' b,
        hrowsOf b hb _ hr, (hR b).lost _ hr hr'⟩
  · obtain ⟨ids, hids, -⟩ := bind_eq_ok.1 hrs
    obtain ⟨blk, hblk, -⟩ := bind_eq_ok.1 hids
    obtain rfl := Except.ok.inj ((hrows'.rowsOf (Defs.find_eq_ok.1 hblk)).symm.trans hrs)
    rcases (hR b).new _ hz with hold | ⟨-, -, htakes⟩
    · rw [hrows.inst? hold] at hnone
      cases hnone
    · obtain ⟨⟨x, i⟩, hr, hlost, hstores, v, hv, ht⟩ := htakes mask set value a rfl ha
      exact ⟨x, i, v, hrows.links_iff.2 (List.mem_map_of_mem hr), hrows.inst? hr,
        hdestroyed hr hlost, hstores, hv, ht⟩

end Body

namespace Module

/-- All bodies of a module are accounted for, and all instructions have identities that the supply
has given away. -/
structure Accounted (m : Module) : Prop where
  bodies : m.Each Body.Accounted
  issued : m.Each fun body => (body.workspace m.freshInsts).Issued

variable {m m' : Module} {config : LowerConfig} {f : FuncId} {decl : FuncDecl} {body : Body}
  {lowers : Inst → Prop} {n : Nat}

theorem Accounted.linked (h : m.Accounted) (gs : List FuncId) : m.Linked gs :=
  fun f _ decl body hdecl himpl =>
    ⟨(h.bodies f decl body hdecl himpl).linked, h.issued f decl body hdecl himpl⟩

/-- One body is worked on. -/
theorem Accounted.setBody (h : m.Accounted) (defined : m.funcs.get? f = some decl) {w : Workspace}
    (hacc : Body.Accounted { body with code := w.code }) (issued : w.Issued)
    (hle : m.freshInsts.next ≤ w.fresh.next) :
    Accounted { m.setBody f decl { body with code := w.code } with freshInsts := w.fresh } := by
  refine ⟨h.bodies.setBody defined hacc, fun g decl' body' hdecl himpl => ?_⟩
  rw [get?_setBody defined] at hdecl
  split at hdecl
  · cases hdecl
    cases himpl
    exact issued
  · exact fun id n hid => Nat.lt_of_lt_of_le (h.issued g decl' body' hdecl himpl id n hid) hle

/-- **A lowering keeps a module accounted for**, and destroys only what it has handed over. -/
theorem Accounted.rewritten (h : m.Accounted) (hR : m.Rewritten lowers m.freshInsts.next m')
    (hlinked : ∀ gs, m.Linked gs → m'.Linked gs) :
    m'.Accounted ∧ m.Related (Body.HandsOver lowers m.freshInsts.next) m' := by
  refine ⟨⟨fun f decl body hdecl himpl => ?_, fun f decl body hdecl himpl => ?_⟩, ?_⟩
  · obtain ⟨decl', body', hdecl', himpl', -, hbody⟩ := hR.exists_before hdecl himpl
    have hacc := h.bodies f decl' body' hdecl' himpl'
    exact (hbody hacc.linked).accounted hacc
  · exact (hlinked [f] (h.linked [f]) f (List.mem_singleton_self f) decl body hdecl himpl).issued
  · have hbodies : m.Each fun body => body.Accounted ∧ (body.workspace m.freshInsts).Issued :=
      fun f decl body hdecl himpl =>
        ⟨h.bodies f decl body hdecl himpl, h.issued f decl body hdecl himpl⟩
    refine Related.mono hbodies (fun body body' hbody hR' => ?_) hR
    exact (hR' hbody.1.linked).handsOver hbody.1 hbody.2

/-- **No instruction is leaked or lost.**  Let all bodies of a module be accounted for.  They stay
so if an instruction is inserted at any place in a listed block, which adds it and nothing else, and
if an instruction is taken out of its block, which destroys it and nothing else.  They stay so under
each lowering, whatever it returns; a lowering destroys stores or discards that it has handed over,
and nothing else, and once it has gone through there are no more of these. -/
theorem accounted_kept (m : Module) (acc : m.Accounted) :
    (∀ f decl body, m.funcs.get? f = some decl → decl.impl = .present body → ∀ b ∈ body.blocks,
      (∀ anchor i, body.code.Anchored b anchor → ∃ (x : InstId) (w : Workspace),
        ((body.workspace m.freshInsts).at ⟨b, anchor⟩).insert i =
          .ok (x, w.at ⟨b, anchor.advance x⟩) ∧
        body.code.inst? x = none ∧ w.code.Links b x ∧
        (∀ y, w.code.inst? y = if y = x then some i else body.code.inst? y) ∧
        Accounted
          { m.setBody f decl { body with code := w.code } with freshInsts := w.fresh }) ∧
      (∀ x, body.code.Links b x → ∃ (i : Inst) (w : Workspace),
        (body.workspace m.freshInsts).removeInst b x = .ok (i, w) ∧
        body.code.inst? x = some i ∧
        (∀ y, w.code.inst? y = if y = x then none else body.code.inst? y) ∧
        Accounted
          { m.setBody f decl { body with code := w.code } with freshInsts := w.fresh })) ∧
    ∀ config m',
      (∀ r, m.lowerDepthStencil config = .ok (m', r) → m'.Accounted ∧
        m.Related (Body.HandsOver Inst.Stores m.freshInsts.next) m' ∧
        ∀ c, r = .ok c → m.info.outputs.intersects .depthStencil = true → m'.Free Inst.Stores) ∧
      (∀ changed, m.lowerDiscard config = .ok (m', changed) → m'.Accounted ∧
        m.Related (Body.HandsOver Inst.IsDiscard m.freshInsts.next) m' ∧
        (m.info.usesDiscard = true → m'.Free Inst.IsDiscard)) ∧
      (∀ r, m.lower config = .ok (m', r) → m'.Accounted ∧
        m.Related (Body.HandsOver Inst.IsLowered m.freshInsts.next) m' ∧
        ∀ c, r = .ok c →
          (m.info.outputs.intersects .depthStencil = true → m'.Free Inst.Stores) ∧
          (m.info.usesDiscard = true → m'.Free Inst.IsDiscard)) := by
  refine ⟨fun f decl body hdecl himpl b hb => ⟨fun anchor i ha => ?_, fun x hx => ?_⟩,
    fun config m' => ⟨fun r hrun => ?_, fun changed hrun => ?_, fun r hrun => ?_⟩⟩
  · obtain ⟨x, w, hw, hnone, hlinks, hinst, hacc, hissued, hle⟩ :=
      (acc.bodies f decl body hdecl himpl).insert (acc.issued f decl body hdecl himpl) hb ha i
    exact ⟨x, w, hw, hnone, hlinks, hinst, acc.setBody hdecl hacc hissued hle⟩
  · obtain ⟨i, w, hw, hi, hinst, hacc, hissued, hle⟩ :=
      (acc.bodies f decl body hdecl himpl).removeInst (acc.issued f decl body hdecl himpl) hx
    exact ⟨i, w, hw, hi, hinst, acc.setBody hdecl hacc hissued hle⟩
  · obtain ⟨hR, hlinked⟩ := lowerDepthStencil_rewritten (acc.linked _) hrun
    obtain ⟨hacc, hover⟩ := acc.rewritten hR hlinked
    refine ⟨hacc, hover, fun c hr hwrites => ?_⟩
    subst hr
    exact (lowerDepthStencil_free (acc.linked _) hrun hwrites).1
  · obtain ⟨hR, hlinked⟩ := lowerDiscard_rewritten (acc.linked _) hrun
    obtain ⟨hacc, hover⟩ := acc.rewritten hR hlinked
    exact ⟨hacc, hover, fun huses => (lowerDiscard_free (acc.linked _) hrun huses).1⟩
  · obtain ⟨hR, hlinked, hfree⟩ := lower_rewritten (acc.linked _) hrun
    obtain ⟨hacc, hover⟩ := acc.rewritten hR hlinked
    exact ⟨hacc, hover, hfree⟩

theorem sampleFragment_accounted : sampleFragment.Accounted := by
  have hbody : ∀ {f decl body}, sampleFragment.funcs.get? f = some decl →
      decl.impl = .present body → body = .sampleFragment := by
    intro f decl body hdecl himpl
    obtain ⟨-, rfl⟩ := Prod.mk.inj (List.mem_singleton.1 (Defs.mem_entries_of_get? hdecl))
    cases himpl
    rfl
  refine ⟨fun f decl body hdecl himpl => ?_, fun f decl body hdecl himpl => ?_⟩
  · obtain rfl := hbody hdecl himpl
    have hlinked : Body.sampleFragment.ChainsLinked := Body.sampleFragment_tidy.linked
    obtain ⟨rows, hrows⟩ := hlinked.exists_shows
    refine (Body.accounted_iff hrows).2 fun id i hi => ⟨⟨0⟩, by decide, ?_⟩
    obtain ⟨n, hn, -⟩ := Option.map_eq_some_iff.1 hi
    have hids : ∀ e ∈ Body.sampleFragment.code.insts.entries,
        e.1 ∈ ([⟨0⟩, ⟨1⟩, ⟨2⟩, ⟨3⟩, ⟨4⟩] : List InstId) := by decide
    have hlinks : Body.sampleFragment.code.Links ⟨0⟩ id :=
      ⟨_, rfl, hids _ (Defs.mem_entries_of_get? hn)⟩
    exact hrows.mem_of_links (hrows.links_iff.1 hlinks) hi
  · obtain rfl := hbody hdecl himpl
    exact Body.sampleFragment_tidy.issued

/-- The sample is lowered: its two stores and its discard are destroyed, and all that is left is
accounted for. -/
theorem sampleFragment_accounted_kept : ∃ m', sampleFragment.lower .eightSamples =
    .ok (m', .ok true) ∧ m'.Accounted ∧ m'.Free Inst.Stores ∧ m'.Free Inst.IsDiscard := by
  obtain ⟨m', hm'⟩ : ∃ m', sampleFragment.lower .eightSamples = .ok (m', .ok true) := ⟨_, rfl⟩
  have hkept := (accounted_kept sampleFragment sampleFragment_accounted).2 .eightSamples m'
  obtain ⟨hacc, -, hfree⟩ := hkept.2.2 _ hm'
  obtain ⟨hstores, hdiscards⟩ := hfree true rfl
  exact ⟨m', hm', hacc, hstores rfl, hdiscards rfl⟩

end Module

end ShaderIR
