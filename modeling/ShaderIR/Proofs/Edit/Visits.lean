import ShaderIR.Proofs.Lower.Settled

/-!
# What an edit of a module visits

* `Workspace.Amended`, `Edit.Amends`: all that is done at an instruction is to insert new ones into
  its block, and to take out that one.
* `Edit.KeepsTogether`: nothing is inserted between two instructions that come after it.
* `Edit.logged`: the same edit, which writes down its calls.
* `Module.course`, `Module.visits`: what there is to visit in a function, and in one function after
  the other, each as it is found.

Principal statements: `inBlock_visits` and `inBlocks_visits` (what the walk over blocks visits),
`Module.edit_visitsOnce` (every instruction is visited once, and none that is new) and
`Module.sampleFragment_not_visitsOnce` (that nothing is inserted further ahead is needed).
-/

namespace ShaderIR

/-- One block has been changed: new instructions have been inserted, and at most `x` has been taken
out. -/
structure Workspace.Amended (b : BlockId) (x : InstId) (w : Workspace)
    (rows : BlockId → List Row) (w' : Workspace) (rows' : BlockId → List Row) : Prop
    extends w.Derived w' rows' where
  others : ∀ d, d ≠ b → (rows' d).map Prod.fst = (rows d).map Prod.fst
  old : ((rows' b).map Prod.fst).filter (fun y => y.index < w.fresh.next) =
      (rows b).map Prod.fst ∨
    ((rows' b).map Prod.fst).filter (fun y => y.index < w.fresh.next) =
      ((rows b).map Prod.fst).erase x

namespace Edit

variable {σ : Type} {edit : Edit σ} {b : BlockId} {w w' w₀ : Workspace}
  {rows rows₀ : BlockId → List Row}

/-- All that is done at an instruction is to insert new ones into its block, and to take out that
one. -/
def Amends (edit : Edit σ) : Prop :=
  ∀ b x s w rows, w.code.Shows rows → w.Issued → x ∈ (rows b).map Prod.fst →
    ∃ here s' w' rows', edit b x s w = .ok (here, s', w') ∧ w.Amended b x rows w' rows'

/-- The instructions that come after the one that is edited stay together: nothing is inserted
between them. -/
def KeepsTogether (edit : Edit σ) : Prop :=
  ∀ b x s w rows p q here s' w' rows', w.code.Shows rows → w.Issued →
    (rows b).map Prod.fst = p ++ x :: q → edit b x s w = .ok (here, s', w') →
    w'.code.Shows rows' → q <:+: (rows' b).map Prod.fst

/-- The same edit, which writes down its calls. -/
def logged (edit : Edit σ) : Edit (σ × List (BlockId × InstId)) := fun b x s w => do
  let (here, s', w) ← edit b x s.1 w
  return (here, (s', s.2 ++ [(b, x)]), w)

/-! ## Writing down the calls changes nothing -/

section Logged

variable {s s' : σ × List (BlockId × InstId)} {changed : Bool}

theorem inSegment_of_logged {n : Nat} {seg : Segment .inst}
    (h : edit.logged.inSegment b n seg s w = .ok (changed, s', w')) :
    edit.inSegment b n seg s.1 w = .ok (changed, s'.1, w') := by
  induction n generalizing seg s w changed with
  | zero => cases h
  | succ n ih =>
    obtain ⟨o, hpop, h⟩ := bind_eq_ok.1 h
    rw [inSegment, hpop, ok_bind]
    cases o with
    | none =>
      cases h
      rfl
    | some r =>
      obtain ⟨⟨here, s₁, w₁⟩, hlogged, h⟩ := bind_eq_ok.1 h
      obtain ⟨⟨later, s₂, w₂⟩, hrest, h⟩ := bind_eq_ok.1 h
      cases h
      obtain ⟨⟨here, s₁, w₁⟩, hedit, hlogged⟩ := bind_eq_ok.1 hlogged
      cases hlogged
      simp only [hedit, ok_bind, ih hrest, pure_eq_ok]

theorem inBlocks_of_logged {bs : List BlockId}
    (h : edit.logged.inBlocks bs s w = .ok (changed, s', w')) :
    edit.inBlocks bs s.1 w = .ok (changed, s'.1, w') := by
  induction bs generalizing s w changed with
  | nil =>
    cases h
    rfl
  | cons b bs ih =>
    obtain ⟨⟨here, s₁, w₁⟩, hblock, h⟩ := bind_eq_ok.1 h
    obtain ⟨⟨later, s₂, w₂⟩, hrest, h⟩ := bind_eq_ok.1 h
    cases h
    obtain ⟨blk, hblk, hsegment⟩ := bind_eq_ok.1 hblock
    have hplain : edit.inBlock b s.1 w = .ok (here, s₁.1, w₁) := by
      rw [inBlock, hblk, ok_bind]
      exact inSegment_of_logged hsegment
    simp only [inBlocks, hplain, ok_bind, ih hrest, pure_eq_ok]

end Logged

/-! ## Blocks -/

/-- What holds along the walk over a block: what has been written down, and what is ahead after it,
is all that there was to visit.  The other blocks are as they were. -/
def Visiting (w₀ : Workspace) (rows₀ : BlockId → List Row) (b : BlockId)
    (whole : List (BlockId × InstId)) (ids : List InstId) (_ : Bool)
    (s : σ × List (BlockId × InstId)) (w : Workspace) : Prop :=
  ∃ rows, w₀.Derived w rows ∧ ids <:+: (rows b).map Prod.fst ∧
    (∀ d, d ≠ b → (rows d).map Prod.fst = (rows₀ d).map Prod.fst) ∧ s.2 ++ ids.map (b, ·) = whole

theorem keeps_visiting (amends : edit.Amends) (together : edit.KeepsTogether) (w₀ : Workspace)
    (rows₀ : BlockId → List Row) (b : BlockId) (whole : List (BlockId × InstId)) :
    edit.logged.Keeps b (Visiting w₀ rows₀ b whole) where
  ahead := by
    rintro ids _ s w ⟨rows, h, hids, -⟩
    exact ⟨rows, h.shows, hids⟩
  step := by
    rintro x ids _ ⟨s, calls⟩ w ⟨rows, h, hids, hothers, hwhole⟩
    obtain ⟨here, s', w', rows', hedit, ha⟩ := amends b x s w rows h.shows h.issued
      (hids.subset List.mem_cons_self)
    obtain ⟨p, q, hsplit⟩ := hids
    have hbehind : (rows b).map Prod.fst = p ++ x :: (ids ++ q) := by simp [← hsplit]
    have hids' := together b x s w rows p _ here s' w' rows' h.shows h.issued hbehind hedit ha.shows
    refine ⟨here, (s', calls ++ [(b, x)]), w', ?_, rows',
      ⟨ha.shows, ha.issued, h.flow.trans ha.flow, h.le.trans ha.le⟩,
      (List.prefix_append ids q).isInfix.trans hids', fun d hd => ?_, ?_⟩
    · simp only [logged, hedit, ok_bind, pure_eq_ok]
    · rw [ha.others d hd, hothers d hd]
    · simpa using hwhole

/-- What there is to visit in some blocks. -/
def courseOf (rows : BlockId → List Row) (bs : List BlockId) : List (BlockId × InstId) :=
  bs.flatMap fun b => ((rows b).map Prod.fst).map (b, ·)

/-- **The walk over a block visits what there is when it begins.** -/
theorem inBlock_visits (amends : edit.Amends) (together : edit.KeepsTogether)
    (h : w₀.Derived w rows) (hdef : ∃ blk, w₀.code.blocks.get? b = some blk) (s : σ)
    (calls : List (BlockId × InstId)) : ∃ changed s' w' rows',
      edit.logged.inBlock b (s, calls) w =
        .ok (changed, (s', calls ++ courseOf rows [b]), w') ∧ w₀.Derived w' rows' ∧
      ∀ d, d ≠ b → (rows' d).map Prod.fst = (rows d).map Prod.fst := by
  obtain ⟨changed, ⟨s', calls'⟩, w', hrun, rows', h', -, hothers, hcalls⟩ :=
    (keeps_visiting amends together w₀ rows b (calls ++ courseOf rows [b])).inBlock
      h.shows (h.flow.defined hdef) (s, calls)
      ⟨rows, h, List.infix_refl _, fun _ _ => rfl, by simp [courseOf]⟩
  refine ⟨changed, s', w', rows', ?_, h', hothers⟩
  rw [hrun, ← hcalls]
  simp

/-- **The walk over several blocks visits what there is when it begins**, if each is listed once. -/
theorem inBlocks_visits (amends : edit.Amends) (together : edit.KeepsTogether)
    {bs : List BlockId} (h : w₀.Derived w rows) (distinct : bs.Nodup)
    (hdef : ∀ b ∈ bs, ∃ blk, w₀.code.blocks.get? b = some blk) (s : σ)
    (calls : List (BlockId × InstId)) : ∃ changed s' w' rows',
      edit.logged.inBlocks bs (s, calls) w = .ok (changed, (s', calls ++ courseOf rows bs), w') ∧
      w₀.Derived w' rows' := by
  induction bs generalizing w rows s calls with
  | nil => exact ⟨false, s, w, rows, by simp [inBlocks, courseOf], h⟩
  | cons b bs ih =>
    obtain ⟨hb, distinct⟩ := List.nodup_cons.1 distinct
    obtain ⟨hbdef, hdef⟩ := List.forall_mem_cons.1 hdef
    obtain ⟨here, s₁, w₁, rows₁, hblock, h₁, hothers⟩ :=
      inBlock_visits amends together h hbdef s calls
    obtain ⟨later, s₂, w₂, rows₂, hblocks, h₂⟩ :=
      ih h₁ distinct hdef s₁ (calls ++ courseOf rows [b])
    refine ⟨here || later, s₂, w₂, rows₂, ?_, h₂⟩
    have hsame : courseOf rows₁ bs = courseOf rows bs := by
      refine List.flatMap_congr fun d hd => ?_
      rw [hothers d fun e => hb (e ▸ hd)]
    simp only [inBlocks, hblock, ok_bind, hblocks, pure_eq_ok, hsame]
    simp [courseOf]

end Edit

/-! ## Functions -/

/-- The instructions of a block, with the block that they are in. -/
def Code.course (c : Code) (b : BlockId) : Except Fault (List (BlockId × InstId)) := do
  return (← c.instsOf b).map (b, ·)

/-- The instructions in the listed blocks of a body, in order. -/
def Body.course (body : Body) : Except Fault (List (BlockId × InstId)) := do
  return (← body.blocks.mapM body.code.course).flatten

theorem Body.course_eq {body : Body} {rows : BlockId → List Row} (h : body.code.Shows rows)
    (listed : body.Listed) : body.course = .ok (Edit.courseOf rows body.blocks) := by
  have hblock : ∀ b ∈ body.blocks,
      body.code.course b = .ok (((rows b).map Prod.fst).map (b, ·)) := by
    intro b hb
    obtain ⟨blk, hblk⟩ := listed b hb
    rw [Code.course, h.instsOf hblk]
    rfl
  rw [course, mapM_eq_ok hblock]
  rfl

/-- What is listed is listed once, and the supply has given its identity away. -/
theorem Edit.courseOf_nodup {c : Code} {rows : BlockId → List Row} (h : c.Shows rows)
    {bs : List BlockId} (distinct : bs.Nodup) : (Edit.courseOf rows bs).Nodup := by
  refine List.nodup_flatMap.2 ⟨fun b _ => ?_, distinct.imp fun {b d} hne => ?_⟩
  · exact (h.ids_nodup b).map (Prod.mk_right_injective b)
  · intro p hp hp'
    obtain ⟨x, -, rfl⟩ := List.mem_map.1 hp
    obtain ⟨y, -, e⟩ := List.mem_map.1 hp'
    exact hne (Prod.mk.inj e).1.symm

namespace Module

variable {σ : Type} {edit : Edit σ} {m m' m₀ : Module} {f : FuncId} {fs : List FuncId} {s s' : σ}
  {kept : AnalysisSet}

/-- The instructions of a function, in order; an imported one has none. -/
def course (m : Module) (f : FuncId) : Except Fault (List (BlockId × InstId)) := do
  match (← m.funcs.access f).impl with
  | .imported _ => return []
  | .present body => body.course

/-- What there is to visit in one function after the other, each as the walk over it finds it. -/
def visits (kept : AnalysisSet) (edit : Edit σ) :
    List FuncId → σ → Module → Except Fault (List (List (BlockId × InstId)))
  | [], _, _ => .ok []
  | f :: fs, s, m => do
    let here ← m.course f
    let (_, s, m) ← m.editFunc kept edit f s
    return here :: (← visits kept edit fs s m)

/-- The bodies can be gone through, and list each block once. -/
def Walkable (m : Module) : Prop := m.Holds (WalkableDecl fun body => body.blocks.Nodup)

/-- What is listed of a function has been there before. -/
theorem course_old (h : m.Walkable) (hf : f ∈ m.allFuncs)
    {here : List (BlockId × InstId)} (hhere : m.course f = .ok here) :
    here.Nodup ∧ ∀ c ∈ here, c.2.index < m.freshInsts.next := by
  obtain ⟨decl, hdecl, hbody⟩ := h f hf
  rw [course, Defs.access_of_get? hdecl, ok_bind] at hhere
  cases himpl : decl.impl with
  | imported link =>
    rw [himpl] at hhere
    cases hhere
    exact ⟨.nil, by simp⟩
  | present body =>
    obtain ⟨hlinked, hlisted, distinct⟩ := hbody body himpl
    obtain ⟨rows, hrows⟩ := hlinked.chains.exists_shows
    simp only [himpl, Body.course_eq hrows hlisted] at hhere
    obtain rfl := Except.ok.inj hhere
    refine ⟨Edit.courseOf_nodup hrows distinct, fun c hc => ?_⟩
    obtain ⟨b, -, hc⟩ := List.mem_flatMap.1 hc
    obtain ⟨x, hx, rfl⟩ := List.mem_map.1 hc
    obtain ⟨r, hr, rfl⟩ := List.mem_map.1 hx
    obtain ⟨n, hn, -⟩ := hrows.get? hr
    exact hlinked.issued r.1 n hn

/-- **The walk over a function visits what there is when it begins.** -/
theorem editFunc_visits (amends : edit.Amends) (together : edit.KeepsTogether)
    (kept : AnalysisSet) (h : m.Walkable) (hf : f ∈ m.allFuncs) (s : σ)
    (calls : List (BlockId × InstId)) : ∃ changed s' m' here, m.course f = .ok here ∧
      m.editFunc kept edit f s = .ok (changed, s', m') ∧
      m.editFunc kept edit.logged f (s, calls) = .ok (changed, (s', calls ++ here), m') ∧
      m'.allFuncs = m.allFuncs ∧ m'.Walkable := by
  obtain ⟨decl, hdecl, hbody⟩ := h f hf
  simp only [course, editFunc, Defs.access_of_get? hdecl, ok_bind]
  cases himpl : decl.impl with
  | imported link => exact ⟨false, s, m, [], rfl, rfl, by simp, rfl, h⟩
  | present body =>
    obtain ⟨hlinked, hlisted, distinct⟩ := hbody body himpl
    obtain ⟨rows, hrows⟩ := hlinked.chains.exists_shows
    obtain ⟨changed, s', w, rows', hlogged, hd⟩ := Edit.inBlocks_visits amends together
      (.refl hrows hlinked.issued) distinct hlisted s calls
    have hplain := Edit.inBlocks_of_logged hlogged
    simp only [hlogged, hplain, ok_bind, pure_eq_ok]
    refine ⟨changed, s', _, _, Body.course_eq hrows hlisted, rfl, rfl, rfl,
      h.setBody (walkableDecl_lasts _) hdecl hd.le fun body' hb => ?_⟩
    obtain rfl := FuncDef.present.inj hb
    exact ⟨⟨⟨_, hd.shows.layout⟩, hd.issued⟩, fun b hb => hd.flow.defined (hlisted b hb), distinct⟩

/-- **The walk over several functions visits what there is in each when it comes to it.** -/
theorem editFuncs_visits (amends : edit.Amends) (together : edit.KeepsTogether)
    (kept : AnalysisSet) : ∀ (fs : List FuncId) (s : σ) (m : Module)
    (calls : List (BlockId × InstId)), (∀ f ∈ fs, f ∈ m.allFuncs) → m.Walkable →
    ∃ changed s' m' found, m.visits kept edit fs s = .ok found ∧
      m.editFuncs kept edit fs s = .ok (changed, s', m') ∧
      m.editFuncs kept edit.logged fs (s, calls) =
        .ok (changed, (s', calls ++ found.flatten), m') ∧ ∀ here ∈ found, here.Nodup
  | [], s, m, calls, _, _ => ⟨false, s, m, [], rfl, rfl, by simp [editFuncs], by simp⟩
  | f :: fs, s, m, calls, hfs, h => by
    have hf := hfs f List.mem_cons_self
    obtain ⟨first, s₁, m₁, here, hhere, hplain, hlogged, hall, h₁⟩ :=
      editFunc_visits amends together kept h hf s calls
    obtain ⟨later, s₂, m₂, found, hfound, hplain', hlogged', hnodup⟩ :=
      editFuncs_visits amends together kept fs s₁ m₁ (calls ++ here)
        (fun g hg => hall ▸ hfs g (List.mem_cons_of_mem _ hg)) h₁
    refine ⟨first || later, s₂, m₂, here :: found, ?_, ?_, ?_,
      List.forall_mem_cons.2 ⟨(course_old h hf hhere).1, hnodup⟩⟩
    · simp only [visits, hhere, hplain, hfound, ok_bind, pure_eq_ok]
    · simp only [editFuncs, hplain, hplain', ok_bind, pure_eq_ok]
    · simp only [editFuncs, hlogged, hlogged', ok_bind, pure_eq_ok, List.flatten_cons,
        List.append_assoc]

/-- A walk over a function leaves the others as they are. -/
theorem editFunc_others {changed : Bool} (h : m.editFunc kept edit f s = .ok (changed, s', m'))
    {g : FuncId} (hg : g ≠ f) : m'.funcs.get? g = m.funcs.get? g := by
  obtain ⟨decl, hdecl, h⟩ := bind_eq_ok.1 h
  have hdecl := Defs.access_eq_ok.1 hdecl
  cases himpl : decl.impl with
  | imported link =>
    rw [himpl] at h
    cases h
    rfl
  | present body =>
    rw [himpl] at h
    obtain ⟨⟨here, s₁, w⟩, -, h⟩ := bind_eq_ok.1 h
    cases h
    exact (Defs.get?_set_of_get? hdecl g).trans (if_neg hg)

/-- Functions that are listed once are found as they were before the walk. -/
theorem visits_of_nodup {found : List (List (BlockId × InstId))}
    (h : m.visits kept edit fs s = .ok found) (distinct : fs.Nodup)
    (same : ∀ f ∈ fs, m.funcs.get? f = m₀.funcs.get? f) : fs.mapM m₀.course = .ok found := by
  induction fs generalizing m s found with
  | nil =>
    cases h
    rfl
  | cons f fs ih =>
    obtain ⟨hf, distinct⟩ := List.nodup_cons.1 distinct
    obtain ⟨hsame, same⟩ := List.forall_mem_cons.1 same
    obtain ⟨here, hhere, h⟩ := bind_eq_ok.1 h
    obtain ⟨⟨first, s₁, m₁⟩, hedit, h⟩ := bind_eq_ok.1 h
    obtain ⟨rest, hrest, h⟩ := bind_eq_ok.1 h
    cases h
    have hcourse : m₀.course f = .ok here := by
      rw [← hhere, course, course, Defs.access, Defs.access, hsame]
    have hlater := ih hrest distinct fun g hg => by
      rw [editFunc_others hedit fun e => hf (e ▸ hg), same g hg]
    simp only [List.mapM_cons, hcourse, hlater, ok_bind, pure_eq_ok]

/-- An edit is called once on every instruction that is there when the walk over its function
begins, in order: function by function, block by block, from the first to the last.  If each
function is listed once, these are the instructions of the module before the pass, and none is
new. -/
def VisitsOnce (kept : AnalysisSet) (edit : Edit σ) (s : σ) (m : Module) : Prop :=
  ∃ changed s' m' found, m.edit kept edit s = .ok (changed, s', m') ∧
    m.edit kept edit.logged (s, []) = .ok (changed, (s', found.flatten), m') ∧
    m.visits kept edit m.allFuncs s = .ok found ∧ (∀ here ∈ found, here.Nodup) ∧
    (m.allFuncs.Nodup → m.allFuncs.mapM m.course = .ok found ∧
      ∀ c ∈ found.flatten, c.2.index < m.freshInsts.next)

/-- **An edit of a module visits every instruction once.**  Let the chains of a module be linked,
its instructions have identities that the supply has given away, all functions and blocks be
defined, and each block be listed once.  Let an edit, at an instruction, only insert new ones into
its block and take out that one, and insert nothing between two instructions that come after it.
Then the edit of the module ends, and it has been called once on every instruction that there was,
and on none that is new. -/
theorem edit_visitsOnce (m : Module) (kept : AnalysisSet) (edit : Edit σ) (s : σ)
    (linked : m.Linked m.allFuncs) (listed : m.Listed)
    (distinct : m.Every fun body => body.blocks.Nodup) (amends : edit.Amends)
    (together : edit.KeepsTogether) : m.VisitsOnce kept edit s := by
  have hholds : m.Walkable := holds_walkableDecl linked listed distinct
  obtain ⟨changed, s', m', found, hfound, hplain, hlogged, hnodup⟩ :=
    editFuncs_visits amends together kept m.allFuncs s m [] (fun _ hf => hf) hholds
  refine ⟨changed, s', m', found, hplain, hlogged, hfound, hnodup, fun hfuncs => ?_⟩
  have hcourse := visits_of_nodup hfound hfuncs fun _ _ => rfl
  refine ⟨hcourse, fun c hc => ?_⟩
  obtain ⟨here, hhere, hc⟩ := List.mem_flatten.1 hc
  obtain ⟨f, hf, hlist⟩ := exists_mem_of_mapM_eq_ok hcourse here hhere
  exact (course_old hholds hf hlist).2 c hc

end Module

/-! ## Two edits -/

namespace Edit

variable {w : Workspace} {rows : BlockId → List Row} {b : BlockId} {p q : List Row} {r : Row}

/-- Puts a new instruction in place of each. -/
def substitute (i : Inst) : Edit Unit := fun b x s w => do
  let (_, bd) ← (w.at (.before b x)).insert i
  let (_, w) ← bd.work.removeInst b x
  return (true, s, w)

/-- At one instruction, puts a new one before the last of the block. -/
def insertAhead (at_ : InstId) (i : Inst) : Edit Unit := fun b x s w => do
  match (← w.code.instsOf b).getLast? with
  | some last =>
    if x = at_ then
      let (_, bd) ← (w.at (.before b last)).insert i
      return (true, s, bd.work)
    else return (false, s, w)
  | none => return (false, s, w)

theorem substitute_ran (hrows : w.code.Shows rows) (issued : w.Issued)
    (hb : rows b = p ++ r :: q) (i : Inst) : ∃ w', substitute i b r.1 () w = .ok (true, (), w') ∧
      w.Derived w' (Function.update rows b (p ++ (⟨w.fresh.next⟩, i) :: q)) := by
  obtain ⟨w₁, hinsert, h₁⟩ := (Workspace.Derived.refl hrows issued).insertBefore hb i
  rw [List.append_cons] at h₁
  obtain ⟨w₂, hremove, h₂⟩ := h₁.removeInst (Function.update_self b _ rows)
  rw [Function.update_idem] at h₂
  refine ⟨w₂, ?_, by simpa using h₂⟩
  simp only [substitute, hinsert, ok_bind]
  simp only [Workspace.at, hremove, ok_bind]
  rfl

/-- What the supply has given away is told from what it gives next. -/
theorem filter_old (hrows : w.code.Shows rows) (issued : w.Issued) {l : List Row}
    (hsub : ∀ r ∈ l, r ∈ rows b) :
    (l.map Prod.fst).filter (fun y => y.index < w.fresh.next) = l.map Prod.fst := by
  refine List.filter_eq_self.2 fun y hy => decide_eq_true ?_
  obtain ⟨r, hr, rfl⟩ := List.mem_map.1 hy
  obtain ⟨n, hn, -⟩ := hrows.get? (hsub r hr)
  exact issued r.1 n hn

theorem substitute_amends (i : Inst) : (substitute i).Amends := by
  rintro b x ⟨⟩ w rows hrows issued hx
  obtain ⟨r, hr, rfl⟩ := List.mem_map.1 hx
  obtain ⟨p, q, hb⟩ := List.append_of_mem hr
  obtain ⟨w', hrun, h'⟩ := substitute_ran hrows issued hb i
  refine ⟨true, (), w', _, hrun, h', fun d hd => by rw [Function.update_of_ne hd], .inr ?_⟩
  have hp : r.1 ∉ p.map Prod.fst := fun hmem => hrows.not_mem_around hb (by simp [hmem])
  have hbefore := filter_old (b := b) hrows issued (l := p) fun y hy => by simp [hb, hy]
  have hafter := filter_old (b := b) hrows issued (l := q) fun y hy => by simp [hb, hy]
  rw [Function.update_self, List.map_append, List.map_cons, List.filter_append,
    List.filter_cons_of_neg (by simp), hbefore, hafter, hb, List.map_append, List.map_cons,
    List.erase_append_right _ hp, List.erase_cons_head]

theorem substitute_keepsTogether (i : Inst) : (substitute i).KeepsTogether := by
  rintro b x ⟨⟩ w rows p q here ⟨⟩ w' rows' hrows issued hids hrun hrows'
  obtain ⟨p, t, hb, rfl, ht⟩ := List.map_eq_append_iff.1 hids
  obtain ⟨r, q, rfl, rfl, rfl⟩ := List.map_eq_cons_iff.1 ht
  obtain ⟨w₁, hrun₁, h₁⟩ := substitute_ran hrows issued hb i
  obtain ⟨-, rfl⟩ : here = true ∧ w₁ = w' := by simpa using hrun₁.symm.trans hrun
  obtain rfl := h₁.shows.rows_eq hrows'
  rw [Function.update_self, List.map_append, List.map_cons]
  exact ((List.suffix_cons _ _).trans (List.suffix_append _ _)).isInfix

/-- New instructions are inserted into the block of the one that is edited, but ahead of the
walk. -/
theorem insertAhead_amends (at_ : InstId) (i : Inst) : (insertAhead at_ i).Amends := by
  rintro b x ⟨⟩ w rows hrows issued hx
  have hidle : w.Amended b x rows w rows :=
    ⟨.refl hrows issued, fun _ _ => rfl, .inl (filter_old hrows issued (List.Subset.refl _))⟩
  obtain ⟨r, hr, rfl⟩ := List.mem_map.1 hx
  obtain ⟨blk, hblk⟩ := hrows.get?_of_mem hr
  obtain ⟨p, last, hb⟩ := List.eq_nil_or_concat (rows b) |>.resolve_left (List.ne_nil_of_mem hr)
  rw [List.concat_eq_append] at hb
  have hlast : ((rows b).map Prod.fst).getLast? = some last.1 := by simp [hb]
  simp only [insertAhead, hrows.instsOf hblk, ok_bind, hlast]
  by_cases hat : r.1 = at_
  · obtain ⟨w', hinsert, h'⟩ := (Workspace.Derived.refl hrows issued).insertBefore hb i
    simp only [if_pos hat, hinsert, ok_bind]
    refine ⟨true, (), w', _, rfl, h', fun d hd => by rw [Function.update_of_ne hd], .inl ?_⟩
    have hbefore := filter_old (b := b) hrows issued (l := p) fun y hy => by simp [hb, hy]
    have hafter := filter_old (b := b) hrows issued (l := [last]) fun y hy => by simp_all
    rw [Function.update_self, List.map_append, List.map_cons, List.filter_append,
      List.filter_cons_of_neg (by simp), hbefore, hafter, hb, List.map_append]
  · simp only [if_neg hat]
    exact ⟨false, (), w, rows, rfl, hidle⟩

end Edit

namespace Module

theorem sampleFragment_listed : sampleFragment.Listed := by
  intro f hf
  obtain rfl := List.mem_singleton.1 hf
  refine ⟨_, rfl, fun body hb b hmem => ?_⟩
  obtain rfl := FuncDef.present.inj hb
  rcases List.mem_pair.1 hmem with rfl | rfl <;> exact ⟨_, rfl⟩

/-- All instructions are replaced, and none of the new ones is visited. -/
theorem sampleFragment_visitsOnce : sampleFragment.VisitsOnce .flowOnly
    (Edit.substitute ⟨.intrinsic .discard, [], none⟩) () :=
  edit_visitsOnce sampleFragment .flowOnly _ () sampleFragment_linked sampleFragment_listed
    (sampleFragment_every Body.sampleFragment_tidy.distinct) (Edit.substitute_amends _)
    (Edit.substitute_keepsTogether _)

/-- What is inserted ahead of the walk is visited. -/
theorem sampleFragment_not_visitsOnce :
    (Edit.insertAhead ⟨0⟩ ⟨.intrinsic .discard, [], none⟩).Amends ∧
    sampleFragment.Linked sampleFragment.allFuncs ∧ sampleFragment.Listed ∧
    (sampleFragment.Every fun body => body.blocks.Nodup) ∧
    ¬ sampleFragment.VisitsOnce .flowOnly
      (Edit.insertAhead ⟨0⟩ ⟨.intrinsic .discard, [], none⟩) () := by
  refine ⟨Edit.insertAhead_amends _ _, sampleFragment_linked, sampleFragment_listed,
    sampleFragment_every Body.sampleFragment_tidy.distinct, ?_⟩
  rintro ⟨changed, s', m', found, -, hlogged, -, -, honce⟩
  have hfound : sampleFragment.allFuncs.mapM sampleFragment.course =
      .ok [[(⟨0⟩, ⟨0⟩), (⟨0⟩, ⟨1⟩), (⟨0⟩, ⟨2⟩), (⟨0⟩, ⟨3⟩), (⟨0⟩, ⟨4⟩)]] := rfl
  obtain rfl := Except.ok.inj (hfound.symm.trans (honce (by decide)).1)
  obtain ⟨m'', hrun⟩ : ∃ m'', sampleFragment.edit .flowOnly
      (Edit.insertAhead ⟨0⟩ ⟨.intrinsic .discard, [], none⟩).logged ((), []) = .ok (true, ((),
        [(⟨0⟩, ⟨0⟩), (⟨0⟩, ⟨1⟩), (⟨0⟩, ⟨2⟩), (⟨0⟩, ⟨3⟩), (⟨0⟩, ⟨5⟩), (⟨0⟩, ⟨4⟩)]), m'') := ⟨_, rfl⟩
  simpa using hrun.symm.trans hlogged

end Module

end ShaderIR
