import ShaderIR.Proofs.Body.Account
import ShaderIR.Proofs.Lower.Analyses

/-!
# Going through blocks and functions

Both lowerings go through the blocks of a function and the functions of a module in the same way.
What a run has done is told here as a relation, for runs that return, whatever the code is like.

* `Sweeps`: blocks are rewritten one after the other, up to the first that cannot be.
* `Body.Swept`: the blocks of a body have been rewritten.
* `Module.Walk`: so have the bodies of functions.
* `Module.Related`, `Module.Same`: what has been done to a module, and that nothing has.

Principal statements: `Sweeps.each` and `Module.Walk.related` (what one step does to a block, or to
a body, has been done to all of them), `Sweeps.changed_iff` and `Module.Walk.changed_iff` (when
something has been changed), `Sweeps.cleared` and `Module.Walk.cleared` (what is left nowhere),
`Sweeps.single` and `Module.Walk.single` (each is rewritten once), `Sweeps.stopped` and
`Module.Walk.stopped` (at what place a run has stopped), `Sweeps.together` and
`Module.Walk.together` (two runs stop at the same place where they meet what is alike).
-/

namespace ShaderIR

/-! ## Blocks -/

section Blocks

variable {ε : Type} {B : List Row → List Row → Except ε Bool → Prop}

variable (B) in
/-- Blocks are rewritten one after the other, up to the first that cannot be. -/
inductive Sweeps : List BlockId → (BlockId → List Row) → (BlockId → List Row) → Except ε Bool →
    Prop where
  | nil {rows : BlockId → List Row} : Sweeps [] rows rows (.ok false)
  | stop {b : BlockId} {bs : List BlockId} {rows : BlockId → List Row} {out : List Row} {e : ε}
    (block : B (rows b) out (.error e)) :
    Sweeps (b :: bs) rows (Function.update rows b out) (.error e)
  | cons {b : BlockId} {bs : List BlockId} {rows rows' : BlockId → List Row} {out : List Row}
    {here : Bool} {r : Except ε Bool} (block : B (rows b) out (.ok here))
    (rest : Sweeps bs (Function.update rows b out) rows' r) :
    Sweeps (b :: bs) rows rows' (r.map (here || ·))

namespace Sweeps

variable {bs : List BlockId} {rows rows' : BlockId → List Row} {b : BlockId} {r : Except ε Bool}

theorem others (h : Sweeps B bs rows rows' r) (hb : b ∉ bs) : rows' b = rows b := by
  induction h with
  | nil => rfl
  | stop block => rw [Function.update_of_ne (List.ne_of_not_mem_cons hb)]
  | cons block _ ih =>
    rw [ih (List.not_mem_of_not_mem_cons hb), Function.update_of_ne (List.ne_of_not_mem_cons hb)]

/-- **What is done to a block has been done to every block.** -/
theorem each (h : Sweeps B bs rows rows' r) {R : List Row → List Row → Prop}
    (refl : ∀ rs, R rs rs) (trans : ∀ rs mid out, R rs mid → R mid out → R rs out)
    (step : ∀ rs out r, B rs out r → R rs out) (b : BlockId) : R (rows b) (rows' b) := by
  have hupdate : ∀ {rows : BlockId → List Row} {d : BlockId} {out : List Row},
      R (rows d) out → R (rows b) (Function.update rows d out b) := by
    intro rows d out hout
    by_cases hb : b = d
    · subst hb
      rwa [Function.update_self]
    · rw [Function.update_of_ne hb]
      exact refl _
  induction h with
  | nil => exact refl _
  | stop block => exact hupdate (step _ _ _ block)
  | cons block _ ih => exact trans _ _ _ (hupdate (step _ _ _ block)) ih

/-- **What no block is left with** that has been gone through. -/
theorem cleared (h : Sweeps B bs rows rows' r) {P : List Row → Prop}
    (step : ∀ rs out c, B rs out (.ok c) → P out) {c : Bool} (hr : r = .ok c) :
    ∀ b ∈ bs, P (rows' b) := by
  induction h generalizing c with
  | nil => simp
  | stop block => cases hr
  | @cons d bs rows rows' out here r block rest ih =>
    cases r with
    | error e => cases hr
    | ok later =>
      refine List.forall_mem_cons.2 ⟨?_, ih rfl⟩
      by_cases hd : d ∈ bs
      · exact ih rfl d hd
      · rw [rest.others hd, Function.update_self]
        exact step _ _ _ block

/-- Blocks that are listed once are rewritten once. -/
theorem single (h : Sweeps B bs rows rows' r) (hn : bs.Nodup) {c : Bool} (hr : r = .ok c) :
    ∀ b ∈ bs, ∃ here, B (rows b) (rows' b) (.ok here) := by
  induction h generalizing c with
  | nil => simp
  | stop block => cases hr
  | @cons d bs rows rows' out here r block rest ih =>
    obtain ⟨hd, hn⟩ := List.nodup_cons.1 hn
    cases r with
    | error e => cases hr
    | ok later =>
      refine List.forall_mem_cons.2 ⟨⟨here, ?_⟩, fun b hb => ?_⟩
      · rwa [rest.others hd, Function.update_self]
      · have hne : b ≠ d := fun e => hd (e ▸ hb)
        have hB := ih hn rfl b hb
        rwa [Function.update_of_ne hne] at hB

/-- A block is rewritten once, even if it is listed several times: what is clear is left as it
is. -/
theorem settled (h : Sweeps B bs rows rows' r) {P : List Row → Prop}
    (step : ∀ rs out c, B rs out (.ok c) → P out ∧ (P rs → out = rs)) {c : Bool} (hr : r = .ok c) :
    ∀ b ∈ bs, ∃ here, B (rows b) (rows' b) (.ok here) := by
  induction h generalizing c with
  | nil => simp
  | stop block => cases hr
  | @cons d bs rows rows' out here r block rest ih =>
    cases r with
    | error e => cases hr
    | ok later =>
      intro b hb
      by_cases hbd : b = d
      · subst hbd
        refine ⟨here, ?_⟩
        by_cases hmem : b ∈ bs
        · obtain ⟨_, hB⟩ := ih rfl b hmem
          rw [Function.update_self] at hB
          rwa [(step _ _ _ hB).2 (step _ _ _ block).1]
        · rwa [rest.others hmem, Function.update_self]
      · have hB := ih rfl b ((List.mem_cons.1 hb).resolve_left hbd)
        rwa [Function.update_of_ne hbd] at hB

/-- Nothing stops where each block can be rewritten and what it has become as well. -/
theorem completes (h : Sweeps B bs rows rows' r) {P : List Row → Prop}
    (hP : ∀ b ∈ bs, P (rows b))
    (step : ∀ rs out r, P rs → B rs out r → P out ∧ ∃ c, r = .ok c) : ∃ c, r = .ok c := by
  induction h with
  | nil => exact ⟨false, rfl⟩
  | stop block => cases (step _ _ _ (hP _ List.mem_cons_self) block).2.choose_spec
  | @cons d bs rows rows' out here r block _ ih =>
    obtain ⟨hd, hbs⟩ := List.forall_mem_cons.1 hP
    obtain ⟨c, rfl⟩ := ih fun b hb => by
      by_cases hbd : b = d
      · subst hbd
        rw [Function.update_self]
        exact (step _ _ _ hd block).1
      · rw [Function.update_of_ne hbd]
        exact hbs b hb
    exact ⟨here || c, rfl⟩

/-- **Where the rewriting has stopped**: at one block, with those before it rewritten. -/
theorem stopped (h : Sweeps B bs rows rows' r) {e : ε} (hr : r = .error e) :
    ∃ bs₁ b bs₂ rows₁ c out, bs = bs₁ ++ b :: bs₂ ∧ Sweeps B bs₁ rows rows₁ (.ok c) ∧
      B (rows₁ b) out (.error e) ∧ rows' = Function.update rows₁ b out := by
  induction h with
  | nil => cases hr
  | @stop b bs rows out e' block =>
    cases hr
    exact ⟨[], b, bs, rows, false, out, rfl, .nil, block, rfl⟩
  | @cons d bs rows rows' out here r block _ ih =>
    cases r with
    | ok later => cases hr
    | error e' =>
      cases hr
      obtain ⟨bs₁, b, bs₂, rows₁, c, out', rfl, hsweeps, hB, hrows⟩ := ih rfl
      exact ⟨d :: bs₁, b, bs₂, rows₁, here || c, out', rfl, .cons block hsweeps, hB, hrows⟩

/-- **Blocks that are alike are rewritten alike**: the one run stops where the other does. -/
theorem together {B₂ : List Row → List Row → Except ε Bool → Prop}
    {rows₂ rows₂' : BlockId → List Row} {r₂ : Except ε Bool} (h : Sweeps B bs rows rows' r)
    (h₂ : Sweeps B₂ bs rows₂ rows₂' r₂)
    {L : List Row → List Row → Prop} (alike : ∀ b, L (rows b) (rows₂ b))
    (step : ∀ rs out r rs₂ out₂ r₂, L rs rs₂ → B rs out r → B₂ rs₂ out₂ r₂ →
      r = r₂ ∧ ∀ c, r = .ok c → L out out₂) :
    r = r₂ ∧ ∀ c, r = .ok c → ∀ b, L (rows' b) (rows₂' b) := by
  induction h generalizing rows₂ r₂ with
  | nil =>
    cases h₂
    exact ⟨rfl, fun _ _ => alike⟩
  | @stop d bs rows out e block =>
    cases h₂ with
    | stop block₂ => exact ⟨(step _ _ _ _ _ _ (alike d) block block₂).1, nofun⟩
    | cons block₂ _ => cases (step _ _ _ _ _ _ (alike d) block block₂).1
  | @cons d bs rows rows' out here r block _ ih =>
    cases h₂ with
    | stop block₂ => cases (step _ _ _ _ _ _ (alike d) block block₂).1
    | @cons _ _ _ _ out₂ here₂ _ block₂ rest₂ =>
      obtain ⟨hhere, hout⟩ := step _ _ _ _ _ _ (alike d) block block₂
      obtain rfl := Except.ok.inj hhere
      have hnext : ∀ b, L (Function.update rows d out b) (Function.update rows₂ d out₂ b) := by
        intro b
        by_cases hb : b = d
        · subst hb
          rw [Function.update_self, Function.update_self]
          exact hout here rfl
        · rw [Function.update_of_ne hb, Function.update_of_ne hb]
          exact alike b
      obtain ⟨rfl, hlast⟩ := ih rest₂ hnext
      refine ⟨rfl, fun c hc => ?_⟩
      cases r with
      | error e => cases hc
      | ok later => exact hlast later rfl

/-- **When something has been changed**: if some block has not been clear before. -/
theorem changed_iff (h : Sweeps B bs rows rows' r) {P : List Row → Prop}
    (step : ∀ rs out c, B rs out (.ok c) → P out ∧ (c = true ↔ ¬ P rs)) {c : Bool}
    (hr : r = .ok c) : c = true ↔ ∃ b ∈ bs, ¬ P (rows b) := by
  induction h generalizing c with
  | nil =>
    cases hr
    simp
  | stop block => cases hr
  | @cons d bs rows rows' out here r block rest ih =>
    cases r with
    | error e => cases hr
    | ok later =>
      cases hr
      obtain ⟨hout, hhere⟩ := step _ _ _ block
      -- a block that is listed again is clear by then
      have hlater : (∃ b ∈ bs, ¬ P (Function.update rows d out b)) ↔
          ∃ b ∈ bs, b ≠ d ∧ ¬ P (rows b) := by
        refine exists_congr fun b => and_congr_right fun _ => ?_
        by_cases hbd : b = d
        · subst hbd
          simpa using hout
        · simp [hbd]
      rw [Bool.or_eq_true, hhere, ih rfl, hlater, List.exists_mem_cons_iff]
      constructor
      · rintro (hp | ⟨b, hb, -, hp⟩)
        · exact .inl hp
        · exact .inr ⟨b, hb, hp⟩
      · rintro (hp | ⟨b, hb, hp⟩)
        · exact .inl hp
        · by_cases hbd : b = d
          · exact .inl (hbd ▸ hp)
          · exact .inr ⟨b, hb, hbd, hp⟩

end Sweeps

end Blocks

/-! ## Bodies -/

namespace Body

/-- The chains of a body are linked, and its instructions have identities that the supply has given
away. -/
structure Linked (s : Supply .inst) (body : Body) : Prop where
  chains : body.ChainsLinked
  issued : (body.workspace s).Issued

theorem Linked.mono {s s' : Supply .inst} {body : Body} (h : body.Linked s)
    (hs : s.next ≤ s'.next) : body.Linked s' :=
  ⟨h.chains, fun id n hid => Nat.lt_of_lt_of_le (h.issued id n hid) hs⟩

/-- The analyses that are kept once something has been changed, or once nothing has been. -/
def keptAfter {ε : Type} : Except ε Bool → AnalysisSet
  | .ok false => .full
  | _ => .flowOnly

variable {ε : Type}

/-- The blocks of a body have been rewritten, each as `B` says, with new identities from those that
the supply has had. -/
structure Swept (B : Nat → List Row → List Row → Except ε Bool → Prop) (s : Supply .inst)
    (body : Body) (s' : Supply .inst) (body' : Body) (r : Except ε Bool) : Prop where
  blocks : body'.blocks = body.blocks
  rows : ∃ rows rows', body.code.Shows rows ∧
    (body.workspace s).Derived (body'.workspace s') rows' ∧
    Sweeps (B s.next) body.blocks rows rows' r
  listed : ∀ c, r = .ok c → ∀ b ∈ body.blocks, ∃ blk, body.code.blocks.get? b = some blk
  accounted : body.Accounted → body'.Accounted
  same : r = .ok false → s' = s ∧ body' = body
  cache : body'.cache = body.cache.preserve (keptAfter r)

variable {B : Nat → List Row → List Row → Except ε Bool → Prop} {s s' : Supply .inst}
  {body body' : Body} {r : Except ε Bool}

theorem Swept.le (h : Swept B s body s' body' r) : s.next ≤ s'.next := by
  obtain ⟨_, _, _, hd, _⟩ := h.rows
  exact hd.le

theorem Swept.linked (h : Swept B s body s' body' r) : body'.Linked s' := by
  obtain ⟨_, _, _, hd, _⟩ := h.rows
  exact ⟨⟨_, hd.shows.layout⟩, hd.issued⟩

end Body

/-! ## Functions -/

/-- What is done to a function: nothing if it is imported, and else something to its body. -/
inductive FuncDecl.Related (R : Body → Body → Prop) (decl : FuncDecl) : FuncDecl → Prop where
  | imported {link : String} (imported : decl.impl = .imported link) : Related R decl decl
  | body {body body' : Body} (present : decl.impl = .present body) (related : R body body') :
    Related R decl { decl with impl := .present body' }

theorem FuncDecl.Related.eq_self {R : Body → Body → Prop} {decl decl' : FuncDecl} {link : String}
    (h : Related R decl decl') (imported : decl.impl = .imported link) : decl' = decl := by
  cases h with
  | imported _ => rfl
  | body present _ =>
    rw [imported] at present
    cases present

/-- Who has a body keeps one, and keeps the name. -/
theorem FuncDecl.Related.present {R : Body → Body → Prop} {decl decl' : FuncDecl} {body : Body}
    (h : Related R decl decl') (present : decl.impl = .present body) :
    ∃ body', decl' = { decl with impl := .present body' } ∧ R body body' := by
  cases h with
  | imported imported =>
    rw [imported] at present
    cases present
  | body present' related =>
    obtain rfl := FuncDef.present.inj (present.symm.trans present')
    exact ⟨_, rfl, related⟩

namespace Module

/-- What is done to the functions of a module; nothing else of it has changed. -/
structure Related (R : Body → Body → Prop) (m m' : Module) : Prop where
  info : m'.info = m.info
  allFuncs : m'.allFuncs = m.allFuncs
  freshFuncs : m'.freshFuncs = m.freshFuncs
  freshBlocks : m'.freshBlocks = m.freshBlocks
  le : m.freshInsts.next ≤ m'.freshInsts.next
  funcs : ∀ f, Option.Rel (FuncDecl.Related R) (m.funcs.get? f) (m'.funcs.get? f)

/-- The bodies of some functions are linked. -/
def Linked (fs : List FuncId) (m : Module) : Prop :=
  ∀ f ∈ fs, ∀ decl body, m.funcs.get? f = some decl → decl.impl = .present body →
    body.Linked m.freshInsts

/-- Two modules look the same. -/
structure Same (m m' : Module) : Prop where
  info : m'.info = m.info
  allFuncs : m'.allFuncs = m.allFuncs
  freshFuncs : m'.freshFuncs = m.freshFuncs
  freshBlocks : m'.freshBlocks = m.freshBlocks
  freshInsts : m'.freshInsts = m.freshInsts
  funcs : ∀ f, m'.funcs.get? f = m.funcs.get? f

variable (Q : String → Supply .inst → Body → Supply .inst → Body → Except LowerError Bool → Prop)
  in
/-- Functions are rewritten one after the other, up to the first that cannot be. -/
inductive Walk : List FuncId → Module → Module → Except LowerError Bool → Prop where
  | nil {m : Module} : Walk [] m m (.ok false)
  | imported {f : FuncId} {fs : List FuncId} {m m' : Module} {r : Except LowerError Bool}
    {decl : FuncDecl} {link : String} (defined : m.funcs.get? f = some decl)
    (imported : decl.impl = .imported link) (rest : Walk fs m m' r) : Walk (f :: fs) m m' r
  | stop {f : FuncId} {fs : List FuncId} {m : Module} {decl : FuncDecl} {body body' : Body}
    {s : Supply .inst} {e : LowerError} (defined : m.funcs.get? f = some decl)
    (present : decl.impl = .present body)
    (func : Q decl.name m.freshInsts body s body' (.error e)) :
    Walk (f :: fs) m { m.setBody f decl body' with freshInsts := s } (.error e)
  | body {f : FuncId} {fs : List FuncId} {m m' : Module} {decl : FuncDecl} {body body' : Body}
    {s : Supply .inst} {here : Bool} {r : Except LowerError Bool}
    (defined : m.funcs.get? f = some decl) (present : decl.impl = .present body)
    (func : Q decl.name m.freshInsts body s body' (.ok here))
    (rest : Walk fs { m.setBody f decl body' with freshInsts := s } m' r) :
    Walk (f :: fs) m m' (r.map (here || ·))

/-- Some function has a body for which something holds. -/
def Some (P : Body → Prop) (fs : List FuncId) (m : Module) : Prop :=
  ∃ f ∈ fs, ∃ decl body, m.funcs.get? f = some decl ∧ decl.impl = .present body ∧ P body

variable {m m' m₀ : Module} {R : Body → Body → Prop} {f : FuncId} {decl : FuncDecl}
  {body body' : Body} {s : Supply .inst}

theorem get?_setBody (defined : m.funcs.get? f = some decl) (body' : Body) (s : Supply .inst)
    (g : FuncId) : ({ m.setBody f decl body' with freshInsts := s } : Module).funcs.get? g =
      if g = f then some { decl with impl := .present body' } else m.funcs.get? g :=
  Defs.get?_set_of_get? defined g

theorem Related.refl (hR : ∀ body, R body body) (m : Module) : m.Related R m := by
  refine ⟨rfl, rfl, rfl, rfl, Nat.le_refl _, fun f => ?_⟩
  cases m.funcs.get? f with
  | none => exact .none
  | some decl =>
    cases h : decl.impl with
    | imported link => exact .some (.imported h)
    | present body =>
      have hbody := FuncDecl.Related.body h (hR body)
      rw [← h] at hbody
      exact .some hbody

theorem Related.trans (hR : ∀ a b c, R a b → R b c → R a c) (h : m₀.Related R m)
    (h' : m.Related R m') : m₀.Related R m' := by
  refine ⟨h'.info.trans h.info, h'.allFuncs.trans h.allFuncs, h'.freshFuncs.trans h.freshFuncs,
    h'.freshBlocks.trans h.freshBlocks, h.le.trans h'.le, fun f => ?_⟩
  have hf := h.funcs f
  have hf' := h'.funcs f
  generalize m₀.funcs.get? f = o₀, m.funcs.get? f = o, m'.funcs.get? f = o' at hf hf' ⊢
  cases hf with
  | none => exact hf'
  | some hp =>
    cases hf' with
    | some hp' =>
      refine .some ?_
      cases hp with
      | imported imported =>
        cases hp' with
        | imported _ => exact .imported imported
        | body present _ =>
          rw [imported] at present
          cases present
      | body present related =>
        cases hp' with
        | imported imported => cases imported
        | body present' related' =>
          cases present'
          exact .body present (hR _ _ _ related related')

/-- What is done to a body may be told by what holds of the body before. -/
theorem Related.mono {R' : Body → Body → Prop} {P : Body → Prop} (hm : m.Each P)
    (hR : ∀ a b, P a → R a b → R' a b) (h : m.Related R m') : m.Related R' m' := by
  refine ⟨h.info, h.allFuncs, h.freshFuncs, h.freshBlocks, h.le, fun f => ?_⟩
  have hf := h.funcs f
  have hP := hm f
  generalize m.funcs.get? f = o, m'.funcs.get? f = o' at hf hP ⊢
  cases hf with
  | none => exact .none
  | some hp =>
    cases hp with
    | imported imported => exact .some (.imported imported)
    | body present related =>
      exact .some (.body present (hR _ _ (hP _ _ rfl present) related))

/-- One body is replaced. -/
theorem Related.setBody (hR : ∀ body, R body body) (defined : m.funcs.get? f = some decl)
    (present : decl.impl = .present body) (h : R body body') (hs : m.freshInsts.next ≤ s.next) :
    m.Related R { m.setBody f decl body' with freshInsts := s } := by
  refine ⟨rfl, rfl, rfl, rfl, hs, fun g => ?_⟩
  rw [get?_setBody defined]
  split
  · rename_i hg
    rw [hg, defined]
    exact .some (.body present h)
  · exact (Related.refl hR m).funcs g

/-- Whoever has a body afterwards has had one before. -/
theorem Related.exists_before (h : m.Related R m') (defined : m'.funcs.get? f = some decl)
    (present : decl.impl = .present body) : ∃ decl' body', m.funcs.get? f = some decl' ∧
      decl'.impl = .present body' ∧ decl = { decl' with impl := .present body } ∧
      R body' body := by
  have hf := h.funcs f
  rw [defined] at hf
  generalize m.funcs.get? f = o at hf
  cases hf with
  | some hp =>
    cases hp with
    | imported imported =>
      rw [imported] at present
      cases present
    | body present' related =>
      obtain rfl := FuncDef.present.inj present
      exact ⟨_, _, rfl, present', rfl, related⟩

/-- Whoever has a body keeps one. -/
theorem Related.exists_after (h : m.Related R m') (defined : m.funcs.get? f = some decl)
    (present : decl.impl = .present body) : ∃ body',
      m'.funcs.get? f = some { decl with impl := .present body' } ∧ R body body' := by
  have hf := h.funcs f
  rw [defined] at hf
  generalize m'.funcs.get? f = o at hf
  cases hf with
  | some hp =>
    obtain ⟨body', rfl, related⟩ := hp.present present
    exact ⟨body', rfl, related⟩

theorem Linked.tail {fs : List FuncId} (h : m.Linked (f :: fs)) : m.Linked fs := fun g hg =>
  h g (List.mem_cons_of_mem _ hg)

theorem Linked.setBody {fs : List FuncId} (h : m.Linked fs) (defined : m.funcs.get? f = some decl)
    (hs : m.freshInsts.next ≤ s.next) (hbody : body'.Linked s) :
    Linked fs { m.setBody f decl body' with freshInsts := s } := by
  intro g hg decl' body hdecl himpl
  rw [get?_setBody defined] at hdecl
  split at hdecl
  · cases hdecl
    cases himpl
    exact hbody
  · exact (h g hg decl' body hdecl himpl).mono hs

theorem Same.refl (m : Module) : m.Same m := ⟨rfl, rfl, rfl, rfl, rfl, fun _ => rfl⟩

theorem Same.trans (h : m₀.Same m) (h' : m.Same m') : m₀.Same m' :=
  ⟨h'.info.trans h.info, h'.allFuncs.trans h.allFuncs, h'.freshFuncs.trans h.freshFuncs,
    h'.freshBlocks.trans h.freshBlocks, h'.freshInsts.trans h.freshInsts,
    fun f => (h'.funcs f).trans (h.funcs f)⟩

/-- Putting back the body that is there. -/
theorem Same.setBody (defined : m.funcs.get? f = some decl) (present : decl.impl = .present body) :
    m.Same { m.setBody f decl body with freshInsts := m.freshInsts } := by
  refine ⟨rfl, rfl, rfl, rfl, rfl, fun g => ?_⟩
  rw [get?_setBody defined, ← present]
  split
  · rename_i hg
    rw [hg, defined]
  · rfl

namespace Walk

variable {Q : String → Supply .inst → Body → Supply .inst → Body → Except LowerError Bool → Prop}
  {fs : List FuncId} {r : Except LowerError Bool} {P : Body → Prop}

theorem others (h : Walk Q fs m m' r) (hf : f ∉ fs) : m'.funcs.get? f = m.funcs.get? f := by
  induction h with
  | nil => rfl
  | imported _ _ _ ih => exact ih (List.not_mem_of_not_mem_cons hf)
  | stop defined _ _ => rw [get?_setBody defined, if_neg (List.ne_of_not_mem_cons hf)]
  | body defined _ _ _ ih =>
    rw [ih (List.not_mem_of_not_mem_cons hf), get?_setBody defined,
      if_neg (List.ne_of_not_mem_cons hf)]

/-- **What is done to a body has been done to every body.** -/
theorem related (h : Walk Q fs m m' r) {n : Nat} (hn : n ≤ m.freshInsts.next)
    (refl : ∀ body, R body body) (trans : ∀ a b c, R a b → R b c → R a c)
    (step : ∀ name s body s' body' r, n ≤ s.next → Q name s body s' body' r →
      s.next ≤ s'.next ∧ R body body') : m.Related R m' := by
  induction h with
  | nil => exact .refl refl _
  | imported _ _ _ ih => exact ih hn
  | stop defined present func =>
    obtain ⟨hle, hR⟩ := step _ _ _ _ _ _ hn func
    exact .setBody refl defined present hR hle
  | body defined present func _ ih =>
    obtain ⟨hle, hR⟩ := step _ _ _ _ _ _ hn func
    exact .trans trans (.setBody refl defined present hR hle) (ih (hn.trans hle))

theorem linked {gs : List FuncId} (h : Walk Q fs m m' r) (hm : m.Linked gs)
    (step : ∀ name s body s' body' r, Q name s body s' body' r →
      s.next ≤ s'.next ∧ body'.Linked s') : m'.Linked gs := by
  induction h with
  | nil => exact hm
  | imported _ _ _ ih => exact ih hm
  | stop defined _ func =>
    obtain ⟨hle, hbody⟩ := step _ _ _ _ _ _ func
    exact hm.setBody defined hle hbody
  | body defined _ func _ ih =>
    obtain ⟨hle, hbody⟩ := step _ _ _ _ _ _ func
    exact ih (hm.setBody defined hle hbody)

/-- All functions that have been gone through are defined. -/
theorem defined (h : Walk Q fs m m' r) {c : Bool} (hr : r = .ok c) :
    ∀ f ∈ fs, ∃ decl, m'.funcs.get? f = some decl := by
  induction h generalizing c with
  | nil => simp
  | @imported f fs m m' r decl link defined _ rest ih =>
    refine List.forall_mem_cons.2 ⟨?_, ih hr⟩
    by_cases hf : f ∈ fs
    · exact ih hr f hf
    · exact ⟨decl, (rest.others hf).trans defined⟩
  | stop _ _ _ => cases hr
  | @body f fs m m' decl body body' s here r defined _ _ rest ih =>
    cases r with
    | error e => cases hr
    | ok later =>
      refine List.forall_mem_cons.2 ⟨?_, ih rfl⟩
      by_cases hf : f ∈ fs
      · exact ih rfl f hf
      · exact ⟨_, (rest.others hf).trans ((get?_setBody defined body' s f).trans (if_pos rfl))⟩

/-- **What holds of every body** that has been gone through. -/
theorem cleared (h : Walk Q fs m m' r)
    (step : ∀ name s body s' body' c, Q name s body s' body' (.ok c) → P body') {c : Bool}
    (hr : r = .ok c) : ∀ f ∈ fs, ∀ decl body, m'.funcs.get? f = some decl →
      decl.impl = .present body → P body := by
  induction h generalizing c with
  | nil => simp
  | @imported f fs m m' r decl link defined imported rest ih =>
    refine List.forall_mem_cons.2 ⟨fun decl' body hdecl himpl => ?_, ih hr⟩
    by_cases hf : f ∈ fs
    · exact ih hr f hf decl' body hdecl himpl
    · rw [rest.others hf, defined] at hdecl
      cases hdecl
      rw [imported] at himpl
      cases himpl
  | stop _ _ _ => cases hr
  | @body f fs m m' decl body body' s here r defined _ func rest ih =>
    cases r with
    | error e => cases hr
    | ok later =>
      refine List.forall_mem_cons.2 ⟨fun decl' body hdecl himpl => ?_, ih rfl⟩
      by_cases hf : f ∈ fs
      · exact ih rfl f hf decl' body hdecl himpl
      · rw [rest.others hf, get?_setBody defined, if_pos rfl] at hdecl
        cases hdecl
        cases himpl
        exact step _ _ _ _ _ _ func

/-- **A body is worked on once**, even if its function is handled several times: what is clear is
left as it is. -/
theorem single (h : Walk Q fs m m' r) {n : Nat} (hn : n ≤ m.freshInsts.next)
    (step : ∀ name s body s' body' c, Q name s body s' body' (.ok c) →
      s.next ≤ s'.next ∧ P body' ∧ (P body → body' = body)) {c : Bool} (hr : r = .ok c) :
    ∀ f ∈ fs, ∀ decl, m.funcs.get? f = some decl → ∃ decl', m'.funcs.get? f = some decl' ∧
      decl.Related (fun body body' => ∃ s s' here, n ≤ s.next ∧
        Q decl.name s body s' body' (.ok here)) decl' := by
  induction h generalizing c with
  | nil => simp
  | @imported f fs m m' r decl link defined imported rest ih =>
    refine List.forall_mem_cons.2 ⟨fun decl' hdecl => ?_, ih hn hr⟩
    by_cases hf : f ∈ fs
    · exact ih hn hr f hf decl' hdecl
    · rw [defined] at hdecl
      cases hdecl
      exact ⟨_, (rest.others hf).trans defined, .imported imported⟩
  | stop _ _ _ => cases hr
  | @body f fs m m' decl body body' s here r defined present func rest ih =>
    cases r with
    | error e => cases hr
    | ok later =>
      obtain ⟨hle, hclear, -⟩ := step _ _ _ _ _ _ func
      have hlater := ih (hn.trans hle) rfl
      have hget := get?_setBody defined body' s
      intro g hg decl' hdecl
      by_cases hgf : g = f
      · subst hgf
        rw [defined] at hdecl
        cases hdecl
        have hself := (hget g).trans (if_pos rfl)
        refine ⟨_, ?_, .body present ⟨_, s, here, hn, func⟩⟩
        by_cases hmem : g ∈ fs
        · obtain ⟨decl'', hfinal, hrel⟩ := hlater g hmem _ hself
          obtain ⟨final, rfl, _, _, _, -, hQ⟩ := hrel.present rfl
          obtain ⟨-, -, hsame⟩ := step _ _ _ _ _ _ hQ
          rw [hfinal, hsame hclear]
        · rw [rest.others hmem, hself]
      · have hother := (hget g).trans ((if_neg hgf).trans hdecl)
        exact hlater g (List.mem_of_ne_of_mem hgf hg) decl' hother

/-- **Where the walk has stopped**: at one function, with those before it handled. -/
theorem stopped (h : Walk Q fs m m' r) {e : LowerError} (hr : r = .error e) :
    ∃ fs₁ f fs₂ m₁ c decl body body' s, fs = fs₁ ++ f :: fs₂ ∧ Walk Q fs₁ m m₁ (.ok c) ∧
      m₁.funcs.get? f = some decl ∧ decl.impl = .present body ∧
      Q decl.name m₁.freshInsts body s body' (.error e) ∧
      m' = { m₁.setBody f decl body' with freshInsts := s } := by
  induction h with
  | nil => cases hr
  | @imported g fs m m' r decl link defined imported rest ih =>
    obtain ⟨fs₁, f, fs₂, m₁, c, decl', body, body', s, rfl, hwalk, hstop⟩ := ih hr
    exact ⟨g :: fs₁, f, fs₂, m₁, c, decl', body, body', s, rfl, .imported defined imported hwalk,
      hstop⟩
  | @stop f fs m decl body body' s e' defined present func =>
    cases hr
    exact ⟨[], f, fs, m, false, decl, body, body', s, rfl, .nil, defined, present, func, rfl⟩
  | @body g fs m m' decl body body' s here r defined present func _ ih =>
    cases r with
    | ok later => cases hr
    | error e' =>
      cases hr
      obtain ⟨fs₁, f, fs₂, m₁, c, decl', body₁, body₁', s', rfl, hwalk, hstop⟩ := ih rfl
      exact ⟨g :: fs₁, f, fs₂, m₁, here || c, decl', body₁, body₁', s', rfl,
        .body defined present func hwalk, hstop⟩

theorem of_imported (h : Walk Q (f :: fs) m m' r) {link : String}
    (defined : m.funcs.get? f = some decl) (imported : decl.impl = .imported link) :
    Walk Q fs m m' r := by
  have himported : ∀ {decl' body'}, m.funcs.get? f = some decl' → decl'.impl ≠ .present body' := by
    intro decl' body' hdecl himpl
    rw [defined] at hdecl
    cases hdecl
    rw [imported] at himpl
    cases himpl
  cases h with
  | imported _ _ rest => exact rest
  | stop hdecl present _ => exact absurd present (himported hdecl)
  | body hdecl present _ _ => exact absurd present (himported hdecl)

theorem of_present (h : Walk Q (f :: fs) m m' r) (defined : m.funcs.get? f = some decl)
    (present : decl.impl = .present body) :
    (∃ s body' e, Q decl.name m.freshInsts body s body' (.error e) ∧ r = .error e) ∨
    ∃ s body' here later, Q decl.name m.freshInsts body s body' (.ok here) ∧
      Walk Q fs { m.setBody f decl body' with freshInsts := s } m' later ∧
      r = later.map (here || ·) := by
  cases h with
  | imported hdecl imported _ =>
    rw [defined] at hdecl
    cases hdecl
    rw [present] at imported
    cases imported
  | stop hdecl himpl func =>
    rw [defined] at hdecl
    cases hdecl
    obtain rfl := FuncDef.present.inj (present.symm.trans himpl)
    exact .inl ⟨_, _, _, func, rfl⟩
  | body hdecl himpl func rest =>
    rw [defined] at hdecl
    cases hdecl
    obtain rfl := FuncDef.present.inj (present.symm.trans himpl)
    exact .inr ⟨_, _, _, _, func, rest, rfl⟩

/-- **Bodies that are alike are worked on alike**: the one run stops where the other does. -/
theorem together
    {Q₂ : String → Supply .inst → Body → Supply .inst → Body → Except LowerError Bool → Prop}
    {m₂ m₂' : Module} {r₂ : Except LowerError Bool} {L : Body → Body → Prop}
    (h : Walk Q fs m m' r) (h₂ : Walk Q₂ fs m₂ m₂' r₂)
    (alike : ∀ f ∈ fs, ∀ decl, m.funcs.get? f = some decl →
      ∃ decl₂, m₂.funcs.get? f = some decl₂ ∧ decl.Related L decl₂)
    (step : ∀ name s body s' body' r s₂ body₂ s₂' body₂' r₂, L body body₂ →
      Q name s body s' body' r → Q₂ name s₂ body₂ s₂' body₂' r₂ →
      r = r₂ ∧ ∀ c, r = .ok c → L body' body₂') : r = r₂ := by
  induction h generalizing m₂ r₂ with
  | nil =>
    cases h₂
    rfl
  | imported defined imported _ ih =>
    obtain ⟨hf, halike⟩ := List.forall_mem_cons.1 alike
    obtain ⟨decl₂, hdecl₂, hrel⟩ := hf _ defined
    obtain rfl := hrel.eq_self imported
    exact ih (h₂.of_imported hdecl₂ imported) halike
  | stop defined present func =>
    obtain ⟨decl₂, hdecl₂, hrel⟩ := alike _ List.mem_cons_self _ defined
    obtain ⟨body₂, rfl, hL⟩ := hrel.present present
    rcases h₂.of_present hdecl₂ rfl with ⟨_, _, e₂, func₂, rfl⟩ | ⟨_, _, here₂, _, func₂, -, -⟩
    · exact (step _ _ _ _ _ _ _ _ _ _ _ hL func func₂).1
    · cases (step _ _ _ _ _ _ _ _ _ _ _ hL func func₂).1
  | @body f fs m m' decl body body' s here r defined present func _ ih =>
    obtain ⟨hf, halike⟩ := List.forall_mem_cons.1 alike
    obtain ⟨decl₂, hdecl₂, hrel⟩ := hf _ defined
    obtain ⟨body₂, rfl, hL⟩ := hrel.present present
    rcases h₂.of_present hdecl₂ rfl with ⟨_, _, e₂, func₂, -⟩ |
      ⟨s₂, body₂', here₂, later₂, func₂, rest₂, rfl⟩
    · cases (step _ _ _ _ _ _ _ _ _ _ _ hL func func₂).1
    · obtain ⟨hhere, hL'⟩ := step _ _ _ _ _ _ _ _ _ _ _ hL func func₂
      obtain rfl := Except.ok.inj hhere
      rw [ih rest₂ fun g hg decl' hdecl' => ?_]
      rw [get?_setBody defined] at hdecl'
      rw [get?_setBody hdecl₂]
      split at hdecl'
      · rename_i hgf
        cases hdecl'
        exact ⟨_, if_pos hgf, .body rfl (hL' here rfl)⟩
      · rename_i hgf
        rw [if_neg hgf]
        exact halike g hg decl' hdecl'

/-- **When something has been changed**: if some body has not been clear before. -/
theorem changed_iff (h : Walk Q fs m m' r)
    (step : ∀ name s body s' body' c, Q name s body s' body' (.ok c) →
      P body' ∧ (c = true ↔ ¬ P body)) {c : Bool} (hr : r = .ok c) :
    c = true ↔ m.Some (fun body => ¬ P body) fs := by
  induction h generalizing c with
  | nil =>
    cases hr
    simp [Module.Some]
  | @imported f fs m m' r decl link defined imported rest ih =>
    rw [ih hr, Module.Some, Module.Some, List.exists_mem_cons_iff, or_iff_right]
    rintro ⟨decl', body, hdecl, himpl, -⟩
    rw [defined] at hdecl
    cases hdecl
    rw [imported] at himpl
    cases himpl
  | stop _ _ _ => cases hr
  | @body f fs m m' decl body body' s here r defined present func rest ih =>
    cases r with
    | error e => cases hr
    | ok later =>
      cases hr
      obtain ⟨hclear, hhere⟩ := step _ _ _ _ _ _ func
      rw [Bool.or_eq_true, hhere, ih rfl, Module.Some, Module.Some, List.exists_mem_cons_iff]
      constructor
      · rintro (hp | ⟨g, hg, decl', body'', hdecl, himpl, hp⟩)
        · exact .inl ⟨decl, body, defined, present, hp⟩
        · rw [get?_setBody defined] at hdecl
          split at hdecl
          · cases hdecl
            cases himpl
            exact absurd hclear hp
          · exact .inr ⟨g, hg, decl', body'', hdecl, himpl, hp⟩
      · rintro (⟨decl', body'', hdecl, himpl, hp⟩ | ⟨g, hg, decl', body'', hdecl, himpl, hp⟩)
        · rw [defined] at hdecl
          cases hdecl
          obtain rfl := FuncDef.present.inj (present.symm.trans himpl)
          exact .inl hp
        · by_cases hgf : g = f
          · subst hgf
            rw [defined] at hdecl
            cases hdecl
            obtain rfl := FuncDef.present.inj (present.symm.trans himpl)
            exact .inl hp
          · exact .inr ⟨g, hg, decl', body'',
              (get?_setBody defined body' s g).trans (by rw [if_neg hgf, hdecl]), himpl, hp⟩

/-- **If nothing has been changed, the module looks the same.** -/
theorem same (h : Walk Q fs m m' r)
    (step : ∀ name s body s' body', Q name s body s' body' (.ok false) → s' = s ∧ body' = body)
    (hr : r = .ok false) : m.Same m' := by
  induction h with
  | nil => exact .refl _
  | imported _ _ _ ih => exact ih hr
  | stop _ _ _ => cases hr
  | @body f fs m m' decl body body' s here r defined present func rest ih =>
    cases r with
    | error e => cases hr
    | ok later =>
      obtain ⟨rfl, rfl⟩ := Bool.or_eq_false_iff.1 (Except.ok.inj hr)
      obtain ⟨rfl, rfl⟩ := step _ _ _ _ _ func
      exact (Same.setBody defined present).trans (ih rfl)

end Walk

end Module

end ShaderIR
