import ShaderIR.Proofs.Body.Growth
import ShaderIR.Proofs.Identity

/-!
# How long an instruction lives

The instructions of each function are a collection of their own, and all functions take identities
from one supply.  Inserting an instruction and taking one out are calls of one collection, one after
the other.  So an instruction that is inserted is new to all functions, and one that has been taken
out is found in none of them again.

* `DefsCall.Runs`: calls of one collection, one after the other.
* `Registry.Holds`: a workspace is one of the collections, with the supply.

Principal statements: `Builder.insert_runs` and `Workspace.removeInst_runs` (the calls that an
insertion and a removal are made of), `Registry.Holds.insert` and `Registry.Holds.removeInst` (what
they mean for all functions).
-/

namespace ShaderIR

/-! ## Calls of one collection -/

/-- Calls of a collection lead from one state of it and of the supply to another; `events` is what
has happened by them. -/
inductive DefsCall.Runs {κ : Kind} {α : Type} (d₀ : Defs κ α) (s₀ : Supply κ) :
    List (DefsEvent κ α) → Defs κ α → Supply κ → Prop where
  | none : Runs d₀ s₀ [] d₀ s₀
  | call {events : List (DefsEvent κ α)} {d d' : Defs κ α} {s s' : Supply κ} {e : DefsEvent κ α}
    (before : Runs d₀ s₀ events d s) (call : DefsCall κ α) (made : call.run d s = .ok (e, d', s')) :
    Runs d₀ s₀ (events ++ [e]) d' s'

namespace DefsCall.Runs

variable {κ : Kind} {α : Type} {d d' d₀ : Defs κ α} {s s' s₀ : Supply κ}
  {events more : List (DefsEvent κ α)}

theorem trans (h : Runs d₀ s₀ events d s) (h' : Runs d s more d' s') :
    Runs d₀ s₀ (events ++ more) d' s' := by
  induction h' with
  | none => rwa [List.append_nil]
  | call _ call made ih =>
    rw [← List.append_assoc]
    exact .call ih call made

theorem define {id : Id κ} {a : α} (h : d.define s a = .ok (id, d', s')) :
    Runs d s [.defined id a] d' s' := by
  refine .call .none (.define a) ?_
  rw [run, h]
  rfl

theorem remove {id : Id κ} {a : α} (h : d.remove id = .ok (a, d')) :
    Runs d s [.removed id a] d' s := by
  refine .call .none (.remove id) ?_
  rw [run, h]
  rfl

theorem edit {id : Id κ} {a : α} (h : d.get? id = some a) (f : α → α) :
    Runs d s [.edited id f] (d.set id (f a)) s := by
  refine .call .none (.edit id f) ?_
  rw [run, Defs.modify_eq_ok.2 ⟨a, h, rfl⟩]
  rfl

end DefsCall.Runs

/-- Changing links is changing definitions, one after the other. -/
theorem Nodes.Relinks.runs {κ : Kind} {α : Type} {ns ns' : Nodes κ α} (h : ns.Relinks ns')
    (s : Supply κ) : ∃ events, DefsCall.Runs ns s events ns' s := by
  induction h with
  | refl => exact ⟨[], .none⟩
  | tail _ step ih =>
    obtain ⟨events, hruns⟩ := ih
    obtain ⟨id, n, n', hn, -, rfl⟩ := step
    exact ⟨_, hruns.trans (.edit hn fun _ => n')⟩

/-! ## Code -/

section Code

variable {w w' : Workspace} {b b' : Builder} {blk : BlockId} {id : InstId} {i : Inst}

theorem Code.editChain_runs {c c' : Code}
    {edit : Chain .inst → Nodes .inst Inst → Except Fault (Chain .inst × Nodes .inst Inst)}
    (he : ∀ ch r, edit ch c.insts = .ok r → c.insts.Relinks r.2)
    (h : c.editChain blk edit = .ok c') (s : Supply .inst) :
    ∃ events, DefsCall.Runs c.insts s events c'.insts s := by
  obtain ⟨bd, -, h⟩ := bind_eq_ok.1 h
  obtain ⟨⟨ch, ns⟩, hedit, h⟩ := bind_eq_ok.1 h
  cases h
  exact (he _ _ hedit).runs s

/-- **Inserting an instruction** defines it, and then changes links. -/
theorem Builder.insert_runs (h : b.insert i = .ok (id, b')) : ∃ events,
    DefsCall.Runs b.work.code.insts b.work.fresh (.defined id (.loose i) :: events)
      b'.work.code.insts b'.work.fresh := by
  obtain ⟨⟨id, w⟩, hdefine, h⟩ := bind_eq_ok.1 h
  obtain ⟨c, hlink, h⟩ := bind_eq_ok.1 h
  cases h
  obtain ⟨⟨id, insts, fresh⟩, hnew, hdefine⟩ := bind_eq_ok.1 hdefine
  cases hdefine
  obtain ⟨events, hlinks⟩ := Code.editChain_runs (fun _ _ => Anchor.link_ok) hlink fresh
  exact ⟨events, (DefsCall.Runs.define hnew).trans hlinks⟩

/-- **Taking an instruction out** changes links, and then removes the definition. -/
theorem Workspace.removeInst_runs (h : w.removeInst blk id = .ok (i, w')) : ∃ events n,
    DefsCall.Runs w.code.insts w.fresh (events ++ [.removed id n]) w'.code.insts w'.fresh := by
  obtain ⟨⟨i, c⟩, hremove, h⟩ := bind_eq_ok.1 h
  cases h
  obtain ⟨c₁, hedit, hremove⟩ := bind_eq_ok.1 hremove
  obtain ⟨⟨n, insts⟩, herase, hremove⟩ := bind_eq_ok.1 hremove
  cases hremove
  obtain ⟨events, hlinks⟩ := Code.editChain_runs (fun _ _ => Chain.remove_ok) hedit w.fresh
  exact ⟨events, n, hlinks.trans (.remove herase)⟩

end Code

/-! ## All functions -/

namespace Registry

variable {ι : Type} [DecidableEq ι]

/-- Calls of one collection are steps of the registry that it belongs to. -/
theorem run_of_runs {κ : Kind} {α : Type} {r : Registry ι κ α} {c : ι} {d : Defs κ α} {s : Supply κ}
    {events : List (DefsEvent κ α)} (h : DefsCall.Runs (r.defs c) r.fresh events d s) :
    Relation.ReflTransGen Step r
      ⟨s, Function.update r.defs c d, r.log ++ events.map (c, ·)⟩ := by
  induction h with
  | none =>
    rw [Function.update_eq_self, List.map_nil, List.append_nil]
  | @call events d d' s s' e _ call made ih =>
    have hat : Function.update r.defs c d c = d := Function.update_self ..
    rw [← hat] at made
    have hstep := Step.made (r := ⟨s, Function.update r.defs c d, r.log ++ events.map (c, ·)⟩)
      c call made
    rw [Function.update_idem, List.append_assoc] at hstep
    rw [List.map_append]
    exact ih.tail hstep

variable {r : Registry ι .inst (Node .inst Inst)} {c : ι} {w w' : Workspace} {b b' : Builder}
  {blk : BlockId} {id : InstId} {i : Inst}

/-- A workspace is one of the collections, with the supply. -/
structure Holds (r : Registry ι .inst (Node .inst Inst)) (c : ι) (w : Workspace) : Prop where
  insts : r.defs c = w.code.insts
  fresh : r.fresh = w.fresh

namespace Holds

/-- What is done to one workspace leaves all other collections alone. -/
theorem work {events : List (DefsEvent .inst (Node .inst Inst))} (h : r.Holds c w)
    (hruns : DefsCall.Runs w.code.insts w.fresh events w'.code.insts w'.fresh) :
    ∃ r', Relation.ReflTransGen Step r r' ∧ r'.Holds c w' ∧
      (∀ c', c' ≠ c → r'.defs c' = r.defs c') ∧ r'.log = r.log ++ events.map (c, ·) := by
  rw [← h.insts, ← h.fresh] at hruns
  exact ⟨_, run_of_runs hruns, ⟨Function.update_self .., rfl⟩,
    fun c' hc => Function.update_of_ne hc .., rfl⟩

/-- **An instruction that is inserted is new** to all functions. -/
theorem insert (h : r.Holds c b.work) (run : Relation.ReflTransGen Step start r)
    (inserted : b.insert i = .ok (id, b')) : id ∉ issuedIn r.log ∧ ∃ r',
      Relation.ReflTransGen Step r r' ∧ r'.Holds c b'.work ∧
        (∀ c', c' ≠ c → r'.defs c' = r.defs c') ∧ (c, .defined id (.loose i)) ∈ r'.log := by
  obtain ⟨events, hruns⟩ := Builder.insert_runs inserted
  obtain ⟨r', hrun, hholds, hothers, hlog⟩ := h.work hruns
  obtain ⟨hsound, -⟩ := Sound.start.run (run.trans hrun)
  have hnodup := hsound.nodup
  rw [hlog] at hnodup
  exact ⟨(issued_once hnodup).1, r', hrun, hholds, hothers, by simp [hlog]⟩

/-- **An instruction that has been taken out is never found again**, in no function. -/
theorem removeInst (h : r.Holds c w) (run : Relation.ReflTransGen Step start r)
    (removed : w.removeInst blk id = .ok (i, w')) : ∃ r', Relation.ReflTransGen Step r r' ∧
      r'.Holds c w' ∧ (∀ c', c' ≠ c → r'.defs c' = r.defs c') ∧
      ∀ r'', Relation.ReflTransGen Step r' r'' → ∀ c', (r''.defs c').Refuses id := by
  obtain ⟨events, n, hruns⟩ := Workspace.removeInst_runs removed
  obtain ⟨r', hrun, hholds, hothers, hlog⟩ := h.work hruns
  refine ⟨r', hrun, hholds, hothers, fun r'' later c' => ?_⟩
  obtain ⟨hsound, more, hmore⟩ := (Sound.start.run (run.trans hrun)).1.run later
  refine Defs.refuses_of_get? (hsound.gone (c := c) (x := n) ?_ c')
  simp [hmore, hlog]

end Holds

end Registry

end ShaderIR
