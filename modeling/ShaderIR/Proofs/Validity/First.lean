import ShaderIR.Proofs.Validity.Decides

/-!
# The check finds the first violation

Principal statement: `Module.firstViolation_decides` (the check accepts exactly the modules that
conform, and of any other module it finds the first violation).
-/

namespace ShaderIR

namespace Module

variable {m : Module}

/-- The check of a function finds the first defect of its body, if it has one. -/
theorem exists_firstViolation_finds {f : FuncId} {decl : FuncDecl}
    (hf : m.funcs.get? f = some decl)
    (wf : ∀ body, decl.impl = .present body → body.WellFormed) :
    ∃ o, decl.firstViolation = .ok o ∧ Finds (m.FuncViolation f) o := by
  cases himpl : decl.impl with
  | imported link =>
    refine ⟨none, by rw [FuncDecl.firstViolation, himpl], ?_⟩
    rintro key v ⟨defined, present, -⟩
    obtain rfl := Option.some.inj (defined.symm.trans hf)
    rw [himpl] at present
    cases present
  | present body =>
    have hwf := wf body himpl
    obtain ⟨rows, hs⟩ := hwf.linked.exists_shows
    obtain ⟨o, ho, hfinds⟩ := Body.exists_firstDefect_finds hs hwf.distinct hwf.listed
      fun b hb => Option.isSome_iff_exists.2 (hwf.reached b hb)
    refine ⟨o.map fun x => ⟨x, decl.name⟩, ?_, hfinds.map fun key v => ?_⟩
    · rw [FuncDecl.firstViolation, himpl]
      dsimp only
      rw [ho]
      rfl
    · constructor
      · rintro ⟨defined, present, defect⟩
        obtain rfl := Option.some.inj (defined.symm.trans hf)
        obtain rfl := FuncDef.present.inj (present.symm.trans himpl)
        exact ⟨_, defect, rfl⟩
      · rintro ⟨x, defect, rfl⟩
        exact .body hf himpl defect

/-- **The check decides whether a module conforms, and finds the first violation.**  Let the
functions that are handled be defined, and their bodies well-formed.  Then the check has a result:
it accepts the module if and only if every user has the inputs that it expects, and otherwise
reports the violation that comes first by function, block, place in the block and input, where of
one input it comes first that it is nowhere computed, then that it is not computed before its use
on every path, and then its type. -/
theorem firstViolation_decides (m : Module) (wf : m.Every Body.WellFormed)
    (defined : ∀ f ∈ m.allFuncs, ∃ decl, m.funcs.get? f = some decl) :
    ∃ r, m.firstViolation = .ok r ∧ (r = none ↔ m.Conforms) ∧
      ∀ v, r = some v ↔ m.FirstViolation v := by
  obtain ⟨r, hr, hfinds⟩ := exists_findSomeM?_finds (l := m.allFuncs)
    (f := fun f => do (← m.funcs.find f).firstViolation) (V := fun _ => m.FuncViolation)
    fun k f hf => by
      have hf := List.mem_of_getElem? hf
      obtain ⟨decl, hdecl⟩ := defined f hf
      rw [Defs.find_of_get? hdecl]
      exact exists_firstViolation_finds hdecl fun body => wf f hf decl body hdecl
  have hfinds : Finds m.ViolationAt r := hfinds
  refine ⟨r, hr, ?_, fun v => ?_⟩
  · rw [conforms_iff wf]
    cases r with
    | none => exact iff_of_true rfl hfinds
    | some v =>
      obtain ⟨key, hv, -⟩ := hfinds
      exact iff_of_false nofun fun h => h key v hv
  · cases r with
    | none =>
      refine iff_of_false nofun ?_
      rintro ⟨key, hv, -⟩
      exact hfinds key v hv
    | some v₀ =>
      constructor
      · rintro ⟨⟩
        exact hfinds
      · intro hv
        rw [hv.unique wf hfinds]

end Module

/-- A loop that stores a value before it is read, and decides on a value that is nowhere
computed. -/
def Body.sampleMisordered : Body where
  code :=
    { blocks := ⟨[(⟨0⟩, ⟨.ofList [⟨0⟩, ⟨1⟩], .branchIf (.result ⟨2⟩) ⟨0⟩ ⟨0⟩⟩)]⟩
      insts := ⟨[
        (⟨0⟩, ⟨none, some ⟨1⟩,
          ⟨.intrinsic (.storeOutput (.ofSlot (.color 0))), [.result ⟨1⟩], none⟩⟩),
        (⟨1⟩, ⟨some ⟨0⟩, none, ⟨.intrinsic (.loadInput 0), [], some .f32⟩⟩)]⟩ }
  blocks := [⟨0⟩]
  cache := .empty

theorem Body.sampleMisordered_wellFormed : sampleMisordered.WellFormed where
  linked := by
    refine ⟨fun b => if b = ⟨0⟩ then [⟨0⟩, ⟨1⟩] else [], fun b => ?_, fun b => ?_, fun b => ?_,
      fun b d hbd x hx hx' => ?_⟩
    · by_cases h₀ : b = ⟨0⟩
      · subst h₀
        rfl
      · have hnone : sampleMisordered.code.blocks.get? b = none := by
          rw [sampleMisordered, Defs.get?_cons, if_neg h₀]
          rfl
        rw [Code.chainOf, hnone, if_neg h₀]
        rfl
    · split
      · exact ⟨⟨_, rfl⟩, ⟨_, rfl⟩, trivial⟩
      · trivial
    · split <;> decide
    · split at hx <;> split at hx'
      · exact hbd (by simp_all)
      · cases hx'
      · cases hx
      · cases hx
  distinct := by decide
  listed := by
    intro b hb
    obtain rfl := List.mem_singleton.1 hb
    exact ⟨_, rfl⟩
  reached := by
    intro b hb
    refine Option.isSome_iff_exists.1 (reached_defined ?_ (by decide) hb)
    rintro e ⟨⟩
    rfl

def Module.sampleMisordered : Module where
  info := .fragment
  funcs := ⟨[(⟨0⟩, ⟨"main", .present .sampleMisordered⟩)]⟩
  allFuncs := [⟨0⟩]
  freshFuncs := ⟨1⟩
  freshBlocks := ⟨1⟩
  freshInsts := ⟨3⟩

/-- Of the two violations of the sample, the one of the store comes first. -/
theorem Module.sampleMisordered_firstViolation : ¬ sampleMisordered.Conforms ∧
    sampleMisordered.FirstViolation ⟨⟨0, "store_output", .useBeforeDef 0⟩, "main"⟩ := by
  have wf : sampleMisordered.Every Body.WellFormed := by
    intro f hf decl body hdecl himpl
    obtain rfl := List.mem_singleton.1 hf
    cases hdecl
    cases himpl
    exact Body.sampleMisordered_wellFormed
  have defined : ∀ f ∈ sampleMisordered.allFuncs,
      ∃ decl, sampleMisordered.funcs.get? f = some decl := by
    intro f hf
    obtain rfl := List.mem_singleton.1 hf
    exact ⟨_, rfl⟩
  obtain ⟨r, hr, hnone, hsome⟩ := firstViolation_decides sampleMisordered wf defined
  have hrun : sampleMisordered.firstViolation =
      .ok (some ⟨⟨0, "store_output", .useBeforeDef 0⟩, "main"⟩) := rfl
  obtain rfl := Except.ok.inj (hrun.symm.trans hr)
  exact ⟨fun h => Option.some_ne_none _ (hnone.2 h), (hsome _).1 rfl⟩

end ShaderIR
