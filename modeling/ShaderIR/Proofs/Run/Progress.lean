import ShaderIR.Proofs.Run.Meaning
import ShaderIR.Proofs.Validity.Uses

/-!
# Valid bodies run

* `Env.Typed`, `Env.Has`: values have the types of their rows, and all results of some rows are
  there.
* `Env.At`: what is there at some place of a block, whatever way the run has taken.
* `Body.Ongoing`: a run has followed a path, and all values of the blocks on it are there.

Principal statements: `Env.At.exec` (a valid part of a block can be carried out) and
`Body.run_ongoing` (a valid body runs for any number of blocks).
-/

namespace ShaderIR

/-- Results are only those of pure operations, and of inputs that are read. -/
def Inst.ResultsPure (i : Inst) : Prop :=
  i.ty ≠ none → (∃ op, i.kind = .alu op) ∨ ∃ location, i.kind = .intrinsic (.loadInput location)

namespace Env

/-- Every value has been computed by some row, and has the type of its result. -/
def Typed (rows : BlockId → List Row) (env : Env) : Prop :=
  ∀ id x, env id = some x → ∃ d, Yields (rows d) id x.ty

/-- All results of some rows are there. -/
def Has (env : Env) (rs : List Row) : Prop := ∀ id ty, Yields rs id ty → ∃ x, env id = some x

/-- What is there after the rows `p` of block `b`. -/
structure At (f : Flow) (rows : BlockId → List Row) (b : BlockId) (p : List Row) (env : Env) :
    Prop where
  typed : env.Typed rows
  here : env.Has p
  before : ∀ d, d ≠ b → f.dominates d b → env.Has (rows d)

end Env

variable {M : Meaning} {samples : Nat} {f : Flow} {rows : BlockId → List Row} {b d : BlockId}
  {p s xs : List Row} {r : Row} {env env₁ : Env} {es : List Effect} {c : Code} {v : Value}
  {ty : ScalarType} {result : Option ScalarType} {inputs : List Value} {expected : List Expected}
  {args : List Scalar}

namespace Env

theorem Typed.enter (h : env.Typed rows) (hr : r ∈ rows b) (args : List Scalar) :
    (env.enter r.1 (M.result r.2 args)).Typed rows := by
  cases hx : M.result r.2 args with
  | none => exact h
  | some x =>
    intro id y hy
    rw [enter_some] at hy
    by_cases hid : id = r.1
    · subst hid
      rw [Function.update_self] at hy
      obtain rfl := Option.some.inj hy
      exact ⟨b, r.2, hr, Meaning.ty_of_result hx⟩
    · rw [Function.update_of_ne hid] at hy
      exact h id y hy

theorem Typed.exec (h : env.Typed rows) (hxs : ∀ r ∈ xs, r ∈ rows b)
    (he : M.exec samples xs env = some (env₁, es)) : env₁.Typed rows := by
  induction xs generalizing env es with
  | nil =>
    cases he
    exact h
  | cons x xs ih =>
    obtain ⟨envₘ, es₁, es₂, hrow, hrest, rfl⟩ := Meaning.exec_cons.1 he
    obtain ⟨args, -, -, rfl⟩ := Meaning.execRow_eq_some.1 hrow
    exact ih (h.enter (hxs x (by simp)) args) (fun r hr => hxs r (by simp [hr])) hrest

/-- A value has one type only. -/
theorem Typed.ty_eq (h : env.Typed rows) (hc : c.Shows rows) (hb : rows b = p ++ s)
    (hv : f.HasType rows b p v ty) {x : Scalar} (hx : M.value env v = some x) : x.ty = ty := by
  cases v with
  | const k =>
    obtain rfl := Option.some.inj hx
    exact (M.const_ty k).trans hv
  | result id =>
    obtain ⟨d, i, hi, hty⟩ := h id x hx
    have htype := hv.typeOf hc hb
    rw [hc.typeOf hi hty] at htype
    exact Except.ok.inj htype

theorem Has.enter {rs : List Row} (h : env.Has rs) (id : InstId) (x : Option Scalar) :
    (env.enter id x).Has rs := by
  intro y ty hy
  obtain ⟨z, hz⟩ := h y ty hy
  cases x with
  | none => exact ⟨z, hz⟩
  | some x =>
    rw [enter_some]
    by_cases hid : y = id
    · subst hid
      exact ⟨x, Function.update_self ..⟩
    · exact ⟨z, by rw [Function.update_of_ne hid, hz]⟩

theorem Has.exec {rs : List Row} (h : env.Has rs)
    (he : M.exec samples xs env = some (env₁, es)) : env₁.Has rs := by
  induction xs generalizing env es with
  | nil =>
    cases he
    exact h
  | cons x xs ih =>
    obtain ⟨envₘ, es₁, es₂, hrow, hrest, rfl⟩ := Meaning.exec_cons.1 he
    obtain ⟨args, -, -, rfl⟩ := Meaning.execRow_eq_some.1 hrow
    exact ih (h.enter x.1 _) hrest

/-- A value that has a type at a place is there. -/
theorem At.value (h : env.At f rows b p) (hc : c.Shows rows) (hb : rows b = p ++ s)
    (hv : f.HasType rows b p v ty) : ∃ x, M.value env v = some x ∧ x.ty = ty := by
  have hx : ∃ x, M.value env v = some x := by
    cases v with
    | const k => exact ⟨M.const k, rfl⟩
    | result id =>
      rcases hv with hy | ⟨d, -, hne, hdom, hy⟩
      · exact h.here id ty hy
      · exact h.before d hne hdom id ty hy
  obtain ⟨x, hx⟩ := hx
  exact ⟨x, hx, h.typed.ty_eq hc hb hv hx⟩

theorem At.values (M : Meaning) (h : env.At f rows b p) (hc : c.Shows rows) (hb : rows b = p ++ s)
    (hu : f.UserOk .placed rows b p result inputs expected) :
    ∃ args, inputs.mapM (M.value env) = some args ∧
      List.Forall₂ (fun x e => Rules.placed.accepts e x.ty result) args expected := by
  simp only [Meaning.values_eq_some]
  unfold Flow.UserOk at hu
  induction hu with
  | nil => exact ⟨[], .nil, .nil⟩
  | cons hv _ ih =>
    obtain ⟨ty, hty, haccepts⟩ := hv
    obtain ⟨x, hx, rfl⟩ := h.value hc hb hty
    obtain ⟨args, hargs, hall⟩ := ih
    exact ⟨x :: args, .cons hx hargs, .cons haccepts hall⟩

end Env

theorem Scalar.exists_toBool? {x : Scalar} (h : x.ty = .bool) : ∃ b, x.toBool? = some b := by
  unfold Scalar.toBool?
  rw [h]
  exact ⟨_, rfl⟩

namespace Meaning

/-- An instruction has effects where its arguments are as many as it expects, and have the types
that it expects if these are given. -/
theorem exists_effects (M : Meaning) (samples : Nat) {i : Inst} (h : List.Forall₂
    (fun x e => Rules.placed.accepts e x.ty result) args i.kind.expected) :
    ∃ es, M.effects samples i args = some es := by
  cases hk : i.kind with
  | alu op =>
    unfold effects
    rw [hk]
    exact ⟨_, rfl⟩
  | intrinsic op =>
    rw [effects_of_kind hk]
    rw [hk] at h
    cases op with
    | loadInput location => exact ⟨_, rfl⟩
    | storeOutput target =>
      obtain _ | ⟨-, _ | _⟩ := h
      exact ⟨_, rfl⟩
    | discard => exact ⟨_, rfl⟩
    | discardIf =>
      obtain _ | ⟨hbool, _ | _⟩ := h
      obtain ⟨b, hb⟩ := Scalar.exists_toBool? (hbool .bool rfl)
      simp only [intrinsicEffects, hb, Option.map_some]
      exact ⟨_, rfl⟩
    | combinedWrite set =>
      obtain _ | ⟨-, _ | ⟨-, _ | ⟨-, _ | _⟩⟩⟩ := h
      exact ⟨_, rfl⟩
    | discardSamples =>
      obtain _ | ⟨-, _ | _⟩ := h
      exact ⟨_, rfl⟩

theorem exists_result (M : Meaning) {i : Inst} (h : i.ResultsPure) (hty : i.ty = some ty)
    (args : List Scalar) : ∃ x, M.result i args = some x := by
  unfold result
  rw [hty]
  rcases h (by simp [hty]) with ⟨op, hk⟩ | ⟨location, hk⟩ <;> rw [hk] <;> exact ⟨_, rfl⟩

end Meaning

namespace Env

/-- A valid row can be carried out. -/
theorem At.row (M : Meaning) (samples : Nat) (h : env.At f rows b p) (hc : c.Shows rows)
    (hb : rows b = p ++ r :: s)
    (hu : f.UserOk .placed rows b p r.2.ty r.2.inputs r.2.kind.expected)
    (hpure : r.2.ResultsPure) :
    ∃ env₁ es, M.execRow samples r env = some (env₁, es) ∧ env₁.At f rows b (p ++ [r]) := by
  obtain ⟨args, hargs, hall⟩ := h.values M hc hb hu
  obtain ⟨es, hes⟩ := M.exists_effects samples hall
  refine ⟨_, es, Meaning.execRow_eq_some.2 ⟨args, hargs, hes, rfl⟩,
    h.typed.enter (b := b) (by simp [hb]) args, ?_,
    fun d hne hdom => (h.before d hne hdom).enter _ _⟩
  intro id ty hy
  rcases Flow.yields_append.1 hy with hy | ⟨i, hi, hty⟩
  · exact h.here.enter _ _ id ty hy
  · obtain rfl := List.mem_singleton.1 hi
    obtain ⟨x, hx⟩ := M.exists_result hpure hty args
    rw [hx, enter_some]
    exact ⟨x, Function.update_self ..⟩

/-- **A valid part of a block can be carried out.** -/
theorem At.exec (M : Meaning) (samples : Nat) (h : env.At f rows b p) (hc : c.Shows rows)
    (hb : rows b = p ++ s)
    (hs : f.RowsOk .placed rows b p s) (hpure : ∀ r ∈ s, r.2.ResultsPure) :
    ∃ env₁ es, M.exec samples s env = some (env₁, es) ∧ env₁.At f rows b (rows b) := by
  induction s generalizing p env with
  | nil =>
    rw [List.append_nil] at hb
    exact ⟨env, [], rfl, hb ▸ h⟩
  | cons r s ih =>
    obtain ⟨hu, hrest⟩ := hs
    obtain ⟨env₁, es₁, hrow, h₁⟩ := h.row M samples hc hb hu (hpure r (by simp))
    obtain ⟨env₂, es₂, hexec, h₂⟩ := ih h₁ (by simp [hb]) hrest fun q hq => hpure q (by simp [hq])
    exact ⟨env₂, _, Meaning.exec_cons.2 ⟨env₁, es₁, es₂, hrow, hexec, rfl⟩, h₂⟩

/-- A block with a valid terminator can be left, to one of its targets. -/
theorem At.leave (M : Meaning) (h : env.At f rows b (rows b)) (hc : c.Shows rows) {t : Terminator}
    (hu : f.UserOk .placed rows b (rows b) none t.inputs t.kind.expected) :
    ∃ next, M.leave env t = some next ∧ ∀ d, next = some d → d ∈ t.targets := by
  unfold Meaning.leave
  cases hk : t.kind with
  | unreachable => exact ⟨none, rfl, by simp⟩
  | ret => exact ⟨none, rfl, by simp⟩
  | branch => exact ⟨_, rfl, fun d hd => List.mem_of_getElem? hd⟩
  | branchIf =>
    obtain ⟨args, hargs, hall⟩ := h.values M hc (List.append_nil _).symm hu
    rw [hk] at hall
    obtain _ | ⟨hbool, _ | _⟩ := hall
    obtain ⟨b, hb⟩ := Scalar.exists_toBool? (hbool .bool rfl)
    simp only [hargs, Option.bind_eq_bind, Option.bind_some, hb, Option.pure_def]
    exact ⟨_, rfl, fun d hd => List.mem_of_getElem? hd⟩

end Env

namespace Body

variable {body : Body}

/-- A run has followed a path, and all results of the blocks on it are there. -/
structure Ongoing (body : Body) (rows : BlockId → List Row) (r : Run) : Prop where
  typed : r.env.Typed rows
  has : ∀ d ∈ r.visited, r.env.Has (rows d)
  path : ∀ b, r.next = some b → Path body.entryBlock? body.code.blocks (b :: r.visited) b

/-- All blocks that can be reached are listed. -/
def ListsReached (body : Body) : Prop :=
  ∀ b, Reached body.entryBlock? body.code.blocks b → b ∈ body.blocks

/-- The next block of a run of a valid body can be carried out. -/
theorem Ongoing.step (M : Meaning) (samples : Nat) {r : Run} (h : body.Ongoing rows r)
    (hc : body.code.Shows rows)
    (hv : body.flow.Valid .placed rows) (hl : body.ListsReached)
    (hpure : ∀ b ∈ body.blocks, ∀ r ∈ rows b, r.2.ResultsPure) :
    ∃ r', body.stepRun M samples r = some r' ∧ body.Ongoing rows r' := by
  cases hnext : r.next with
  | none => exact ⟨r, by rw [stepRun, hnext], h⟩
  | some b =>
    have hpath := h.path b hnext
    have hb : b ∈ body.blocks := hl b ⟨_, hpath⟩
    obtain ⟨hrows, t, ht, hleave⟩ := hv b hb
    have hat : r.env.At body.flow rows b [] := by
      refine ⟨h.typed, ?_, fun d hne hdom => h.has d ?_⟩
      · rintro id ty ⟨i, hi, -⟩
        cases hi
      · exact (List.mem_cons.1 (hdom _ hpath)).resolve_left hne
    obtain ⟨env₁, es, hexec, h₁⟩ := hat.exec M samples hc rfl hrows (hpure b hb)
    obtain ⟨next, hnext', htargets⟩ := h₁.leave M hc hleave
    obtain ⟨blk, hblk, rfl⟩ := Option.map_eq_some_iff.1 ht
    have ht' : body.code.terminator? b = some blk.terminator := ht
    refine ⟨_, (stepRun_eq_some hc hnext).2 ⟨_, env₁, es, next, ht', hexec, hnext', rfl⟩,
      h₁.typed, fun d hd => ?_, ?_⟩
    · rcases List.mem_cons.1 hd with rfl | hd
      · exact h₁.here
      · exact (h.has d hd).exec hexec
    · intro d hd
      exact .step hpath ⟨blk, hblk, htargets d hd⟩

/-- **A valid body runs for any number of blocks.** -/
theorem run_ongoing (M : Meaning) (samples : Nat) (hc : body.code.Shows rows)
    (hv : body.flow.Valid .placed rows)
    (hl : body.ListsReached) (hpure : ∀ b ∈ body.blocks, ∀ r ∈ rows b, r.2.ResultsPure) (k : Nat) :
    ∃ r, body.run M samples k = some r ∧ body.Ongoing rows r := by
  induction k with
  | zero =>
    refine ⟨body.start, rfl, fun id x hx => ?_, fun d hd => ?_, fun b hb => .start hb⟩
    · cases hx
    · cases hd
  | succ k ih =>
    obtain ⟨r, hr, h⟩ := ih
    obtain ⟨r', hr', h'⟩ := h.step M samples hc hv hl hpure
    exact ⟨r', Option.bind_eq_some_iff.2 ⟨r, hr, hr'⟩, h'⟩

end Body

end ShaderIR
