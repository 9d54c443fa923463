import ShaderIR.Body.Basic
import ShaderIR.Proofs.Body.Rows

/-!
# What code means

* `Effect`: what a shader does to the world outside; `SameEffects` compares sequences of effects
  output by output.
* `Meaning`: what the pure operations compute, and what is read of the world outside.
* `Env`: the values that have been computed so far.
* `Meaning.exec`: carries out rows one after the other; `Meaning.leave` leaves a block.
* `Run`, `Body.run`: a number of blocks carried out from the entry on.

Principal statements: `exec_append` (rows are carried out part by part) and `exec_mono` (nothing
changes where more values have been computed).
-/

namespace ShaderIR

/-- What a shader does to the world outside. -/
inductive Effect where
  /-- Writes a value to an output that is no aspect. -/
  | store (target : OutputTarget) (x : Scalar)
  /-- Writes a value of an aspect for the samples of a mask. -/
  | write (a : Aspect) (samples : Nat) (x : Scalar)
  /-- Kills the samples of a mask. -/
  | kill (samples : Nat)
  deriving DecidableEq

/-- The aspect that an effect writes. -/
def Effect.aspect? : Effect → Option Aspect
  | write a _ _ => some a
  | store _ _ => none
  | kill _ => none

/-- The effects that write an aspect, or those that write none. -/
def Effect.on (a : Option Aspect) (es : List Effect) : List Effect :=
  es.filter fun e => e.aspect? = a

/-- Each aspect is written in the same way, and so is all that is no aspect. -/
def SameEffects (es es' : List Effect) : Prop := ∀ a, Effect.on a es = Effect.on a es'

namespace SameEffects

variable {es es' es₀ ds ds' : List Effect}

theorem refl (es : List Effect) : SameEffects es es := fun _ => rfl

theorem trans (h : SameEffects es₀ es) (h' : SameEffects es es') : SameEffects es₀ es' :=
  fun a => (h a).trans (h' a)

theorem append (h : SameEffects es es') (h' : SameEffects ds ds') :
    SameEffects (es ++ ds) (es' ++ ds') := by
  intro a
  have hes := h a
  have hds := h' a
  unfold Effect.on at hes hds ⊢
  rw [List.filter_append, List.filter_append, hes, hds]

end SameEffects

/-- What pure operations compute and what is read from outside.  All that is known is the type of a
result, that a selection picks one of its inputs, and that a value stays as it is if it is converted
to its own type. -/
structure Meaning where
  alu : AluOp → ScalarType → List Scalar → Scalar
  input : UInt32 → ScalarType → Scalar
  const : Constant → Scalar
  alu_ty : ∀ op ty args, (alu op ty args).ty = ty
  input_ty : ∀ location ty, (input location ty).ty = ty
  const_ty : ∀ k, (const k).ty = k.ty
  const_ofScalar : ∀ c, const (.ofScalar c) = c
  select : ∀ ty cond x y b, cond.toBool? = some b → x.ty = ty → y.ty = ty →
    alu .select ty [cond, x, y] = if b then x else y
  fconvert : ∀ x, x.ty.isFloat = true → alu .fconvert x.ty [x] = x
  uconvert : ∀ x, x.ty.isUnsigned = true → alu .uconvert x.ty [x] = x

namespace Meaning

/-- Every operation takes the low bits of one of its inputs, and what is read is zero. -/
def lowBits : Meaning where
  alu := fun op ty args =>
    match op, args with
    | .select, [cond, x, y] => .truncate ty (if cond.toBool? = some true then x.bits else y.bits)
    | _, x :: _ => .truncate ty x.bits
    | _, [] => .truncate ty 0
  input := fun _ ty => .truncate ty 0
  const := fun k =>
    match k.kind with
    | .undef => .truncate k.ty 0
    | .scalar c => .truncate k.ty c.bits
  alu_ty := by
    intro op ty args
    split <;> rfl
  input_ty := fun _ _ => rfl
  const_ty := by
    intro k
    split <;> rfl
  const_ofScalar := Scalar.truncate_self
  select := by
    rintro ty cond x y b hb rfl hy
    simp only [hb]
    cases b with
    | true => exact x.truncate_self
    | false =>
      rw [← hy]
      exact y.truncate_self
  fconvert := fun x _ => x.truncate_self
  uconvert := fun x _ => x.truncate_self

instance : Inhabited Meaning := ⟨lowBits⟩

end Meaning

/-- The values that instructions had when they were carried out last. -/
abbrev Env := InstId → Option Scalar

namespace Env

/-- Enters the result of an instruction, if it has one. -/
def enter (env : Env) (id : InstId) : Option Scalar → Env
  | none => env
  | some x => Function.update env id (some x)

theorem enter_none (env : Env) (id : InstId) : env.enter id none = env := rfl

theorem enter_some (env : Env) (id : InstId) (x : Scalar) :
    env.enter id (some x) = Function.update env id (some x) := rfl

/-- All values of one are values of the other. -/
def Within (env env' : Env) : Prop := ∀ id x, env id = some x → env' id = some x

end Env

/-- The mask of all samples of a pixel. -/
def allSamples (samples : Nat) : Nat := Nat.pow 2 samples - 1

/-- The one of two values that is meant for an aspect. -/
def Aspect.pick (depth stencil : Scalar) : Aspect → Scalar
  | .depth => depth
  | .stencil => stencil

namespace Meaning

variable (M : Meaning) (samples : Nat)

/-- A value in the type of an aspect. -/
def convert (a : Aspect) (x : Scalar) : Scalar :=
  match a with
  | .depth => M.alu .fconvert .f32 [x]
  | .stencil => M.alu .uconvert .u16 [x]

def value (env : Env) : Value → Option Scalar
  | .const k => some (M.const k)
  | .result id => env id

/-- The result of an instruction, if it has one.  Only pure operations and the reading of inputs
do. -/
def result (i : Inst) (args : List Scalar) : Option Scalar :=
  match i.kind, i.ty with
  | .alu op, some ty => some (M.alu op ty args)
  | .intrinsic (.loadInput location), some ty => some (M.input location ty)
  | _, _ => none

/-- The effect of storing a value to an output.  The depth and stencil values of all samples are
written, in the types that they have outside. -/
def store (target : OutputTarget) (x : Scalar) : Effect :=
  match Aspect.ofSlot? target.slot with
  | some a => .write a (allSamples samples) (M.convert a x)
  | none => .store target x

/-- The effects of an operation that is not pure, unless its arguments make no sense. -/
def intrinsicEffects (op : Intrinsic) (args : List Scalar) : Option (List Effect) :=
  match op with
  | .loadInput _ => some []
  | .storeOutput target =>
    match args with
    | [x] => some [M.store samples target x]
    | _ => none
  | .discard => some [.kill (allSamples samples)]
  | .discardIf =>
    match args with
    | [cond] => cond.toBool?.map fun b => if b then [.kill (allSamples samples)] else []
    | _ => none
  | .combinedWrite set =>
    match args with
    | [mask, depth, stencil] =>
      some (set.toList.map fun a => .write a mask.bits (a.pick depth stencil))
    | _ => none
  | .discardSamples =>
    match args with
    | [mask] => some (if mask.bits = 0 then [] else [.kill mask.bits])
    | _ => none

/-- The effects of an instruction, unless its arguments make no sense. -/
def effects (i : Inst) (args : List Scalar) : Option (List Effect) :=
  match i.kind with
  | .alu _ => some []
  | .intrinsic op => M.intrinsicEffects samples op args

/-- Carries out a row. -/
def execRow (r : Row) (env : Env) : Option (Env × List Effect) := do
  let args ← r.2.inputs.mapM (M.value env)
  let es ← M.effects samples r.2 args
  return (env.enter r.1 (M.result r.2 args), es)

/-- Carries out rows in their order. -/
def exec : List Row → Env → Option (Env × List Effect)
  | [], env => some (env, [])
  | r :: rs, env => do
    let (env, es) ← M.execRow samples r env
    let (env, later) ← exec rs env
    return (env, es ++ later)

/-- Where a terminator leads to, if anywhere, unless its inputs make no sense. -/
def leave (env : Env) (t : Terminator) : Option (Option BlockId) :=
  match t.kind with
  | .unreachable => some none
  | .ret => some none
  | .branch => some t.targets[0]?
  | .branchIf => do
    match ← t.inputs.mapM (M.value env) with
    | [cond] =>
      let b ← cond.toBool?
      return t.targets[if b then 0 else 1]?
    | _ => none

end Meaning

/-- How far a run has come. -/
structure Run where
  /-- The blocks that have been carried out, the latest first. -/
  visited : List BlockId
  next : Option BlockId
  env : Env
  effects : List Effect

/-- The rows of a block. -/
def Code.rowsOf (c : Code) (b : BlockId) : Except Fault (List Row) := do
  (← c.instsOf b).mapM fun id => return (id, ← c.inst id)

namespace Body

variable (M : Meaning) (samples : Nat) (body : Body)

def start : Run := ⟨[], body.entryBlock?, fun _ => none, []⟩

/-- Carries out the next block, if there is one. -/
def stepRun (r : Run) : Option Run :=
  match r.next with
  | none => some r
  | some b => do
    let rows ← (body.code.rowsOf b).toOption
    let (env, es) ← M.exec samples rows r.env
    let next ← M.leave env (← body.code.terminator? b)
    return ⟨b :: r.visited, next, env, r.effects ++ es⟩

/-- Carries out up to `k` blocks from the entry on. -/
def run : Nat → Option Run
  | 0 => some body.start
  | k + 1 => do body.stepRun M samples (← run k)

end Body

namespace Code.Shows

variable {c : Code} {rows : BlockId → List Row} {b : BlockId}

theorem rowsOf (h : c.Shows rows) {blk : Block} (hb : c.blocks.get? b = some blk) :
    c.rowsOf b = .ok (rows b) := by
  have hrows : ∀ rs : List Row, (∀ r ∈ rs, c.inst r.1 = .ok r.2) →
      (rs.map Prod.fst).mapM (fun id => do return (id, ← c.inst id)) = .ok rs := by
    intro rs hrs
    induction rs with
    | nil => rfl
    | cons r rs ih =>
      rw [List.map_cons, List.mapM_cons, hrs r (by simp), ih fun q hq => hrs q (by simp [hq])]
      rfl
  rw [Code.rowsOf, h.instsOf hb, ok_bind, hrows (rows b) fun r hr => h.inst hr]

/-- Code shows rows in one way only. -/
theorem rows_eq (h : c.Shows rows) {rows' : BlockId → List Row} (h' : c.Shows rows') :
    rows = rows' := by
  funext b
  cases hb : c.blocks.get? b with
  | some blk =>
    have hrows := h.rowsOf hb
    rw [h'.rowsOf hb] at hrows
    exact (Except.ok.inj hrows).symm
  | none =>
    have hnone : ∀ {rs : BlockId → List Row}, c.Shows rs → rs b = [] := by
      intro rs hrs
      apply List.eq_nil_iff_forall_not_mem.2
      intro r hr
      obtain ⟨blk, hblk⟩ := hrs.get?_of_mem hr
      rw [hb] at hblk
      cases hblk
    rw [hnone h, hnone h']

end Code.Shows

/-- What happens when a run carries out a block. -/
theorem Body.stepRun_eq_some {M : Meaning} {samples : Nat} {body : Body}
    {rows : BlockId → List Row} (h : body.code.Shows rows) {r r' : Run} {b : BlockId}
    (hb : r.next = some b) : body.stepRun M samples r = some r' ↔
      ∃ t env es next, body.code.terminator? b = some t ∧
        M.exec samples (rows b) r.env = some (env, es) ∧ M.leave env t = some next ∧
        r' = ⟨b :: r.visited, next, env, r.effects ++ es⟩ := by
  unfold stepRun
  simp only [hb]
  cases hblk : body.code.blocks.get? b with
  | none =>
    have hrows : body.code.rowsOf b = .error .readUndefined := by
      rw [Code.rowsOf, Code.instsOf, Defs.find, hblk]
      rfl
    have ht : body.code.terminator? b = none := by rw [Code.terminator?, hblk, Option.map_none]
    simp [hrows, ht, Except.toOption]
  | some blk =>
    have ht : body.code.terminator? b = some blk.terminator := by
      rw [Code.terminator?, hblk, Option.map_some]
    simp only [h.rowsOf hblk, ht, Except.toOption, Option.bind_eq_bind, Option.bind_some,
      Option.bind_eq_some_iff, Option.pure_def, Option.some.injEq, Prod.exists]
    constructor
    · rintro ⟨env, es, hexec, next, hnext, rfl⟩
      exact ⟨_, env, es, next, rfl, hexec, hnext, rfl⟩
    · rintro ⟨_, env, es, next, rfl, hexec, hnext, rfl⟩
      exact ⟨env, es, hexec, next, hnext, rfl⟩

namespace Meaning

variable {M : Meaning} {samples : Nat} {env env' env₁ env₂ : Env} {es : List Effect}
  {xs ys rs : List Row} {r : Row} {vs : List Value} {args : List Scalar}

theorem execRow_eq_some : M.execRow samples r env = some (env₁, es) ↔
    ∃ args, r.2.inputs.mapM (M.value env) = some args ∧ M.effects samples r.2 args = some es ∧
      env₁ = env.enter r.1 (M.result r.2 args) := by
  unfold execRow
  simp only [Option.bind_eq_bind, Option.bind_eq_some_iff, Option.pure_def, Option.some.injEq,
    Prod.mk.injEq]
  constructor
  · rintro ⟨args, hargs, es', hes, rfl, rfl⟩
    exact ⟨args, hargs, hes, rfl⟩
  · rintro ⟨args, hargs, hes, rfl⟩
    exact ⟨args, hargs, es, hes, rfl, rfl⟩

theorem exec_cons : M.exec samples (r :: rs) env = some (env₂, es) ↔
    ∃ env₁ es₁ es₂, M.execRow samples r env = some (env₁, es₁) ∧
      M.exec samples rs env₁ = some (env₂, es₂) ∧ es = es₁ ++ es₂ := by
  rw [exec]
  simp only [Option.bind_eq_bind, Option.bind_eq_some_iff, Option.pure_def, Option.some.injEq,
    Prod.mk.injEq, Prod.exists]
  constructor
  · rintro ⟨env₁, es₁, hrow, env₂', es₂, hrest, rfl, rfl⟩
    exact ⟨env₁, es₁, es₂, hrow, hrest, rfl⟩
  · rintro ⟨env₁, es₁, es₂, hrow, hrest, rfl⟩
    exact ⟨env₁, es₁, hrow, env₂, es₂, hrest, rfl, rfl⟩

/-- **Rows are carried out part by part.** -/
theorem exec_append : M.exec samples (xs ++ ys) env = some (env₂, es) ↔
    ∃ env₁ es₁ es₂, M.exec samples xs env = some (env₁, es₁) ∧
      M.exec samples ys env₁ = some (env₂, es₂) ∧ es = es₁ ++ es₂ := by
  induction xs generalizing env es with
  | nil =>
    constructor
    · exact fun h => ⟨env, [], es, rfl, h, rfl⟩
    · rintro ⟨env₁, es₁, es₂, h, h', rfl⟩
      cases h
      exact h'
  | cons x xs ih =>
    rw [List.cons_append, exec_cons]
    constructor
    · rintro ⟨env₁, es₁, later, hx, hrest, rfl⟩
      obtain ⟨envₘ, es₂, es₃, hxs, hys, rfl⟩ := ih.1 hrest
      exact ⟨envₘ, es₁ ++ es₂, es₃, exec_cons.2 ⟨env₁, es₁, es₂, hx, hxs, rfl⟩, hys, by simp⟩
    · rintro ⟨envₘ, es', es₃, hcons, hys, rfl⟩
      obtain ⟨env₁, es₁, es₂, hx, hxs, rfl⟩ := exec_cons.1 hcons
      exact ⟨env₁, es₁, es₂ ++ es₃, hx, ih.2 ⟨envₘ, es₂, es₃, hxs, hys, rfl⟩, by simp⟩

theorem value_mono (h : env.Within env') {v : Value} {x : Scalar}
    (hv : M.value env v = some x) : M.value env' v = some x := by
  cases v with
  | const k => exact hv
  | result id => exact h id x hv

theorem values_eq_some : vs.mapM (M.value env) = some args ↔
    List.Forall₂ (fun v x => M.value env v = some x) vs args := by
  induction vs generalizing args with
  | nil => simp [List.forall₂_nil_left_iff, eq_comm]
  | cons v vs ih =>
    rw [List.mapM_cons, List.forall₂_cons_left_iff]
    simp only [Option.bind_eq_bind, Option.bind_eq_some_iff, Option.pure_def, Option.some.injEq]
    constructor
    · rintro ⟨x, hx, xs, hxs, rfl⟩
      exact ⟨x, xs, hx, ih.1 hxs, rfl⟩
    · rintro ⟨x, xs, hx, hxs, rfl⟩
      exact ⟨x, hx, xs, ih.2 hxs, rfl⟩

theorem values_mono (h : env.Within env') (hvs : vs.mapM (M.value env) = some args) :
    vs.mapM (M.value env') = some args := by
  rw [values_eq_some] at hvs ⊢
  exact hvs.imp fun v x hv => value_mono h hv

theorem enter_mono (h : env.Within env') (id : InstId) (x : Option Scalar) :
    (env.enter id x).Within (env'.enter id x) := by
  cases x with
  | none => exact h
  | some x =>
    intro y z hz
    rw [Env.enter_some] at hz ⊢
    by_cases hy : y = id
    · subst hy
      rwa [Function.update_self] at hz ⊢
    · rw [Function.update_of_ne hy] at hz ⊢
      exact h y z hz

theorem execRow_mono (h : env.Within env') (he : M.execRow samples r env = some (env₁, es)) :
    ∃ env₁', M.execRow samples r env' = some (env₁', es) ∧ env₁.Within env₁' := by
  obtain ⟨args, hargs, hes, rfl⟩ := execRow_eq_some.1 he
  exact ⟨_, execRow_eq_some.2 ⟨args, values_mono h hargs, hes, rfl⟩, enter_mono h r.1 _⟩

/-- **Nothing changes where more values have been computed.** -/
theorem exec_mono (h : env.Within env') (he : M.exec samples rs env = some (env₁, es)) :
    ∃ env₁', M.exec samples rs env' = some (env₁', es) ∧ env₁.Within env₁' := by
  induction rs generalizing env env' es with
  | nil =>
    cases he
    exact ⟨env', rfl, h⟩
  | cons r rs ih =>
    obtain ⟨envₘ, es₁, es₂, hrow, hrest, rfl⟩ := exec_cons.1 he
    obtain ⟨envₘ', hrow', hm⟩ := execRow_mono h hrow
    obtain ⟨env₁', hrest', h'⟩ := ih hm hrest
    exact ⟨env₁', exec_cons.2 ⟨envₘ', es₁, es₂, hrow', hrest', rfl⟩, h'⟩

theorem leave_mono (h : env.Within env') {t : Terminator} {next : Option BlockId}
    (hl : M.leave env t = some next) : M.leave env' t = some next := by
  unfold leave at hl ⊢
  cases hk : t.kind with
  | branchIf =>
    simp only [hk] at hl ⊢
    obtain ⟨args, hargs, hrest⟩ := Option.bind_eq_some_iff.1 hl
    exact Option.bind_eq_some_iff.2 ⟨args, values_mono h hargs, hrest⟩
  | unreachable => rwa [hk] at hl
  | ret => rwa [hk] at hl
  | branch => rwa [hk] at hl

/-- Rows compute no values but their own. -/
theorem exec_other (he : M.exec samples rs env = some (env₁, es)) {id : InstId}
    (hid : id ∉ rs.map Prod.fst) : env₁ id = env id := by
  induction rs generalizing env es with
  | nil =>
    cases he
    rfl
  | cons r rs ih =>
    obtain ⟨envₘ, es₁, es₂, hrow, hrest, rfl⟩ := exec_cons.1 he
    obtain ⟨args, -, -, rfl⟩ := execRow_eq_some.1 hrow
    rw [List.map_cons, List.mem_cons, not_or] at hid
    rw [ih hrest hid.2]
    cases M.result r.2 args with
    | none => rfl
    | some x => exact Function.update_of_ne hid.1 _ _

theorem effects_of_kind {i : Inst} {op : Intrinsic} (h : i.kind = .intrinsic op)
    (args : List Scalar) : M.effects samples i args = M.intrinsicEffects samples op args := by
  unfold effects
  rw [h]

/-- A result has the type of its instruction. -/
theorem ty_of_result {i : Inst} {x : Scalar} (h : M.result i args = some x) :
    i.ty = some x.ty := by
  unfold result at h
  split at h
  · rename_i op ty _ hty
    obtain rfl := Option.some.inj h
    rw [hty, M.alu_ty]
  · rename_i location ty _ hty
    obtain rfl := Option.some.inj h
    rw [hty, M.input_ty]
  · cases h

end Meaning

end ShaderIR
