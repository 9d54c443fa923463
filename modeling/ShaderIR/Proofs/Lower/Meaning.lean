import ShaderIR.Proofs.Lower.Expand
import ShaderIR.Proofs.Run.Simulation

/-!
# A lowered block means the same

* `Inst.Quiet`: an instruction has nothing to do with depth and stencil.
* `DepthStencil.Ready`: of the rows that are done, only the combined write is not quiet.

Principal statements: `DepthStencil.Merges.replaces` and `Discard.Expands.replaces` (what a lowering
makes of the rows of a block does what they did).
-/

namespace ShaderIR

/-- An instruction writes depth and stencil together. -/
def Inst.IsCombined (i : Inst) : Prop := ∃ set, i.kind = .intrinsic (.combinedWrite set)

/-- An instruction writes neither depth nor stencil. -/
def Inst.Quiet (i : Inst) : Prop := i.stores? = none ∧ ¬ i.IsCombined

namespace Effect

variable {a : Option Aspect} {es ds : List Effect}

theorem on_append : on a (es ++ ds) = on a es ++ on a ds := List.filter_append ..

/-- Of what a combined write does, each aspect gets its own part. -/
theorem on_writes (set : AspectSet) (n : Nat) (x : Aspect → Scalar) (a : Aspect) :
    on (some a) (set.toList.map fun a => .write a n (x a)) =
      if set.contains a then [.write a n (x a)] else [] := by
  unfold on AspectSet.toList
  cases hd : set.contains .depth <;> cases hs : set.contains .stencil <;> cases a <;>
    simp [hd, hs, aspect?]

theorem on_none_writes (set : AspectSet) (n : Nat) (x : Aspect → Scalar) :
    on none (set.toList.map fun a => .write a n (x a)) = [] := by
  unfold on
  rw [List.filter_eq_nil_iff]
  intro e he
  obtain ⟨a, -, rfl⟩ := List.mem_map.1 he
  simp [aspect?]

end Effect

namespace Meaning

variable {M : Meaning} {samples : Nat} {env env₁ : Env} {es : List Effect} {r : Row}
  {xs : List Row} {a : Aspect} {v : Value} {x : Scalar}

/-- What has the type of an aspect already is not changed by a conversion. -/
theorem convert_of_ty (h : x.ty = a.scalarType) : M.convert a x = x := by
  cases a with
  | depth =>
    have hx := M.fconvert x (by rw [h]; rfl)
    rwa [h] at hx
  | stencil =>
    have hx := M.uconvert x (by rw [h]; rfl)
    rwa [h] at hx

theorem result_of_untyped {i : Inst} (h : i.ty = none) (args : List Scalar) :
    M.result i args = none := by
  cases hx : M.result i args with
  | none => rfl
  | some x =>
    have hty := ty_of_result hx
    rw [h] at hty
    cases hty

theorem exec_singleton : M.exec samples [r] env = M.execRow samples r env := by
  rw [exec]
  cases M.execRow samples r env with
  | none => rfl
  | some p => simp [exec]

/-- A quiet instruction has no effect on an aspect. -/
theorem on_effects_quiet {i : Inst} (hq : i.Quiet) {args : List Scalar}
    (he : M.effects samples i args = some es) (a : Aspect) : Effect.on (some a) es = [] := by
  obtain ⟨hstore, hcombined⟩ := hq
  cases hk : i.kind with
  | alu op =>
    unfold effects at he
    rw [hk] at he
    cases he
    rfl
  | intrinsic op =>
    rw [effects_of_kind hk] at he
    cases op with
    | loadInput location =>
      cases he
      rfl
    | storeOutput target =>
      have hslot : Aspect.ofSlot? target.slot = none := by
        rwa [Inst.stores?, hk] at hstore
      simp only [intrinsicEffects] at he
      split at he
      · simp only [store, hslot] at he
        cases he
        rfl
      · cases he
    | discard =>
      cases he
      rfl
    | discardIf =>
      simp only [intrinsicEffects] at he
      split at he
      · obtain ⟨b, -, rfl⟩ := Option.map_eq_some_iff.1 he
        cases b <;> rfl
      · cases he
    | combinedWrite set => exact absurd ⟨set, hk⟩ hcombined
    | discardSamples =>
      simp only [intrinsicEffects] at he
      split at he
      · cases he
        split <;> rfl
      · cases he

theorem on_exec_quiet (hq : ∀ r ∈ xs, r.2.Quiet) (he : M.exec samples xs env = some (env₁, es))
    (a : Aspect) : Effect.on (some a) es = [] := by
  induction xs generalizing env es with
  | nil =>
    cases he
    rfl
  | cons r xs ih =>
    obtain ⟨envₘ, es₁, es₂, hrow, hrest, rfl⟩ := exec_cons.1 he
    obtain ⟨args, -, hes, -⟩ := execRow_eq_some.1 hrow
    rw [Effect.on_append, on_effects_quiet (hq r (by simp)) hes,
      ih (fun q hq' => hq q (by simp [hq'])) hrest]
    rfl

/-- What a store of an aspect does. -/
theorem execRow_store (h : r.2.IsStore a v) :
    M.execRow samples r env = some (env₁, es) ↔ ∃ x, M.value env v = some x ∧
      es = [.write a (allSamples samples) (M.convert a x)] ∧ env₁ = env := by
  obtain ⟨hstores, hinputs, hty⟩ := h
  obtain ⟨target, hk, hslot⟩ : ∃ target, r.2.kind = .intrinsic (.storeOutput target) ∧
      Aspect.ofSlot? target.slot = some a := by
    unfold Inst.stores? at hstores
    split at hstores
    · rename_i target hk
      exact ⟨target, hk, hstores⟩
    · cases hstores
  rw [execRow_eq_some]
  simp only [result_of_untyped hty, Env.enter_none, hinputs, values_eq_some,
    List.forall₂_cons_left_iff, List.forall₂_nil_left_iff]
  constructor
  · rintro ⟨_, ⟨x, _, hx, rfl, rfl⟩, hes, rfl⟩
    simp only [effects_of_kind hk, intrinsicEffects, store, hslot] at hes
    cases hes
    exact ⟨x, hx, rfl, rfl⟩
  · rintro ⟨x, hx, rfl, rfl⟩
    refine ⟨[x], ⟨x, [], hx, rfl, rfl⟩, ?_, rfl⟩
    simp only [effects_of_kind hk, intrinsicEffects, store, hslot]

/-- What a combined write does. -/
theorem execRow_combined {z : InstId} {c : Scalar} {set : AspectSet} {value : Aspect → Value} :
    M.execRow samples (z, .combined (.const (.ofScalar c)) set value) env = some (env₁, es) ↔
      ∃ x : Aspect → Scalar, (∀ a, M.value env (value a) = some (x a)) ∧
        es = (set.toList.map fun a => .write a c.bits (x a)) ∧ env₁ = env := by
  rw [execRow_eq_some]
  have hmask : M.value env (.const (.ofScalar c)) = some c := congrArg some (M.const_ofScalar c)
  constructor
  · rintro ⟨args, hargs, hes, rfl⟩
    obtain _ | ⟨hm, _ | ⟨hd, _ | ⟨hs, _ | _⟩⟩⟩ := values_eq_some.1 hargs
    rename_i xd xs
    rw [hmask] at hm
    obtain rfl := Option.some.inj hm
    refine ⟨fun a => a.pick xd xs, fun a => ?_, ?_, rfl⟩
    · cases a with
      | depth => exact hd
      | stencil => exact hs
    · exact (Option.some.inj hes).symm
  · rintro ⟨x, hx, rfl, rfl⟩
    refine ⟨[c, x .depth, x .stencil], values_eq_some.2 ?_, ?_, rfl⟩
    · exact .cons hmask (.cons (hx .depth) (.cons (hx .stencil) .nil))
    · refine congrArg (fun w => some (set.toList.map w)) (funext fun a => ?_)
      cases a <;> rfl

theorem exec_combined {z : InstId} {c : Scalar} {set : AspectSet} {value : Aspect → Value}
    {x : Aspect → Scalar} (hx : ∀ a, M.value env (value a) = some (x a)) :
    M.exec samples [(z, .combined (.const (.ofScalar c)) set value)] env =
      some (env, set.toList.map fun a => .write a c.bits (x a)) :=
  exec_singleton.trans (execRow_combined.2 ⟨x, hx, rfl, rfl⟩)

/-- What a discard does. -/
theorem execRow_discard (hk : r.2.kind = .intrinsic .discard) (hty : r.2.ty = none)
    (he : M.execRow samples r env = some (env₁, es)) :
    env₁ = env ∧ es = [.kill (allSamples samples)] := by
  obtain ⟨args, -, hes, rfl⟩ := execRow_eq_some.1 he
  rw [effects_of_kind hk] at hes
  rw [result_of_untyped hty, Env.enter_none]
  exact ⟨rfl, (Option.some.inj hes).symm⟩

/-- What a conditional discard does. -/
theorem execRow_discardIf (hk : r.2.kind = .intrinsic .discardIf) (hi : r.2.inputs = [v])
    (hty : r.2.ty = none) (he : M.execRow samples r env = some (env₁, es)) :
    ∃ x holds, M.value env v = some x ∧ x.toBool? = some holds ∧ env₁ = env ∧
      es = if holds then [.kill (allSamples samples)] else [] := by
  obtain ⟨args, hargs, hes, rfl⟩ := execRow_eq_some.1 he
  rw [hi] at hargs
  obtain _ | ⟨hx, _ | _⟩ := values_eq_some.1 hargs
  rename_i x
  rw [effects_of_kind hk] at hes
  obtain ⟨holds, hholds, hes⟩ := Option.map_eq_some_iff.1 hes
  rw [result_of_untyped hty, Env.enter_none]
  exact ⟨x, holds, hx, hholds, rfl, hes.symm⟩

/-- What the killing of the samples of a mask does. -/
theorem execRow_discardSamples {k : InstId} (hx : M.value env v = some x) :
    M.execRow samples (k, .discardSamples v) env =
      some (env, if x.bits = 0 then [] else [.kill x.bits]) :=
  execRow_eq_some.2 ⟨[x], values_eq_some.2 (.cons hx .nil), rfl, rfl⟩

/-- What the choice between two masks does. -/
theorem execRow_selectMask {id : InstId} {c z₀ : Scalar} {k : Bool} (hc : c.ty = .u16)
    (hz : z₀.ty = .u16) (hx : M.value env v = some x) (hk : x.toBool? = some k) :
    M.execRow samples (id, .selectMask v (.const (.ofScalar c)) (.const (.ofScalar z₀))) env =
      some (Function.update env id (some (if k then c else z₀)), []) := by
  have hscalar : ∀ c, M.value env (.const (.ofScalar c)) = some c := fun c =>
    congrArg some (M.const_ofScalar c)
  refine execRow_eq_some.2 ⟨[x, c, z₀], values_eq_some.2 ?_, rfl, ?_⟩
  · exact .cons hx (.cons (hscalar c) (.cons (hscalar z₀) .nil))
  · rw [← M.select .u16 x c z₀ k hk hc hz]
    rfl

end Meaning

section Blocks

variable {f : Flow} {samples : Nat} {c z₀ : Scalar} {rows : BlockId → List Row} {b : BlockId}
  {p q m s done done' out : List Row} {r : Row} {t : Option InstId} {a : Aspect} {v v' : Value}
  {ty : ScalarType} {env env₁ : Env} {M : Meaning} {x : Scalar} {n : Nat}

/-- What is there before some rows of a block is not computed by them. -/
theorem Flow.HasType.not_mem {code : Code} {id : InstId}
    (hc : code.Shows (Function.update rows b (p ++ q)))
    (h : f.HasType rows b p (.result id) ty) : id ∉ q.map Prod.fst := by
  intro hid
  obtain ⟨r, hr, rfl⟩ := List.mem_map.1 hid
  have hself := Function.update_self b (p ++ q) rows
  have hrb : r ∈ Function.update rows b (p ++ q) b := by
    rw [hself]
    exact List.mem_append_right _ hr
  rcases h with ⟨i, hi, -⟩ | ⟨d, -, hne, -, i, hi, -⟩
  · have hnd := hc.ids_nodup b
    rw [hself, List.map_append] at hnd
    exact (List.nodup_append.1 hnd).2.2 _ (List.mem_map_of_mem hi) _ (List.mem_map_of_mem hr) rfl
  · have hid' : (r.1, i) ∈ Function.update rows b (p ++ q) d := by rwa [Function.update_of_ne hne]
    exact hne (hc.unique hid' hrb rfl).1

/-- An identity that is in no row has no value. -/
theorem Env.Typed.eq_none (h : env.Typed rows) {id : InstId}
    (hid : ∀ d, id ∉ (rows d).map Prod.fst) : env id = none := by
  cases hx : env id with
  | none => rfl
  | some x =>
    obtain ⟨d, i, hi, -⟩ := h id x hx
    exact absurd (List.mem_map_of_mem hi) (hid d)

/-- New rows leave alone what is there. -/
theorem Env.Within.exec {env' env₂ : Env} {xs : List Row} {es : List Effect}
    (h : env.Within env') (he : M.exec samples xs env' = some (env₂, es))
    (hfresh : ∀ id ∈ xs.map Prod.fst, env id = none) : env.Within env₂ := by
  intro id x hx
  have hid : id ∉ xs.map Prod.fst := by
    intro hmem
    rw [hfresh id hmem] at hx
    cases hx
  rw [Meaning.exec_other he hid]
  exact h id x hx

/-- A value is exchanged for one aspect. -/
theorem Meaning.value_update {value : Aspect → Value} {y : Aspect → Scalar}
    (hy : ∀ a, M.value env (value a) = some (y a)) (hv : M.value env v = some x) (a a' : Aspect) :
    M.value env (Function.update value a v a') = some (Function.update y a x a') := by
  by_cases ha : a' = a
  · subst ha
    rw [Function.update_self, Function.update_self, hv]
  · rw [Function.update_of_ne ha, Function.update_of_ne ha, hy]

namespace DepthStencil

theorem Converts.quiet {conv : List Row} (h : Converts a v ty conv v') : ∀ r ∈ conv, r.2.Quiet := by
  intro r hr
  cases h with
  | same _ => cases hr
  | new id _ =>
    obtain rfl := List.mem_singleton.1 hr
    refine ⟨rfl, ?_⟩
    rintro ⟨set, hset⟩
    cases hset

/-- **A conversion computes the value in the type of the aspect**, and has no effect. -/
theorem Converts.exec {conv : List Row} (h : Converts a v ty conv v')
    (hx : M.value env v = some x) (hty : x.ty = ty) : ∃ env₁,
      M.exec samples conv env = some (env₁, []) ∧ M.value env₁ v' = some (M.convert a x) := by
  cases h with
  | same h =>
    refine ⟨env, rfl, ?_⟩
    rw [hx, Meaning.convert_of_ty (hty.trans h)]
  | new id _ =>
    refine ⟨Function.update env id (some (M.convert a x)), ?_, Function.update_self ..⟩
    rw [Meaning.exec_singleton, Meaning.execRow_eq_some]
    have hconvert : M.convert a x = M.alu a.converter a.scalarType [x] := by cases a <;> rfl
    refine ⟨[x], Meaning.values_eq_some.2 (.cons hx .nil), rfl, ?_⟩
    rw [hconvert]
    rfl

/-- A converted value is still there after rows that stood after the store. -/
theorem Converts.value_later {conv mid : List Row} {env₂ : Env} {es : List Effect} {code : Code}
    (h : Converts a v ty conv v') (hv : f.HasType rows b p v ty)
    (hc : code.Shows (Function.update rows b (p ++ q)))
    (hq : ∀ id ∈ mid.map Prod.fst, id ∈ q.map Prod.fst)
    (hfresh : ∀ id ∈ conv.map Prod.fst, id ∉ mid.map Prod.fst)
    (he : M.exec samples mid env₁ = some (env₂, es)) (hx : M.value env₁ v' = some x) :
    M.value env₂ v' = some x := by
  cases h with
  | same _ =>
    cases v with
    | const k => exact hx
    | result id => exact (Meaning.exec_other he fun hid => hv.not_mem hc (hq id hid)).trans hx
  | new id _ => exact (Meaning.exec_other he (hfresh id (by simp))).trans hx

/-- Of the rows that are done, all but the combined write are quiet. -/
def Ready (done : List Row) (t : Option InstId) : Prop :=
  ∀ r ∈ done, t ≠ some r.1 → r.2.Quiet

/-- Effects of a store come with those of the combined write instead, after quiet ones. -/
theorem sameEffects_later {set : AspectSet} {n : Nat} {y : Aspect → Scalar} {es : List Effect}
    (hes : ∀ a, Effect.on (some a) es = []) (once : set.contains a = false) :
    SameEffects (.write a n x :: (es ++ set.toList.map fun a => .write a n (y a)))
      (es ++ (set.insert a).toList.map fun a' => .write a' n (Function.update y a x a')) := by
  intro o
  rw [← List.singleton_append, Effect.on_append, Effect.on_append, Effect.on_append]
  cases o with
  | none =>
    rw [Effect.on_none_writes, Effect.on_none_writes]
    simp [Effect.on, Effect.aspect?]
  | some a' =>
    rw [hes a', Effect.on_writes, Effect.on_writes, AspectSet.contains_insert]
    by_cases ha : a' = a
    · subst ha
      simp [Effect.on, Effect.aspect?, once]
    · have ha' : ¬ a = a' := fun h => ha h.symm
      simp [Effect.on, Effect.aspect?, ha, ha']

/-- A store that becomes a combined write keeps what it does. -/
theorem replaces_first {conv : List Row} {z : InstId} {code : Code}
    (hmask : c.bits = allSamples samples)
    (hc : code.Shows (Function.update rows b (p ++ r :: done)))
    (isStore : r.2.IsStore a v) (hasType : f.HasType rows b p v ty)
    (converts : Converts a v ty conv v')
    (fresh : ∀ id ∈ conv.map Prod.fst, ∀ d,
      id ∉ (Function.update rows b (p ++ r :: done) d).map Prod.fst) :
    Replaces samples rows b (p ++ r :: done) (p ++ (conv ++ (z, .combined (.const (.ofScalar c))
      (AspectSet.empty.insert a) (Function.update openValues a v')) :: done)) := by
  have hself := Function.update_self b (p ++ r :: done) rows
  have hsplit : ∀ w : Row, p ++ (conv ++ w :: done) = p ++ ((conv ++ [w]) ++ done) := by simp
  rw [hsplit]
  refine Replaces.splice (m := [r]) ?_ fun M env env' env₁ es ht hle he => ?_
  · rintro id ty' ⟨i, hi, hty⟩
    obtain rfl := List.mem_singleton.1 hi
    rw [isStore.untyped] at hty
    cases hty
  rw [Meaning.exec_singleton, Meaning.execRow_store isStore] at he
  obtain ⟨x, hx, rfl, rfl⟩ := he
  have hty : x.ty = ty := ht.ty_eq hc hself (Flow.hasType_update.2 hasType) hx
  obtain ⟨env₂, hconv, hv'⟩ := converts.exec (Meaning.value_mono hle hx) hty
  have hopen : ∀ a, M.value env₂ (openValues a) = some (M.const (.undef a.scalarType)) :=
    fun a => rfl
  refine ⟨env₂, _, Meaning.exec_append.2 ⟨env₂, [], _, hconv,
    Meaning.exec_combined (Meaning.value_update hopen hv' a), rfl⟩, ?_, ?_⟩
  · exact hle.exec hconv fun id hid => ht.eq_none (fresh id hid)
  · have hone : (AspectSet.empty.insert a).toList = [a] := by cases a <;> decide
    rw [hone, List.map_singleton, Function.update_self, hmask]
    exact .refl _

/-- A store that is added to a combined write keeps what it does. -/
theorem replaces_later {conv mid : List Row} {z : InstId} {code : Code} {set : AspectSet}
    {value : Aspect → Value} (hmask : c.bits = allSamples samples)
    (hc : code.Shows (Function.update rows b
      (p ++ r :: (mid ++ (z, .combined (.const (.ofScalar c)) set value) :: s))))
    (hquiet : ∀ q ∈ mid, q.2.Quiet) (isStore : r.2.IsStore a v)
    (hasType : f.HasType rows b p v ty) (converts : Converts a v ty conv v')
    (fresh : ∀ id ∈ conv.map Prod.fst, ∀ d, id ∉ (Function.update rows b
      (p ++ r :: (mid ++ (z, .combined (.const (.ofScalar c)) set value) :: s)) d).map Prod.fst)
    (once : set.contains a = false) :
    Replaces samples rows b
      (p ++ r :: (mid ++ (z, .combined (.const (.ofScalar c)) set value) :: s))
      (p ++ (conv ++ mid ++ (z, .combined (.const (.ofScalar c)) (set.insert a)
        (Function.update value a v')) :: s)) := by
  have hself := Function.update_self b
    (p ++ r :: (mid ++ (z, .combined (.const (.ofScalar c)) set value) :: s)) rows
  have hsplit : ∀ w : Row, p ++ r :: (mid ++ w :: s) = p ++ ((r :: (mid ++ [w])) ++ s) := by simp
  have hsplit' : ∀ w : Row, p ++ (conv ++ mid ++ w :: s) =
      p ++ ((conv ++ (mid ++ [w])) ++ s) := by simp
  have hapart : ∀ id ∈ conv.map Prod.fst, id ∉ mid.map Prod.fst := by
    intro id hid hmem
    apply fresh id hid b
    rw [hself]
    simp only [List.map_append, List.map_cons, List.mem_append, List.mem_cons]
    exact .inr (.inr (.inl hmem))
  rw [hsplit']
  have hrows := hsplit (z, .combined (.const (.ofScalar c)) set value)
  rw [hrows]
  refine Replaces.splice ?_ fun M env env' env₁ es ht hle he => ?_
  · rintro id ty' ⟨i, hi, hty⟩
    simp only [List.mem_cons, List.mem_append, List.not_mem_nil, or_false] at hi
    rcases hi with rfl | hi | hi
    · rw [isStore.untyped] at hty
      cases hty
    · exact ⟨i, by simp [hi], hty⟩
    · obtain ⟨rfl, rfl⟩ := Prod.mk.inj hi
      cases hty
  rw [← hrows] at ht
  obtain ⟨_, es₁, _, hstore, hrest, rfl⟩ := Meaning.exec_cons.1 he
  obtain ⟨x, hx, rfl, rfl⟩ := (Meaning.execRow_store isStore).1 hstore
  obtain ⟨env₂, es₂, _, hmid, hz, rfl⟩ := Meaning.exec_append.1 hrest
  rw [Meaning.exec_singleton, Meaning.execRow_combined] at hz
  obtain ⟨y, hy, rfl, rfl⟩ := hz
  have hty : x.ty = ty := ht.ty_eq hc hself (Flow.hasType_update.2 hasType) hx
  obtain ⟨env₃, hconv, hv'⟩ := converts.exec (Meaning.value_mono hle hx) hty
  have hle₃ := hle.exec hconv fun id hid => ht.eq_none (fresh id hid)
  obtain ⟨env₄, hmid', hle₄⟩ := Meaning.exec_mono hle₃ hmid
  have hlater : ∀ id ∈ mid.map Prod.fst, id ∈ (r :: (mid ++
      (z, .combined (.const (.ofScalar c)) set value) :: s)).map Prod.fst := by
    intro id hid
    simp only [List.map_cons, List.map_append, List.mem_cons, List.mem_append]
    exact .inr (.inl hid)
  have hv₄ := converts.value_later hasType hc hlater hapart hmid' hv'
  have hy₄ := Meaning.value_update (fun a => Meaning.value_mono hle₄ (hy a)) hv₄ a
  refine ⟨env₄, _, Meaning.exec_append.2 ⟨env₃, [], _, hconv,
    Meaning.exec_append.2 ⟨env₄, es₂, _, hmid', Meaning.exec_combined hy₄, rfl⟩, rfl⟩, hle₄, ?_⟩
  rw [hmask]
  exact sameEffects_later (Meaning.on_exec_quiet hquiet hmid) once

/-- **Merging a store keeps what it does.** -/
theorem MergeStep.replaces {z : InstId} (hmask : c.bits = allSamples samples)
    (hready : Ready done t)
    (h : MergeStep f (.const (.ofScalar c)) n rows b p r done t done' (.ok z)) :
    Replaces samples rows b (p ++ r :: done) (p ++ done') := by
  cases h with
  | first shown isStore hasType converts fresh =>
    obtain ⟨code, hc⟩ := shown
    exact replaces_first hmask hc isStore hasType converts fresh
  | @later a v v' ty conv mid s _ set value shown isStore hasType converts fresh once =>
    obtain ⟨code, hc⟩ := shown
    refine replaces_later hmask hc (fun q hq => ?_) isStore hasType converts fresh once
    -- the combined write has an identity of its own, so the rows before it are quiet
    apply hready q (List.mem_append_left _ hq)
    intro e
    have hsplit : ∀ w : Row, p ++ r :: (mid ++ w :: s) = (p ++ r :: mid) ++ w :: s := by simp
    rw [hsplit] at hc
    apply hc.not_mem_around (Function.update_self ..)
    have hmem : q ∈ p ++ r :: mid ++ s := by simp [hq]
    rw [Option.some.inj e]
    show q.1 ∈ _
    exact List.mem_map_of_mem hmem

/-- The rows that are done after a step: new ones, which are quiet, the combined write, and those
that were done before. -/
theorem MergeStep.mem {z : InstId} {mask : Value}
    (h : MergeStep f mask n rows b p r done t done' (.ok z)) {q : Row} (hq : q ∈ done') :
    q.2.Quiet ∨ (q.1 = z ∧ q.2.stores? = none) ∨ q ∈ done ∧ (t = none ∨ t = some z) := by
  cases h with
  | first _ _ _ converts _ =>
    simp only [List.mem_append, List.mem_cons] at hq
    rcases hq with hq | rfl | hq
    · exact .inl (converts.quiet q hq)
    · exact .inr (.inl ⟨rfl, rfl⟩)
    · exact .inr (.inr ⟨hq, .inl rfl⟩)
  | later _ _ _ converts _ _ =>
    simp only [List.mem_append, List.mem_cons] at hq
    rcases hq with (hq | hq) | rfl | hq
    · exact .inl (converts.quiet q hq)
    · exact .inr (.inr ⟨by simp [hq], .inr rfl⟩)
    · exact .inr (.inl ⟨rfl, rfl⟩)
    · exact .inr (.inr ⟨by simp [hq], .inr rfl⟩)

theorem MergeStep.ready {z : InstId} {mask : Value}
    (h : MergeStep f mask n rows b p r done t done' (.ok z)) (hready : Ready done t) :
    Ready done' (some z) := by
  intro q hq hne
  rcases h.mem hq with hquiet | ⟨rfl, -⟩ | ⟨hdone, rfl | rfl⟩
  · exact hquiet
  · exact absurd rfl hne
  · exact hready q hdone (by simp)
  · exact hready q hdone hne

/-- **Merging the stores of a block keeps what it does**, if there is no combined write yet. -/
theorem Merges.replaces {changed : Bool} (hmask : c.bits = allSamples samples)
    (h : Merges f (.const (.ofScalar c)) n rows b p done t out (.ok changed))
    (hnone : ∀ r ∈ p, ¬ r.2.IsCombined) (hready : Ready done t) :
    Replaces samples rows b (p ++ done) out := by
  generalize hres : Except.ok changed = res at h
  induction h with
  | nil => exact .refl samples rows b _
  | @skip p done out r t res other rest ih =>
    rw [List.append_assoc, List.singleton_append]
    refine ih (fun q hq => hnone q (by simp [hq])) (fun q hq hne => ?_) hres
    rcases List.mem_cons.1 hq with rfl | hq
    · exact ⟨other, hnone q (by simp)⟩
    · exact hready q hq hne
  | @merge p done done' out r t z res step rest ih =>
    rw [List.append_assoc, List.singleton_append]
    exact (step.replaces hmask hready).trans
      (ih (fun q hq => hnone q (by simp [hq])) (step.ready hready) hres)
  | stop _ => cases hres

/-- No stores are left where they have been merged. -/
theorem Merges.stores_eq_none {mask : Value} {changed : Bool}
    (h : Merges f mask n rows b p done t out (.ok changed))
    (hdone : ∀ r ∈ done, r.2.stores? = none) : ∀ r ∈ out, r.2.stores? = none := by
  generalize hres : Except.ok changed = res at h
  induction h with
  | nil => exact hdone
  | skip other _ ih => exact ih (List.forall_mem_cons.2 ⟨other, hdone⟩) hres
  | merge step _ ih =>
    refine ih (fun q hq => ?_) hres
    rcases step.mem hq with hquiet | ⟨-, hstores⟩ | ⟨hq, -⟩
    · exact hquiet.1
    · exact hstores
    · exact hdone q hq
  | stop _ => cases hres

theorem MergeStep.stores_ne_none {mask : Value} {res : Except Aspect InstId}
    (h : MergeStep f mask n rows b p r done t done' res) : r.2.stores? ≠ none := by
  cases h with
  | first _ isStore => simp [isStore.stores]
  | later _ isStore => simp [isStore.stores]
  | twice _ isStore => simp [isStore.stores]

/-- Nothing happens in a block without stores. -/
theorem Merges.eq_of_no_stores {mask : Value} {res : Except Aspect Bool}
    (h : Merges f mask n rows b p done t out res) (hp : ∀ r ∈ p, r.2.stores? = none) :
    out = p ++ done := by
  induction h with
  | nil => rfl
  | skip _ _ ih =>
    rw [ih fun q hq => hp q (by simp [hq])]
    simp
  | merge step _ _ => exact absurd (hp _ (by simp)) step.stores_ne_none
  | stop step => exact absurd (hp _ (by simp)) step.stores_ne_none

end DepthStencil

namespace Discard

/-- **Expanding a discard keeps what it does.** -/
theorem ExpandStep.replaces {new : List Row} {changed : Bool} (hall : c.bits = allSamples samples)
    (hpos : allSamples samples ≠ 0) (hc : c.ty = .u16) (hnothing : z₀.bits = 0)
    (hz : z₀.ty = .u16) (h : ExpandStep f (.const (.ofScalar c)) (.const (.ofScalar z₀)) rows b p r
      s new changed) : Replaces samples rows b (p ++ r :: s) (p ++ (new ++ s)) := by
  have huntyped : r.2.ty = none → ∀ id ty, Yields [r] id ty → Yields new id ty := by
    rintro hty id ty ⟨i, hi, hity⟩
    obtain rfl := List.mem_singleton.1 hi
    rw [hty] at hity
    cases hity
  cases h with
  | keep other => exact .refl samples rows b _
  | @discard k kind untyped =>
    apply Replaces.splice (m := [r]) (huntyped untyped)
    intro M env env' env₁ es ht hle he
    rw [Meaning.exec_singleton] at he
    obtain ⟨rfl, rfl⟩ := Meaning.execRow_discard kind untyped he
    have hmask : M.value env' (.const (.ofScalar c)) = some c := congrArg some (M.const_ofScalar c)
    refine ⟨env', _, Meaning.exec_singleton.trans (Meaning.execRow_discardSamples hmask), hle, ?_⟩
    rw [hall, if_neg hpos]
    exact .refl _
  | @discardIf k id cond shown kind inputs untyped hasType fresh =>
    apply Replaces.splice (m := [r]) (huntyped untyped)
    intro M env env' env₁ es ht hle he
    rw [Meaning.exec_singleton] at he
    obtain ⟨x, holds, hx, hholds, rfl, rfl⟩ := Meaning.execRow_discardIf kind inputs untyped he
    have hselect : M.execRow samples (id, .selectMask cond (.const (.ofScalar c))
        (.const (.ofScalar z₀))) env' =
        some (Function.update env' id (some (if holds then c else z₀)), []) :=
      Meaning.execRow_selectMask hc hz (Meaning.value_mono hle hx) hholds
    have hmask : M.value (Function.update env' id (some (if holds then c else z₀)))
        (.result id) = some (if holds then c else z₀) := Function.update_self ..
    refine ⟨_, _, Meaning.exec_cons.2 ⟨_, [], _, hselect, Meaning.exec_singleton.trans
      (Meaning.execRow_discardSamples hmask), rfl⟩, ?_, ?_⟩
    · apply hle.exec (Meaning.exec_singleton.trans hselect)
      intro y hy
      obtain rfl : y = id := by simpa using hy
      exact ht.eq_none fresh
    · cases holds with
      | true =>
        simp only [if_true, hall, if_neg hpos]
        exact .refl _
      | false =>
        have hbits : (if false = true then c else z₀).bits = 0 := hnothing
        rw [if_pos hbits]
        exact .refl _

/-- **Expanding the discards of a block keeps what it does.** -/
theorem Expands.replaces {changed : Bool} (hall : c.bits = allSamples samples)
    (hpos : allSamples samples ≠ 0) (hc : c.ty = .u16) (hnothing : z₀.bits = 0) (hz : z₀.ty = .u16)
    (h : Expands f (.const (.ofScalar c)) (.const (.ofScalar z₀)) rows b done s out changed) :
    Replaces samples rows b (done ++ s) out := by
  induction h with
  | nil =>
    rw [List.append_nil]
    exact .refl samples rows b _
  | cons step _ ih =>
    rw [List.append_assoc] at ih
    exact (step.replaces hall hpos hc hnothing hz).trans ih

end Discard

end Blocks

end ShaderIR
