import ShaderIR.Proofs.Run.Progress

/-!
# Rows that mean the same

* `Replaces`: some rows do what the rows of a block did, wherever they are put in their place.
* `Body.Simulates`: all runs of a body are runs of another one.

Principal statements: `Replaces.splice` (only a part of a block needs to be looked at) and
`Body.Simulates.of_replaces` (exchanging the rows of a block keeps all runs).
-/

namespace ShaderIR

namespace Env.Within

variable {env env' env₀ : Env}

theorem refl (env : Env) : env.Within env := fun _ _ h => h

theorem trans (h : env₀.Within env) (h' : env.Within env') : env₀.Within env' :=
  fun id x hx => h' id x (h id x hx)

end Env.Within

/-- Rows `ys` compute what the rows `xs` of a block compute, and have the same effects, also where
more values are there than `xs` can know of. -/
structure Replaces (samples : Nat) (rows : BlockId → List Row) (b : BlockId) (xs ys : List Row) :
    Prop where
  yields : ∀ id ty, Yields xs id ty → Yields ys id ty
  exec : ∀ (M : Meaning) (env env' env₁ : Env) (es : List Effect),
    env.Typed (Function.update rows b xs) → env.Within env' →
    M.exec samples xs env = some (env₁, es) →
    ∃ env₁' es', M.exec samples ys env' = some (env₁', es') ∧ env₁.Within env₁' ∧
      SameEffects es es'

section Replaces

variable {samples : Nat} {rows : BlockId → List Row} {b : BlockId} {xs ys zs p m n s : List Row}

theorem Env.Typed.mono {rows' : BlockId → List Row} {env : Env} (h : env.Typed rows)
    (hle : ∀ d id ty, Yields (rows d) id ty → Yields (rows' d) id ty) : env.Typed rows' := by
  intro id x hx
  obtain ⟨d, hd⟩ := h id x hx
  exact ⟨d, hle d id x.ty hd⟩

theorem yields_update (hle : ∀ id ty, Yields xs id ty → Yields ys id ty) (d : BlockId) (id : InstId)
    (ty : ScalarType) (h : Yields (Function.update rows b xs d) id ty) :
    Yields (Function.update rows b ys d) id ty := by
  by_cases hd : d = b
  · subst hd
    rw [Function.update_self] at h ⊢
    exact hle id ty h
  · rwa [Function.update_of_ne hd] at h ⊢

namespace Replaces

theorem refl (samples : Nat) (rows : BlockId → List Row) (b : BlockId) (xs : List Row) :
    Replaces samples rows b xs xs where
  yields := fun _ _ h => h
  exec := by
    intro M env env' env₁ es _ hle he
    obtain ⟨env₁', he', hle'⟩ := Meaning.exec_mono hle he
    exact ⟨env₁', es, he', hle', .refl es⟩

theorem trans (h : Replaces samples rows b xs ys) (h' : Replaces samples rows b ys zs) :
    Replaces samples rows b xs zs where
  yields := fun id ty hy => h'.yields id ty (h.yields id ty hy)
  exec := by
    intro M env env' env₁ es ht hle he
    obtain ⟨env₂, es₂, he₂, hle₂, hes₂⟩ := h.exec M env env env₁ es ht (.refl env) he
    have ht₂ : env.Typed (Function.update rows b ys) := ht.mono (yields_update h.yields)
    obtain ⟨env₃, es₃, he₃, hle₃, hes₃⟩ := h'.exec M env env' env₂ es₂ ht₂ hle he₂
    exact ⟨env₃, es₃, he₃, hle₂.trans hle₃, hes₂.trans hes₃⟩

/-- **A part of a block is replaced**, if the new part does the same where it stands. -/
theorem splice (hy : ∀ id ty, Yields m id ty → Yields n id ty)
    (exec : ∀ (M : Meaning) (env env' env₁ : Env) (es : List Effect),
      env.Typed (Function.update rows b (p ++ (m ++ s))) → env.Within env' →
      M.exec samples m env = some (env₁, es) →
      ∃ env₁' es', M.exec samples n env' = some (env₁', es') ∧ env₁.Within env₁' ∧
        SameEffects es es') :
    Replaces samples rows b (p ++ (m ++ s)) (p ++ (n ++ s)) where
  yields := by
    intro id ty h
    simp only [Flow.yields_append] at h ⊢
    exact h.imp_right fun h' => h'.imp_left (hy id ty)
  exec := by
    intro M env env' env₃ es ht hle he
    obtain ⟨env₁, es₁, es', hp, hrest, rfl⟩ := Meaning.exec_append.1 he
    obtain ⟨env₂, es₂, es₃, hm, hs, rfl⟩ := Meaning.exec_append.1 hrest
    have ht₁ : env₁.Typed (Function.update rows b (p ++ (m ++ s))) :=
      ht.exec (b := b) (fun r hr => by simp [hr]) hp
    obtain ⟨env₁', hp', hle₁⟩ := Meaning.exec_mono hle hp
    obtain ⟨env₂', es₂', hn, hle₂, hes⟩ := exec M env₁ env₁' env₂ es₂ ht₁ hle₁ hm
    obtain ⟨env₃', hs', hle₃⟩ := Meaning.exec_mono hle₂ hs
    have hrest' : M.exec samples (n ++ s) env₁' = some (env₃', es₂' ++ es₃) :=
      Meaning.exec_append.2 ⟨env₂', es₂', es₃, hn, hs', rfl⟩
    refine ⟨env₃', es₁ ++ (es₂' ++ es₃), Meaning.exec_append.2 ⟨env₁', es₁, _, hp', hrest', rfl⟩,
      hle₃, ?_⟩
    exact (SameEffects.refl es₁).append (hes.append (.refl es₃))

end Replaces

end Replaces

namespace Body

/-- Each run of a body is one of the other: it visits the same blocks and has the same effects. -/
def Simulates (samples : Nat) (body body' : Body) : Prop :=
  ∀ (M : Meaning) (k : Nat) (r : Run), body.run M samples k = some r →
    ∃ r', body'.run M samples k = some r' ∧ r'.visited = r.visited ∧ r'.next = r.next ∧
      SameEffects r.effects r'.effects

variable {samples : Nat} {body body' body₀ : Body} {rows : BlockId → List Row} {b : BlockId}
  {ys : List Row} {c : Code}

namespace Simulates

theorem refl (samples : Nat) (body : Body) : body.Simulates samples body :=
  fun _ _ r hr => ⟨r, hr, rfl, rfl, .refl _⟩

theorem trans (h : body₀.Simulates samples body) (h' : body.Simulates samples body') :
    body₀.Simulates samples body' := by
  intro M k r hr
  obtain ⟨r₁, hr₁, hv₁, hn₁, he₁⟩ := h M k r hr
  obtain ⟨r₂, hr₂, hv₂, hn₂, he₂⟩ := h' M k r₁ hr₁
  exact ⟨r₂, hr₂, hv₂.trans hv₁, hn₂.trans hn₁, he₁.trans he₂⟩

end Simulates

/-- One run goes the way of another, and knows all of its values. -/
structure Follows (rows : BlockId → List Row) (r r' : Run) : Prop where
  typed : r.env.Typed rows
  visited : r'.visited = r.visited
  next : r'.next = r.next
  env : r.env.Within r'.env
  effects : SameEffects r.effects r'.effects

/-- The next block of a run is carried out with the rows of one block exchanged. -/
theorem Follows.step {M : Meaning} {r r' r₁ : Run} (h : Follows rows r r')
    (hc : body.code.Shows rows) (hc' : c.Shows (Function.update rows b ys))
    (hflow : body.code.SameFlow c) (hr : Replaces samples rows b (rows b) ys)
    (hs : body.stepRun M samples r = some r₁) (cache : Analyses) :
    ∃ r₁', stepRun M samples ⟨c, body.blocks, cache⟩ r' = some r₁' ∧ Follows rows r₁ r₁' := by
  cases hnext : r.next with
  | none =>
    have hnext' : r'.next = none := h.next.trans hnext
    rw [stepRun, hnext] at hs
    obtain rfl := Option.some.inj hs
    exact ⟨r', by rw [stepRun, hnext'], h⟩
  | some d =>
    have hnext' : r'.next = some d := h.next.trans hnext
    obtain ⟨t, env, es, next, ht, hexec, hleave, rfl⟩ := (stepRun_eq_some hc hnext).1 hs
    have hdone : ∃ env' es', M.exec samples (Function.update rows b ys d) r'.env =
        some (env', es') ∧ env.Within env' ∧ SameEffects es es' := by
      by_cases hd : d = b
      · subst hd
        rw [Function.update_self]
        refine hr.exec M r.env r'.env env es ?_ h.env hexec
        rw [Function.update_eq_self]
        exact h.typed
      · rw [Function.update_of_ne hd]
        obtain ⟨env', he, hle⟩ := Meaning.exec_mono h.env hexec
        exact ⟨env', es, he, hle, .refl es⟩
    obtain ⟨env', es', hexec', hle, hes⟩ := hdone
    have ht' : c.terminator? d = some t := (hflow d).trans ht
    refine ⟨_, (stepRun_eq_some hc' hnext').2 ⟨t, env', es', next, ht', hexec',
      Meaning.leave_mono hle hleave, rfl⟩, h.typed.exec (fun _ hq => hq) hexec, ?_, rfl, hle,
      h.effects.append hes⟩
    rw [h.visited]

/-- **Exchanging the rows of a block for others that do the same keeps all runs**, whatever analyses
are kept. -/
theorem Simulates.of_replaces (hc : body.code.Shows rows)
    (hc' : c.Shows (Function.update rows b ys)) (hflow : body.code.SameFlow c)
    (hr : Replaces samples rows b (rows b) ys) (cache : Analyses) :
    body.Simulates samples ⟨c, body.blocks, cache⟩ := by
  have hfollows : ∀ (M : Meaning) (k : Nat) (r : Run), body.run M samples k = some r →
      ∃ r', run M samples ⟨c, body.blocks, cache⟩ k = some r' ∧ Follows rows r r' := by
    intro M k
    induction k with
    | zero =>
      intro r hrun
      obtain rfl := Option.some.inj hrun
      refine ⟨_, rfl, fun id x hx => ?_, rfl, rfl, .refl _, .refl _⟩
      cases hx
    | succ k ih =>
      intro r₁ hrun
      obtain ⟨r, hrun, hstep⟩ := Option.bind_eq_some_iff.1 hrun
      obtain ⟨r', hrun', h⟩ := ih r hrun
      obtain ⟨r₁', hstep', h₁⟩ := h.step hc hc' hflow hr hstep cache
      exact ⟨r₁', Option.bind_eq_some_iff.2 ⟨r', hrun', hstep'⟩, h₁⟩
  intro M k r hrun
  obtain ⟨r', hrun', h⟩ := hfollows M k r hrun
  exact ⟨r', hrun', h.visited, h.next, h.effects⟩

end Body

end ShaderIR
