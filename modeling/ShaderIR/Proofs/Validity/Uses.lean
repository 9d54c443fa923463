import ShaderIR.Body.Basic
import ShaderIR.Proofs.Body.Rows
import ShaderIR.Validity.Expected

/-!
# Uses of values

What the uses in a body have to be like, said of its rows instead of its chains.

* `Flow`: what instructions cannot change: the blocks, which dominate which, and their terminators.
* `Flow.Computed`, `Flow.HasType`: a value is there at some place of a block, and has some type.
* `Rules`: what is required of the inputs of a user.
* `Flow.Valid`: each user has as many inputs as is required, each is there and has a type that is
  admitted.

Principal statements: `Flow.Valid.splice` (exchanging a part of a block keeps a body valid, if the
new part is and yields all that the old one did) and `Flow.Valid.imp` (how rules compare).
-/

namespace ShaderIR

/-- What changes of instructions leave as it is in a body. -/
structure Flow where
  listed : List BlockId
  dominates : BlockId → BlockId → Prop
  terminator? : BlockId → Option Terminator

/-- The flow of a body. -/
def Body.flow (body : Body) : Flow where
  listed := body.blocks
  dominates := OnPaths body.entryBlock? body.code.blocks
  terminator? := body.code.terminator?

theorem Body.flow_eq (body : Body) {c : Code} (h : body.code.SameFlow c) :
    ({ body with code := c } : Body).flow = body.flow := by
  unfold Body.flow
  congr 1
  · funext a b
    exact propext ⟨h.symm.onPaths, h.onPaths⟩
  · funext b
    exact h b

/-- Some row computes a value of a type. -/
def Yields (rs : List Row) (id : InstId) (ty : ScalarType) : Prop :=
  ∃ i, (id, i) ∈ rs ∧ i.ty = some ty

/-- A requirement admits a type for a user with a given result. -/
def Expected.Admits (e : Expected) (ty : ScalarType) (result : Option ScalarType) : Prop :=
  e.admits (some ty) result = true

/-- What is required of the inputs of a user. -/
structure Rules where
  accepts : Expected → ScalarType → Option ScalarType → Prop
  wants : InstKind → List Expected

namespace Rules

/-- What the check requires. -/
def checked : Rules := ⟨Expected.Admits, InstKind.expected⟩

/-- Inputs have to be there, and may have any type if not just one is expected. -/
def placed : Rules := ⟨fun e ty _ => ∀ t, e = .exactly t → ty = t, InstKind.expected⟩

end Rules

/-- What the check admits is admitted where the types are mostly left open. -/
theorem Expected.Admits.placed {e : Expected} {ty : ScalarType} {result : Option ScalarType}
    (h : e.Admits ty result) : Rules.placed.accepts e ty result := by
  rintro t rfl
  simpa [Expected.Admits, Expected.admits] using h

namespace Flow

variable (f : Flow) (R : Rules) (rows : BlockId → List Row) (b : BlockId)

/-- A value is computed before the rows `p` of block `b` end, on every path. -/
def Computed (p : List Row) (id : InstId) (ty : ScalarType) : Prop :=
  Yields p id ty ∨ ∃ d ∈ f.listed, d ≠ b ∧ f.dominates d b ∧ Yields (rows d) id ty

/-- A value is there after the rows `p` of block `b`, and has a type. -/
def HasType (p : List Row) (v : Value) (ty : ScalarType) : Prop :=
  match v with
  | .const k => k.ty = ty
  | .result id => f.Computed rows b p id ty

/-- A user after the rows `p` of block `b` has the inputs that it expects. -/
def UserOk (p : List Row) (result : Option ScalarType) (inputs : List Value)
    (expected : List Expected) : Prop :=
  List.Forall₂ (fun v e => ∃ ty, f.HasType rows b p v ty ∧ R.accepts e ty result) inputs expected

/-- The rows after `p` are users that have the inputs that they expect. -/
def RowsOk : List Row → List Row → Prop
  | _, [] => True
  | p, r :: rs =>
    f.UserOk R rows b p r.2.ty r.2.inputs (R.wants r.2.kind) ∧ RowsOk (p ++ [r]) rs

/-- The users in a block have the inputs that they expect. -/
structure BlockOk : Prop where
  rowsOk : f.RowsOk R rows b [] (rows b)
  leaves : ∃ t, f.terminator? b = some t ∧
    f.UserOk R rows b (rows b) none t.inputs t.kind.expected

/-- All users in a body have the inputs that they expect. -/
def Valid : Prop := ∀ b ∈ f.listed, f.BlockOk R rows b

variable {f R rows b} {rows' : BlockId → List Row} {p p' m n s xs ys : List Row}
  {result : Option ScalarType} {inputs : List Value} {expected : List Expected} {v : Value}
  {ty : ScalarType} {r : Row} {id : InstId}

theorem HasType.mono (h : f.HasType rows b p v ty)
    (hp : ∀ id ty, Yields p id ty → Yields p' id ty)
    (hrows : ∀ d id ty, Yields (rows d) id ty → Yields (rows' d) id ty) :
    f.HasType rows' b p' v ty := by
  cases v with
  | const k => exact h
  | result id =>
    rcases h with h | ⟨d, hd, hne, hdom, h⟩
    · exact .inl (hp id ty h)
    · exact .inr ⟨d, hd, hne, hdom, hrows d id ty h⟩

/-- What a block computes itself does not matter for what it gets from others. -/
theorem HasType.congr (h : f.HasType rows b p v ty) (same : ∀ d, d ≠ b → rows d = rows' d) :
    f.HasType rows' b p v ty := by
  cases v with
  | const k => exact h
  | result id =>
    rcases h with h | ⟨d, hd, hne, hdom, h⟩
    · exact .inl h
    · exact .inr ⟨d, hd, hne, hdom, same d hne ▸ h⟩

theorem hasType_update {new : List Row} :
    f.HasType (Function.update rows b new) b p v ty ↔ f.HasType rows b p v ty := by
  constructor
  · exact fun h => h.congr fun d hd => Function.update_of_ne hd _ _
  · exact fun h => h.congr fun d hd => (Function.update_of_ne hd _ _).symm

/-- The type of a value that is there is the one that the code gives it. -/
theorem HasType.typeOf (h : f.HasType rows b p v ty) {c : Code} (hc : c.Shows rows)
    (hp : rows b = p ++ s) : c.typeOf v = .ok ty := by
  cases v with
  | const k =>
    obtain rfl : k.ty = ty := h
    rfl
  | result id =>
    rcases h with ⟨i, hi, hty⟩ | ⟨d, -, -, -, i, hi, hty⟩
    · exact hc.typeOf (r := (id, i)) (b := b) (hp ▸ List.mem_append_left s hi) hty
    · exact hc.typeOf (r := (id, i)) hi hty

/-- Every input of a user as required is there. -/
theorem UserOk.hasType (h : f.UserOk R rows b p result inputs expected) (hv : v ∈ inputs) :
    ∃ ty, f.HasType rows b p v ty := by
  unfold UserOk at h
  induction h with
  | nil => cases hv
  | cons hfirst _ ih =>
    rcases List.mem_cons.1 hv with rfl | hv
    · obtain ⟨ty, hty, -⟩ := hfirst
      exact ⟨ty, hty⟩
    · exact ih hv

theorem UserOk.mono (h : f.UserOk R rows b p result inputs expected)
    (hp : ∀ id ty, Yields p id ty → Yields p' id ty)
    (hrows : ∀ d id ty, Yields (rows d) id ty → Yields (rows' d) id ty) :
    f.UserOk R rows' b p' result inputs expected := by
  refine List.Forall₂.imp (fun v e hv => ?_) h
  obtain ⟨ty, hty, haccepts⟩ := hv
  exact ⟨ty, hty.mono hp hrows, haccepts⟩

theorem yields_append : Yields (xs ++ ys) id ty ↔ Yields xs id ty ∨ Yields ys id ty := by
  simp only [Yields, List.mem_append]
  constructor
  · rintro ⟨i, h | h, hty⟩
    · exact .inl ⟨i, h, hty⟩
    · exact .inr ⟨i, h, hty⟩
  · rintro (⟨i, h, hty⟩ | ⟨i, h, hty⟩)
    · exact ⟨i, .inl h, hty⟩
    · exact ⟨i, .inr h, hty⟩

theorem yields_append_mono (h : ∀ id ty, Yields p id ty → Yields p' id ty) (xs : List Row) :
    ∀ id ty, Yields (p ++ xs) id ty → Yields (p' ++ xs) id ty := by
  intro id ty hy
  rw [yields_append] at hy ⊢
  exact hy.imp_left (h id ty)

theorem RowsOk.mono (h : f.RowsOk R rows b p xs)
    (hp : ∀ id ty, Yields p id ty → Yields p' id ty)
    (hrows : ∀ d id ty, Yields (rows d) id ty → Yields (rows' d) id ty) :
    f.RowsOk R rows' b p' xs := by
  induction xs generalizing p p' with
  | nil => trivial
  | cons x xs ih =>
    obtain ⟨huser, hrest⟩ := h
    exact ⟨huser.mono hp hrows, ih hrest (yields_append_mono hp [x])⟩

theorem RowsOk.append_iff : f.RowsOk R rows b p (xs ++ ys) ↔
    f.RowsOk R rows b p xs ∧ f.RowsOk R rows b (p ++ xs) ys := by
  induction xs generalizing p with
  | nil => simp [RowsOk]
  | cons x xs ih => simp [RowsOk, ih, and_assoc]

/-- Rows are users as required if each of them is, after those before it. -/
theorem rowsOk_iff : f.RowsOk R rows b p xs ↔ ∀ q r s, xs = q ++ r :: s →
    f.UserOk R rows b (p ++ q) r.2.ty r.2.inputs (R.wants r.2.kind) := by
  constructor
  · rintro h q r s rfl
    exact (RowsOk.append_iff.1 h).2.1
  · intro h
    induction xs generalizing p with
    | nil => trivial
    | cons x xs ih =>
      refine ⟨by simpa using h [] x xs rfl, ih fun q r s e => ?_⟩
      have hq := h (x :: q) r s (by rw [e]; rfl)
      simpa using hq

/-- **Exchanging a part of a block keeps a body valid**, if the new part is valid where it stands
and yields all that the old one did. -/
theorem Valid.splice (h : f.Valid R rows) (hb : rows b = p ++ (m ++ s))
    (hm : ∀ id ty, Yields m id ty → Yields n id ty) (hok : f.RowsOk R rows b p n) :
    f.Valid R (Function.update rows b (p ++ (n ++ s))) := by
  have hrows : ∀ d id ty, Yields (rows d) id ty →
      Yields (Function.update rows b (p ++ (n ++ s)) d) id ty := by
    intro d id ty hy
    by_cases hd : d = b
    · subst hd
      rw [Function.update_self]
      rw [hb] at hy
      simp only [yields_append] at hy ⊢
      exact hy.imp_right fun h' => h'.imp_left (hm id ty)
    · rwa [Function.update_of_ne hd]
  have hself : ∀ id ty, Yields p id ty → Yields p id ty := fun _ _ hy => hy
  intro d hd
  obtain ⟨hrowsOk, t, ht, hleaves⟩ := h d hd
  refine ⟨?_, t, ht, hleaves.mono (hrows d) hrows⟩
  by_cases hdb : d = b
  · subst hdb
    rw [hb, RowsOk.append_iff, RowsOk.append_iff] at hrowsOk
    obtain ⟨hp, -, hs⟩ := hrowsOk
    rw [Function.update_self, RowsOk.append_iff, RowsOk.append_iff]
    refine ⟨hp.mono (fun _ _ hy => hy) hrows, hok.mono hself hrows, hs.mono ?_ hrows⟩
    intro id ty hy
    simp only [List.nil_append, yields_append] at hy ⊢
    exact hy.imp_right (hm id ty)
  · rw [Function.update_of_ne hdb]
    exact hrowsOk.mono (fun _ _ hy => hy) hrows

theorem UserOk.imp (h : f.UserOk R rows b p result inputs expected) {R' : Rules}
    {expected' : List Expected} (hle : List.Forall₂ (fun e e' => ∀ ty, R.accepts e ty result →
      R'.accepts e' ty result) expected expected') :
    f.UserOk R' rows b p result inputs expected' := by
  unfold UserOk at h ⊢
  induction h generalizing expected' with
  | nil =>
    cases hle
    exact .nil
  | cons hv _ ih =>
    cases hle with
    | cons he hle =>
      obtain ⟨ty, hty, haccepts⟩ := hv
      exact .cons ⟨ty, hty, he ty haccepts⟩ (ih hle)

/-- A body that is valid stays so under other rules if its users do. -/
theorem Valid.imp (h : f.Valid R rows) {R' : Rules}
    (hle : ∀ e ty result, R.accepts e ty result → R'.accepts e ty result)
    (huser : ∀ b ∈ f.listed, ∀ p r s, rows b = p ++ r :: s →
      f.UserOk R rows b p r.2.ty r.2.inputs (R.wants r.2.kind) →
      f.UserOk R' rows b p r.2.ty r.2.inputs (R'.wants r.2.kind)) : f.Valid R' rows := by
  intro b hb
  obtain ⟨hr, t, ht, hl⟩ := h b hb
  refine ⟨rowsOk_iff.2 fun q r s e => ?_, t, ht, ?_⟩
  swap
  · exact hl.imp (List.forall₂_same.2 fun e _ ty => hle e ty _)
  exact huser b hb q r s e (rowsOk_iff.1 hr q r s e)

/-- Where inputs are as the check requires, they are there. -/
theorem Valid.placed (h : f.Valid .checked rows) : f.Valid .placed rows :=
  h.imp (fun _ _ _ ha => ha.placed) fun _ _ _ _ _ _ hu =>
    hu.imp (List.forall₂_same.2 fun _ _ _ ha => ha.placed)

end Flow

end ShaderIR
