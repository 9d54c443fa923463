import ShaderIR.Body.Value

/-!
# Interning

Equal texts, types and constants share one handle, so that handles can be compared instead of what
they stand for.

* `Table`: the values of one kind that have been interned, in order; `Table.intern`, `Table.get?`.
* `Context`: one table each for texts, types and constants.  A constant refers to its type by
  handle.
* `Request`, `Context.serve`: the ways to intern something, and the handle that each of them gets.

Principal statement: `Table.get?_intern_self` (a handle reads back what it was made of).
-/

namespace ShaderIR

/-- A short name of an interned value. -/
structure Handle (α : Type) where
  index : Nat
  deriving DecidableEq

/-- The values that have been interned, the oldest first. -/
structure Table (α : Type) where
  items : List α
  deriving DecidableEq

namespace Table

variable {α : Type} [DecidableEq α]

def empty : Table α := ⟨[]⟩

/-- The handle of a value: that of an equal one interned before, or else a new one. -/
def intern (t : Table α) (a : α) : Handle α × Table α :=
  match t.items.idxOf? a with
  | some i => (⟨i⟩, t)
  | none => (⟨t.items.length⟩, ⟨t.items ++ [a]⟩)

omit [DecidableEq α] in
/-- What a handle stands for. -/
def get? (t : Table α) (h : Handle α) : Option α := t.items[h.index]?

theorem get?_intern_self (t : Table α) (a : α) : (t.intern a).2.get? (t.intern a).1 = some a := by
  unfold intern
  split
  · rename_i i h
    obtain ⟨hi, he, _⟩ := List.findIdx?_eq_some_iff_getElem.1 h
    simp only [get?, List.getElem?_eq_getElem hi]
    exact congrArg some (eq_of_beq he)
  · simp [get?]

end Table

/-- The forms of a type; only scalars have one so far. -/
inductive TypeForm where
  | scalar (ty : ScalarType)
  deriving DecidableEq

/-- A type as it is interned. -/
structure TypeDef where
  form : TypeForm
  deriving DecidableEq

/-- The scalar type that a type is. -/
def TypeDef.scalarType (d : TypeDef) : ScalarType :=
  match d.form with
  | .scalar ty => ty

/-- The type that is a given scalar type. -/
def TypeDef.ofScalar (ty : ScalarType) : TypeDef := ⟨.scalar ty⟩

/-- A constant as it is interned: its type is a handle. -/
structure ConstDef where
  ty : Handle TypeDef
  kind : ConstKind
  deriving DecidableEq

/-- All that has been interned. -/
structure Context where
  texts : Table String
  types : Table TypeDef
  consts : Table ConstDef
  deriving DecidableEq

namespace Context

def empty : Context := ⟨.empty, .empty, .empty⟩

def internText (c : Context) (s : String) : Handle String × Context :=
  let (h, texts) := c.texts.intern s
  (h, { c with texts })

def internType (c : Context) (d : TypeDef) : Handle TypeDef × Context :=
  let (h, types) := c.types.intern d
  (h, { c with types })

def internTypeForm (c : Context) (f : TypeForm) : Handle TypeDef × Context :=
  c.internType ⟨f⟩

def internScalarType (c : Context) (ty : ScalarType) : Handle TypeDef × Context :=
  c.internTypeForm (.scalar ty)

def internConst (c : Context) (d : ConstDef) : Handle ConstDef × Context :=
  let (h, consts) := c.consts.intern d
  (h, { c with consts })

/-- Interns a scalar constant at its own type. -/
def internScalar (c : Context) (s : Scalar) : Handle ConstDef × Context :=
  let (ty, c) := c.internScalarType s.ty
  c.internConst ⟨ty, .scalar s⟩

/-- Interns a constant of a type that has been interned before, and leaves it open. -/
def internUndef (c : Context) (ty : Handle TypeDef) : Handle ConstDef × Context :=
  c.internConst ⟨ty, .undef⟩

/-- Interns the constant of an unsigned type that stands for `value`. -/
def internUnsigned (c : Context) (ty : ScalarType) (value : Nat) :
    Except Fault (Handle ConstDef × Context) := do
  return c.internScalar (← Scalar.ofUnsigned ty value)

/-- The type of an interned constant. -/
def typeOfConst? (c : Context) (h : Handle ConstDef) : Option TypeDef := do
  c.types.get? (← c.consts.get? h).ty

end Context

/-- Something to be interned, and the way in which it is given. -/
inductive Request where
  | text (s : String)
  | type (d : TypeDef)
  | typeForm (f : TypeForm)
  | scalarType (ty : ScalarType)
  /-- A constant with a declared type, which is interned first. -/
  | const (declared : ScalarType) (kind : ConstKind)
  | scalar (s : Scalar)
  | unsigned (ty : ScalarType) (value : Nat)
  | undef (ty : ScalarType)

/-- A handle of one of the three kinds. -/
inductive Interned where
  | text (h : Handle String)
  | type (h : Handle TypeDef)
  | const (h : Handle ConstDef)
  deriving DecidableEq

/-- Interns what is asked for. -/
def Context.serve (c : Context) : Request → Except Fault (Interned × Context)
  | .text s =>
    let (h, c) := c.internText s
    .ok (.text h, c)
  | .type d =>
    let (h, c) := c.internType d
    .ok (.type h, c)
  | .typeForm f =>
    let (h, c) := c.internTypeForm f
    .ok (.type h, c)
  | .scalarType ty =>
    let (h, c) := c.internScalarType ty
    .ok (.type h, c)
  | .const declared kind =>
    let (ty, c) := c.internScalarType declared
    let (h, c) := c.internConst ⟨ty, kind⟩
    .ok (.const h, c)
  | .scalar s =>
    let (h, c) := c.internScalar s
    .ok (.const h, c)
  | .unsigned ty value => do
    let (h, c) ← c.internUnsigned ty value
    return (.const h, c)
  | .undef ty =>
    let (h, c) := c.internScalarType ty
    let (h, c) := c.internUndef h
    .ok (.const h, c)

end ShaderIR
