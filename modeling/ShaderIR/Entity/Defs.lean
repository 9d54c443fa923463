import ShaderIR.Fault

/-!
# Identities and their definitions

Functions, blocks and instructions have an identity that stays the same while their definition
changes, and that is never given to anything else.

* `Id`: an identity of one `Kind`.
* `Supply`: where fresh identities come from; one supply serves any number of collections.
* `Defs`: a collection of definitions, keyed by identity, seen through `Defs.get?`.
* `Defs.find`, `Defs.access`: look a definition up to read it, or to change it; they differ in the
  fault for an identity that is not defined.
* `Defs.define`, `Defs.modify`, `Defs.remove`: the ways to change a collection.

Principal statements: `Defs.get?_insert`, `Defs.get?_set` and `Defs.get?_erase` say what each change
does to the view.
-/

namespace ShaderIR

/-- What an identity can belong to. -/
inductive Kind where
  | func
  | block
  | inst
  deriving DecidableEq

/-- An identity.  Its index is never shown: only equality means anything. -/
structure Id (κ : Kind) where
  index : Nat
  deriving DecidableEq

abbrev FuncId := Id .func

abbrev BlockId := Id .block

abbrev InstId := Id .inst

/-- Where fresh identities come from: every index from `next` on is unused. -/
structure Supply (κ : Kind) where
  next : Nat
  deriving DecidableEq

namespace Supply

variable {κ : Kind}

def full : Supply κ := ⟨0⟩

/-- A fresh identity, and the supply without it. -/
def take (s : Supply κ) : Id κ × Supply κ :=
  (⟨s.next⟩, ⟨s.next + 1⟩)

end Supply

/-- Definitions keyed by identity, the latest one first. -/
structure Defs (κ : Kind) (α : Type) where
  entries : List (Id κ × α)
  deriving DecidableEq

namespace Defs

variable {κ : Kind} {α : Type}

def empty : Defs κ α := ⟨[]⟩

/-- The number of definitions. -/
def size (d : Defs κ α) : Nat := d.entries.length

/-- The definition of an identity, if it has one. -/
def get? (d : Defs κ α) (id : Id κ) : Option α := d.entries.lookup id

/-- Whether an identity is (still) defined. -/
def contains (d : Defs κ α) (id : Id κ) : Bool := (d.get? id).isSome

/-- Adds a definition. -/
def insert (d : Defs κ α) (id : Id κ) (a : α) : Defs κ α := ⟨(id, a) :: d.entries⟩

/-- Replaces the definition of an identity, which has to have one. -/
def set (d : Defs κ α) (id : Id κ) (a : α) : Defs κ α :=
  ⟨d.entries.map fun e => if e.1 = id then (id, a) else e⟩

/-- Drops the definition of an identity. -/
def erase (d : Defs κ α) (id : Id κ) : Defs κ α :=
  ⟨d.entries.filter fun e => e.1 ≠ id⟩

/-- The definition of an identity, to read it. -/
def find (d : Defs κ α) (id : Id κ) : Except Fault α :=
  match d.get? id with
  | some a => .ok a
  | none => .error .readUndefined

/-- The definition of an identity, to change it. -/
def access (d : Defs κ α) (id : Id κ) : Except Fault α :=
  match d.get? id with
  | some a => .ok a
  | none => .error .editUndefined

/-- Changes the definition of an identity in place. -/
def modify (d : Defs κ α) (id : Id κ) (f : α → α) : Except Fault (Defs κ α) := do
  let a ← d.access id
  return d.set id (f a)

/-- Defines a fresh identity. -/
def define (d : Defs κ α) (s : Supply κ) (a : α) : Except Fault (Id κ × Defs κ α × Supply κ) :=
  let (id, rest) := s.take
  if d.contains id then .error .redefined else .ok (id, d.insert id a, rest)

/-- Destroys the definition of an identity, and hands it out. -/
def remove (d : Defs κ α) (id : Id κ) : Except Fault (α × Defs κ α) :=
  match d.get? id with
  | some a => .ok (a, d.erase id)
  | none => .error .removeUndefined

@[simp] theorem get?_empty (id : Id κ) : (empty : Defs κ α).get? id = none := rfl

theorem get?_cons (k id : Id κ) (v : α) (es : List (Id κ × α)) :
    (⟨(k, v) :: es⟩ : Defs κ α).get? id = if id = k then some v else (⟨es⟩ : Defs κ α).get? id := by
  simp only [get?, List.lookup_cons]
  by_cases h : id = k
  · simp [h]
  · have hb : (id == k) = false := by simpa using h
    simp [h, hb]

theorem get?_insert (d : Defs κ α) (id id' : Id κ) (a : α) :
    (d.insert id a).get? id' = if id' = id then some a else d.get? id' :=
  get?_cons id id' a d.entries

theorem get?_set (d : Defs κ α) (id id' : Id κ) (a : α) :
    (d.set id a).get? id' = if id' = id then (d.get? id).map (fun _ => a) else d.get? id' := by
  obtain ⟨es⟩ := d
  induction es with
  | nil => simp [set, get?]
  | cons e es ih =>
    obtain ⟨k, v⟩ := e
    simp only [set, List.map_cons] at ih ⊢
    by_cases hk : k = id
    · subst hk
      simp only [if_true, get?_cons, ih]
      by_cases h : id' = k <;> simp [h]
    · simp only [hk, if_false, get?_cons, ih]
      by_cases h : id' = id
      · subst h
        simp [Ne.symm hk]
      · simp [h]

theorem get?_erase (d : Defs κ α) (id id' : Id κ) :
    (d.erase id).get? id' = if id' = id then none else d.get? id' := by
  obtain ⟨es⟩ := d
  induction es with
  | nil => simp [erase, get?]
  | cons e es ih =>
    obtain ⟨k, v⟩ := e
    simp only [erase, List.filter_cons] at ih ⊢
    by_cases hk : k = id
    · subst hk
      simp only [ne_eq, not_true_eq_false, decide_false, Bool.false_eq_true, if_false, ih,
        get?_cons]
      by_cases h : id' = k <;> simp [h]
    · simp only [ne_eq, hk, not_false_eq_true, decide_true, if_true, get?_cons, ih]
      by_cases h : id' = id
      · subst h
        simp [Ne.symm hk]
      · simp [h]

end Defs

end ShaderIR
