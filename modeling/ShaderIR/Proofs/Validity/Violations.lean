import Mathlib.Data.List.Lex
import ShaderIR.Validity.Check
import ShaderIR.Proofs.Body.Rows

/-!
# What the check is to find

When a module conforms, and what its first violation is, said of the instructions that are linked in
the blocks and of the paths to them.

* `Code.usersOf`: the users of a block in order, the terminator last.
* `Body.UserFits`, `Module.Conforms`: every user has the inputs that it expects.
* `Along`: what is found at the elements of a list, with the position of each.
* `Body.PlaceDefect`, `InputDefect`, `UserDefect`, `BlockDefect`, `Module.ViolationAt`: all that is
  wrong, each with where it is.
* `Finds`, `Module.FirstViolation`: what comes first, in lexicographic order.

Principal statements: `Body.userFits_iff` (a user fits if and only if it has no defect) and
`Module.FirstViolation.unique` (there is only one first violation).
-/

namespace ShaderIR

/-! ## What is required -/

/-- A requirement allows a type for a user whose result is of type `result`. -/
inductive Expected.Allows : Expected → ScalarType → Option ScalarType → Prop where
  | any {ty : ScalarType} {result : Option ScalarType} : Allows .any ty result
  | exactly {ty : ScalarType} {result : Option ScalarType} : Allows (.exactly ty) ty result
  | float {ty : ScalarType} {result : Option ScalarType} (h : ty.isFloat = true) :
    Allows .anyFloat ty result
  | int {ty : ScalarType} {result : Option ScalarType} (h : ty.isInt = true) :
    Allows .anyInt ty result
  | result {ty : ScalarType} : Allows .sameAsResult ty (some ty)

theorem Expected.allows_iff {e : Expected} {ty : ScalarType} {result : Option ScalarType} :
    e.Allows ty result ↔ e.admits (some ty) result = true := by
  constructor
  · intro h
    cases h <;> simp_all [admits]
  · intro h
    cases e with
    | any => exact .any
    | exactly t =>
      obtain rfl : ty = t := by simpa [admits] using h
      exact .exactly
    | anyFloat => exact .float h
    | anyInt => exact .int h
    | sameAsResult =>
      obtain rfl : result = some ty := by simpa [admits] using h
      exact .result

/-- An instruction or a terminator, as far as its inputs are concerned. -/
structure User where
  name : String
  inputs : List Value
  expected : List Expected
  result : Option ScalarType

def Inst.user (i : Inst) : User := ⟨i.kind.name, i.inputs, i.kind.expected, i.ty⟩

def Terminator.user (t : Terminator) : User := ⟨t.kind.name, t.inputs, t.kind.expected, none⟩

namespace Code

/-- The users of a block in order, the terminator last. -/
def usersOf (c : Code) (b : BlockId) : Except Fault (List User) := do
  let is ← (← c.instsOf b).mapM c.inst
  let blk ← c.blocks.find b
  return is.map Inst.user ++ [blk.terminator.user]

/-- The type of a value, if it has one. -/
def type? (c : Code) : Value → Except Fault (Option ScalarType)
  | .const k => .ok (some k.ty)
  | .result id => do return (← c.inst id).ty

end Code

namespace Body

variable (body : Body)

/-- The chains of a body are linked. -/
def ChainsLinked : Prop := ∃ ls, Layout body.code.chainOf body.code.insts ls

/-- All listed blocks are defined. -/
def Listed : Prop := ∀ b ∈ body.blocks, ∃ blk, body.code.blocks.get? b = some blk

/-- The chains of a body are linked, its blocks are distinct, and all blocks are defined that are
listed or can be reached. -/
structure WellFormed : Prop where
  linked : body.ChainsLinked
  distinct : body.blocks.Nodup
  listed : ∀ b ∈ body.blocks, ∃ blk, body.code.blocks.get? b = some blk
  reached : ∀ b, Reached body.entryBlock? body.code.blocks b →
    ∃ blk, body.code.blocks.get? b = some blk

/-- An instruction is linked in a block that is listed, at some place. -/
structure LinkedAt (b : BlockId) (k : Nat) (id : InstId) : Prop where
  listed : b ∈ body.blocks
  linked : ∃ ids, body.code.instsOf b = .ok ids ∧ ids[k]? = some id

/-- A user at a place of a block has the inputs that it expects. -/
structure UserFits (b : BlockId) (k : Nat) (u : User) : Prop where
  count : u.inputs.length = u.expected.length
  linked : ∀ id, .result id ∈ u.inputs → ∃ d l, body.LinkedAt d l id
  /-- What is computed in the same block comes strictly before. -/
  before : ∀ id, .result id ∈ u.inputs → ∀ l, body.LinkedAt b l id → l < k
  /-- What is computed in another block is computed on every path. -/
  onPaths : ∀ id, .result id ∈ u.inputs → ∀ d l, body.LinkedAt d l id → d ≠ b →
    OnPaths body.entryBlock? body.code.blocks d b
  typed : ∀ (j : Nat) (v : Value) (e : Expected), u.inputs[j]? = some v → u.expected[j]? = some e →
    ∃ ty, body.code.typeOf v = .ok ty ∧ e.Allows ty u.result

/-- Every user has the inputs that it expects. -/
def Conforms : Prop :=
  ∀ b ∈ body.blocks, ∃ users, body.code.usersOf b = .ok users ∧
    ∀ (k : Nat) (u : User), users[k]? = some u → body.UserFits b k u

end Body

namespace Module

/-- Something holds of every body of the functions that are handled. -/
def Every (m : Module) (P : Body → Prop) : Prop :=
  ∀ f ∈ m.allFuncs, ∀ decl body, m.funcs.get? f = some decl → decl.impl = .present body → P body

/-- Every user of every body has the inputs that it expects. -/
def Conforms (m : Module) : Prop := m.Every Body.Conforms

end Module

/-! ## What comes first -/

section First

variable {α β γ : Type}

/-- Keys are compared by their first numbers, and then by the rest. -/
theorem cons_le_cons_iff {i j : Nat} {k l : List Nat} :
    i :: k ≤ j :: l ↔ i < j ∨ i = j ∧ k ≤ l := by
  constructor
  · intro h
    rcases lt_or_eq_of_le h with h | h
    · cases (h : List.Lex (· < ·) (i :: k) (j :: l)) with
      | cons h => exact .inr ⟨rfl, le_of_lt h⟩
      | rel h => exact .inl h
    · cases h
      exact .inr ⟨rfl, le_refl k⟩
  · rintro (h | ⟨rfl, h⟩)
    · exact le_of_lt (List.Lex.rel h)
    · exact List.cons_le_cons i h

/-- What is found at the elements of a list: where it is begins with the position of the element. -/
inductive Along (l : List α) (V : Nat → α → List Nat → β → Prop) : List Nat → β → Prop where
  | at {k : Nat} {a : α} {key : List Nat} {y : β} (elem : l[k]? = some a) (found : V k a key y) :
    Along l V (k :: key) y

/-- The result of a search for what comes first, in lexicographic order. -/
def Finds (V : List Nat → β → Prop) : Option β → Prop
  | none => ∀ key y, ¬ V key y
  | some y => ∃ key, V key y ∧ ∀ key' y', V key' y' → key ≤ key'

variable {V W : List Nat → β → Prop} {o o' : Option β} {l : List α}

theorem Finds.congr (h : Finds V o) (he : ∀ key y, W key y ↔ V key y) : Finds W o := by
  obtain rfl : W = V := funext fun key => funext fun y => propext (he key y)
  exact h

theorem Finds.map (h : Finds V o) {g : β → γ} {W : List Nat → γ → Prop}
    (he : ∀ key z, W key z ↔ ∃ y, V key y ∧ z = g y) : Finds W (o.map g) := by
  cases o with
  | none =>
    intro key z hz
    obtain ⟨y, hy, -⟩ := (he key z).1 hz
    exact h key y hy
  | some y =>
    obtain ⟨key, hkey, hleast⟩ := h
    refine ⟨key, (he key _).2 ⟨y, hkey, rfl⟩, fun key' z hz => ?_⟩
    obtain ⟨y', hy', -⟩ := (he key' z).1 hz
    exact hleast key' y' hy'

/-- What comes later is searched for only if nothing is found before. -/
theorem Finds.or (h : Finds V o) (h' : o = none → Finds W o')
    (hle : ∀ key y key' y', V key y → W key' y' → key ≤ key') :
    Finds (fun key y => V key y ∨ W key y) (o.or o') := by
  cases o with
  | none =>
    refine (h' rfl).congr fun key y => ?_
    exact or_iff_right (h key y)
  | some y =>
    obtain ⟨key, hkey, hleast⟩ := h
    refine ⟨key, .inl hkey, fun key' y' hy' => ?_⟩
    rcases hy' with hy' | hy'
    · exact hleast key' y' hy'
    · exact hle key y key' y' hkey hy'

theorem Finds.cons (h : Finds V o) (k : Nat) :
    Finds (fun key y => ∃ rest, key = k :: rest ∧ V rest y) o := by
  cases o with
  | none =>
    rintro _ y ⟨rest, rfl, hy⟩
    exact h rest y hy
  | some y =>
    obtain ⟨key, hkey, hleast⟩ := h
    refine ⟨k :: key, ⟨key, rfl, hkey⟩, ?_⟩
    rintro _ y' ⟨rest, rfl, hy'⟩
    exact cons_le_cons_iff.2 (.inr ⟨rfl, hleast rest y' hy'⟩)

theorem along_map {g : γ → α} {l : List γ} {V : Nat → α → List Nat → β → Prop} {key : List Nat}
    {y : β} : Along (l.map g) V key y ↔ Along l (fun k c => V k (g c)) key y := by
  constructor
  · rintro ⟨elem, found⟩
    rw [List.getElem?_map] at elem
    obtain ⟨c, hc, rfl⟩ := Option.map_eq_some_iff.1 elem
    exact ⟨hc, found⟩
  · rintro ⟨elem, found⟩
    exact ⟨by rw [List.getElem?_map, elem]; rfl, found⟩

theorem along_cons {a : α} {V : Nat → α → List Nat → β → Prop} {key : List Nat} {y : β} :
    Along (a :: l) V key y ↔ (∃ rest, key = 0 :: rest ∧ V 0 a rest y) ∨
      ∃ k rest, key = (k + 1) :: rest ∧ Along l (fun k => V (k + 1)) (k :: rest) y := by
  constructor
  · rintro ⟨elem, found⟩
    rename_i k a' rest
    cases k with
    | zero =>
      obtain rfl := Option.some.inj elem
      exact .inl ⟨rest, rfl, found⟩
    | succ k => exact .inr ⟨k, rest, rfl, .at elem found⟩
  · rintro (⟨rest, rfl, found⟩ | ⟨k, rest, rfl, elem, found⟩)
    · exact .at rfl found
    · exact .at elem found

/-- What is found at the last element of a list comes last. -/
theorem along_concat {a : α} {V : Nat → α → List Nat → β → Prop} {key : List Nat} {y : β} :
    Along (l ++ [a]) V key y ↔ Along l V key y ∨
      ∃ rest, key = l.length :: rest ∧ V l.length a rest y := by
  constructor
  · rintro ⟨elem, found⟩
    rename_i k a' rest
    rcases Nat.lt_trichotomy k l.length with hk | rfl | hk
    · exact .inl (.at (by rwa [List.getElem?_append_left hk] at elem) found)
    · obtain rfl : a = a' := by simpa using elem
      exact .inr ⟨rest, rfl, found⟩
    · have hlt := (List.getElem?_eq_some_iff.1 elem).1
      rw [List.length_append, List.length_singleton] at hlt
      omega
  · rintro (⟨elem, found⟩ | ⟨rest, rfl, found⟩)
    · have hlt := (List.getElem?_eq_some_iff.1 elem).1
      exact .at (by rw [List.getElem?_append_left hlt, elem]) found
    · exact .at (by simp) found

/-- What is found at a position is unique if it is so at each element. -/
theorem Along.unique {V : Nat → α → List Nat → β → Prop} {key : List Nat} {y y' : β}
    (h : Along l V key y) (h' : Along l V key y')
    (hV : ∀ k a rest, V k a rest y → V k a rest y' → y = y') : y = y' := by
  obtain ⟨elem, found⟩ := h
  obtain ⟨elem', found'⟩ := h'
  obtain rfl := Option.some.inj (elem.symm.trans elem')
  exact hV _ _ _ found found'

/-- A search along a list finds what comes first, if the search at each element does. -/
theorem exists_findSomeM?_finds {f : α → Except Fault (Option β)}
    {V : Nat → α → List Nat → β → Prop}
    (h : ∀ k a, l[k]? = some a → ∃ o, f a = .ok o ∧ Finds (V k a) o) :
    ∃ o, l.findSomeM? f = .ok o ∧ Finds (Along l V) o := by
  induction l generalizing V with
  | nil =>
    refine ⟨none, rfl, ?_⟩
    rintro _ y ⟨elem, -⟩
    cases elem
  | cons a l ih =>
    obtain ⟨o, ho, hfinds⟩ := h 0 a rfl
    obtain ⟨o', ho', hfinds'⟩ := ih (V := fun k => V (k + 1)) fun k a ha => h (k + 1) a ha
    have hrest : Finds (fun key y =>
        ∃ k rest, key = (k + 1) :: rest ∧ Along l (fun k => V (k + 1)) (k :: rest) y) o' := by
      cases o' with
      | none =>
        rintro _ y ⟨k, rest, -, hy⟩
        exact hfinds' _ y hy
      | some y =>
        obtain ⟨_, ⟨elem, found⟩, hleast⟩ := hfinds'
        rename_i k a' rest
        refine ⟨(k + 1) :: rest, ⟨k, rest, rfl, .at elem found⟩, ?_⟩
        rintro _ y' ⟨k', rest', rfl, hy'⟩
        have hle := cons_le_cons_iff.1 (hleast _ y' hy')
        exact cons_le_cons_iff.2 (hle.imp Nat.succ_lt_succ fun he => ⟨by rw [he.1], he.2⟩)
    refine ⟨o.or o', ?_, ?_⟩
    · rw [List.findSomeM?, ho, ok_bind]
      cases o with
      | none => exact ho'
      | some y => rfl
    · refine ((hfinds.cons 0).or (fun _ => hrest) ?_).congr fun key y => along_cons
      rintro _ y _ y' ⟨rest, rfl, -⟩ ⟨k, rest', rfl, -⟩
      exact cons_le_cons_iff.2 (.inl (Nat.succ_pos k))

/-- The same of a search that is told the position of each element. -/
theorem exists_findSomeM?_zipIdx_finds {f : α × Nat → Except Fault (Option β)}
    {V : Nat → α → List Nat → β → Prop}
    (h : ∀ k a, l[k]? = some a → ∃ o, f (a, k) = .ok o ∧ Finds (V k a) o) :
    ∃ o, l.zipIdx.findSomeM? f = .ok o ∧ Finds (Along l V) o := by
  have hat : ∀ k (x : α × Nat), l.zipIdx[k]? = some x ↔ l[k]? = some x.1 ∧ x.2 = k := by
    intro k x
    obtain ⟨a, k'⟩ := x
    rw [List.getElem?_zipIdx, Nat.zero_add, Option.map_eq_some_iff]
    constructor
    · rintro ⟨a', ha', he⟩
      cases he
      exact ⟨ha', rfl⟩
    · rintro ⟨ha, rfl⟩
      exact ⟨a, ha, rfl⟩
  obtain ⟨o, ho, hfinds⟩ := exists_findSomeM?_finds (f := f) (l := l.zipIdx)
    (V := fun k x => V k x.1) fun k x hx => by
      obtain ⟨hx, rfl⟩ := (hat k x).1 hx
      exact h x.2 x.1 hx
  refine ⟨o, ho, hfinds.congr fun key y => ?_⟩
  constructor
  · rintro ⟨elem, found⟩
    exact .at ((hat _ (_, _)).2 ⟨elem, rfl⟩) found
  · rintro ⟨elem, found⟩
    exact .at ((hat _ _).1 elem).1 found

end First

/-! ## What is wrong -/

namespace Body

variable (body : Body)

/-- What is wrong with where input `j` of a user at a place of block `b` is computed.  That it is
nowhere comes first. -/
inductive PlaceDefect (b : BlockId) (k j : Nat) (id : InstId) : List Nat → Defect → Prop where
  | dangling (nowhere : ∀ d l, ¬ body.LinkedAt d l id) : PlaceDefect b k j id [0] (.danglingUse j)
  | early {l : Nat} (linked : body.LinkedAt b l id) (late : k ≤ l) :
    PlaceDefect b k j id [1] (.useBeforeDef j)
  | avoided {d : BlockId} {l n : Nat} {ids : List BlockId} (linked : body.LinkedAt d l id)
    (other : d ≠ b) (path : Path body.entryBlock? body.code.blocks ids b) (avoids : d ∉ ids)
    (position : body.blocks[n]? = some d) : PlaceDefect b k j id [1] (.notDominating j n)

/-- What is wrong with input `j` of a user at a place of block `b`.  Its type comes last. -/
inductive InputDefect (b : BlockId) (k j : Nat) (result : Option ScalarType) :
    Value → Expected → List Nat → Defect → Prop where
  | place {id : InstId} {e : Expected} {key : List Nat} {y : Defect}
    (misplaced : body.PlaceDefect b k j id key y) : InputDefect b k j result (.result id) e key y
  | type {v : Value} {e : Expected} {found : Option ScalarType}
    (has : body.code.type? v = .ok found)
    (refused : ∀ ty, found = some ty → ¬ e.Allows ty result) :
    InputDefect b k j result v e [2] (.inputType j (e.name result) (Expected.typeName found))

/-- What is wrong with a user at a place of block `b`.  The number of inputs comes before each of
them. -/
inductive UserDefect (b : BlockId) (k : Nat) (u : User) : List Nat → Defect → Prop where
  | count (differ : u.inputs.length ≠ u.expected.length) :
    UserDefect b k u [0] (.inputCount u.expected.length u.inputs.length)
  | input {key : List Nat} {y : Defect} (defect : Along (u.inputs.zip u.expected)
      (fun j p => body.InputDefect b k j u.result p.1 p.2) key y) : UserDefect b k u (1 :: key) y

/-- What is wrong with a user of block `b`, which is listed at position `n`. -/
inductive LocatedDefect (n : Nat) (b : BlockId) (k : Nat) (u : User) :
    List Nat → Located → Prop where
  | here {key : List Nat} {y : Defect} (defect : body.UserDefect b k u key y) :
    LocatedDefect n b k u key ⟨n, u.name, y⟩

/-- What is wrong with block `b`, which is listed at position `n`. -/
inductive BlockDefect (n : Nat) (b : BlockId) : List Nat → Located → Prop where
  | user {users : List User} {key : List Nat} {y : Located}
    (users_eq : body.code.usersOf b = .ok users)
    (defect : Along users (body.LocatedDefect n b) key y) : BlockDefect n b key y

end Body

namespace Module

variable (m : Module)

/-- What is wrong with the body of a function, if it has one. -/
inductive FuncViolation (f : FuncId) : List Nat → Violation → Prop where
  | body {decl : FuncDecl} {body : Body} {key : List Nat} {y : Located}
    (defined : m.funcs.get? f = some decl) (present : decl.impl = .present body)
    (defect : Along body.blocks body.BlockDefect key y) : FuncViolation f key ⟨y, decl.name⟩

/-- All violations of a module, each with where it is: the position of the function, the position
of the block, the place of the user in the block, and then `0` for the number of its inputs, or `1`
followed by the number of an input and by what is wrong with it. -/
def ViolationAt : List Nat → Violation → Prop := Along m.allFuncs fun _ => m.FuncViolation

/-- A violation before which there is no other. -/
def FirstViolation (v : Violation) : Prop :=
  ∃ key, m.ViolationAt key v ∧ ∀ key' v', m.ViolationAt key' v' → key ≤ key'

end Module

/-! ## Users that fit and defects -/

namespace Code

variable {c : Code} {rows : BlockId → List Row}

theorem type?_of_typeOf {v : Value} {ty : ScalarType} (h : c.typeOf v = .ok ty) :
    c.type? v = .ok (some ty) := by
  cases v with
  | const k => exact congrArg (fun t => Except.ok (some t)) (Except.ok.inj h)
  | result id =>
    obtain ⟨i, hi, h⟩ := bind_eq_ok.1 h
    rw [type?, hi]
    cases hty : i.ty with
    | none =>
      rw [hty] at h
      cases h
    | some t =>
      rw [hty] at h
      cases h
      simp [hty]

theorem typeOf_of_type? {v : Value} {ty : ScalarType} (h : c.type? v = .ok (some ty)) :
    c.typeOf v = .ok ty := by
  cases v with
  | const k => exact congrArg Except.ok (Option.some.inj (Except.ok.inj h))
  | result id =>
    obtain ⟨i, hi, h⟩ := bind_eq_ok.1 h
    simp only [typeOf, hi, ok_bind, Except.ok.inj h, pure_eq_ok]

theorem Shows.usersOf (h : c.Shows rows) {b : BlockId} {blk : Block}
    (hb : c.blocks.get? b = some blk) :
    c.usersOf b = .ok ((rows b).map (fun r => r.2.user) ++ [blk.terminator.user]) := by
  have hmap : ((rows b).map Prod.fst).mapM c.inst = .ok ((rows b).map Prod.snd) := by
    rw [List.mapM_map]
    exact mapM_eq_ok fun r hr => h.inst hr
  rw [Code.usersOf, h.instsOf hb, ok_bind, hmap, ok_bind, Defs.find_of_get? hb, ok_bind,
    pure_eq_ok, List.map_map]
  rfl

end Code

namespace Body

variable {body : Body} {rows : BlockId → List Row} {b d : BlockId} {k l : Nat} {id : InstId}
  {u : User}

theorem ChainsLinked.exists_shows (h : body.ChainsLinked) : ∃ rows, body.code.Shows rows := by
  obtain ⟨ls, hls⟩ := h
  obtain ⟨rows, hs, -⟩ := Code.exists_shows hls
  exact ⟨rows, hs⟩

theorem linkedAt_iff (hs : body.code.Shows rows) : body.LinkedAt b k id ↔
    b ∈ body.blocks ∧ ∃ i, (rows b)[k]? = some (id, i) := by
  constructor
  · rintro ⟨hb, ids, hids, hk⟩
    obtain ⟨blk, hblk, -⟩ := bind_eq_ok.1 hids
    rw [hs.instsOf (Defs.find_eq_ok.1 hblk)] at hids
    obtain rfl := Except.ok.inj hids
    rw [List.getElem?_map] at hk
    obtain ⟨⟨id, i⟩, hr, rfl⟩ := Option.map_eq_some_iff.1 hk
    exact ⟨hb, i, hr⟩
  · rintro ⟨hb, i, hr⟩
    obtain ⟨blk, hblk⟩ := hs.get?_of_mem (List.mem_of_getElem? hr)
    exact ⟨hb, _, hs.instsOf hblk, by rw [List.getElem?_map, hr]; rfl⟩

/-- An instruction is linked at one place only. -/
theorem LinkedAt.unique (hs : body.code.Shows rows) (h : body.LinkedAt b k id)
    (h' : body.LinkedAt d l id) : b = d ∧ k = l := by
  obtain ⟨-, i, hi⟩ := (linkedAt_iff hs).1 h
  obtain ⟨-, i', hi'⟩ := (linkedAt_iff hs).1 h'
  exact hs.place_unique hi hi'

/-- Nothing is wrong with a user that fits. -/
theorem UserFits.not_defect (h : body.UserFits b k u) (key : List Nat) (y : Defect) :
    ¬ body.UserDefect b k u key y := by
  rintro (differ | along)
  · exact differ h.count
  obtain @⟨j, ⟨v, e⟩, _, _, elem, defect⟩ := along
  obtain ⟨hv, he⟩ := List.getElem?_zip_eq_some.1 elem
  have hmem := List.mem_of_getElem? hv
  dsimp only at hv he hmem defect
  cases defect with
  | place misplaced =>
    cases misplaced with
    | dangling nowhere =>
      obtain ⟨d, l, hl⟩ := h.linked _ hmem
      exact nowhere d l hl
    | early linked late => exact absurd (h.before _ hmem _ linked) (by omega)
    | avoided linked other path avoids _ =>
      exact avoids (h.onPaths _ hmem _ _ linked other _ path)
  | type has refused =>
    obtain ⟨ty, hty, allowed⟩ := h.typed _ _ _ hv he
    rw [Code.type?_of_typeOf hty] at has
    exact refused ty (Except.ok.inj has).symm allowed

/-- What is linked has a type, or is known to have none. -/
theorem LinkedAt.exists_type? (hs : body.code.Shows rows) (h : body.LinkedAt b k id) :
    ∃ found, body.code.type? (.result id) = .ok found := by
  obtain ⟨-, i, hi⟩ := (linkedAt_iff hs).1 h
  have hinst : body.code.inst id = .ok i := hs.inst (List.mem_of_getElem? hi)
  refine ⟨i.ty, ?_⟩
  rw [Code.type?, hinst]
  rfl

/-- **A user fits if and only if it has no defect.** -/
theorem userFits_iff (hs : body.code.Shows rows) :
    body.UserFits b k u ↔ ∀ key y, ¬ body.UserDefect b k u key y := by
  refine ⟨UserFits.not_defect, fun h => ?_⟩
  have count : u.inputs.length = u.expected.length := by
    by_contra hne
    exact h _ _ (.count hne)
  have hinput : ∀ {j v e}, u.inputs[j]? = some v → u.expected[j]? = some e →
      ∀ key y, ¬ body.InputDefect b k j u.result v e key y := by
    intro j v e hv he key y hd
    have hat : (u.inputs.zip u.expected)[j]? = some (v, e) :=
      List.getElem?_zip_eq_some.2 ⟨hv, he⟩
    exact h _ _ (.input (.at hat hd))
  have hplace : ∀ {id}, .result id ∈ u.inputs →
      ∃ j, ∀ key y, ¬ body.PlaceDefect b k j id key y := by
    intro id hid
    obtain ⟨j, hj, hv⟩ := List.mem_iff_getElem.1 hid
    refine ⟨j, fun key y hd => ?_⟩
    exact hinput (List.getElem?_eq_some_iff.2 ⟨hj, hv⟩)
      (List.getElem?_eq_getElem (count ▸ hj)) key y (.place hd)
  have linked : ∀ id, .result id ∈ u.inputs → ∃ d l, body.LinkedAt d l id := by
    intro id hid
    obtain ⟨j, hj⟩ := hplace hid
    by_contra hno
    exact hj _ _ (.dangling fun d l hl => hno ⟨d, l, hl⟩)
  refine ⟨count, linked, ?_, ?_, ?_⟩
  · intro id hid l hl
    obtain ⟨j, hj⟩ := hplace hid
    by_contra hlate
    exact hj _ _ (.early hl (by omega))
  · intro id hid d l hl hne ids path
    obtain ⟨j, hj⟩ := hplace hid
    obtain ⟨n, hn, hat⟩ := List.mem_iff_getElem.1 hl.listed
    by_contra havoids
    exact hj _ _ (.avoided hl hne path havoids (List.getElem?_eq_some_iff.2 ⟨hn, hat⟩))
  · intro j v e hv he
    obtain ⟨found, hfound⟩ : ∃ found, body.code.type? v = .ok found := by
      cases v with
      | const k => exact ⟨_, rfl⟩
      | result id =>
        obtain ⟨d, l, hl⟩ := linked id (List.mem_of_getElem? hv)
        exact hl.exists_type? hs
    by_contra hno
    refine hinput hv he _ _ (.type hfound fun ty hty allowed => hno ⟨ty, ?_, allowed⟩)
    exact Code.typeOf_of_type? (hty ▸ hfound)

/-- A body conforms if and only if nothing is wrong in any block. -/
theorem conforms_iff (hs : body.code.Shows rows)
    (listed : ∀ b ∈ body.blocks, ∃ blk, body.code.blocks.get? b = some blk) :
    body.Conforms ↔ ∀ key y, ¬ Along body.blocks body.BlockDefect key y := by
  constructor
  · rintro h _ _ ⟨hb, husers, elem, ⟨defect⟩⟩
    obtain ⟨users, husers', hfit⟩ := h _ (List.mem_of_getElem? hb)
    obtain rfl := Except.ok.inj (husers.symm.trans husers')
    exact (hfit _ _ elem).not_defect _ _ defect
  · intro h b hb
    obtain ⟨blk, hblk⟩ := listed b hb
    have husers := hs.usersOf hblk
    refine ⟨_, husers, fun k u hu => (userFits_iff hs).2 fun key y defect => ?_⟩
    obtain ⟨n, hn, hat⟩ := List.mem_iff_getElem.1 hb
    exact h _ _ (.at (List.getElem?_eq_some_iff.2 ⟨hn, hat⟩) (.user husers (.at hu (.here defect))))

/-! ## The first defect of a place -/

section Places

variable {j : Nat}

theorem placeDefect_finds_dangling (nowhere : ∀ d l, ¬ body.LinkedAt d l id) :
    Finds (body.PlaceDefect b k j id) (some (.danglingUse j)) := by
  refine ⟨[0], .dangling nowhere, fun key y h => ?_⟩
  cases h with
  | dangling => exact le_refl _
  | early linked => exact absurd linked (nowhere _ _)
  | avoided linked => exact absurd linked (nowhere _ _)

/-- What is computed in the same block has to come first. -/
theorem LinkedAt.placeDefect_finds_early (hs : body.code.Shows rows)
    (linked : body.LinkedAt b l id) :
    Finds (body.PlaceDefect b k j id) (if k ≤ l then some (.useBeforeDef j) else none) := by
  by_cases hlate : k ≤ l
  · rw [if_pos hlate]
    refine ⟨[1], .early linked hlate, fun key y h => ?_⟩
    cases h with
    | dangling nowhere => exact absurd linked (nowhere b l)
    | early => exact le_refl _
    | avoided => exact le_refl _
  · rw [if_neg hlate]
    intro key y h
    cases h with
    | dangling nowhere => exact nowhere b l linked
    | early linked' hlate' => exact hlate ((linked.unique hs linked').2 ▸ hlate')
    | avoided linked' other => exact other (linked'.unique hs linked).1

/-- What is computed in another block has to be on all paths. -/
theorem LinkedAt.placeDefect_finds_avoided (hs : body.code.Shows rows)
    (linked : body.LinkedAt d l id) (other : d ≠ b) {n : Nat} (position : body.blocks[n]? = some d)
    {onPaths : Bool} (hon : onPaths = true ↔ OnPaths body.entryBlock? body.code.blocks d b) :
    Finds (body.PlaceDefect b k j id) (if onPaths then none else some (.notDominating j n)) := by
  cases onPaths with
  | true =>
    intro key y h
    cases h with
    | dangling nowhere => exact nowhere d l linked
    | early linked' => exact other (linked.unique hs linked').1
    | avoided linked' _ path avoids =>
      obtain ⟨rfl, -⟩ := linked.unique hs linked'
      exact avoids (hon.1 rfl _ path)
  | false =>
    have hnot : ¬ OnPaths body.entryBlock? body.code.blocks d b := fun h => by cases hon.2 h
    obtain ⟨ids, hids⟩ := not_forall.1 hnot
    obtain ⟨path, avoids⟩ := Classical.not_imp.1 hids
    refine ⟨[1], .avoided linked other path avoids position, fun key y h => ?_⟩
    cases h with
    | dangling nowhere => exact absurd linked (nowhere d l)
    | early => exact le_refl _
    | avoided => exact le_refl _

end Places

/-! ## What is wrong at one position -/

variable {j n : Nat} {key : List Nat} {y y' : Defect} {v : Value} {e : Expected}
  {result : Option ScalarType} {x x' : Located}

theorem PlaceDefect.unique (hs : body.code.Shows rows) (hn : body.blocks.Nodup)
    (h : body.PlaceDefect b k j id key y) (h' : body.PlaceDefect b k j id key y') : y = y' := by
  cases h with
  | dangling => cases h' with | dangling => rfl
  | early linked =>
    cases h' with
    | early => rfl
    | avoided linked' other => exact absurd (linked'.unique hs linked).1 other
  | avoided linked other _ _ position =>
    cases h' with
    | early linked' => exact absurd (linked.unique hs linked').1 other
    | avoided linked' _ _ _ position' =>
      obtain ⟨rfl, -⟩ := linked.unique hs linked'
      have hlt := (List.getElem?_eq_some_iff.1 position).1
      rw [(List.getElem?_inj hlt hn).1 (position.trans position'.symm)]

theorem InputDefect.unique (hs : body.code.Shows rows) (hn : body.blocks.Nodup)
    (h : body.InputDefect b k j result v e key y) (h' : body.InputDefect b k j result v e key y') :
    y = y' := by
  cases h with
  | place misplaced =>
    cases h' with
    | place misplaced' => exact misplaced.unique hs hn misplaced'
    | type => cases misplaced
  | type has =>
    cases h' with
    | place misplaced' => cases misplaced'
    | type has' =>
      rw [has] at has'
      rw [Except.ok.inj has']

theorem UserDefect.unique (hs : body.code.Shows rows) (hn : body.blocks.Nodup)
    (h : body.UserDefect b k u key y) (h' : body.UserDefect b k u key y') : y = y' := by
  cases h with
  | count => cases h' with | count => rfl
  | input defect =>
    cases h' with
    | input defect' => exact defect.unique defect' fun _ _ _ h h' => h.unique hs hn h'

theorem BlockDefect.unique (hs : body.code.Shows rows) (hn : body.blocks.Nodup)
    (h : body.BlockDefect n b key x) (h' : body.BlockDefect n b key x') : x = x' := by
  obtain ⟨husers, along⟩ := h
  obtain ⟨husers', along'⟩ := h'
  obtain rfl := Except.ok.inj (husers.symm.trans husers')
  refine along.unique along' fun k u rest h h' => ?_
  obtain ⟨defect⟩ := h
  obtain ⟨defect'⟩ := h'
  rw [defect.unique hs hn defect']

end Body

namespace Module

variable {m : Module} {v v' : Violation}

/-- A module conforms if and only if it has no violation. -/
theorem conforms_iff (wf : m.Every Body.WellFormed) :
    m.Conforms ↔ ∀ key v, ¬ m.ViolationAt key v := by
  constructor
  · rintro h _ _ ⟨hf, defined, present, defect⟩
    have hf := List.mem_of_getElem? hf
    have hwf := wf _ hf _ _ defined present
    obtain ⟨rows, hs⟩ := hwf.linked.exists_shows
    exact (Body.conforms_iff hs hwf.listed).1 (h _ hf _ _ defined present) _ _ defect
  · intro h f hf decl body hdecl himpl
    obtain ⟨i, hi, hat⟩ := List.mem_iff_getElem.1 hf
    have hwf := wf _ hf _ _ hdecl himpl
    obtain ⟨rows, hs⟩ := hwf.linked.exists_shows
    refine (Body.conforms_iff hs hwf.listed).2 fun key y defect => ?_
    exact h _ _ (.at (List.getElem?_eq_some_iff.2 ⟨hi, hat⟩) (.body hdecl himpl defect))

/-- **There is only one first violation.** -/
theorem FirstViolation.unique (wf : m.Every Body.WellFormed) (h : m.FirstViolation v)
    (h' : m.FirstViolation v') : v = v' := by
  obtain ⟨key, hv, hleast⟩ := h
  obtain ⟨key', hv', hleast'⟩ := h'
  obtain rfl := le_antisymm (hleast _ _ hv') (hleast' _ _ hv)
  obtain ⟨hf, defined, present, defect⟩ := hv
  obtain ⟨hf', defined', present', defect'⟩ := hv'
  obtain rfl := Option.some.inj (hf.symm.trans hf')
  obtain rfl := Option.some.inj (defined.symm.trans defined')
  obtain rfl := FuncDef.present.inj (present.symm.trans present')
  have hwf := wf _ (List.mem_of_getElem? hf) _ _ defined present
  obtain ⟨rows, hs⟩ := hwf.linked.exists_shows
  rw [defect.unique defect' fun _ _ _ h h' => h.unique hs hwf.distinct h']

end Module

end ShaderIR
