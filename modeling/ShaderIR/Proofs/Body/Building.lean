import ShaderIR.Proofs.Body.Growth

/-!
# Instructions in the order in which they are built

A builder is called any number of times.  What it makes stands together in the block, in the order
of the calls, wherever the builder has started.

* `BuildCall`, `BuildCall.run`, `BuildCall.runAll`: the operations of a builder.
* `BuildCall.Makes`, `BuildCall.Keeps`: the instruction that an operation makes, or the value that
  needs none; `BuildCall.Lays`: what several operations hand out, and the rows that they make.
* `BuildCall.AllFit`: each value whose type is looked at has one, and conversions are to types of
  their kind.
* `Anchor.Within`: an anchor is next to an instruction of its block.
* `Builder.Stands`: a builder stands between two parts of its block.
* `Builder.Grows`: what has been built is new, and nothing else has changed.

Principal statements: `Builder.Stands.insert` (what one insertion does), `Builder.calls_in_order`
(what is built by several calls).
-/

namespace ShaderIR

/-! ## Calls -/

/-- A call of an operation of a builder. -/
inductive BuildCall where
  | insert (i : Inst)
  | alu (op : AluOp) (inputs : List Value) (ty : ScalarType)
  | fconvert (v : Value) (ty : ScalarType)
  | uconvert (v : Value) (ty : ScalarType)
  | select (cond ifTrue ifFalse : Value)
  | fadd (x y : Value)
  | fmul (x y : Value)
  | flt (x y : Value)
  | ieq (x y : Value)
  | loadInput (location : UInt32) (ty : ScalarType)
  | storeOutput (target : OutputTarget) (v : Value)
  | discard
  | discardIf (cond : Value)
  | combinedWrite (mask depth stencil : Value)
  | discardSamples (mask : Value)

/-- What a call of a builder hands out: a value, or the instruction itself. -/
inductive Built where
  | value (v : Value)
  | inst (id : InstId)

namespace BuildCall

/-- Calls a builder. -/
def run (b : Builder) : BuildCall → Except Fault (Built × Builder)
  | insert i => Prod.map .inst id <$> b.insert i
  | alu op inputs ty => Prod.map .value id <$> b.alu op inputs ty
  | fconvert v ty => Prod.map .value id <$> b.fconvert v ty
  | uconvert v ty => Prod.map .value id <$> b.uconvert v ty
  | select cond ifTrue ifFalse => Prod.map .value id <$> b.select cond ifTrue ifFalse
  | fadd x y => Prod.map .value id <$> b.fadd x y
  | fmul x y => Prod.map .value id <$> b.fmul x y
  | flt x y => Prod.map .value id <$> b.flt x y
  | ieq x y => Prod.map .value id <$> b.ieq x y
  | loadInput location ty => Prod.map .value id <$> b.loadInput location ty
  | storeOutput target v => Prod.map .inst id <$> b.storeOutput target v
  | discard => Prod.map .inst id <$> b.discard
  | discardIf cond => Prod.map .inst id <$> b.discardIf cond
  | combinedWrite mask depth stencil => Prod.map .inst id <$> b.combinedWrite mask depth stencil
  | discardSamples mask => Prod.map .inst id <$> b.discardSamples mask

/-- Calls a builder several times, one call after the other. -/
def runAll : List BuildCall → Builder → Except Fault (List Built × Builder)
  | [], b => .ok ([], b)
  | call :: calls, b => do
    let (out, b) ← call.run b
    let (outs, b) ← runAll calls b
    return (out :: outs, b)

/-- The type that a call converts to. -/
def target? : BuildCall → Option ScalarType
  | fconvert _ ty => some ty
  | uconvert _ ty => some ty
  | _ => none

/-- The values whose type a call looks at. -/
def inspects : BuildCall → List Value
  | fconvert v _ => [v]
  | uconvert v _ => [v]
  | select _ ifTrue _ => [ifTrue]
  | fadd x _ => [x]
  | fmul x _ => [x]
  | _ => []

/-- What a call hands out that has made the instruction `id`. -/
def built (id : InstId) : BuildCall → Built
  | insert _ => .inst id
  | storeOutput _ _ => .inst id
  | discard => .inst id
  | discardIf _ => .inst id
  | combinedWrite _ _ _ => .inst id
  | discardSamples _ => .inst id
  | _ => .value (.result id)

/-- The instruction that a call makes. -/
inductive Makes (c : Code) : BuildCall → Inst → Prop where
  | insert (i : Inst) : Makes c (.insert i) i
  | alu (op : AluOp) (inputs : List Value) (ty : ScalarType) :
    Makes c (.alu op inputs ty) ⟨.alu op, inputs, some ty⟩
  | fconvert {v : Value} {ty ty' : ScalarType} (has : c.typeOf v = .ok ty') (other : ty' ≠ ty) :
    Makes c (.fconvert v ty) ⟨.alu .fconvert, [v], some ty⟩
  | uconvert {v : Value} {ty ty' : ScalarType} (has : c.typeOf v = .ok ty') (other : ty' ≠ ty) :
    Makes c (.uconvert v ty) ⟨.alu .uconvert, [v], some ty⟩
  | select {cond x y : Value} {ty : ScalarType} (has : c.typeOf x = .ok ty) :
    Makes c (.select cond x y) ⟨.alu .select, [cond, x, y], some ty⟩
  | fadd {x y : Value} {ty : ScalarType} (has : c.typeOf x = .ok ty) :
    Makes c (.fadd x y) ⟨.alu .fadd, [x, y], some ty⟩
  | fmul {x y : Value} {ty : ScalarType} (has : c.typeOf x = .ok ty) :
    Makes c (.fmul x y) ⟨.alu .fmul, [x, y], some ty⟩
  | flt (x y : Value) : Makes c (.flt x y) ⟨.alu .flt, [x, y], some .bool⟩
  | ieq (x y : Value) : Makes c (.ieq x y) ⟨.alu .ieq, [x, y], some .bool⟩
  | loadInput (location : UInt32) (ty : ScalarType) :
    Makes c (.loadInput location ty) ⟨.intrinsic (.loadInput location), [], some ty⟩
  | storeOutput (target : OutputTarget) (v : Value) :
    Makes c (.storeOutput target v) ⟨.intrinsic (.storeOutput target), [v], none⟩
  | discard : Makes c .discard ⟨.intrinsic .discard, [], none⟩
  | discardIf (cond : Value) : Makes c (.discardIf cond) ⟨.intrinsic .discardIf, [cond], none⟩
  | combinedWrite (mask depth stencil : Value) :
    Makes c (.combinedWrite mask depth stencil)
      ⟨.intrinsic (.combinedWrite .empty), [mask, depth, stencil], none⟩
  | discardSamples (mask : Value) :
    Makes c (.discardSamples mask) ⟨.intrinsic .discardSamples, [mask], none⟩

/-- A call converts a value to the type that it has already. -/
inductive Keeps (c : Code) : BuildCall → Value → Prop where
  | fconvert {v : Value} {ty : ScalarType} (has : c.typeOf v = .ok ty) : Keeps c (.fconvert v ty) v
  | uconvert {v : Value} {ty : ScalarType} (has : c.typeOf v = .ok ty) : Keeps c (.uconvert v ty) v

/-- What several calls hand out, and the rows that they have made: one for each call, in the order
of the calls, but for the conversions that need none. -/
inductive Lays (c : Code) : List BuildCall → List Built → List Row → Prop where
  | nil : Lays c [] [] []
  | kept {call : BuildCall} {v : Value} {calls : List BuildCall} {outs : List Built}
    {new : List Row} (keeps : call.Keeps c v) (rest : Lays c calls outs new) :
    Lays c (call :: calls) (.value v :: outs) new
  | made {call : BuildCall} {id : InstId} {i : Inst} {calls : List BuildCall} {outs : List Built}
    {new : List Row} (makes : call.Makes c i) (rest : Lays c calls outs new) :
    Lays c (call :: calls) (call.built id :: outs) ((id, i) :: new)

/-- Whether a conversion is to a type of its kind. -/
def targetFits : BuildCall → Bool
  | fconvert _ ty => ty.isFloat
  | uconvert _ ty => ty.isUnsigned
  | _ => true

/-- Each value whose type a call looks at has one, and a conversion is to a type of its kind. -/
structure Fits (call : BuildCall) (c : Code) : Prop where
  typed : ∀ v ∈ call.inspects, ∃ ty, c.typeOf v = .ok ty
  target : call.targetFits = true

/-- Every one of several calls fits when it is made. -/
def AllFit : List BuildCall → Builder → Prop
  | [], _ => True
  | call :: calls, b =>
    call.Fits b.work.code ∧ ∀ out b', call.run b = .ok (out, b') → AllFit calls b'

variable {c c' : Code} {b : Builder} {call : BuildCall} {i : Inst} {v : Value} {ty : ScalarType}

theorem Makes.mono (h : call.Makes c i) (hc : c.Extends c') : call.Makes c' i := by
  cases h with
  | fconvert has other => exact .fconvert (hc.typeOf has) other
  | uconvert has other => exact .uconvert (hc.typeOf has) other
  | select has => exact .select (hc.typeOf has)
  | fadd has => exact .fadd (hc.typeOf has)
  | fmul has => exact .fmul (hc.typeOf has)
  | _ => constructor

theorem Keeps.mono (h : call.Keeps c v) (hc : c.Extends c') : call.Keeps c' v := by
  cases h with
  | fconvert has => exact .fconvert (hc.typeOf has)
  | uconvert has => exact .uconvert (hc.typeOf has)

/-- A value that needs no conversion has the type wanted. -/
theorem Keeps.typeOf (h : call.Keeps c v) (hty : call.target? = some ty) : c.typeOf v = .ok ty := by
  cases h with
  | fconvert has => exact Option.some.inj hty ▸ has
  | uconvert has => exact Option.some.inj hty ▸ has

/-- A conversion makes an instruction whose result has the type wanted. -/
theorem Makes.result (h : call.Makes c i) (hty : call.target? = some ty) :
    i.ty = some ty ∧ ∀ id, call.built id = .value (.result id) := by
  cases h with
  | fconvert => exact ⟨hty, fun _ => rfl⟩
  | uconvert => exact ⟨hty, fun _ => rfl⟩
  | _ => cases hty

/-- What conversions hand out has the type wanted. -/
theorem Lays.typed {calls : List BuildCall} {outs : List Built} {new : List Row}
    (h : Lays c calls outs new) (defined : ∀ r ∈ new, c.inst? r.1 = some r.2) :
    List.Forall₂ (fun call out => ∀ ty, target? call = some ty →
      ∃ v, out = .value v ∧ c.typeOf v = .ok ty) calls outs := by
  induction h with
  | nil => exact .nil
  | kept keeps _ ih => exact .cons (fun ty hty => ⟨_, rfl, keeps.typeOf hty⟩) (ih defined)
  | made makes _ ih =>
    obtain ⟨here, rest⟩ := List.forall_mem_cons.1 defined
    refine .cons (fun ty hty => ?_) (ih rest)
    obtain ⟨hi, hbuilt⟩ := makes.result hty
    exact ⟨_, hbuilt _, Code.typeOf_result.2 ⟨_, here, hi⟩⟩

/-- A call that fits either needs no instruction, or makes one. -/
theorem Fits.keeps_or_makes (h : call.Fits c) : (∃ v, call.Keeps c v) ∨ ∃ i, call.Makes c i := by
  obtain ⟨htyped, -⟩ := h
  cases call with
  | fconvert v ty =>
    obtain ⟨ty', hty'⟩ := htyped v (List.mem_singleton_self v)
    by_cases he : ty' = ty
    · exact .inl ⟨v, .fconvert (he ▸ hty')⟩
    · exact .inr ⟨_, .fconvert hty' he⟩
  | uconvert v ty =>
    obtain ⟨ty', hty'⟩ := htyped v (List.mem_singleton_self v)
    by_cases he : ty' = ty
    · exact .inl ⟨v, .uconvert (he ▸ hty')⟩
    · exact .inr ⟨_, .uconvert hty' he⟩
  | select cond x y =>
    obtain ⟨ty, hty⟩ := htyped x (List.mem_singleton_self x)
    exact .inr ⟨_, .select hty⟩
  | fadd x y =>
    obtain ⟨ty, hty⟩ := htyped x (List.mem_singleton_self x)
    exact .inr ⟨_, .fadd hty⟩
  | fmul x y =>
    obtain ⟨ty, hty⟩ := htyped x (List.mem_singleton_self x)
    exact .inr ⟨_, .fmul hty⟩
  | insert i => exact .inr ⟨_, .insert i⟩
  | alu op inputs ty => exact .inr ⟨_, .alu op inputs ty⟩
  | flt x y => exact .inr ⟨_, .flt x y⟩
  | ieq x y => exact .inr ⟨_, .ieq x y⟩
  | loadInput location ty => exact .inr ⟨_, .loadInput location ty⟩
  | storeOutput target v => exact .inr ⟨_, .storeOutput target v⟩
  | discard => exact .inr ⟨_, .discard⟩
  | discardIf cond => exact .inr ⟨_, .discardIf cond⟩
  | combinedWrite mask depth stencil => exact .inr ⟨_, .combinedWrite mask depth stencil⟩
  | discardSamples mask => exact .inr ⟨_, .discardSamples mask⟩

/-- A call that needs no instruction leaves the builder as it is. -/
theorem Keeps.run (h : call.Keeps b.work.code v) (target : call.targetFits = true) :
    call.run b = .ok (.value v, b) := by
  cases h with
  | @fconvert _ ty has =>
    have hfloat : ty.isFloat = true := target
    simp only [BuildCall.run, Builder.fconvert, if_pos hfloat, Builder.typeOf, has, ok_bind,
      if_true]
    rfl
  | @uconvert _ ty has =>
    have hunsigned : ty.isUnsigned = true := target
    simp only [BuildCall.run, Builder.uconvert, if_pos hunsigned, Builder.typeOf, has, ok_bind,
      if_true]
    rfl

/-- A call that makes an instruction comes down to inserting it. -/
theorem Makes.run {id : InstId} {b' : Builder} (h : call.Makes b.work.code i)
    (target : call.targetFits = true) (inserted : b.insert i = .ok (id, b')) :
    call.run b = .ok (call.built id, b') := by
  have halu : ∀ {op : AluOp} {inputs : List Value} {ty : ScalarType},
      b.insert ⟨.alu op, inputs, some ty⟩ = .ok (id, b') →
        b.alu op inputs ty = .ok (.result id, b') := by
    intro op inputs ty hins
    rw [Builder.alu, hins]
    rfl
  cases h with
  | @fconvert _ ty _ has other =>
    have hfloat : ty.isFloat = true := target
    simp only [BuildCall.run, Builder.fconvert, if_pos hfloat, Builder.typeOf, has, ok_bind,
      if_neg other, halu inserted]
    rfl
  | @uconvert _ ty _ has other =>
    have hunsigned : ty.isUnsigned = true := target
    simp only [BuildCall.run, Builder.uconvert, if_pos hunsigned, Builder.typeOf, has, ok_bind,
      if_neg other, halu inserted]
    rfl
  | select has =>
    simp only [BuildCall.run, Builder.select, Builder.typeOf, has, ok_bind, halu inserted]
    rfl
  | fadd has =>
    simp only [BuildCall.run, Builder.fadd, Builder.typeOf, has, ok_bind, halu inserted]
    rfl
  | fmul has =>
    simp only [BuildCall.run, Builder.fmul, Builder.typeOf, has, ok_bind, halu inserted]
    rfl
  | alu => exact congrArg (Except.map _) (halu inserted)
  | flt => exact congrArg (Except.map _) (halu inserted)
  | ieq => exact congrArg (Except.map _) (halu inserted)
  | loadInput =>
    simp only [BuildCall.run, Builder.loadInput, Builder.intrinsic, inserted]
    rfl
  | insert => exact congrArg (Except.map _) inserted
  | storeOutput => exact congrArg (Except.map _) inserted
  | discard => exact congrArg (Except.map _) inserted
  | discardIf => exact congrArg (Except.map _) inserted
  | combinedWrite => exact congrArg (Except.map _) inserted
  | discardSamples => exact congrArg (Except.map _) inserted

end BuildCall

/-! ## Anchors -/

namespace Anchor

/-- An anchor is next to one of these instructions, if it is next to any. -/
def Within (ids : List InstId) : Anchor → Prop
  | after x => x ∈ ids
  | before x => x ∈ ids
  | last => True

variable {a : Anchor} {ids p s : List InstId}

theorem Within.split (h : a.Within ids) : ∃ p s, ids = p ++ s ∧ a.Between p s := by
  cases a with
  | after x =>
    obtain ⟨p, s, rfl⟩ := List.append_of_mem h
    exact ⟨p ++ [x], s, by simp, .after⟩
  | before x =>
    obtain ⟨p, s, rfl⟩ := List.append_of_mem h
    exact ⟨p, x :: s, rfl, .before⟩
  | last => exact ⟨ids, [], by simp, .last⟩

/-- After an insertion an anchor stands behind what has been inserted. -/
theorem Between.advance (h : a.Between p s) (new : InstId) :
    (a.advance new).Between (p ++ [new]) s := by
  cases h with
  | after => exact .after
  | before => exact .before
  | last => exact .last

end Anchor

/-! ## Builders -/

namespace Builder

/-- A builder stands in its block after the instructions `p` and before the instructions `s`. -/
structure Stands (b : Builder) (p s : List InstId) : Prop where
  chain : ∃ blk, b.work.code.blocks.get? b.cursor.block = some blk ∧
    Spells blk.insts b.work.code.insts (p ++ s)
  anchor : b.cursor.anchor.Between p s
  issued : b.work.Issued

/-- Between two versions of what a builder works on the rows `new` have been defined, and nothing
else has changed but the links of the instructions `p` and `s`. -/
structure Grows (p s : List InstId) (new : List Row) (b b' : Builder) : Prop where
  block : b'.cursor.block = b.cursor.block
  code : b.work.code.Extends b'.work.code
  fresh : ∀ r ∈ new, b.work.code.inst? r.1 = none
  defined : ∀ r ∈ new, b'.work.code.inst? r.1 = some r.2
  outside : ∀ x, x ∉ p ++ s → x ∉ new.map Prod.fst →
    b'.work.code.insts.get? x = b.work.code.insts.get? x
  others : ∀ d, d ≠ b.cursor.block → b'.work.code.blocks.get? d = b.work.code.blocks.get? d

variable {b b' b'' : Builder} {p s : List InstId} {new new' : List Row}

theorem Grows.refl (p s : List InstId) (b : Builder) : Grows p s [] b b :=
  ⟨rfl, .refl _, by simp, by simp, fun _ _ _ => rfl, fun _ _ => rfl⟩

theorem Grows.trans (h : Grows p s new b b') (h' : Grows (p ++ new.map Prod.fst) s new' b' b'') :
    Grows p s (new ++ new') b b'' := by
  refine ⟨h'.block.trans h.block, h.code.trans h'.code, fun r hr => ?_, fun r hr => ?_,
    fun x hx hn => ?_, fun d hd => ?_⟩
  · rcases List.mem_append.1 hr with hr | hr
    · exact h.fresh r hr
    · exact h.code.undefined (h'.fresh r hr)
  · rcases List.mem_append.1 hr with hr | hr
    · exact h'.code.keeps r.1 r.2 (h.defined r hr)
    · exact h'.defined r hr
  · rw [List.map_append, List.mem_append, not_or] at hn
    have hx' : x ∉ p ++ new.map Prod.fst ++ s := by
      simp only [List.mem_append, not_or] at hx ⊢
      exact ⟨⟨hx.1, hn.1⟩, hx.2⟩
    rw [h'.outside x hx' hn.2, h.outside x hx hn.1]
  · rw [h'.others d (h.block ▸ hd), h.others d hd]

/-- The instructions of the block in which a builder stands. -/
theorem Stands.instsOf (h : b.Stands p s) :
    b.work.code.instsOf b.cursor.block = .ok (p ++ s) := by
  obtain ⟨blk, hblk, hsp⟩ := h.chain
  rw [Code.instsOf, Defs.find_of_get? hblk, ok_bind, hsp.toList_eq ()]

/-- **One insertion**: the instruction is new, stands where the builder stood, and the builder
stands behind it. -/
theorem Stands.insert (h : b.Stands p s) (i : Inst) : ∃ id b', b.insert i = .ok (id, b') ∧
    b'.Stands (p ++ [id]) s ∧ Grows p s [(id, i)] b b' := by
  obtain ⟨blk, hblk, hsp⟩ := h.chain
  obtain ⟨w, hdefine, hissued, hblocks, -, hget⟩ := h.issued.define i
  obtain ⟨e, place, hlink⟩ := h.anchor.link ⟨b.work.fresh.next⟩
  have hout : (⟨b.work.fresh.next⟩ : InstId) ∉ p ++ s := by
    intro hmem
    have hsome := (hsp.linked ()).isSome _ hmem
    rw [h.issued.not_defined] at hsome
    cases hsome
  have hloose : w.code.insts.get? ⟨b.work.fresh.next⟩ = some (.loose i) := by
    rw [hget, if_pos rfl]
  have hdefined : Spells blk.insts w.code.insts (p ++ s) := by
    refine hsp.elsewhere fun x hx n hn => ⟨n.val, ?_⟩
    have hne : x ≠ ⟨b.work.fresh.next⟩ := fun e => hout (e ▸ hx)
    rw [hget, if_neg hne, hn]
  obtain ⟨c, ns, hrun, hsp', hu⟩ := hdefined.insert place hloose hout
  have hblk' : w.code.blocks.get? b.cursor.block = some blk := hblocks ▸ hblk
  have hedit : w.code.editChain b.cursor.block (b.cursor.anchor.link ⟨b.work.fresh.next⟩) =
      .ok ⟨w.code.blocks.set b.cursor.block { blk with insts := c }, ns⟩ := by
    apply Code.editChain_eq hblk'
    rw [Code.chainOf, hblk', hlink, hrun]
  have hins : b.insert i = .ok (⟨b.work.fresh.next⟩,
      ⟨⟨⟨w.code.blocks.set b.cursor.block { blk with insts := c }, ns⟩, w.fresh⟩,
        ⟨b.cursor.block, b.cursor.anchor.advance ⟨b.work.fresh.next⟩⟩⟩) := by
    simp only [Builder.insert, hdefine, ok_bind, hedit, pure_eq_ok]
  obtain ⟨hext, hnone, hsome⟩ := insert_ok hins
  refine ⟨_, _, hins, ⟨⟨{ blk with insts := c }, ?_, ?_⟩, h.anchor.advance _, ?_⟩,
    ⟨rfl, hext, ?_, ?_, ?_, ?_⟩⟩
  · rw [Defs.get?_set_of_get? hblk', if_pos rfl]
  · simpa using hsp'
  · exact hissued.of_vals rfl hu.val
  · exact List.forall_mem_singleton.2 hnone
  · exact List.forall_mem_singleton.2 hsome
  · intro x hx hne
    have hne' : x ≠ ⟨b.work.fresh.next⟩ := by simpa using hne
    rw [hu.frame x (fun _ => hx) hne', hget, if_neg hne']
  · intro d hd
    rw [Defs.get?_set_of_get? hblk', if_neg hd, hblocks]

/-- Calls that fit can all be made, and put what they make where the builder stands. -/
theorem Stands.runAll {calls : List BuildCall} (h : b.Stands p s) (fit : BuildCall.AllFit calls b) :
    ∃ outs new b', BuildCall.runAll calls b = .ok (outs, b') ∧
      b'.Stands (p ++ new.map Prod.fst) s ∧ Grows p s new b b' ∧
      BuildCall.Lays b'.work.code calls outs new := by
  induction calls generalizing b p with
  | nil => exact ⟨[], [], b, rfl, by simpa using h, .refl p s b, .nil⟩
  | cons call calls ih =>
    obtain ⟨here, later⟩ := fit
    rcases here.keeps_or_makes with ⟨v, keeps⟩ | ⟨i, makes⟩
    · -- nothing is inserted, and the builder stays where it is
      have hcall := keeps.run here.target
      obtain ⟨outs, new, b', hruns, hstands, hgrows, hlays⟩ := ih h (later _ _ hcall)
      refine ⟨.value v :: outs, new, b', ?_, hstands, hgrows, .kept (keeps.mono hgrows.code) hlays⟩
      rw [BuildCall.runAll, hcall, ok_bind]
      simp only [hruns, ok_bind, pure_eq_ok]
    · -- one instruction is inserted, and the builder goes on behind it
      obtain ⟨id, b₁, hins, hstands₁, hgrows₁⟩ := h.insert i
      have hcall := makes.run here.target hins
      obtain ⟨outs, new, b', hruns, hstands, hgrows, hlays⟩ := ih hstands₁ (later _ _ hcall)
      have hall : Grows p s ((id, i) :: new) b b' := hgrows₁.trans hgrows
      refine ⟨call.built id :: outs, (id, i) :: new, b', ?_, by simpa using hstands, hall,
        .made (makes.mono hall.code) hlays⟩
      rw [BuildCall.runAll, hcall, ok_bind]
      simp only [hruns, ok_bind, pure_eq_ok]

/-- **Calls of a builder keep their order.**  A builder starts anywhere in a block whose chain is
linked, and is called any number of times with values that have a type.  Then all calls can be made.
The instructions of the block are those that it had, with the new ones put in together where the
builder has started: one for each call, in the order of the calls, but for conversions to the type
that a value has, which hand the value out.  What a conversion hands out has the type wanted.  Every
instruction that was there, and every other block, is as before. -/
theorem calls_in_order (w : Workspace) (cursor : Cursor) {blk : Block} {ids : List InstId}
    (calls : List BuildCall) (block : w.code.blocks.get? cursor.block = some blk)
    (linked : Spells blk.insts w.code.insts ids) (issued : w.Issued)
    (anchored : cursor.anchor.Within ids) (fit : BuildCall.AllFit calls (w.at cursor)) :
    ∃ p s outs new b, ids = p ++ s ∧ cursor.anchor.Between p s ∧
      BuildCall.runAll calls (w.at cursor) = .ok (outs, b) ∧
      b.work.code.instsOf cursor.block = .ok (p ++ new.map Prod.fst ++ s) ∧
      b.Stands (p ++ new.map Prod.fst) s ∧
      BuildCall.Lays b.work.code calls outs new ∧
      List.Forall₂ (fun call out => ∀ ty, BuildCall.target? call = some ty →
        ∃ v, out = .value v ∧ b.work.code.typeOf v = .ok ty) calls outs ∧
      Grows p s new (w.at cursor) b := by
  obtain ⟨p, s, rfl, hbetween⟩ := anchored.split
  have hstands : (w.at cursor).Stands p s := ⟨⟨blk, block, linked⟩, hbetween, issued⟩
  obtain ⟨outs, new, b, hrun, hstands', hgrows, hlays⟩ := hstands.runAll fit
  refine ⟨p, s, outs, new, b, rfl, hbetween, hrun, ?_, hstands', hlays,
    hlays.typed hgrows.defined, hgrows⟩
  have hinsts := hstands'.instsOf
  rwa [hgrows.block] at hinsts

end Builder

/-! ## Building between two instructions -/

theorem BuildCall.AllFit.cons {call : BuildCall} {calls : List BuildCall} {b b' : Builder}
    {out : Built} (run : call.run b = .ok (out, b')) (here : call.Fits b.work.code)
    (later : AllFit calls b') : AllFit (call :: calls) b :=
  ⟨here, fun _ _ h => (Prod.mk.inj (Except.ok.inj (run.symm.trans h))).2 ▸ later⟩

/-- A block that loads a half-precision value and a Boolean. -/
def sampleLoads : Workspace where
  code := ⟨⟨[(⟨0⟩, ⟨.ofList [⟨0⟩, ⟨1⟩], .ret⟩)]⟩,
    ⟨[(⟨0⟩, ⟨none, some ⟨1⟩, ⟨.intrinsic (.loadInput 0), [], some .f16⟩⟩),
      (⟨1⟩, ⟨some ⟨0⟩, none, ⟨.intrinsic (.loadInput 1), [], some .bool⟩⟩)]⟩⟩
  fresh := ⟨2⟩

/-- After the first load its value is converted, converted once more, which needs nothing, and
stored, if the other one holds. -/
def sampleCalls : List BuildCall :=
  [.fconvert (.result ⟨0⟩) .f32, .fconvert (.result ⟨2⟩) .f32,
    .select (.result ⟨1⟩) (.result ⟨2⟩) (.const (.undef .f32)), .discard]

theorem sampleCalls_in_order : ∃ b,
    BuildCall.runAll sampleCalls (sampleLoads.at (.after ⟨0⟩ ⟨0⟩)) =
      .ok ([.value (.result ⟨2⟩), .value (.result ⟨2⟩), .value (.result ⟨3⟩), .inst ⟨4⟩], b) ∧
    b.work.code.instsOf ⟨0⟩ = .ok [⟨0⟩, ⟨2⟩, ⟨3⟩, ⟨4⟩, ⟨1⟩] := by
  have hlinked : Spells (Chain.ofList [⟨0⟩, ⟨1⟩]) sampleLoads.code.insts [⟨0⟩, ⟨1⟩] :=
    ⟨fun _ => rfl, fun _ => ⟨⟨_, rfl⟩, ⟨_, rfl⟩, trivial⟩, fun _ => by decide,
      fun _ _ hne => absurd rfl hne⟩
  have hissued : sampleLoads.Issued := by
    have hall : ∀ e ∈ sampleLoads.code.insts.entries, e.1.index < 2 := by decide
    exact fun id n hn => hall _ (Defs.mem_entries_of_get? hn)
  have hfits : BuildCall.AllFit sampleCalls (sampleLoads.at (.after ⟨0⟩ ⟨0⟩)) :=
    .cons rfl ⟨List.forall_mem_singleton.2 ⟨.f16, rfl⟩, rfl⟩
      (.cons rfl ⟨List.forall_mem_singleton.2 ⟨.f32, rfl⟩, rfl⟩
        (.cons rfl ⟨List.forall_mem_singleton.2 ⟨.f32, rfl⟩, rfl⟩
          (.cons rfl ⟨List.forall_mem_nil _, rfl⟩ trivial)))
  obtain ⟨p, s, outs, new, b, -, -, hrun, -⟩ := Builder.calls_in_order sampleLoads
    (.after ⟨0⟩ ⟨0⟩) sampleCalls rfl hlinked hissued (List.mem_cons_self ..) hfits
  cases hrun
  exact ⟨_, rfl, rfl⟩

end ShaderIR
