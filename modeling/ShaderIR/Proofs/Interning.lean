import Mathlib.Data.List.Nodup
import Mathlib.Logic.Relation
import ShaderIR.Proofs.Entity
import ShaderIR.Interner

/-!
# Interning is canonical and stable

Whatever is interned, in whatever order and by whichever way, equal things get the same handle,
different things get different ones, and a handle goes on to stand for what it was made of.

* `Content`, `Context.content?`: a text, a type, or a constant with the type it is declared with,
  and what a handle of any kind stands for.
* `Context.Extends`: more may have been interned, after all that there was.
* `Context.Canonical`: nothing is in a table twice, and the types of constants are interned.
* `InternCall`, `InternCall.run`: the ways to intern something.
* `History`, `History.Step`: all calls that have been made of one context, with their handles.

Principal statements: `Context.Canonical.content?_inj` (handles of equal things are equal),
`InternCall.run_interns` (what one call does), `History.serve_gets` (a request is served by calls)
and `History.interning_canonical` (what any number of calls has done).
-/

namespace ShaderIR

/-! ## Tables -/

namespace Table

variable {α : Type} {t t' : Table α} {a : α} {h h' : Handle α}

theorem get?_mono (ht : t.items <+: t'.items) (hh : t.get? h = some a) : t'.get? h = some a := by
  have hlt : h.index < t.items.length := (List.getElem?_eq_some_iff.1 hh).1
  obtain ⟨more, hmore⟩ := ht
  rw [get?, ← hmore, List.getElem?_append_left hlt]
  exact hh

/-- Where nothing is twice, only one handle leads to a value. -/
theorem get?_inj (ht : t.items.Nodup) (hh : t.get? h = some a) (hh' : t.get? h' = some a) :
    h = h' := by
  have hindex : h.index = h'.index :=
    (List.getElem?_inj (List.getElem?_eq_some_iff.1 hh).1 ht).1 (hh.trans hh'.symm)
  cases h
  cases h'
  exact congrArg Handle.mk hindex

variable [DecidableEq α]

theorem prefix_intern (t : Table α) (a : α) : t.items <+: (t.intern a).2.items := by
  unfold intern
  split
  · exact List.prefix_refl _
  · exact List.prefix_append _ _

theorem nodup_intern (ht : t.items.Nodup) (a : α) : (t.intern a).2.items.Nodup := by
  unfold intern
  split
  · exact ht
  · rename_i hnone
    have hnot : a ∉ t.items := List.idxOf?_eq_none_iff.1 hnone
    refine List.nodup_append.2 ⟨ht, List.nodup_singleton a, fun x hx y hy e => ?_⟩
    rw [List.mem_singleton.1 hy] at e
    exact hnot (e ▸ hx)

end Table

/-! ## Contexts -/

/-- Something that can be interned, without any handle. -/
inductive Content where
  | text (s : String)
  | type (d : TypeDef)
  | const (declared : TypeDef) (kind : ConstKind)
  deriving DecidableEq

namespace Context

/-- What a handle stands for.  The type of a constant is what its own handle stands for. -/
def content? (c : Context) : Interned → Option Content
  | .text h => (c.texts.get? h).map .text
  | .type h => (c.types.get? h).map .type
  | .const h => do
    let d ← c.consts.get? h
    return .const (← c.types.get? d.ty) d.kind

/-- More may have been interned, after all that there was. -/
structure Extends (c c' : Context) : Prop where
  texts : c.texts.items <+: c'.texts.items
  types : c.types.items <+: c'.types.items
  consts : c.consts.items <+: c'.consts.items

/-- Nothing has been interned twice. -/
structure Canonical (c : Context) : Prop where
  texts : c.texts.items.Nodup
  types : c.types.items.Nodup
  consts : c.consts.items.Nodup

/-- Something has been interned: its handle stands for it, and all that there was is as before. -/
structure Interns (c : Context) (i : Interned) (x : Content) (c' : Context) : Prop where
  canonical : c'.Canonical
  grown : c.Extends c'
  content : c'.content? i = some x

variable {c c' c'' : Context} {i i' : Interned} {x : Content}

theorem Extends.refl (c : Context) : c.Extends c :=
  ⟨List.prefix_refl _, List.prefix_refl _, List.prefix_refl _⟩

theorem Extends.trans (h : c.Extends c') (h' : c'.Extends c'') : c.Extends c'' :=
  ⟨h.texts.trans h'.texts, h.types.trans h'.types, h.consts.trans h'.consts⟩

theorem content?_eq_text {s : String} :
    c.content? i = some (.text s) ↔ ∃ h, i = .text h ∧ c.texts.get? h = some s := by
  cases i <;> simp [content?, Option.bind_eq_some_iff]

theorem content?_eq_type {d : TypeDef} :
    c.content? i = some (.type d) ↔ ∃ h, i = .type h ∧ c.types.get? h = some d := by
  cases i <;> simp [content?, Option.bind_eq_some_iff]

theorem content?_eq_const {ty : TypeDef} {kind : ConstKind} :
    c.content? i = some (.const ty kind) ↔ ∃ h d, i = .const h ∧ c.consts.get? h = some d ∧
      c.types.get? d.ty = some ty ∧ d.kind = kind := by
  cases i <;> simp [content?, Option.bind_eq_some_iff]

/-- **A handle goes on to stand for the same**, whatever is interned later. -/
theorem Extends.content? (h : c.Extends c') (hi : c.content? i = some x) :
    c'.content? i = some x := by
  cases x with
  | text s =>
    obtain ⟨k, rfl, hk⟩ := content?_eq_text.1 hi
    exact content?_eq_text.2 ⟨k, rfl, Table.get?_mono h.texts hk⟩
  | type d =>
    obtain ⟨k, rfl, hk⟩ := content?_eq_type.1 hi
    exact content?_eq_type.2 ⟨k, rfl, Table.get?_mono h.types hk⟩
  | const ty kind =>
    obtain ⟨k, d, rfl, hk, hty, hkind⟩ := content?_eq_const.1 hi
    exact content?_eq_const.2
      ⟨k, d, rfl, Table.get?_mono h.consts hk, Table.get?_mono h.types hty, hkind⟩

namespace Canonical

theorem empty : Context.empty.Canonical := ⟨.nil, .nil, .nil⟩

/-- Constants with equal types and equal kinds are equal. -/
theorem constDef_inj (h : c.Canonical) {d d' : ConstDef} {ty : TypeDef}
    (hd : c.types.get? d.ty = some ty) (hd' : c.types.get? d'.ty = some ty)
    (hkind : d.kind = d'.kind) : d = d' := by
  have hty := Table.get?_inj h.types hd hd'
  cases d
  cases d'
  simp_all

/-- **Handles that stand for equal things are equal.** -/
theorem content?_inj (h : c.Canonical) (hi : c.content? i = some x)
    (hi' : c.content? i' = some x) : i = i' := by
  cases x with
  | text s =>
    obtain ⟨k, rfl, hk⟩ := content?_eq_text.1 hi
    obtain ⟨k', rfl, hk'⟩ := content?_eq_text.1 hi'
    rw [Table.get?_inj h.texts hk hk']
  | type d =>
    obtain ⟨k, rfl, hk⟩ := content?_eq_type.1 hi
    obtain ⟨k', rfl, hk'⟩ := content?_eq_type.1 hi'
    rw [Table.get?_inj h.types hk hk']
  | const ty kind =>
    obtain ⟨k, d, rfl, hk, hty, rfl⟩ := content?_eq_const.1 hi
    obtain ⟨k', d', rfl, hk', hty', hkind⟩ := content?_eq_const.1 hi'
    obtain rfl := h.constDef_inj hty hty' hkind.symm
    rw [Table.get?_inj h.consts hk hk']

theorem internText (h : c.Canonical) (s : String) :
    c.Interns (.text (c.internText s).1) (.text s) (c.internText s).2 where
  canonical := ⟨Table.nodup_intern h.texts s, h.types, h.consts⟩
  grown := ⟨Table.prefix_intern _ s, List.prefix_refl _, List.prefix_refl _⟩
  content := content?_eq_text.2 ⟨_, rfl, Table.get?_intern_self c.texts s⟩

theorem internType (h : c.Canonical) (d : TypeDef) :
    c.Interns (.type (c.internType d).1) (.type d) (c.internType d).2 where
  canonical := ⟨h.texts, Table.nodup_intern h.types d, h.consts⟩
  grown := ⟨List.prefix_refl _, Table.prefix_intern _ d, List.prefix_refl _⟩
  content := content?_eq_type.2 ⟨_, rfl, Table.get?_intern_self c.types d⟩

theorem internConst (h : c.Canonical) {d : ConstDef} {ty : TypeDef}
    (hty : c.types.get? d.ty = some ty) :
    c.Interns (.const (c.internConst d).1) (.const ty d.kind) (c.internConst d).2 where
  canonical := ⟨h.texts, h.types, Table.nodup_intern h.consts d⟩
  grown := ⟨List.prefix_refl _, List.prefix_refl _, Table.prefix_intern _ d⟩
  content := content?_eq_const.2 ⟨_, d, rfl, Table.get?_intern_self c.consts d, hty, rfl⟩

theorem internScalar (h : c.Canonical) (s : Scalar) :
    c.Interns (.const (c.internScalar s).1) (.const (.ofScalar s.ty) (.scalar s))
      (c.internScalar s).2 := by
  have htype := h.internType (.ofScalar s.ty)
  have hty : (c.internScalarType s.ty).2.types.get? (c.internScalarType s.ty).1 =
      some (.ofScalar s.ty) := Table.get?_intern_self c.types _
  have hconst := htype.canonical.internConst (d := ⟨(c.internScalarType s.ty).1, .scalar s⟩) hty
  exact ⟨hconst.canonical, htype.grown.trans hconst.grown, hconst.content⟩

end Canonical

end Context

/-! ## Calls -/

/-- A way to intern something; a constant refers to its type by a handle. -/
inductive InternCall where
  | text (s : String)
  | type (d : TypeDef)
  | typeForm (f : TypeForm)
  | scalarType (ty : ScalarType)
  | const (d : ConstDef)
  | scalar (s : Scalar)
  | unsigned (ty : ScalarType) (value : Nat)
  | undef (ty : Handle TypeDef)

namespace InternCall

/-- Makes a call. -/
def run (c : Context) : InternCall → Except Fault (Interned × Context)
  | text s => .ok (Prod.map .text id (c.internText s))
  | type d => .ok (Prod.map .type id (c.internType d))
  | typeForm f => .ok (Prod.map .type id (c.internTypeForm f))
  | scalarType ty => .ok (Prod.map .type id (c.internScalarType ty))
  | const d => .ok (Prod.map .const id (c.internConst d))
  | scalar s => .ok (Prod.map .const id (c.internScalar s))
  | unsigned ty value => Prod.map .const id <$> c.internUnsigned ty value
  | undef ty => .ok (Prod.map .const id (c.internUndef ty))

/-- The constant that a call is given, with the handle of its type. -/
def def? : InternCall → Option ConstDef
  | const d => some d
  | undef ty => some ⟨ty, .undef⟩
  | _ => none

/-- What a call interns. -/
def content? (c : Context) : InternCall → Option Content
  | text s => some (.text s)
  | type d => some (.type d)
  | typeForm f => some (.type ⟨f⟩)
  | scalarType ty => some (.type (.ofScalar ty))
  | const d => (c.types.get? d.ty).map (.const · d.kind)
  | scalar s => some (.const (.ofScalar s.ty) (.scalar s))
  | unsigned ty value =>
    match Scalar.ofUnsigned ty value with
    | .ok s => some (.const (.ofScalar s.ty) (.scalar s))
    | .error _ => none
  | undef ty => (c.types.get? ty).map (.const · .undef)

variable {c c' : Context} {call : InternCall} {out : Interned} {x : Content}

theorem content?_mono (h : c.Extends c') (hx : call.content? c = some x) :
    call.content? c' = some x := by
  cases call with
  | const d =>
    obtain ⟨ty, hty, rfl⟩ := Option.map_eq_some_iff.1 hx
    exact Option.map_eq_some_iff.2 ⟨ty, Table.get?_mono h.types hty, rfl⟩
  | undef ty =>
    obtain ⟨ty', hty, rfl⟩ := Option.map_eq_some_iff.1 hx
    exact Option.map_eq_some_iff.2 ⟨ty', Table.get?_mono h.types hty, rfl⟩
  | _ => exact hx

/-- **One call**: it interns what it is asked to, if the type that it refers to is interned. -/
theorem run_interns (h : c.Canonical)
    (held : ∀ d, call.def? = some d → ∃ ty, c.types.get? d.ty = some ty)
    (made : call.run c = .ok (out, c')) :
    ∃ x, call.content? c = some x ∧ c.Interns out x c' := by
  cases call with
  | text s =>
    cases made
    exact ⟨_, rfl, h.internText s⟩
  | type d =>
    cases made
    exact ⟨_, rfl, h.internType d⟩
  | typeForm f =>
    cases made
    exact ⟨_, rfl, h.internType ⟨f⟩⟩
  | scalarType ty =>
    cases made
    exact ⟨_, rfl, h.internType (.ofScalar ty)⟩
  | const d =>
    cases made
    obtain ⟨ty, hty⟩ := held d rfl
    exact ⟨_, Option.map_eq_some_iff.2 ⟨ty, hty, rfl⟩, h.internConst hty⟩
  | scalar s =>
    cases made
    exact ⟨_, rfl, h.internScalar s⟩
  | unsigned ty value =>
    cases hs : Scalar.ofUnsigned ty value with
    | error f =>
      simp only [run, Context.internUnsigned, hs] at made
      cases made
    | ok s =>
      simp only [run, Context.internUnsigned, hs] at made
      cases made
      exact ⟨_, by simp only [content?, hs], h.internScalar s⟩
  | undef t =>
    cases made
    obtain ⟨ty, hty⟩ := held ⟨t, .undef⟩ rfl
    exact ⟨_, Option.map_eq_some_iff.2 ⟨ty, hty, rfl⟩, h.internConst hty⟩

/-- A constant that is given with the handle of its type is interned as it is given. -/
theorem content?_of_def? {d : ConstDef} (hd : call.def? = some d) :
    call.content? c = (c.types.get? d.ty).map (.const · d.kind) := by
  cases call <;> cases hd <;> rfl

/-- A call fails only if it asks for an unsigned constant that there is not. -/
theorem exists_run (call : InternCall) (c : Context) :
    (∃ out c', call.run c = .ok (out, c')) ∨
      ∃ ty value f, call = .unsigned ty value ∧ Scalar.ofUnsigned ty value = .error f := by
  cases call with
  | unsigned ty value =>
    cases hs : Scalar.ofUnsigned ty value with
    | error f => exact .inr ⟨ty, value, f, rfl, hs⟩
    | ok s =>
      refine .inl ⟨.const (c.internScalar s).1, (c.internScalar s).2, ?_⟩
      simp only [run, Context.internUnsigned, hs]
      rfl
  | _ => exact .inl ⟨_, _, rfl⟩

end InternCall

/-! ## Histories -/

/-- A context, and all calls that have been made of it, each with the handle that it got. -/
structure History where
  context : Context
  log : List (InternCall × Interned)

namespace History

def start : History := ⟨.empty, []⟩

/-- The types that a call refers to by handle have got that handle before. -/
def Held (h : History) (call : InternCall) : Prop :=
  ∀ d, call.def? = some d → .type d.ty ∈ h.log.map Prod.snd

/-- One more call has been made. -/
inductive Step (h : History) : History → Prop where
  | call {call : InternCall} {out : Interned} {c : Context} (held : h.Held call)
    (made : call.run h.context = .ok (out, c)) : Step h ⟨c, h.log ++ [(call, out)]⟩

/-- Nothing is interned twice, and every handle stands for what the call has asked for. -/
structure Sound (h : History) : Prop where
  canonical : h.context.Canonical
  stands : ∀ e ∈ h.log, ∃ x, e.1.content? h.context = some x ∧ h.context.content? e.2 = some x

/-- A history goes on: all calls that were made are still there, and so is all that was interned. -/
structure Continues (h h' : History) : Prop where
  context : h.context.Extends h'.context
  log : h.log <+: h'.log

variable {h h' : History}

theorem sound_start : start.Sound := ⟨.empty, nofun⟩

theorem Sound.step (hs : h.Sound) (step : h.Step h') : h'.Sound ∧ h.Continues h' := by
  obtain ⟨held, made⟩ := step
  rename_i call out c
  obtain ⟨x, hx, hinterns⟩ := InternCall.run_interns hs.canonical (fun d hd => by
    obtain ⟨e, he, hety⟩ := List.mem_map.1 (held d hd)
    obtain ⟨x, -, hx⟩ := hs.stands e he
    rw [hety] at hx
    obtain ⟨ty, hty, -⟩ := Option.map_eq_some_iff.1 hx
    exact ⟨ty, hty⟩) made
  refine ⟨⟨hinterns.canonical, fun e he => ?_⟩, hinterns.grown, List.prefix_append _ _⟩
  rcases List.mem_append.1 he with he | he
  · obtain ⟨y, hy, hout⟩ := hs.stands e he
    exact ⟨y, InternCall.content?_mono hinterns.grown hy, hinterns.grown.content? hout⟩
  · obtain rfl := List.mem_singleton.1 he
    exact ⟨x, InternCall.content?_mono hinterns.grown hx, hinterns.content⟩

theorem Sound.run (hs : h.Sound) (run : Relation.ReflTransGen Step h h') :
    h'.Sound ∧ h.Continues h' := by
  induction run with
  | refl => exact ⟨hs, .refl _, List.prefix_refl _⟩
  | tail _ step ih =>
    obtain ⟨hsound, hcontinues⟩ := ih
    obtain ⟨hsound', hcontinues'⟩ := hsound.step step
    exact ⟨hsound', hcontinues.context.trans hcontinues'.context,
      hcontinues.log.trans hcontinues'.log⟩

/-- A handle is the last one that several calls have handed out. -/
def Gets (c : Context) (log : List (InternCall × Interned)) (out : Interned) (c' : Context) :
    Prop :=
  ∃ first call, Relation.ReflTransGen Step ⟨c, log⟩ ⟨c', log ++ first ++ [(call, out)]⟩

section Requests

variable {c c' : Context} {log : List (InternCall × Interned)} {out : Interned}

theorem gets_of_free (call : InternCall) (free : call.def? = none)
    (made : call.run c = .ok (out, c')) : Gets c log out c' := by
  refine ⟨[], call, .single ?_⟩
  rw [List.append_nil]
  exact .call (fun d hd => by rw [free] at hd; cases hd) made

theorem gets_of_declared (ty : ScalarType) (call : InternCall)
    (declared : call.def?.map ConstDef.ty = some (c.internScalarType ty).1)
    (made : call.run (c.internScalarType ty).2 = .ok (out, c')) : Gets c log out c' := by
  have htype : Step ⟨c, log⟩ ⟨(c.internScalarType ty).2,
      log ++ [(.scalarType ty, .type (c.internScalarType ty).1)]⟩ := .call nofun rfl
  refine ⟨_, call, .tail (.single htype) (.call (fun d hd => ?_) made)⟩
  rw [hd] at declared
  rw [Option.some.inj declared]
  simp

/-- A request is served by one call, or by one that interns the declared type and one that refers
to it. -/
theorem serve_gets {r : Request} (served : c.serve r = .ok (out, c')) : Gets c log out c' := by
  cases r with
  | text s => exact gets_of_free (.text s) rfl served
  | type d => exact gets_of_free (.type d) rfl served
  | typeForm f => exact gets_of_free (.typeForm f) rfl served
  | scalarType ty => exact gets_of_free (.scalarType ty) rfl served
  | scalar s => exact gets_of_free (.scalar s) rfl served
  | unsigned ty value =>
    refine gets_of_free (.unsigned ty value) rfl ?_
    obtain ⟨r, hr, hout⟩ := bind_eq_ok.1 served
    rw [InternCall.run, hr]
    exact hout
  | const declared kind =>
    exact gets_of_declared declared (.const ⟨(c.internScalarType declared).1, kind⟩) rfl served
  | undef ty => exact gets_of_declared ty (.undef (c.internScalarType ty).1) rfl served

end Requests

/-- **Interning is canonical and stable.**  Make any number of calls of one context, in any order
and in all ways, where types are referred to by handles that have been got before.  Then every
handle stands for what the call has asked for, and goes on to do so whatever is interned later; a
constant that is given with the handle of its type reads back just so.  Two handles are equal iff
equal things have been asked for; constants are equal that have the same type and the same kind.
Only an unsigned constant that there is not is refused. -/
theorem interning_canonical (run : Relation.ReflTransGen Step start h)
    (later : Relation.ReflTransGen Step h h') :
    (∀ call out, (call, out) ∈ h.log → (call, out) ∈ h'.log ∧ ∃ x,
      call.content? h.context = some x ∧ h.context.content? out = some x ∧
        h'.context.content? out = some x) ∧
    (∀ call d k, (call, .const k) ∈ h.log → call.def? = some d →
      h'.context.consts.get? k = some d) ∧
    (∀ call out call' out', (call, out) ∈ h'.log → (call', out') ∈ h'.log →
      (out = out' ↔ call.content? h'.context = call'.content? h'.context)) ∧
    ∀ call : InternCall, (∃ out c, call.run h'.context = .ok (out, c)) ∨
      ∃ ty value f, call = .unsigned ty value ∧ Scalar.ofUnsigned ty value = .error f := by
  obtain ⟨hs, -⟩ := sound_start.run run
  obtain ⟨hs', hcontext, hlog⟩ := hs.run later
  refine ⟨fun call out he => ?_, fun call d k he hd => ?_, fun call out call' out' he he' => ?_,
    fun call => call.exists_run h'.context⟩
  · obtain ⟨x, hx, hout⟩ := hs.stands _ he
    exact ⟨hlog.subset he, x, hx, hout, hcontext.content? hout⟩
  · obtain ⟨x, hx, hout⟩ := hs'.stands _ (hlog.subset he)
    rw [InternCall.content?_of_def? hd] at hx
    obtain ⟨ty, hty, rfl⟩ := Option.map_eq_some_iff.1 hx
    obtain ⟨k', d', hk, hd', hty', hkind⟩ := Context.content?_eq_const.1 hout
    cases hk
    rw [hd', hs'.canonical.constDef_inj hty' hty hkind]
  · obtain ⟨x, hx, hout⟩ := hs'.stands _ he
    obtain ⟨x', hx', hout'⟩ := hs'.stands _ he'
    constructor
    · rintro rfl
      exact hx.trans ((hout.symm.trans hout').trans hx'.symm)
    · intro hxx
      rw [← hxx, hx] at hx'
      obtain rfl := Option.some.inj hx'
      exact hs'.canonical.content?_inj hout hout'

/-- A half-precision type is interned, and a constant of it left open in two ways; an unsigned
constant is given as a number and as a scalar. -/
def sampleLog : List (InternCall × Interned) :=
  [(.scalarType .f16, .type ⟨0⟩), (.undef ⟨0⟩, .const ⟨0⟩), (.const ⟨⟨0⟩, .undef⟩, .const ⟨0⟩),
    (.unsigned .u16 7, .const ⟨1⟩), (.scalar (.truncate .u16 7), .const ⟨1⟩)]

theorem sampleLog_interning_canonical : ∃ h, Relation.ReflTransGen Step start h ∧
    h.log = sampleLog ∧ h.context.consts.get? ⟨0⟩ = some ⟨⟨0⟩, .undef⟩ ∧
    (InternCall.unsigned .u16 7).content? h.context =
      (InternCall.scalar (.truncate .u16 7)).content? h.context ∧
    (InternCall.undef ⟨0⟩).content? h.context ≠
      (InternCall.unsigned .u16 7).content? h.context := by
  obtain ⟨h, run, hlog⟩ : ∃ h, Relation.ReflTransGen Step start h ∧ h.log = sampleLog := by
    refine ⟨_, .tail (.tail (.tail (.tail (.tail .refl (.call ?_ rfl)) (.call ?_ rfl))
      (.call ?_ rfl)) (.call ?_ rfl)) (.call ?_ rfl), rfl⟩
    · exact nofun
    · rintro d ⟨⟩
      exact List.mem_singleton_self _
    · rintro d ⟨⟩
      exact List.mem_cons_self
    · exact nofun
    · exact nofun
  obtain ⟨-, hread, hequal, -⟩ := interning_canonical run .refl
  rw [hlog] at hread hequal
  have hundef : (.undef ⟨0⟩, .const ⟨0⟩) ∈ sampleLog := by simp [sampleLog]
  have hunsigned : (.unsigned .u16 7, .const ⟨1⟩) ∈ sampleLog := by simp [sampleLog]
  have hscalar : (.scalar (.truncate .u16 7), .const ⟨1⟩) ∈ sampleLog := by simp [sampleLog]
  refine ⟨h, run, hlog, hread _ _ _ hundef rfl, (hequal _ _ _ _ hunsigned hscalar).1 rfl,
    fun heq => ?_⟩
  cases (hequal _ _ _ _ hundef hunsigned).2 heq

end History

end ShaderIR
