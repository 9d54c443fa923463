import ShaderIR.Printer
import ShaderIR.Proofs.Validity.Violations

/-!
# What is printed of a body

A listing is a body with numbers in place of identities.  It is all that the text of the body is
made of.

* `Listing.Operand`, `Listing.Step`, `Listing.Exit`, `Listing.Part`: what is printed of an operand,
  an instruction, a terminator and a block, and their texts.
* `Body.listing`: the listing of a body.

Principal statement: `Body.text_eq` (the text of a body is that of its listing).
-/

namespace ShaderIR

namespace Listing

/-- A name with a number, if there is one. -/
def numbered (letter : String) : Option Nat → String
  | some k => letter ++ toString k
  | none => letter ++ "?"

/-- What is printed of an operand. -/
inductive Operand where
  | const (c : Constant)
  | result (number : Option Nat)
  deriving DecidableEq

def Operand.text : Operand → String
  | const c => c.text
  | result k => numbered "v" k

/-- What is printed of an instruction. -/
structure Step where
  kind : InstKind
  inputs : List Operand
  /-- The number and the type of the result, if there is one. -/
  result : Option (Option Nat × ScalarType)
  deriving DecidableEq

/-- What is printed of the result of an instruction, ahead of what computes it. -/
def resultText : Option (Option Nat × ScalarType) → String
  | some (k, ty) => numbered "v" k ++ ": " ++ ty.name ++ " = "
  | none => ""

/-- What is printed of an instruction between its result and its inputs. -/
def kindText (k : InstKind) : String := k.name ++ Names.attributes k

def Step.text (s : Step) : String :=
  resultText s.result ++
    (kindText s.kind ++ "(" ++ Text.separated ", " (s.inputs.map Operand.text) ++ ")")

/-- What is printed of a terminator. -/
structure Exit where
  kind : TerminatorKind
  inputs : List Operand
  targets : List (Option Nat)
  deriving DecidableEq

/-- The texts of the inputs and targets of a terminator. -/
def Exit.operands (e : Exit) : List String :=
  e.inputs.map Operand.text ++ e.targets.map (numbered "b")

/-- What is printed of a terminator behind its name. -/
def exitTail (operands : List String) : String :=
  if operands = [] then "" else " " ++ Text.separated ", " operands

def Exit.text (e : Exit) : String := e.kind.name ++ exitTail e.operands

/-- What is printed of a block. -/
structure Part where
  name : Option Nat
  steps : List Step
  exit : Exit
  deriving DecidableEq

/-- The lines of a block without its name. -/
def Part.lines (p : Part) : List String := p.steps.map Step.text ++ [p.exit.text]

def Part.text (p : Part) : String :=
  Text.line ("  " ++ numbered "b" p.name ++ ":") ++
    String.join (p.lines.map fun s => Text.line ("    " ++ s))

/-- The text of the blocks of a listing. -/
def text (parts : List Part) : String := String.join (parts.map Part.text)

end Listing

namespace Names

open Listing

def operand (n : Names) : Value → Operand
  | .const c => .const c
  | .result i => .result (n.results.idxOf? i)

def step (n : Names) (id : InstId) (i : Inst) : Step :=
  ⟨i.kind, i.inputs.map n.operand, i.ty.map fun ty => (n.results.idxOf? id, ty)⟩

def exit (n : Names) (t : Terminator) : Exit :=
  ⟨t.kind, t.inputs.map n.operand, t.targets.map n.blocks.idxOf?⟩

variable (n : Names)

theorem text_operand (v : Value) : (n.operand v).text = n.value v := by
  cases v with
  | const c => rfl
  | result i =>
    show numbered "v" (n.results.idxOf? i) = n.result i
    unfold result
    cases n.results.idxOf? i <;> rfl

theorem text_block (b : BlockId) : numbered "b" (n.blocks.idxOf? b) = n.block b := by
  unfold block
  cases n.blocks.idxOf? b <;> rfl

theorem text_step (id : InstId) (i : Inst) : (n.step id i).text = n.instText id i := by
  have hinputs : (i.inputs.map n.operand).map Operand.text = i.inputs.map n.value := by
    simp only [List.map_map, Function.comp_def, text_operand]
  have hresult : numbered "v" (n.results.idxOf? id) = n.result id := n.text_operand (.result id)
  unfold Step.text instText
  cases hty : i.ty with
  | none => simp [step, resultText, kindText, hinputs, hty, String.append_assoc]
  | some ty => simp [step, resultText, kindText, hinputs, hty, hresult, String.append_assoc]

theorem text_exit (t : Terminator) : (n.exit t).text = n.terminatorText t := by
  have hoperands : (n.exit t).operands = t.inputs.map n.value ++ t.targets.map n.block := by
    simp only [Exit.operands, exit, List.map_map, Function.comp_def, text_operand, text_block]
  unfold Exit.text terminatorText exitTail
  rw [hoperands]
  cases t.inputs.map n.value ++ t.targets.map n.block with
  | nil => exact String.append_empty
  | cons o os => simp [exit, String.append_assoc]

end Names

namespace Body

open Listing

variable {body : Body} {rows : BlockId → List Row}

/-- The identities of the rows of a block that have a result. -/
def typedIds (rs : List Row) : List InstId := (rs.filter (·.2.ty.isSome)).map Prod.fst

/-- The names of the blocks and results of a body with these rows. -/
def numbering (body : Body) (rows : BlockId → List Row) : Names :=
  ⟨body.blocks, body.blocks.flatMap fun b => typedIds (rows b)⟩

/-- What is printed of a block. -/
def part (body : Body) (rows : BlockId → List Row) (b : BlockId) : Part where
  name := body.blocks.idxOf? b
  steps := (rows b).map fun r => (body.numbering rows).step r.1 r.2
  exit := (body.numbering rows).exit ((body.code.terminator? b).getD .ret)

/-- The listing of a body. -/
def listing (body : Body) (rows : BlockId → List Row) : List Part :=
  body.blocks.map (body.part rows)

theorem eraseDups_of_nodup {α : Type} [DecidableEq α] {l : List α} (h : l.Nodup) :
    l.eraseDups = l := by
  induction l with
  | nil => rfl
  | cons a l ih =>
    obtain ⟨ha, hl⟩ := List.nodup_cons.1 h
    have hfilter : l.filter (fun b => !b == a) = l := by
      rw [List.filter_eq_self]
      intro b hb
      simp only [Bool.not_eq_true', beq_eq_false_iff_ne]
      rintro rfl
      exact ha hb
    rw [List.eraseDups_cons, hfilter, ih hl]

theorem resultsOf_eq (h : body.code.Shows rows) {b : BlockId} {blk : Block}
    (hb : body.code.blocks.get? b = some blk) : body.resultsOf b = .ok (typedIds (rows b)) := by
  let typed (id : InstId) : Bool := (body.code.inst id).toOption.any (·.ty.isSome)
  have hrow : ∀ r ∈ rows b, typed r.1 = r.2.ty.isSome := by
    intro r hr
    simp only [typed, h.inst hr, Except.toOption, Option.any_some]
  have hfilter : ((rows b).map Prod.fst).filterM
      (fun id => do return (← body.code.inst id).ty.isSome) =
        .ok (((rows b).map Prod.fst).filter typed) := by
    apply filterM_eq_ok
    intro id hid
    obtain ⟨r, hr, rfl⟩ := List.mem_map.1 hid
    rw [h.inst hr, hrow r hr]
    rfl
  unfold resultsOf
  rw [h.instsOf hb, ok_bind, hfilter, List.filter_map, typedIds]
  exact congrArg (fun rs => Except.ok (rs.map Prod.fst)) (List.filter_congr hrow)

/-- The results of all blocks are distinct. -/
theorem numbering_nodup (h : body.code.Shows rows) (distinct : body.blocks.Nodup) :
    (body.numbering rows).results.Nodup := by
  show (body.blocks.flatMap fun b => typedIds (rows b)).Nodup
  have hrows : ∀ {b id}, id ∈ typedIds (rows b) → ∃ r ∈ rows b, r.1 = id := by
    intro b id hid
    obtain ⟨r, hr, rfl⟩ := List.mem_map.1 hid
    exact ⟨r, List.mem_of_mem_filter hr, rfl⟩
  rw [List.nodup_flatMap]
  refine ⟨fun b _ => (h.ids_nodup b).sublist (List.filter_sublist.map _), ?_⟩
  refine distinct.imp fun {b d} hne => ?_
  intro id hb hd
  obtain ⟨r, hr, rfl⟩ := hrows hb
  obtain ⟨q, hq, e⟩ := hrows hd
  exact hne (h.unique hr hq e.symm).1

theorem names_eq (h : body.code.Shows rows) (distinct : body.blocks.Nodup)
    (listed : body.Listed) : body.names = .ok (body.numbering rows) := by
  have hresults : body.blocks.mapM body.resultsOf =
      .ok (body.blocks.map fun b => typedIds (rows b)) := by
    apply mapM_eq_ok
    intro b hb
    obtain ⟨blk, hblk⟩ := listed b hb
    exact resultsOf_eq h hblk
  have hnodup := numbering_nodup h distinct
  unfold names
  simp only [eraseDups_of_nodup distinct, hresults, ok_bind, pure_eq_ok, ← List.flatMap_def]
  exact congrArg (fun ids => Except.ok (⟨body.blocks, ids⟩ : Names)) (eraseDups_of_nodup hnodup)

theorem blockText_eq (h : body.code.Shows rows) {b : BlockId} (listed : body.Listed)
    (hb : b ∈ body.blocks) :
    body.blockText (body.numbering rows) b = .ok (body.part rows b).text := by
  obtain ⟨blk, hblk⟩ := listed b hb
  have hinsts : ((rows b).map Prod.fst).mapM
      (fun id => do return (body.numbering rows).instText id (← body.code.inst id)) =
        .ok ((rows b).map fun r => (body.numbering rows).instText r.1 r.2) := by
    rw [List.mapM_map]
    apply mapM_eq_ok
    intro r hr
    show (do return (body.numbering rows).instText r.1 (← body.code.inst r.1)) = _
    rw [h.inst hr]
    rfl
  have hlines : (body.part rows b).lines = (rows b).map
      (fun r => (body.numbering rows).instText r.1 r.2) ++
        [(body.numbering rows).terminatorText blk.terminator] := by
    simp only [Part.lines, part, Code.terminator?, hblk, Option.map_some, Option.getD_some,
      List.map_map, Function.comp_def, Names.text_step, Names.text_exit]
  unfold blockText Part.text
  rw [h.instsOf hblk, ok_bind, hinsts, ok_bind, Defs.find_of_get? hblk, ok_bind, hlines,
    ← Names.text_block]
  rfl

/-- **The text of a body is that of its listing.** -/
theorem text_eq (h : body.code.Shows rows) (distinct : body.blocks.Nodup)
    (listed : body.Listed) : body.text = .ok (Listing.text (body.listing rows)) := by
  have hparts : body.blocks.mapM (body.blockText (body.numbering rows)) =
      .ok (body.blocks.map fun b => (body.part rows b).text) :=
    mapM_eq_ok fun b hb => blockText_eq h listed hb
  unfold text
  rw [names_eq h distinct listed, ok_bind]
  show (do return String.join (← body.blocks.mapM (body.blockText (body.numbering rows)))) = _
  rw [hparts, ok_bind, pure_eq_ok, Listing.text, listing, List.map_map]
  rfl

/-- Only a body whose blocks are defined has a text. -/
theorem listed_of_text {s : String} (distinct : body.blocks.Nodup) (h : body.text = .ok s) :
    body.Listed := by
  obtain ⟨n, hn, -⟩ := bind_eq_ok.1 h
  rw [names, eraseDups_of_nodup distinct] at hn
  obtain ⟨ids, hids, -⟩ := bind_eq_ok.1 hn
  intro b hb
  obtain ⟨_, hresults⟩ := exists_of_mapM_eq_ok hids b hb
  obtain ⟨_, hinsts, -⟩ := bind_eq_ok.1 hresults
  obtain ⟨blk, hblk, -⟩ := bind_eq_ok.1 hinsts
  exact ⟨blk, Defs.find_eq_ok.1 hblk⟩

end Body

end ShaderIR
