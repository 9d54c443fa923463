import ShaderIR.Proofs.Text.Constants
import ShaderIR.Proofs.Text.Listing

/-!
# A listing is known from its text

Each line is taken apart from its start: a result ends at the first colon, the kind with its
attributes at the first bracket, and an operand at the first comma.  Blocks are told from what they
contain by how far their lines are indented.

* `AspectSet.Proper`, `InstKind.Plain`, `Operand.Plain`, `Part.Plain`: a text stands for these.
* `nameChar`, `Word`: what names and operands are written with.

Principal statements: `kindText_injective`, `Step.text_injective` and `Exit.text_injective` (a line
is known from its text), `text_injective` (so is a listing).
-/

namespace ShaderIR

/-- A set has no bits that stand for no aspect. -/
def AspectSet.Proper (s : AspectSet) : Prop :=
  s.bits &&& (Aspect.depth.flag ||| Aspect.stencil.flag) = s.bits

theorem AspectSet.Proper.cases {s : AspectSet} (h : s.Proper) :
    s = ⟨0⟩ ∨ s = ⟨1⟩ ∨ s = ⟨2⟩ ∨ s = ⟨3⟩ := by
  obtain ⟨⟨bits⟩⟩ := s
  revert bits
  unfold Proper
  decide

/-- The text of a kind stands for it. -/
def InstKind.Plain (k : InstKind) : Prop :=
  ∀ set, k = .intrinsic (.combinedWrite set) → set.Proper

namespace Listing

variable {c : Char}

/-! ## Numbers -/

section Numbers

variable {letter : String} {k k' : Option Nat}

/-- The digits of a number, or what stands in their place. -/
def digits : Option Nat → List Char
  | some k => Nat.toDigits 10 k
  | none => ['?']

theorem toList_numbered (letter : String) (k : Option Nat) :
    (numbered letter k).toList = letter.toList ++ digits k := by
  cases k with
  | none => simp [numbered, digits]
  | some k => simp [numbered, digits]

theorem mem_digits (h : c ∈ digits k) : c.isDigit = true ∨ c = '?' := by
  cases k with
  | none => exact .inr (List.mem_singleton.1 h)
  | some k => exact .inl (Decimal.isDigit_of_mem h)

theorem digits_injective (h : digits k = digits k') : k = k' := by
  have hmark : ∀ n, Nat.toDigits 10 n ≠ ['?'] := by
    intro n hn
    have hdigit : '?'.isDigit = true := Decimal.isDigit_of_mem (n := n) (by simp [hn])
    revert hdigit
    decide
  cases k with
  | none =>
    cases k' with
    | none => rfl
    | some n => exact absurd h.symm (hmark n)
  | some n =>
    cases k' with
    | none => exact absurd h (hmark n)
    | some n' => rw [ScalarType.toDigits_injective h]

theorem numbered_injective (h : numbered letter k = numbered letter k') : k = k' := by
  have hlist := congrArg String.toList h
  rw [toList_numbered, toList_numbered] at hlist
  exact digits_injective (List.append_cancel_left hlist)

end Numbers

/-! ## Operands -/

namespace Operand

variable {o o' : Operand}

/-- A text stands for an operand. -/
def Plain (o : Operand) : Prop := ∀ c, o = const c → c.Plain

/-- No operand starts like a block. -/
theorem text_head (o : Operand) : ∃ d cs, o.text.toList = d :: cs ∧ d ≠ 'b' := by
  cases o with
  | const c =>
    obtain ⟨d, cs, hcs, -, hd⟩ := c.text_head
    exact ⟨d, cs, hcs, hd⟩
  | result k => exact ⟨'v', digits k, toList_numbered "v" k, by decide⟩

theorem mem_text (h : c ∈ o.text.toList) :
    c.isAlphanum = true ∨ c ∈ ['.', '-', '<', '>', '?'] := by
  cases o with
  | const k =>
    refine (Constant.mem_text h).imp_right fun hc => ?_
    simp only [List.mem_cons] at hc ⊢
    grind
  | result k =>
    rw [text, toList_numbered, List.mem_append] at h
    rcases h with h | h
    · rw [List.mem_singleton.1 h]
      exact .inl (by decide)
    · rcases mem_digits h with hd | rfl
      · exact .inl (by simp [Char.isAlphanum, hd])
      · exact .inr (by decide)

theorem text_injective (h : o.Plain) (h' : o'.Plain) (heq : o.text = o'.text) : o = o' := by
  have hmixed : ∀ (c : Constant) (k : Option Nat), c.text ≠ numbered "v" k := by
    intro c k e
    obtain ⟨d, cs, hcs, hd, -⟩ := c.text_head
    have hlist := congrArg String.toList e
    rw [hcs, toList_numbered] at hlist
    exact hd (List.cons.inj hlist).1
  cases o with
  | const c =>
    cases o' with
    | const c' => rw [Constant.text_injective (h c rfl) (h' c' rfl) heq]
    | result k => exact absurd heq (hmixed c k)
  | result k =>
    cases o' with
    | const c' => exact absurd heq.symm (hmixed c' k)
    | result k' => rw [numbered_injective heq]

end Operand

/-! ## Instructions -/

section Kinds

variable {k k' : InstKind} {r r' : Option (Option Nat × ScalarType)} {x y : List Char}

/-- The characters that names are written with. -/
def nameChar (c : Char) : Bool := c.isAlphanum || c == '_'

theorem nameChar_of_isDigit (h : c.isDigit = true) : nameChar c = true := by
  simp [nameChar, Char.isAlphanum, h]

/-- The name of a kind starts with a letter that no result starts with. -/
theorem kind_name (k : InstKind) : k.name.toList.head? ∉ [none, some 'v'] ∧
    ∀ c ∈ k.name.toList, nameChar c = true := by
  cases k with
  | alu op => cases op <;> exact ⟨by decide, List.all_eq_true.1 (by decide)⟩
  | intrinsic op =>
    cases op <;> simp only [InstKind.name, Intrinsic.name] <;>
      exact ⟨by decide, List.all_eq_true.1 (by decide)⟩

theorem slot_name (slot : OutputSlot) : ∀ c ∈ slot.name.toList, nameChar c = true := by
  cases slot with
  | color n =>
    have hword : ∀ c ∈ "data".toList, nameChar c = true := List.all_eq_true.1 (by decide)
    intro c hc
    simp only [OutputSlot.name, String.toList_append, Nat.toString_eq_repr, Nat.toList_repr,
      List.mem_append] at hc
    exact hc.elim (hword c) fun hc => nameChar_of_isDigit (Decimal.isDigit_of_mem hc)
  | _ => exact List.all_eq_true.1 (by decide)

theorem slot_name_injective {slot slot' : OutputSlot} (h : slot.name = slot'.name) :
    slot = slot' := by
  have hcolor : ∀ n : UInt8, (OutputSlot.color n).name.toList =
      'd' :: 'a' :: 't' :: 'a' :: Nat.toDigits 10 n.toNat := by
    intro n
    simp [OutputSlot.name]
  have hlist := congrArg String.toList h
  cases slot with
  | color n =>
    cases slot' with
    | color n' =>
      rw [hcolor, hcolor] at hlist
      simp only [List.cons.injEq, true_and] at hlist
      rw [UInt8.toNat_inj.1 (ScalarType.toDigits_injective hlist)]
    | _ =>
      rw [hcolor] at hlist
      simp [OutputSlot.name] at hlist
  | _ =>
    cases slot' with
    | color n' =>
      rw [hcolor] at hlist
      simp [OutputSlot.name] at hlist
    | _ => first | rfl | exact absurd h (by decide)

/-- What is printed of the index of an output. -/
def indexText (index : UInt8) : List Char :=
  (if index = 0 then [] else ", index=".toList ++ Nat.toDigits 10 index.toNat) ++ [']']

theorem toList_store (target : OutputTarget) :
    (Names.attributes (.intrinsic (.storeOutput target))).toList =
      '[' :: (target.slot.name.toList ++ indexText target.index) := by
  show ("[" ++ target.slot.name ++
    (if target.index = 0 then "" else ", index=" ++ toString target.index.toNat) ++ "]").toList = _
  unfold indexText
  by_cases h : target.index = 0
  · simp [h]
  · simp [h]

theorem indexText_injective {i i' : UInt8} (h : indexText i = indexText i') : i = i' := by
  have hcancel := List.append_cancel_right h
  split at hcancel <;> split at hcancel
  · simp_all
  · simp at hcancel
  · simp at hcancel
  · exact UInt8.toNat_inj.1 (ScalarType.toDigits_injective (List.append_cancel_left hcancel))

theorem stops_indexText (i : UInt8) : Text.Stops nameChar (indexText i) := by
  unfold indexText
  split
  · exact Text.stops_cons (by decide)
  · exact Text.stops_cons (by decide)

theorem toList_location (location : UInt32) :
    (Names.attributes (.intrinsic (.loadInput location))).toList =
      "[location=".toList ++ (Nat.toDigits 10 location.toNat ++ [']']) := by
  show ("[location=" ++ toString location.toNat ++ "]").toList = _
  simp

theorem toList_written (set : AspectSet) :
    (Names.attributes (.intrinsic (.combinedWrite set))).toList =
      '[' :: ((Text.separated "|" (set.toList.map Aspect.name)).toList ++ [']']) := by
  show ("[" ++ Text.separated "|" (set.toList.map Aspect.name) ++ "]").toList = _
  simp

theorem stops_attributes (k : InstKind) : Text.Stops nameChar (Names.attributes k).toList := by
  cases k with
  | alu op => exact Text.stops_nil _
  | intrinsic op =>
    cases op with
    | loadInput location =>
      rw [toList_location]
      exact Text.stops_cons (by decide)
    | storeOutput target =>
      rw [toList_store]
      exact Text.stops_cons (by decide)
    | combinedWrite set =>
      rw [toList_written]
      exact Text.stops_cons (by decide)
    | _ => exact Text.stops_nil _

/-- No bracket for operands is among the attributes. -/
theorem mem_attributes (h : c ∈ (Names.attributes k).toList) :
    nameChar c = true ∨ c ∈ ['[', ']', '=', ',', ' ', '|'] := by
  have hdigits : ∀ n, c ∈ Nat.toDigits 10 n → nameChar c = true := fun n hn =>
    nameChar_of_isDigit (Decimal.isDigit_of_mem hn)
  cases k with
  | alu op => cases h
  | intrinsic op =>
    cases op with
    | loadInput location =>
      have hword : ∀ c ∈ "[location=".toList,
          nameChar c = true ∨ c ∈ ['[', ']', '=', ',', ' ', '|'] :=
        List.all_iff_forall_prop.1 (by decide)
      rw [toList_location, List.mem_append, List.mem_append, List.mem_singleton] at h
      rcases h with h | h | rfl
      · exact hword c h
      · exact .inl (hdigits _ h)
      · exact .inr (by decide)
    | storeOutput target =>
      have hword : ∀ c ∈ ", index=".toList,
          nameChar c = true ∨ c ∈ ['[', ']', '=', ',', ' ', '|'] :=
        List.all_iff_forall_prop.1 (by decide)
      rw [toList_store, List.mem_cons, List.mem_append, indexText, List.mem_append,
        List.mem_singleton] at h
      rcases h with rfl | h | h | rfl
      · exact .inr (by decide)
      · exact .inl (slot_name _ c h)
      · split at h
        · cases h
        · rw [List.mem_append] at h
          exact h.elim (hword c) fun h => .inl (hdigits _ h)
      · exact .inr (by decide)
    | combinedWrite set =>
      have hword : ∀ c ∈ "depth".toList ++ "stencil".toList ++ "|".toList,
          nameChar c = true ∨ c ∈ ['[', ']', '=', ',', ' ', '|'] :=
        List.all_iff_forall_prop.1 (by decide)
      rw [toList_written, List.mem_cons, List.mem_append, List.mem_singleton] at h
      rcases h with rfl | h | rfl
      · exact .inr (by decide)
      · rcases Text.mem_separated h with h | ⟨s, hs, h⟩
        · exact hword c (List.mem_append_right _ h)
        · obtain ⟨a, -, rfl⟩ := List.mem_map.1 hs
          apply hword c (List.mem_append_left _ _)
          cases a with
          | depth => exact List.mem_append_left _ h
          | stencil => exact List.mem_append_right _ h
      · exact .inr (by decide)
    | _ => cases h

/-- Two combined writes without a meaningless bit are printed alike only if they write the same. -/
theorem written_injective {set set' : AspectSet} (h : set.Proper) (h' : set'.Proper)
    (heq : Text.separated "|" (set.toList.map Aspect.name) =
      Text.separated "|" (set'.toList.map Aspect.name)) : set = set' := by
  rcases h.cases with rfl | rfl | rfl | rfl <;> rcases h'.cases with rfl | rfl | rfl | rfl <;>
    first | rfl | exact absurd heq (by decide)

/-- **Two kinds are printed alike only if they have the same attributes.** -/
theorem kindText_injective (h : k.Plain) (h' : k'.Plain) (heq : kindText k = kindText k') :
    k = k' := by
  have hlist := congrArg String.toList heq
  rw [kindText, kindText, String.toList_append, String.toList_append] at hlist
  obtain ⟨hname, hattributes⟩ := Text.append_unique (kind_name k).2 (kind_name k').2
    (stops_attributes k) (stops_attributes k') hlist
  rw [String.toList_inj] at hname
  cases k with
  | alu op =>
    cases k' with
    | alu op' => cases op <;> cases op' <;> first | rfl | exact absurd hname (by decide)
    | intrinsic op' =>
      cases op <;> cases op' <;> simp [InstKind.name, AluOp.name, Intrinsic.name] at hname
  | intrinsic op =>
    cases k' with
    | alu op' =>
      cases op <;> cases op' <;> simp [InstKind.name, AluOp.name, Intrinsic.name] at hname
    | intrinsic op' =>
      cases op with
      | loadInput location =>
        cases op' with
        | loadInput location' =>
          rw [toList_location, toList_location] at hattributes
          have hdigits := List.append_cancel_right (List.append_cancel_left hattributes)
          rw [UInt32.toNat_inj.1 (ScalarType.toDigits_injective hdigits)]
        | _ => exact absurd hname (by simp [InstKind.name, Intrinsic.name])
      | storeOutput target =>
        cases op' with
        | storeOutput target' =>
          rw [toList_store, toList_store] at hattributes
          obtain ⟨hslot, hindex⟩ := Text.append_unique (slot_name _) (slot_name _)
            (stops_indexText _) (stops_indexText _) (List.cons.inj hattributes).2
          obtain ⟨slot, index⟩ := target
          obtain ⟨slot', index'⟩ := target'
          rw [show slot = slot' from slot_name_injective (String.toList_inj.1 hslot),
            show index = index' from indexText_injective hindex]
        | _ => exact absurd hname (by simp [InstKind.name, Intrinsic.name])
      | combinedWrite set =>
        cases op' with
        | combinedWrite set' =>
          rw [toList_written, toList_written] at hattributes
          have hset := List.append_cancel_right (List.cons.inj hattributes).2
          rw [written_injective (h set rfl) (h' set' rfl) (String.toList_inj.1 hset)]
        | _ => exact absurd hname (by simp [InstKind.name, Intrinsic.name])
      | _ =>
        cases op' <;> first | rfl | exact absurd hname (by simp [InstKind.name, Intrinsic.name])

end Kinds

section Lines

variable {s s' : Step} {e e' : Exit} {r r' : Option (Option Nat × ScalarType)}
  {os os' : List Operand} {ws ws' : List String} {x y : List Char}

theorem toList_result (k : Option Nat) (ty : ScalarType) :
    (resultText (some (k, ty))).toList =
      'v' :: (digits k ++ ':' :: ' ' :: (ty.name.toList ++ ' ' :: ['=', ' '])) := by
  simp [resultText, toList_numbered]

/-- A result is known from what is printed of it, and of what comes after it. -/
theorem result_unique (hx : x.head? ≠ some 'v') (hy : y.head? ≠ some 'v')
    (h : (resultText r).toList ++ x = (resultText r').toList ++ y) : r = r' ∧ x = y := by
  have hcolon : ∀ {k}, ':' ∉ digits k := fun h => absurd (mem_digits h) (by decide)
  have hblank : ∀ {ty : ScalarType}, ' ' ∉ ty.name.toList := fun h =>
    absurd (ScalarType.mem_name h) (by decide)
  cases r with
  | none =>
    cases r' with
    | none => exact ⟨rfl, h⟩
    | some r' =>
      rw [toList_result] at h
      exact absurd (congrArg List.head? h) hx
  | some r =>
    cases r' with
    | none =>
      rw [toList_result] at h
      exact absurd (congrArg List.head? h).symm hy
    | some r' =>
      obtain ⟨k, ty⟩ := r
      obtain ⟨k', ty'⟩ := r'
      rw [toList_result, toList_result] at h
      simp only [List.cons_append, List.append_assoc, List.cons.injEq, true_and] at h
      obtain ⟨hk, hrest⟩ := Text.cut_unique hcolon hcolon h
      obtain ⟨hty, hrest⟩ := Text.cut_unique hblank hblank (List.cons.inj hrest).2
      rw [digits_injective hk, ScalarType.name_injective (String.toList_inj.1 hty)]
      exact ⟨rfl, by simpa using hrest⟩

/-- A text that can stand in a row of operands. -/
def Word (w : String) : Prop := w.toList ≠ [] ∧ ',' ∉ w.toList

theorem Operand.word (o : Operand) : Word o.text := by
  obtain ⟨d, cs, hcs, -⟩ := o.text_head
  exact ⟨by simp [hcs], fun h => absurd (mem_text h) (by decide)⟩

theorem numbered_word (k : Option Nat) : Word (numbered "b" k) := by
  refine ⟨by simp [toList_numbered], fun h => ?_⟩
  rw [toList_numbered, List.mem_append] at h
  exact h.elim (by decide) fun h => absurd (mem_digits h) (by decide)

theorem map_text_injective (h : ∀ o ∈ os, o.Plain) (h' : ∀ o ∈ os', o.Plain)
    (heq : os.map Operand.text = os'.map Operand.text) : os = os' :=
  Text.map_unique (fun o ho o' ho' => Operand.text_injective (h o ho) (h' o' ho')) heq

/-- The text of a step stands for it. -/
structure Step.Plain (s : Step) : Prop where
  kind : s.kind.Plain
  inputs : ∀ o ∈ s.inputs, o.Plain

theorem Step.text_injective (h : s.Plain) (h' : s'.Plain) (heq : s.text = s'.text) : s = s' := by
  have hhead : ∀ (k : InstKind) (cs : List Char), ((kindText k).toList ++ cs).head? ≠ some 'v' := by
    intro k cs
    have hname := (kind_name k).1
    rw [kindText, String.toList_append, List.append_assoc]
    cases hk : k.name.toList with
    | nil => simp [hk] at hname
    | cons d ds => simpa [hk] using hname
  have hbracket : ∀ k : InstKind, '(' ∉ (kindText k).toList := by
    intro k hk
    rw [kindText, String.toList_append, List.mem_append] at hk
    rcases hk with hk | hk
    · exact absurd ((kind_name k).2 _ hk) (by decide)
    · exact absurd (mem_attributes hk) (by decide)
  have hwords : ∀ os : List Operand, ∀ w ∈ os.map Operand.text, Word w := by
    intro os w hw
    obtain ⟨o, -, rfl⟩ := List.mem_map.1 hw
    exact o.word
  have hlist := congrArg String.toList heq
  simp only [text, String.toList_append, String.reduceToList, List.append_assoc] at hlist
  obtain ⟨hresult, hrest⟩ := result_unique (hhead _ _) (hhead _ _) hlist
  obtain ⟨hkind, hrest⟩ := Text.cut_unique (hbracket _) (hbracket _) hrest
  have hinputs := Text.separated_injective (c := ',') rfl (hwords _) (hwords _)
    (String.toList_inj.1 (List.append_cancel_right hrest))
  obtain ⟨kind, inputs, result⟩ := s
  obtain ⟨kind', inputs', result'⟩ := s'
  rw [show kind = kind' from kindText_injective h.kind h'.kind (String.toList_inj.1 hkind),
    show inputs = inputs' from map_text_injective h.inputs h'.inputs hinputs,
    show result = result' from hresult]

/-- The text of a terminator stands for it. -/
def Exit.Plain (e : Exit) : Prop := ∀ o ∈ e.inputs, o.Plain

theorem exitTail_injective (h : ∀ w ∈ ws, Word w) (h' : ∀ w ∈ ws', Word w)
    (heq : exitTail ws = exitTail ws') : ws = ws' := by
  unfold exitTail at heq
  split at heq <;> split at heq
  · simp_all
  · exact absurd (congrArg String.toList heq) (by simp)
  · exact absurd (congrArg String.toList heq) (by simp)
  · have hlist := congrArg String.toList heq
    rw [String.toList_append, String.toList_append] at hlist
    exact Text.separated_injective (c := ',') rfl h h'
      (String.toList_inj.1 (List.append_cancel_left hlist))

theorem Exit.text_injective (h : e.Plain) (h' : e'.Plain) (heq : e.text = e'.text) : e = e' := by
  have hname : ∀ k : TerminatorKind, ∀ c ∈ k.name.toList, (c != ' ') = true := by
    intro k
    cases k <;> exact List.all_eq_true.1 (by decide)
  have hstops : ∀ ws, Text.Stops (· != ' ') (exitTail ws).toList := by
    intro ws
    unfold exitTail
    split
    · exact Text.stops_nil _
    · rw [String.toList_append]
      exact Text.stops_cons (by decide)
  have hwords : ∀ e : Exit, ∀ w ∈ e.operands, Word w := by
    intro e w hw
    rcases List.mem_append.1 hw with hw | hw
    · obtain ⟨o, -, rfl⟩ := List.mem_map.1 hw
      exact o.word
    · obtain ⟨k, -, rfl⟩ := List.mem_map.1 hw
      exact numbered_word k
  -- inputs come first, and none of them starts like a block
  have hinput : ∀ e : Exit, ∀ w ∈ e.inputs.map Operand.text,
      (w.toList.head? != some 'b') = true := by
    intro e w hw
    obtain ⟨o, -, rfl⟩ := List.mem_map.1 hw
    obtain ⟨d, cs, hcs, hd⟩ := o.text_head
    simpa [hcs] using hd
  have htarget : ∀ e : Exit, Text.Stops (fun w : String => w.toList.head? != some 'b')
      (e.targets.map (numbered "b")) := by
    intro e
    cases he : e.targets with
    | nil => exact Text.stops_nil _
    | cons k ks => exact Text.stops_cons (by simp [toList_numbered])
  have hkindOf : ∀ k k' : TerminatorKind, k.name = k'.name → k = k' := by
    intro k k'
    cases k <;> cases k' <;> decide
  have hlist := congrArg String.toList heq
  rw [text, text, String.toList_append, String.toList_append] at hlist
  obtain ⟨hkind, htail⟩ := Text.append_unique (hname _) (hname _) (hstops _) (hstops _) hlist
  have hoperands := exitTail_injective (hwords _) (hwords _) (String.toList_inj.1 htail)
  obtain ⟨hinputs, htargets⟩ := Text.append_unique (hinput e) (hinput e') (htarget e) (htarget e')
    hoperands
  obtain ⟨kind, inputs, targets⟩ := e
  obtain ⟨kind', inputs', targets'⟩ := e'
  rw [show kind = kind' from hkindOf _ _ (String.toList_inj.1 hkind),
    show inputs = inputs' from map_text_injective h h' hinputs,
    show targets = targets' from List.map_injective_iff.2 (fun _ _ => numbered_injective) htargets]

end Lines

/-! ## Blocks -/

section Parts

variable {p p' : Part} {parts parts' : List Part}

theorem newline_not_mem_separated {ws : List String} (h : ∀ w ∈ ws, '\n' ∉ w.toList) :
    '\n' ∉ (Text.separated ", " ws).toList := by
  intro hmem
  rcases Text.mem_separated hmem with hsep | ⟨w, hw, hmem⟩
  · exact absurd hsep (by decide)
  · exact h w hw hmem

theorem newline_not_mem_operand (o : Operand) : '\n' ∉ o.text.toList := fun h =>
  absurd (Operand.mem_text h) (by decide)

theorem newline_not_mem_block (k : Option Nat) : '\n' ∉ (numbered "b" k).toList := by
  intro h
  rw [toList_numbered, List.mem_append] at h
  exact h.elim (by decide) fun h => absurd (mem_digits h) (by decide)

/-- A step is printed on one line. -/
theorem newline_not_mem_step (s : Step) : '\n' ∉ s.text.toList := by
  have hresult : '\n' ∉ (resultText s.result).toList := by
    cases hr : s.result with
    | none => decide
    | some r =>
      obtain ⟨k, ty⟩ := r
      have hdigits : '\n' ∉ digits k := fun h => absurd (mem_digits h) (by decide)
      have hty : '\n' ∉ ty.name.toList := fun h => absurd (ScalarType.mem_name h) (by decide)
      simp [toList_result, hdigits, hty]
  have hkind : '\n' ∉ (kindText s.kind).toList := by
    rw [kindText, String.toList_append, List.mem_append]
    rintro (h | h)
    · exact absurd ((kind_name s.kind).2 _ h) (by decide)
    · exact absurd (mem_attributes h) (by decide)
  have hinputs : '\n' ∉ (Text.separated ", " (s.inputs.map Operand.text)).toList := by
    apply newline_not_mem_separated
    intro w hw
    obtain ⟨o, -, rfl⟩ := List.mem_map.1 hw
    exact newline_not_mem_operand o
  simp [Step.text, hresult, hkind, hinputs]

/-- A terminator is printed on one line. -/
theorem newline_not_mem_exit (e : Exit) : '\n' ∉ e.text.toList := by
  have hname : '\n' ∉ e.kind.name.toList := by cases e.kind <;> decide
  have hoperands : '\n' ∉ (Text.separated ", " e.operands).toList := by
    apply newline_not_mem_separated
    intro w hw
    rcases List.mem_append.1 hw with hw | hw
    · obtain ⟨o, -, rfl⟩ := List.mem_map.1 hw
      exact newline_not_mem_operand o
    · obtain ⟨k, -, rfl⟩ := List.mem_map.1 hw
      exact newline_not_mem_block k
  rw [Exit.text, exitTail, String.toList_append, List.mem_append, not_or]
  refine ⟨hname, ?_⟩
  split
  · decide
  · simp [hoperands]

/-- The line with the name of a block. -/
def Part.heading (p : Part) : String := "  " ++ numbered "b" p.name ++ ":"

/-- The lines below the name of a block. -/
def Part.below (p : Part) : List String := p.lines.map ("    " ++ ·)

theorem heading_known (h : p.heading = p'.heading) : p.name = p'.name := by
  have hlist := congrArg String.toList h
  simp only [Part.heading, String.toList_append] at hlist
  exact numbered_injective
    (String.toList_inj.1 (List.append_cancel_left (List.append_cancel_right hlist)))

/-- The text of a block stands for it. -/
structure Part.Plain (p : Part) : Prop where
  steps : ∀ s ∈ p.steps, s.Plain
  exit : p.exit.Plain

/-- A block is known from its lines, of which the last one is that of the terminator. -/
theorem Part.ext_lines (h : p.Plain) (h' : p'.Plain) (hname : p.name = p'.name)
    (hbelow : p.below = p'.below) : p = p' := by
  have hlines : p.lines = p'.lines := by
    refine List.map_injective_iff.2 (fun s t hst => ?_) hbelow
    have hlist := congrArg String.toList hst
    simp only [String.toList_append] at hlist
    exact String.toList_inj.1 (List.append_cancel_left hlist)
  obtain ⟨hsteps, hexit⟩ := List.append_inj' hlines rfl
  obtain ⟨name, steps, exit⟩ := p
  obtain ⟨name', steps', exit'⟩ := p'
  rw [show name = name' from hname,
    show steps = steps' from Text.map_unique
      (fun s hs s' hs' => Step.text_injective (h.steps s hs) (h'.steps s' hs')) hsteps,
    show exit = exit' from Exit.text_injective h.exit h'.exit (List.cons.inj hexit).1]

theorem text_eq_lines (parts : List Part) : text parts =
    String.join ((parts.flatMap fun p => p.heading :: p.below).map Text.line) := by
  induction parts with
  | nil => rfl
  | cons p parts ih =>
    rw [text, List.map_cons, String.join_cons, ← text, ih]
    simp [Part.text, Part.heading, Part.below, String.join_append, Function.comp_def,
      String.append_assoc]

/-- **A listing is known from its text**, if all its blocks stand for what is printed of them. -/
theorem text_injective (h : ∀ p ∈ parts, p.Plain) (h' : ∀ p ∈ parts', p.Plain)
    (heq : text parts = text parts') : parts = parts' := by
  have hlines : ∀ parts : List Part,
      ∀ s ∈ parts.flatMap fun p => p.heading :: p.below, '\n' ∉ s.toList := by
    intro parts s hs
    obtain ⟨p, -, hs⟩ := List.mem_flatMap.1 hs
    rcases List.mem_cons.1 hs with rfl | hs
    · have hname := newline_not_mem_block p.name
      simp [Part.heading, hname]
    · obtain ⟨l, hl, rfl⟩ := List.mem_map.1 hs
      have hline : '\n' ∉ l.toList := by
        rcases List.mem_append.1 hl with hl | hl
        · obtain ⟨s, -, rfl⟩ := List.mem_map.1 hl
          exact newline_not_mem_step s
        · rw [List.mem_singleton.1 hl]
          exact newline_not_mem_exit p.exit
      simp [hline]
  -- the third character of a line tells a name from what stands below it
  have hkinds : ∀ parts : List Part, ∀ g ∈ parts.map (fun p => (p.heading, p.below)),
      (g.1.toList[2]? == some ' ') = false ∧ ∀ s ∈ g.2, (s.toList[2]? == some ' ') = true := by
    intro parts g hg
    obtain ⟨p, -, rfl⟩ := List.mem_map.1 hg
    constructor
    · simp [Part.heading, toList_numbered]
    · intro s hs
      obtain ⟨l, -, rfl⟩ := List.mem_map.1 hs
      simp
  rw [text_eq_lines, text_eq_lines] at heq
  have hflat := Text.lines_injective (hlines parts) (hlines parts') heq
  have hgroups : parts.map (fun p => (p.heading, p.below)) =
      parts'.map fun p => (p.heading, p.below) :=
    Text.groups_injective (p := fun s : String => s.toList[2]? == some ' ') (hkinds parts)
      (hkinds parts') (by simpa [List.flatMap_map] using hflat)
  refine Text.map_unique (fun p hp p' hp' e => ?_) hgroups
  exact Part.ext_lines (h p hp) (h' p' hp') (heading_known (Prod.mk.inj e).1) (Prod.mk.inj e).2

end Parts

end Listing

end ShaderIR
