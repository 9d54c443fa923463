import ShaderIR.Proofs.Lower.Meaning
import ShaderIR.Proofs.Lower.Valid

/-!
# The depth/stencil lowering of a block, told forwards

The lowering goes through a block from its end and changes it where it stands.  The reference goes
from the first row to the last, and knows from the start what the combined write gets.

* `DepthStencil.conversion`: how a stored value gets the type of its aspect.
* `DepthStencil.written`, `DepthStencil.storedValue`: what the combined write of a block writes.
* `DepthStencil.reference`: the rows of a block once its stores have been merged.
* `DepthStencil.Consolidates`: some rows are the reference for others, with new identities.
* `DepthStencil.LastRepeated`, `DepthStencil.Halted`: the store at which the lowering of a block
  stops, and what it leaves.
* `DepthStencil.Merged`: how far the walk from the end has come; `DepthStencil.Result`: what it has
  made of a block.

Principal statements: `filter_sublist_rewrite` (the reference keeps all rows but the stores),
`MergeStep.result` (one store is merged as the reference has it, unless its aspect is stored again)
and `Merges.result` (so are those of a block).
-/

namespace ShaderIR

theorem Inst.combined_inj {mask : Value} {set set' : AspectSet} {value value' : Aspect → Value}
    (h : Inst.combined mask set value = Inst.combined mask set' value') :
    set = set' ∧ value = value' := by
  simp only [Inst.combined, Inst.mk.injEq, InstKind.intrinsic.injEq, Intrinsic.combinedWrite.injEq,
    List.cons.injEq, true_and, and_true] at h
  obtain ⟨hset, hdepth, hstencil⟩ := h
  refine ⟨hset, funext fun a => ?_⟩
  cases a with
  | depth => exact hdepth
  | stencil => exact hstencil

namespace DepthStencil

/-! ## The reference -/

/-- None of these rows is a store of an aspect. -/
def StoreFree (rs : List Row) : Prop := ∀ r ∈ rs, r.2.stores? = none

instance (rs : List Row) : Decidable (StoreFree rs) :=
  inferInstanceAs (Decidable (∀ r ∈ rs, r.2.stores? = none))

section Definitions

variable (c : Code) (conv : InstId → InstId)

/-- How the value of a store gets the type of its aspect, for code `c` before the lowering: the rows
that convert it, which are none if it has that type already, and the value that comes out.  The
conversion for a store takes the identity that `conv` gives to the store. -/
def conversion (a : Aspect) (r : Row) : List Row × Value :=
  match r.2.inputs with
  | [v] =>
    if c.typeOf v = .ok a.scalarType then ([], v)
    else ([(conv r.1, ⟨.alu a.converter, [v], some a.scalarType⟩)], .result (conv r.1))
  | _ => ([], openValues a)

/-- The aspects that some rows store. -/
def written (rs : List Row) : AspectSet :=
  (rs.filterMap fun r => r.2.stores?).foldr (fun a s => s.insert a) .empty

/-- What some rows store to an aspect, after its conversion.  It is undefined if they do not. -/
def storedValue (rs : List Row) (a : Aspect) : Value :=
  match rs.find? fun r => r.2.stores? = some a with
  | some r => (conversion c conv a r).2
  | none => openValues a

/-- Every store is replaced by the conversion of its value, and `write` follows where the last
was. -/
def rewrite (write : Row) : List Row → List Row
  | [] => []
  | r :: rs =>
    match r.2.stores? with
    | none => r :: rewrite write rs
    | some a =>
      (conversion c conv a r).1 ++ if StoreFree rs then write :: rs else rewrite write rs

/-- The rows of a block once its stores have been merged into one combined write. -/
def reference (mask : Value) (z : InstId) (rs : List Row) : List Row :=
  rewrite c conv (z, .combined mask (written rs) (storedValue c conv rs)) rs

/-- Some rows are the reference for others, and what is new has an identity from `n` on. -/
def Consolidates (mask : Value) (n : Nat) (rs out : List Row) : Prop :=
  ∃ conv z, (∀ id, n ≤ (conv id).index) ∧ n ≤ z.index ∧ out = reference c conv mask z rs

end Definitions

section Lemmas

variable {c c' : Code} {conv conv' : InstId → InstId} {rs out out' mid mid' s s' : List Row}
  {r q x y write : Row} {a : Aspect} {mask : Value} {z : InstId} {n : Nat}

theorem storeFree_nil : StoreFree [] := List.forall_mem_nil _

theorem storeFree_cons : StoreFree (r :: rs) ↔ r.2.stores? = none ∧ StoreFree rs :=
  List.forall_mem_cons

theorem rewrite_of_storeFree (h : StoreFree rs) : rewrite c conv write rs = rs := by
  induction rs with
  | nil => rfl
  | cons r rs ih =>
    obtain ⟨hr, hrs⟩ := storeFree_cons.1 h
    simp only [rewrite, hr, ih hrs]

theorem rewrite_cons_of_none (h : r.2.stores? = none) :
    rewrite c conv write (r :: rs) = r :: rewrite c conv write rs := by
  simp only [rewrite, h]

theorem rewrite_cons_last (h : r.2.stores? = some a) (hrs : StoreFree rs) :
    rewrite c conv write (r :: rs) = (conversion c conv a r).1 ++ write :: rs := by
  simp only [rewrite, h, if_pos hrs]

theorem rewrite_cons_of_some (h : r.2.stores? = some a) (hrs : ¬ StoreFree rs) :
    rewrite c conv write (r :: rs) = (conversion c conv a r).1 ++ rewrite c conv write rs := by
  simp only [rewrite, h, if_neg hrs]

/-- There is one place for the combined write in a block that stores something. -/
theorem exists_rewrite_eq (h : ¬ StoreFree rs) :
    ∃ mid s, ∀ write, rewrite c conv write rs = mid ++ write :: s := by
  induction rs with
  | nil => exact absurd storeFree_nil h
  | cons r rs ih =>
    cases hr : r.2.stores? with
    | none =>
      obtain ⟨mid, s, hsplit⟩ := ih fun hrs => h (storeFree_cons.2 ⟨hr, hrs⟩)
      exact ⟨r :: mid, s, fun write => by rw [rewrite_cons_of_none hr, hsplit]; rfl⟩
    | some a =>
      by_cases hrs : StoreFree rs
      · exact ⟨_, rs, fun write => rewrite_cons_last hr hrs⟩
      · obtain ⟨mid, s, hsplit⟩ := ih hrs
        refine ⟨(conversion c conv a r).1 ++ mid, s, fun write => ?_⟩
        rw [rewrite_cons_of_some hr hrs, hsplit, List.append_assoc]

theorem stores?_of_mem_conversion (h : q ∈ (conversion c conv a r).1) : q.2.stores? = none := by
  unfold conversion at h
  split at h
  · split at h
    · cases h
    · rw [List.mem_singleton.1 h]
      rfl
  · cases h

/-- No stores are left. -/
theorem storeFree_rewrite (hw : write.2.stores? = none) :
    StoreFree (rewrite c conv write rs) := by
  induction rs with
  | nil => exact storeFree_nil
  | cons r rs ih =>
    cases hr : r.2.stores? with
    | none =>
      rw [rewrite_cons_of_none hr]
      exact storeFree_cons.2 ⟨hr, ih⟩
    | some a =>
      intro q hq
      by_cases hrs : StoreFree rs
      · rw [rewrite_cons_last hr hrs] at hq
        exact (List.mem_append.1 hq).elim stores?_of_mem_conversion (storeFree_cons.2 ⟨hw, hrs⟩ q)
      · rw [rewrite_cons_of_some hr hrs] at hq
        exact (List.mem_append.1 hq).elim stores?_of_mem_conversion (ih q)

/-- All rows but the stores are kept, in order. -/
theorem filter_sublist_rewrite :
    (rs.filter fun r => r.2.stores? = none).Sublist (rewrite c conv write rs) := by
  induction rs with
  | nil => exact .slnil
  | cons r rs ih =>
    cases hr : r.2.stores? with
    | none =>
      rw [rewrite_cons_of_none hr, List.filter_cons_of_pos (by simp [hr])]
      exact ih.cons_cons r
    | some a =>
      rw [List.filter_cons_of_neg (by simp [hr])]
      by_cases hrs : StoreFree rs
      · rw [rewrite_cons_last hr hrs]
        exact (List.filter_sublist.cons write).trans (List.sublist_append_right ..)
      · rw [rewrite_cons_of_some hr hrs]
        exact ih.trans (List.sublist_append_right ..)

theorem conversion_congr (h : conv r.1 = conv' r.1) :
    conversion c conv a r = conversion c conv' a r := by
  unfold conversion
  rw [h]

/-- Rows in which the stores are converted alike. -/
theorem rewrite_congr (h : ∀ r ∈ rs, ∀ a, r.2.stores? = some a →
    conversion c conv a r = conversion c' conv' a r) :
    rewrite c conv write rs = rewrite c' conv' write rs := by
  induction rs with
  | nil => rfl
  | cons r rs ih =>
    obtain ⟨hr, hrs⟩ := List.forall_mem_cons.1 h
    unfold rewrite
    cases ha : r.2.stores? with
    | none => simp only [ih hrs]
    | some a => simp only [ih hrs, hr a ha]

theorem storedValue_congr (h : ∀ r ∈ rs, ∀ a, r.2.stores? = some a →
    conversion c conv a r = conversion c' conv' a r) :
    storedValue c conv rs = storedValue c' conv' rs := by
  funext a
  unfold storedValue
  split
  · rename_i r hr
    have ha : r.2.stores? = some a := by simpa using List.find?_some hr
    exact congrArg Prod.snd (h r (List.mem_of_find?_eq_some hr) a ha)
  · rfl

theorem reference_of_storeFree (h : StoreFree rs) : reference c conv mask z rs = rs :=
  rewrite_of_storeFree h

theorem written_cons_of_none (h : r.2.stores? = none) : written (r :: rs) = written rs := by
  simp only [written, List.filterMap_cons, h]

theorem written_cons_of_some (h : r.2.stores? = some a) :
    written (r :: rs) = (written rs).insert a := by
  simp only [written, List.filterMap_cons, h, List.foldr_cons]

theorem contains_written : (written rs).contains a = true ↔ ∃ r ∈ rs, r.2.stores? = some a := by
  induction rs with
  | nil =>
    have hempty : AspectSet.empty.contains a = false := by cases a <;> decide
    simp [written, hempty]
  | cons r rs ih =>
    rw [List.exists_mem_cons_iff, ← ih]
    cases hr : r.2.stores? with
    | none => simp [written_cons_of_none hr]
    | some a' =>
      rw [written_cons_of_some hr, AspectSet.contains_insert, Bool.or_eq_true, decide_eq_true_eq,
        or_comm, Option.some_inj, eq_comm]

theorem written_of_storeFree (h : StoreFree rs) : written rs = .empty := by
  rw [written, List.filterMap_eq_nil_iff.2 h, List.foldr_nil]

theorem storedValue_cons_of_none (h : r.2.stores? = none) :
    storedValue c conv (r :: rs) = storedValue c conv rs := by
  funext a
  rw [storedValue, List.find?_cons_of_neg (by simp [h]), storedValue]

theorem storedValue_cons_of_some (h : r.2.stores? = some a) : storedValue c conv (r :: rs) =
    Function.update (storedValue c conv rs) a (conversion c conv a r).2 := by
  funext a'
  by_cases ha : a' = a
  · subst ha
    rw [Function.update_self, storedValue, List.find?_cons_of_pos (by simp [h])]
  · have hne : ¬ a = a' := fun e => ha e.symm
    rw [Function.update_of_ne ha, storedValue, List.find?_cons_of_neg (by simp [h, hne]),
      storedValue]

theorem storedValue_of_storeFree (h : StoreFree rs) : storedValue c conv rs = openValues := by
  funext a
  have hnone : rs.find? (fun r => r.2.stores? = some a) = none :=
    List.find?_eq_none.2 fun r hr => by simp [h r hr]
  rw [storedValue, hnone]

theorem reference_cons_of_none (h : r.2.stores? = none) :
    reference c conv mask z (r :: rs) = r :: reference c conv mask z rs := by
  rw [reference, written_cons_of_none h, storedValue_cons_of_none h, rewrite_cons_of_none h,
    reference]

/-- Where a row stands is known from its identity. -/
theorem split_unique (h : mid ++ x :: s = mid' ++ y :: s') (hxy : x.1 = y.1)
    (hnd : ((mid ++ x :: s).map Prod.fst).Nodup) : mid = mid' ∧ x = y ∧ s = s' := by
  have hlen : mid.length = mid'.length := by
    apply (List.getElem?_inj (l := (mid ++ x :: s).map Prod.fst) (by simp) hnd).1
    rw [List.getElem?_map, List.getElem?_append_right (Nat.le_refl _), h, List.getElem?_map,
      List.getElem?_append_right (Nat.le_refl _)]
    simp [hxy]
  obtain ⟨hmid, hrest⟩ := List.append_inj h hlen
  obtain ⟨hx, hs⟩ := List.cons.inj hrest
  exact ⟨hmid, hx, hs⟩

/-- The reference with one more store, which is the last. -/
theorem reference_cons_last {new : List Row} {v : Value} (h : r.2.stores? = some a)
    (hrs : StoreFree rs) (hconv : conversion c conv a r = (new, v)) :
    reference c conv mask z (r :: rs) =
      new ++ (z, .combined mask (AspectSet.empty.insert a) (Function.update openValues a v)) ::
        rs := by
  rw [reference, rewrite_cons_last h hrs, written_cons_of_some h, storedValue_cons_of_some h, hconv,
    written_of_storeFree hrs, storedValue_of_storeFree hrs]

/-- An identity for a row that is not there plays no part. -/
theorem conversion_update {k : InstId} (hr : r.1 ∉ rs.map Prod.fst) : ∀ q ∈ rs, ∀ a,
    q.2.stores? = some a →
      conversion c conv a q = conversion c (Function.update conv r.1 k) a q := by
  intro q hq a _
  have hne : q.1 ≠ r.1 := fun e => hr (e ▸ List.mem_map_of_mem hq)
  exact conversion_congr (Function.update_of_ne hne _ _).symm

theorem reference_congr (h : ∀ r ∈ rs, ∀ a, r.2.stores? = some a →
    conversion c conv a r = conversion c' conv' a r) :
    reference c conv mask z rs = reference c' conv' mask z rs := by
  rw [reference, reference, rewrite_congr h, storedValue_congr h]

/-- The reference with one more store, which is not the last.  Only its conversion is given another
identity, so the rows after it stay as they are. -/
theorem reference_cons_of_some {new : List Row} {v : Value} {k : InstId}
    (h : r.2.stores? = some a) (hrs : ¬ StoreFree rs) (hids : ((r :: rs).map Prod.fst).Nodup)
    (hsplit : ∀ write, rewrite c conv write rs = mid ++ write :: s)
    (hconv : conversion c (Function.update conv r.1 k) a r = (new, v)) :
    reference c (Function.update conv r.1 k) mask z (r :: rs) =
      new ++ mid ++ (z, .combined mask ((written rs).insert a)
        (Function.update (storedValue c conv rs) a v)) :: s := by
  have hsame : ∀ q ∈ rs, ∀ a, q.2.stores? = some a →
      conversion c conv a q = conversion c (Function.update conv r.1 k) a q :=
    conversion_update (List.nodup_cons.1 hids).1
  rw [reference, rewrite_cons_of_some h hrs, written_cons_of_some h, storedValue_cons_of_some h,
    hconv, ← rewrite_congr hsame, ← storedValue_congr hsame, hsplit, List.append_assoc]

/-- A combined write among the rows of the reference is the one that the reference has. -/
theorem reference_split {set : AspectSet} {value : Aspect → Value} (hrs : ¬ StoreFree rs)
    (h : mid ++ (z, .combined mask set value) :: s = reference c conv mask z rs)
    (hnd : ((mid ++ (z, .combined mask set value) :: s).map Prod.fst).Nodup) :
    (∀ write, rewrite c conv write rs = mid ++ write :: s) ∧ set = written rs ∧
      value = storedValue c conv rs := by
  obtain ⟨mid', s', hsplit⟩ : ∃ mid s, ∀ write, rewrite c conv write rs = mid ++ write :: s :=
    exists_rewrite_eq hrs
  rw [reference, hsplit] at h
  obtain ⟨rfl, hwrite, rfl⟩ := split_unique h rfl hnd
  obtain ⟨hset, hvalue⟩ := Inst.combined_inj (Prod.mk.inj hwrite).2
  exact ⟨hsplit, hset, hvalue⟩

end Lemmas

/-! ## Blocks -/

/-- What is done of a block is the reference for its rows `rs`, and the combined write, if they need
one, is known. -/
inductive Merged (c : Code) (mask : Value) (n : Nat) (rs : List Row) :
    List Row → Option InstId → Prop where
  | untouched (free : StoreFree rs) : Merged c mask n rs rs none
  | rewritten {done : List Row} {conv : InstId → InstId} {z : InstId} (stores : ¬ StoreFree rs)
    (newConv : ∀ id, n ≤ (conv id).index) (newWrite : n ≤ z.index)
    (eq : done = reference c conv mask z rs) : Merged c mask n rs done (some z)

/-- The last of some rows that stores an aspect which is stored again after it. -/
structure LastRepeated (rs p : List Row) (r : Row) (s : List Row) (a : Aspect) : Prop where
  split : rs = p ++ r :: s
  stores : r.2.stores? = some a
  again : ∃ q ∈ s, q.2.stores? = some a
  once : (s.filterMap fun r => r.2.stores?).Nodup

/-- The lowering of a block has stopped at the last store whose aspect is stored again after it:
the stores after it have been merged, and the rows before it are as they were.  The store has been
kept, and its value has been converted. -/
def Halted (c : Code) (mask : Value) (n : Nat) (rs out : List Row) (a : Aspect) : Prop :=
  ∃ p r s conv z, LastRepeated rs p r s a ∧ (∀ id, n ≤ (conv id).index) ∧ n ≤ z.index ∧
    out = p ++ ((conversion c conv a r).1 ++ r :: reference c conv mask z s)

/-- What the lowering has made of the rows of a block, and what it returns. -/
inductive Result (c : Code) (mask : Value) (n : Nat) (rs out : List Row) :
    Except Aspect Bool → Prop where
  | merged {changed : Bool} (once : (rs.filterMap fun r => r.2.stores?).Nodup)
    (consolidates : Consolidates c mask n rs out) : Result c mask n rs out (.ok changed)
  | halted {a : Aspect} (halted : Halted c mask n rs out a) : Result c mask n rs out (.error a)

section Blocks

variable {c : Code} {f : Flow} {mask : Value} {n : Nat} {rows : BlockId → List Row} {b : BlockId}
  {p rs done done' out new : List Row} {r : Row} {t : Option InstId} {a : Aspect} {v v' : Value}
  {ty : ScalarType} {conv : InstId → InstId} {res : Except Aspect InstId}

theorem consolidates_of_storeFree (h : StoreFree rs) : Consolidates c mask n rs rs :=
  ⟨fun _ => ⟨n⟩, ⟨n⟩, fun _ => Nat.le_refl n, Nat.le_refl n, (reference_of_storeFree h).symm⟩

theorem Merged.consolidates (h : Merged c mask n rs done t) : Consolidates c mask n rs done := by
  cases h with
  | untouched free => exact consolidates_of_storeFree free
  | rewritten stores newConv newWrite eq => exact ⟨_, _, newConv, newWrite, eq⟩

/-- A row that is not a store is kept as it is. -/
theorem Merged.skip (h : Merged c mask n rs done t) (other : r.2.stores? = none) :
    Merged c mask n (r :: rs) (r :: done) t := by
  cases h with
  | untouched free => exact .untouched (storeFree_cons.2 ⟨other, free⟩)
  | rewritten stores newConv newWrite eq =>
    refine .rewritten (fun free => stores (storeFree_cons.1 free).2) newConv newWrite ?_
    rw [eq, reference_cons_of_none other]

/-- A stored value is converted as in the reference, with the identity that its conversion has got
for the store. -/
theorem Converts.conversion_eq (h : Converts a v ty new v') (inputs : r.2.inputs = [v])
    (htype : c.typeOf v = .ok ty) (hnew : ∀ id ∈ new.map Prod.fst, n ≤ id.index)
    (hconv : ∀ id, n ≤ (conv id).index) : ∃ k : InstId,
      (∀ id, n ≤ (Function.update conv r.1 k id).index) ∧
      conversion c (Function.update conv r.1 k) a r = (new, v') := by
  cases h with
  | same hty =>
    refine ⟨conv r.1, by rwa [Function.update_eq_self], ?_⟩
    rw [conversion, inputs]
    simp only [htype, hty, if_true]
  | new id hty =>
    have hid : n ≤ id.index := hnew id (by simp)
    have hne : ¬ c.typeOf v = .ok a.scalarType := by
      rw [htype]
      exact fun e => hty (Except.ok.inj e)
    refine ⟨id, ?_, ?_⟩
    · exact (Function.forall_update_iff conv fun _ y => n ≤ y.index).2 ⟨hid, fun y _ => hconv y⟩
    · rw [conversion, inputs]
      simp only [if_neg hne, Function.update_self]

theorem nodup_done (h : ∃ c : Code, c.Shows (Function.update rows b (p ++ r :: done))) :
    (done.map Prod.fst).Nodup := by
  obtain ⟨c, hc⟩ := h
  have hall := hc.ids_nodup b
  rw [Function.update_self, List.map_append, List.map_cons] at hall
  exact (List.nodup_cons.1 (List.nodup_append.1 hall).2.1).2

theorem nodup_stores_cons (h : r.2.stores? = some a) :
    ((r :: rs).filterMap fun r => r.2.stores?).Nodup ↔
      (¬ ∃ q ∈ rs, q.2.stores? = some a) ∧ (rs.filterMap fun r => r.2.stores?).Nodup := by
  rw [List.filterMap_cons_some (f := fun r : Row => r.2.stores?) h, List.nodup_cons,
    List.mem_filterMap]

theorem LastRepeated.append {s : List Row} (h : LastRepeated rs p r s a) (p' : List Row) :
    LastRepeated (p' ++ rs) (p' ++ p) r s a :=
  ⟨by rw [h.split, List.append_assoc], h.stores, h.again, h.once⟩

theorem Halted.not_once (h : Halted c mask n rs out a) :
    ¬ (rs.filterMap fun r => r.2.stores?).Nodup := by
  obtain ⟨p, r, s, -, -, hlast, -, -, -⟩ := h
  rw [hlast.split, List.filterMap_append]
  intro once
  exact ((nodup_stores_cons hlast.stores).1 (List.nodup_append.1 once).2.1).1 hlast.again

/-- Rows before those at which the lowering stops are not looked at. -/
theorem Halted.append (h : Halted c mask n rs out a) (p : List Row) :
    Halted c mask n (p ++ rs) (p ++ out) a := by
  obtain ⟨q, r, s, conv, z, hlast, hconv, hz, hout⟩ := h
  exact ⟨p ++ q, r, s, conv, z, hlast.append p, hconv, hz, by rw [hout, List.append_assoc]⟩

/-- **One store is merged as the reference has it**, or the lowering stops there. -/
theorem MergeStep.result (h : MergeStep f mask n rows b p r done t done' res)
    (hm : Merged c mask n rs done t) (hids : ((r :: rs).map Prod.fst).Nodup)
    (once : (rs.filterMap fun r => r.2.stores?).Nodup)
    (typed : ∀ a v ty, r.2.IsStore a v → f.HasType rows b p v ty → c.typeOf v = .ok ty) :
    (∃ z, res = .ok z ∧ Merged c mask n (r :: rs) done' (some z) ∧
      ((r :: rs).filterMap fun r => r.2.stores?).Nodup) ∨
    ∃ a, res = .error a ∧ Halted c mask n (r :: rs) done' a := by
  have hstores : ¬ StoreFree (r :: rs) := fun free => h.stores_ne_none (storeFree_cons.1 free).1
  cases h with
  | @first a v v' ty new _ z shown isStore hasType converts _ hnew hz =>
    cases hm with
    | untouched free =>
      have hleast : ∀ _ : InstId, n ≤ (⟨n⟩ : InstId).index := fun _ => Nat.le_refl n
      obtain ⟨k, hconv, hconversion⟩ := converts.conversion_eq isStore.inputs
        (typed a v ty isStore hasType) hnew hleast
      have hnone : ¬ ∃ q ∈ rs, q.2.stores? = some a := by
        rintro ⟨q, hq, hqa⟩
        rw [free q hq] at hqa
        cases hqa
      exact .inl ⟨z, rfl, .rewritten hstores hconv hz
        (reference_cons_last isStore.stores free hconversion).symm,
        (nodup_stores_cons isStore.stores).2 ⟨hnone, once⟩⟩
  | @later a v v' ty new mid s z set value shown isStore hasType converts _ hset hnew =>
    generalize hdone : mid ++ (z, .combined mask set value) :: s = done at hm
    cases hm with
    | @rewritten _ conv _ stores newConv newWrite eq =>
      obtain ⟨hsplit, rfl, rfl⟩ := reference_split stores (hdone.trans eq) (nodup_done shown)
      obtain ⟨k, hconv, hconversion⟩ := converts.conversion_eq isStore.inputs
        (typed a v ty isStore hasType) hnew newConv
      have hnone : ¬ ∃ q ∈ rs, q.2.stores? = some a := by
        rw [← contains_written, hset]
        exact Bool.false_ne_true
      exact .inl ⟨z, rfl, .rewritten hstores hconv newWrite
        (reference_cons_of_some isStore.stores stores hids hsplit hconversion).symm,
        (nodup_stores_cons isStore.stores).2 ⟨hnone, once⟩⟩
  | @twice a v v' ty new mid s z set value shown isStore hasType converts _ again hnew =>
    generalize hdone : mid ++ (z, .combined mask set value) :: s = done at hm
    cases hm with
    | @rewritten _ conv _ stores newConv newWrite eq =>
      obtain ⟨-, rfl, -⟩ := reference_split stores (hdone.trans eq) (nodup_done shown)
      obtain ⟨k, hconv, hconversion⟩ := converts.conversion_eq isStore.inputs
        (typed a v ty isStore hasType) hnew newConv
      refine .inr ⟨a, rfl, [], r, rs, Function.update conv r.1 k, z,
        ⟨rfl, isStore.stores, contains_written.1 again, once⟩, hconv, newWrite, ?_⟩
      rw [hconversion, eq,
        reference_congr (conversion_update (k := k) (List.nodup_cons.1 hids).1)]
      rfl

/-- **The walk from the end of a block builds the reference**, up to a store whose aspect is stored
again. -/
theorem Merges.result {res : Except Aspect Bool} (h : Merges f mask n rows b p done t out res)
    (hrows : rows b = p ++ rs) (hm : Merged c mask n rs done t)
    (hids : ((rows b).map Prod.fst).Nodup)
    (once : (rs.filterMap fun r => r.2.stores?).Nodup)
    (typed : ∀ p r s, rows b = p ++ r :: s → ∀ a v ty, r.2.IsStore a v → f.HasType rows b p v ty →
      c.typeOf v = .ok ty) :
    Result c mask n (rows b) out res := by
  have hsuffix : ∀ p rs, rows b = p ++ rs → (rs.map Prod.fst).Nodup := by
    intro p rs hrows
    rw [hrows, List.map_append] at hids
    exact (List.nodup_append.1 hids).2.1
  induction h generalizing rs with
  | @nil done t =>
    obtain rfl : rows b = rs := hrows
    exact .merged once hm.consolidates
  | @skip p done out r t res other _ ih =>
    rw [List.append_assoc, List.singleton_append] at hrows
    refine ih hrows (hm.skip other) ?_
    rwa [List.filterMap_cons_none (f := fun r : Row => r.2.stores?) other]
  | @merge p done done' out r t z res step _ ih =>
    rw [List.append_assoc, List.singleton_append] at hrows
    rcases step.result hm (hsuffix p _ hrows) once (typed p r rs hrows) with
      ⟨z', hz', hm', once'⟩ | ⟨a, ha, -⟩
    · obtain rfl := Except.ok.inj hz'
      exact ih hrows hm' once'
    · cases ha
  | @stop p done done' r t a step =>
    rw [List.append_assoc, List.singleton_append] at hrows
    rcases step.result hm (hsuffix p _ hrows) once (typed p r rs hrows) with
      ⟨z', hz', -⟩ | ⟨a', ha, hhalted⟩
    · cases hz'
    · obtain rfl := Except.error.inj ha
      rw [hrows]
      exact .halted (hhalted.append p)

end Blocks

end DepthStencil

end ShaderIR
