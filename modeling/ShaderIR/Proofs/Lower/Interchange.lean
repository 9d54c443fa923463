import Mathlib.Data.Nat.Pairing
import ShaderIR.Proofs.Lower.Settled
import ShaderIR.Proofs.Text.Renaming

/-!
# Merging stores and replacing discards in either order

What the one lowering puts in, the other does not look at, so that the rows of a block come out
alike in either order.  Only the identities that they take may differ.

* `Role`: what something new is there for.
* `Role.carry`: takes the identities that something new has by its role to those that it has got.
* `lowered`, `Reduces`: the rows of a block once its stores have been merged and its discards
  replaced.

Principal statements: `DepthStencil.reference_discards` (stores and discards may be lowered in
either order), `lowered_rename` (all that the identities do is to name what is new) and
`lowered_takes` (what is new is computed where it is taken).
-/

namespace ShaderIR

/-! ## Either order -/

section Order

variable {c c' : Code} {conv choice kill : InstId → InstId} {mask all nothing : Value} {n : Nat}
  {rs xs ys : List Row} {r q write : Row} {a : Aspect} {x k z : InstId}

namespace Discard

theorem reference_append : reference all nothing choice kill (xs ++ ys) =
    reference all nothing choice kill xs ++ reference all nothing choice kill ys :=
  List.flatMap_append

/-- What replaces a discard stores nothing. -/
theorem storeFree_replace (h : r.2.stores? = none) :
    DepthStencil.StoreFree (replace all nothing x k r) := by
  unfold replace
  split
  · exact List.forall_mem_singleton.2 rfl
  · exact DepthStencil.storeFree_cons.2 ⟨rfl, List.forall_mem_singleton.2 rfl⟩
  · exact List.forall_mem_singleton.2 h

theorem mem_replace (h : q ∈ replace all nothing x k r) :
    q = r ∨ q = (k, .discardSamples all) ∨ ∃ cond ∈ r.2.inputs,
      (x, .selectMask cond all nothing) ∈ replace all nothing x k r ∧
      (q = (x, .selectMask cond all nothing) ∨ q = (k, .discardSamples (.result x))) := by
  unfold replace at h ⊢
  split at h
  · exact .inr (.inl (List.mem_singleton.1 h))
  · rename_i hkind hinputs
    refine .inr (.inr ⟨_, by simp [hinputs], List.mem_cons_self, ?_⟩)
    simpa using h
  · exact .inl (List.mem_singleton.1 h)

/-- The replacements bring nothing that a lowering takes away. -/
theorem mem_of_isLowered (h : q ∈ reference all nothing choice kill rs) (hl : q.2.IsLowered) :
    q ∈ rs := by
  obtain ⟨r, hr, hq⟩ := List.mem_flatMap.1 h
  rcases mem_replace hq with rfl | rfl | ⟨cond, -, -, rfl | rfl⟩
  · exact hr
  · exact absurd hl not_isLowered_discardSamples
  · exact absurd hl not_isLowered_alu
  · exact absurd hl not_isLowered_discardSamples

/-- A store is left alone. -/
theorem replace_of_stores (h : r.2.stores? = some a) : replace all nothing x k r = [r] := by
  apply replace_of_not
  intro hdiscard
  exact hdiscard.not_stores (by simp [Inst.Stores, h])

/-- The same is stored. -/
theorem stored_reference (all nothing : Value) (choice kill : InstId → InstId) (rs : List Row) :
    (reference all nothing choice kill rs).filterMap (fun r => r.2.stores?) =
      rs.filterMap fun r => r.2.stores? := by
  induction rs with
  | nil => rfl
  | cons r rs ih =>
    rw [reference_cons, List.filterMap_append, ih]
    cases h : r.2.stores? with
    | none =>
      rw [List.filterMap_cons_none (f := fun r : Row => r.2.stores?) h,
        List.filterMap_eq_nil_iff.2 (storeFree_replace h), List.nil_append]
    | some a =>
      rw [replace_of_stores h, List.filterMap_cons_some (f := fun r : Row => r.2.stores?) h,
        List.filterMap_cons_some (f := fun r : Row => r.2.stores?) h]
      rfl

theorem storeFree_reference :
    DepthStencil.StoreFree (reference all nothing choice kill rs) ↔ DepthStencil.StoreFree rs := by
  rw [← DepthStencil.isEmpty_stored, stored_reference, DepthStencil.isEmpty_stored]

/-- What is computed is still computed, unless discards have a result. -/
theorem yields_reference (untyped : ∀ r ∈ rs, r.2.IsDiscard → r.2.ty = none) {ty : ScalarType}
    (h : Yields rs x ty) : Yields (reference all nothing choice kill rs) x ty := by
  obtain ⟨i, hi, hty⟩ := h
  refine ⟨i, List.mem_flatMap.2 ⟨(x, i), hi, ?_⟩, hty⟩
  have hnot : ¬ i.IsDiscard := by
    intro hdiscard
    rw [untyped _ hi hdiscard] at hty
    cases hty
  rw [replace_of_not hnot]
  exact List.mem_singleton_self _

end Discard

namespace DepthStencil

theorem conversion_not_discard : Discard.DiscardFree (conversion c conv a r).1 := by
  unfold conversion
  split
  · split
    · exact List.forall_mem_nil _
    · exact List.forall_mem_singleton.2 fun h => not_isLowered_alu (.inr h)
  · exact List.forall_mem_nil _

/-- Stored values are converted alike by code that gives them the same types. -/
theorem conversion_congr_type (h : ∀ v, r.2.inputs = [v] → c.typeOf v = c'.typeOf v) :
    conversion c conv a r = conversion c' conv a r := by
  unfold conversion
  split
  · rename_i v hv
    rw [h v hv]
  · rfl

theorem rewrite_append (h : StoreFree xs) :
    rewrite c conv write (xs ++ ys) = xs ++ rewrite c conv write ys := by
  induction xs with
  | nil => rfl
  | cons x xs ih =>
    obtain ⟨hx, hxs⟩ := storeFree_cons.1 h
    rw [List.cons_append, rewrite_cons_of_none hx, ih hxs, List.cons_append]

theorem find?_stores_reference (rs : List Row) (a : Aspect) :
    (Discard.reference all nothing choice kill rs).find? (fun r => r.2.stores? = some a) =
      rs.find? fun r => r.2.stores? = some a := by
  induction rs with
  | nil => rfl
  | cons r rs ih =>
    rw [Discard.reference_cons, List.find?_append, ih]
    cases h : r.2.stores? with
    | none =>
      have hnone : (Discard.replace all nothing (choice r.1) (kill r.1) r).find?
          (fun r => r.2.stores? = some a) = none := by
        refine List.find?_eq_none.2 fun q hq => ?_
        rw [Discard.storeFree_replace h q hq]
        simp
      rw [hnone, List.find?_cons_of_neg (by simp [h]), Option.none_or]
    | some a' =>
      rw [Discard.replace_of_stores h, ← List.find?_append]
      rfl

/-- The rows around the combined write are the same in either order. -/
theorem rewrite_discards (hwrite : ¬ write.2.IsDiscard) (rs : List Row) :
    rewrite c conv write (Discard.reference all nothing choice kill rs) =
      Discard.reference all nothing choice kill (rewrite c conv write rs) := by
  induction rs with
  | nil => rfl
  | cons r rs ih =>
    cases h : r.2.stores? with
    | none =>
      rw [Discard.reference_cons, rewrite_append (Discard.storeFree_replace h), ih,
        rewrite_cons_of_none h, Discard.reference_cons]
    | some a =>
      have hconv : Discard.reference all nothing choice kill (conversion c conv a r).1 =
          (conversion c conv a r).1 := Discard.reference_of_discardFree conversion_not_discard
      rw [Discard.reference_cons, Discard.replace_of_stores h, List.singleton_append]
      by_cases hrs : StoreFree rs
      · rw [rewrite_cons_last h (Discard.storeFree_reference.2 hrs), rewrite_cons_last h hrs,
          Discard.reference_append, hconv, Discard.reference_cons, Discard.replace_of_not hwrite]
        rfl
      · rw [rewrite_cons_of_some h (mt Discard.storeFree_reference.1 hrs), ih,
          rewrite_cons_of_some h hrs, Discard.reference_append, hconv]

/-- **Stores and discards may be lowered in either order.** -/
theorem reference_discards (rs : List Row) :
    reference c conv mask z (Discard.reference all nothing choice kill rs) =
      Discard.reference all nothing choice kill (reference c conv mask z rs) := by
  have hvalue : storedValue c conv (Discard.reference all nothing choice kill rs) =
      storedValue c conv rs := by
    funext a
    unfold storedValue
    rw [find?_stores_reference]
  have hwritten : written (Discard.reference all nothing choice kill rs) = written rs := by
    unfold written
    rw [Discard.stored_reference]
  unfold reference
  rw [hvalue, hwritten]
  exact rewrite_discards (fun h => not_isLowered_combined (.inr h)) rs

/-- Stores are merged alike by code that gives the same types to what they store. -/
theorem reference_congr_type (h : ∀ r ∈ rs, r.2.Stores → ∀ v, r.2.inputs = [v] →
    c.typeOf v = c'.typeOf v) : reference c conv mask z rs = reference c' conv mask z rs := by
  have hconv : ∀ r ∈ rs, ∀ a, r.2.stores? = some a →
      conversion c conv a r = conversion c' conv a r :=
    fun r hr a ha => conversion_congr_type (h r hr (by simp [Inst.Stores, ha]))
  unfold reference
  rw [storedValue_congr hconv, rewrite_congr hconv]

end DepthStencil

end Order

/-! ## Other identities -/

/-- Some rows, and all that they take, were there before the identity `n` was given away. -/
def Older (n : Nat) (rs : List Row) : Prop :=
  ∀ r ∈ rs, r.1.index < n ∧ ∀ x, .result x ∈ r.2.inputs → x.index < n

/-- Nothing in some rows gets another identity. -/
def Fixes (ι : InstId → InstId) (rs : List Row) : Prop :=
  ∀ r ∈ rs, ι r.1 = r.1 ∧ ∀ v ∈ r.2.inputs, v.rename ι = v

section Identities

variable {c : Code} {conv conv' choice choice' kill kill' ι : InstId → InstId}
  {all nothing : Constant} {mask : Value} {n : Nat} {rs : List Row} {r q write : Row}
  {a : Aspect} {x k z : InstId}

theorem fixes_cons : Fixes ι (r :: rs) ↔
    (ι r.1 = r.1 ∧ ∀ v ∈ r.2.inputs, v.rename ι = v) ∧ Fixes ι rs :=
  List.forall_mem_cons

theorem map_rename_eq_self {vs : List Value} (h : ∀ v ∈ vs, v.rename ι = v) :
    vs.map (Value.rename ι) = vs :=
  (List.map_congr_left h).trans (List.map_id vs)

theorem Row.rename_eq_self (hid : ι r.1 = r.1) (hinputs : ∀ v ∈ r.2.inputs, v.rename ι = v) :
    Row.rename ι r = r := by
  unfold Row.rename Inst.rename
  rw [hid, map_rename_eq_self hinputs]

theorem Fixes.map_rename (h : Fixes ι rs) : rs.map (Row.rename ι) = rs := by
  induction rs with
  | nil => rfl
  | cons r rs ih =>
    obtain ⟨⟨hid, hinputs⟩, hrs⟩ := fixes_cons.1 h
    rw [List.map_cons, Row.rename_eq_self hid hinputs, ih hrs]

namespace DepthStencil

theorem conversion_rename (h : ∀ v ∈ r.2.inputs, v.rename ι = v)
    (hconv : ι (conv r.1) = conv' r.1) :
    (conversion c conv a r).1.map (Row.rename ι) = (conversion c conv' a r).1 ∧
      (conversion c conv a r).2.rename ι = (conversion c conv' a r).2 := by
  unfold conversion
  split
  · rename_i v hv
    have hvalue : v.rename ι = v := h v (by simp [hv])
    split
    · exact ⟨rfl, hvalue⟩
    · simp only [List.map_cons, List.map_nil, Row.rename, Inst.rename, hvalue, hconv]
      exact ⟨trivial, congrArg Value.result hconv⟩
  · exact ⟨rfl, rfl⟩

theorem rewrite_rename (h : Fixes ι rs) (hconv : ∀ r ∈ rs, ι (conv r.1) = conv' r.1) :
    (rewrite c conv write rs).map (Row.rename ι) = rewrite c conv' (Row.rename ι write) rs := by
  induction rs with
  | nil => rfl
  | cons r rs ih =>
    obtain ⟨⟨hid, hinputs⟩, hrs⟩ := fixes_cons.1 h
    obtain ⟨hr, hconvs⟩ := List.forall_mem_cons.1 hconv
    cases ha : r.2.stores? with
    | none =>
      rw [rewrite_cons_of_none ha, rewrite_cons_of_none ha, List.map_cons, ih hrs hconvs,
        Row.rename_eq_self hid hinputs]
    | some a =>
      obtain ⟨hnew, -⟩ := conversion_rename (c := c) (a := a) hinputs hr
      by_cases hfree : StoreFree rs
      · rw [rewrite_cons_last ha hfree, rewrite_cons_last ha hfree, List.map_append, hnew,
          List.map_cons, hrs.map_rename]
      · rw [rewrite_cons_of_some ha hfree, rewrite_cons_of_some ha hfree, List.map_append, hnew,
          ih hrs hconvs]

theorem storedValue_rename (h : Fixes ι rs) (hconv : ∀ r ∈ rs, ι (conv r.1) = conv' r.1)
    (a : Aspect) : (storedValue c conv rs a).rename ι = storedValue c conv' rs a := by
  unfold storedValue
  split
  · rename_i r hr
    have hmem := List.mem_of_find?_eq_some hr
    exact (conversion_rename (h r hmem).2 (hconv r hmem)).2
  · rfl

/-- Stores are merged alike under other identities. -/
theorem reference_rename (h : Fixes ι rs) (hconv : ∀ r ∈ rs, ι (conv r.1) = conv' r.1)
    (hmask : mask.rename ι = mask) :
    (reference c conv mask z rs).map (Row.rename ι) = reference c conv' mask (ι z) rs := by
  have hwrite : Row.rename ι (z, .combined mask (written rs) (storedValue c conv rs)) =
      (ι z, .combined mask (written rs) (storedValue c conv' rs)) := by
    simp only [Row.rename, Inst.rename, Inst.combined, List.map_cons, List.map_nil, hmask,
      storedValue_rename h hconv]
  unfold reference
  rw [rewrite_rename h hconv, hwrite]

end DepthStencil

namespace Discard

theorem replace_rename : (replace (.const all) (.const nothing) x k r).map (Row.rename ι) =
    replace (.const all) (.const nothing) (ι x) (ι k) (Row.rename ι r) := by
  by_cases hdiscard : r.2.IsDiscard
  swap
  · have hrenamed : ¬ (Row.rename ι r).2.IsDiscard := hdiscard
    rw [replace_of_not hdiscard, replace_of_not hrenamed, List.map_singleton]
  rcases hdiscard with hkind | hkind
  · have hrenamed : (Row.rename ι r).2.kind = .intrinsic .discard := hkind
    rw [replace_discard hkind, replace_discard hrenamed]
    rfl
  · have hrenamed : (Row.rename ι r).2.kind = .intrinsic .discardIf := hkind
    have hinputs : (Row.rename ι r).2.inputs = r.2.inputs.map (Value.rename ι) := rfl
    unfold replace
    rw [hkind, hrenamed, hinputs]
    cases r.2.inputs <;> rfl

/-- Discards are replaced alike under other identities. -/
theorem reference_rename (h : ∀ r ∈ rs, r.2.IsDiscard →
    ι (choice r.1) = choice' (ι r.1) ∧ ι (kill r.1) = kill' (ι r.1)) :
    (reference (.const all) (.const nothing) choice kill rs).map (Row.rename ι) =
      reference (.const all) (.const nothing) choice' kill' (rs.map (Row.rename ι)) := by
  unfold reference
  rw [List.map_flatMap, List.flatMap_map]
  apply List.flatMap_congr
  intro r hr
  show (replace _ _ (choice r.1) (kill r.1) r).map (Row.rename ι) =
    replace _ _ (choice' (ι r.1)) (kill' (ι r.1)) (Row.rename ι r)
  rw [replace_rename]
  by_cases hdiscard : r.2.IsDiscard
  · obtain ⟨hchoice, hkill⟩ := h r hr hdiscard
    rw [hchoice, hkill]
  · have hrenamed : ¬ (Row.rename ι r).2.IsDiscard := hdiscard
    rw [replace_of_not hrenamed, replace_of_not hrenamed]

end Discard

end Identities

/-! ## What is new -/

/-- What something new is there for: the conversion of what a store stores, the combined write of a
block, or the choice or the use of a mask in place of a discard. -/
inductive Role where
  | converts (b : BlockId) (store : InstId)
  | writes (b : BlockId)
  | chooses (b : BlockId) (discard : InstId)
  | kills (b : BlockId) (discard : InstId)

namespace Role

/-- A number for every role. -/
def code : Role → Nat
  | converts b x => 4 * Nat.pair b.index x.index
  | writes b => 4 * b.index + 1
  | chooses b x => 4 * Nat.pair b.index x.index + 2
  | kills b x => 4 * Nat.pair b.index x.index + 3

/-- The block that something new stands in. -/
def block : Role → BlockId
  | converts b _ => b
  | writes b => b
  | chooses b _ => b
  | kills b _ => b

/-- Identities for what is new in one block. -/
def assign (conv : InstId → InstId) (z : InstId) (choice kill : InstId → InstId) : Role → InstId
  | converts _ x => conv x
  | writes _ => z
  | chooses _ x => choice x
  | kills _ x => kill x

theorem code_injective : Function.Injective code := by
  have hpair : ∀ {b d : BlockId} {x y : InstId},
      Nat.pair b.index x.index = Nat.pair d.index y.index → b = d ∧ x = y := by
    intro b d x y h
    obtain ⟨hb, hx⟩ := Nat.pair_eq_pair.1 h
    exact ⟨congrArg Id.mk hb, congrArg Id.mk hx⟩
  intro u v h
  cases u <;> cases v <;> simp only [code] at h
  case converts.converts b x d y =>
    obtain ⟨rfl, rfl⟩ : b = d ∧ x = y := hpair (by omega)
    rfl
  case writes.writes b d =>
    have hb : b.index = d.index := by omega
    exact congrArg (fun i => writes ⟨i⟩) hb
  case chooses.chooses b x d y =>
    obtain ⟨rfl, rfl⟩ : b = d ∧ x = y := hpair (by omega)
    rfl
  case kills.kills b x d y =>
    obtain ⟨rfl, rfl⟩ : b = d ∧ x = y := hpair (by omega)
    rfl
  -- two roles of different kinds leave different remainders
  all_goals omega

/-- An identity for every role, from `n` on. -/
def fresh (n : Nat) (role : Role) : InstId := ⟨n + role.code⟩

theorem fresh_injective (n : Nat) : Function.Injective (fresh n) := by
  intro u v h
  have hcode : n + u.code = n + v.code := congrArg Id.index h
  exact code_injective (by omega)

/-- Takes the identities of roles to others; all that was there before keeps its own. -/
noncomputable def carry (n : Nat) (name : Role → InstId) : InstId → InstId :=
  Function.extend (fresh n) name id

variable {n : Nat} {name : Role → InstId} {x : InstId}

@[simp] theorem carry_fresh (role : Role) : carry n name (fresh n role) = name role :=
  (fresh_injective n).extend_apply name id role

theorem carry_of_lt (h : x.index < n) : carry n name x = x := by
  apply Function.extend_apply'
  rintro ⟨role, rfl⟩
  exact Nat.not_lt.2 (Nat.le_add_right n role.code) h

/-- Nothing new gets an identity that was there before. -/
theorem eq_of_carry_lt (hname : ∀ role, n ≤ (name role).index) (h : (carry n name x).index < n) :
    carry n name x = x := by
  by_cases hrole : ∃ role, fresh n role = x
  · obtain ⟨role, rfl⟩ := hrole
    rw [carry_fresh] at h
    exact absurd (hname role) (Nat.not_le.2 h)
  · exact Function.extend_apply' _ _ _ hrole

end Role

/-- The rows of a block once its stores have been merged and its discards replaced, with an identity
for every role. -/
def lowered (c : Code) (all nothing : Constant) (name : Role → InstId) (b : BlockId)
    (rs : List Row) : List Row :=
  Discard.reference (.const all) (.const nothing) (fun x => name (.chooses b x))
    (fun x => name (.kills b x))
    (DepthStencil.reference c (fun x => name (.converts b x)) (.const all) (name (.writes b)) rs)

section Lowered

variable {c : Code} {all nothing : Constant} {name : Role → InstId} {b : BlockId} {n : Nat}
  {conv choice kill : InstId → InstId} {rs : List Row} {r q write : Row} {a : Aspect} {x z : InstId}

/-- A value that was there before stays as it is. -/
theorem rename_carry {v : Value} (h : ∀ x, v = .result x → x.index < n) :
    v.rename (Role.carry n name) = v := by
  cases v with
  | const k => rfl
  | result x => exact congrArg Value.result (Role.carry_of_lt (h x rfl))

theorem Older.fixes (h : Older n rs) : Fixes (Role.carry n name) rs := by
  intro r hr
  obtain ⟨hid, hinputs⟩ := h r hr
  exact ⟨Role.carry_of_lt hid, fun v hv => rename_carry fun x hx => hinputs x (hx ▸ hv)⟩

namespace DepthStencil

/-- What the rows are once the stores have been merged. -/
theorem mem_rewrite (h : q ∈ rewrite c conv write rs) :
    q ∈ rs ∨ q = write ∨ ∃ r ∈ rs, ∃ a, q ∈ (conversion c conv a r).1 := by
  induction rs with
  | nil => cases h
  | cons r rs ih =>
    have hlater : q ∈ rewrite c conv write rs →
        q ∈ r :: rs ∨ q = write ∨ ∃ r' ∈ r :: rs, ∃ a, q ∈ (conversion c conv a r').1 := by
      intro hq
      rcases ih hq with hq | hq | ⟨r', hr', a, hq⟩
      · exact .inl (List.mem_cons_of_mem r hq)
      · exact .inr (.inl hq)
      · exact .inr (.inr ⟨r', List.mem_cons_of_mem r hr', a, hq⟩)
    cases ha : r.2.stores? with
    | none =>
      rw [rewrite_cons_of_none ha] at h
      rcases List.mem_cons.1 h with rfl | h
      · exact .inl List.mem_cons_self
      · exact hlater h
    | some a =>
      have hnew : q ∈ (conversion c conv a r).1 →
          q ∈ r :: rs ∨ q = write ∨ ∃ r' ∈ r :: rs, ∃ a, q ∈ (conversion c conv a r').1 :=
        fun hq => .inr (.inr ⟨r, List.mem_cons_self, a, hq⟩)
      by_cases hrs : StoreFree rs
      · rw [rewrite_cons_last ha hrs, List.mem_append, List.mem_cons] at h
        rcases h with h | h | h
        · exact hnew h
        · exact .inr (.inl h)
        · exact .inl (List.mem_cons_of_mem r h)
      · rw [rewrite_cons_of_some ha hrs, List.mem_append] at h
        exact h.elim hnew hlater

/-- What is stored is converted. -/
theorem conversion_subset (hr : r ∈ rs) (ha : r.2.stores? = some a) :
    (conversion c conv a r).1 ⊆ rewrite c conv write rs := by
  induction rs with
  | nil => cases hr
  | cons r' rs ih =>
    intro q hq
    cases ha' : r'.2.stores? with
    | none =>
      rw [rewrite_cons_of_none ha']
      rcases List.mem_cons.1 hr with rfl | hr
      · rw [ha] at ha'
        cases ha'
      · exact List.mem_cons_of_mem _ (ih hr hq)
    | some a' =>
      rcases List.mem_cons.1 hr with rfl | hr
      · obtain rfl := Option.some.inj (ha.symm.trans ha')
        by_cases hrs : StoreFree rs
        · rw [rewrite_cons_last ha hrs]
          exact List.mem_append_left _ hq
        · rw [rewrite_cons_of_some ha hrs]
          exact List.mem_append_left _ hq
      · have hrs : ¬ StoreFree rs := by
          intro hfree
          rw [hfree r hr] at ha
          cases ha
        rw [rewrite_cons_of_some ha' hrs]
        exact List.mem_append_right _ (ih hr hq)

/-- What a conversion takes was taken before, and what it gives was, or is new. -/
theorem conversion_takes : (∀ q ∈ (conversion c conv a r).1, ∀ v ∈ q.2.inputs, v ∈ r.2.inputs) ∧
    ∀ x, (conversion c conv a r).2 = .result x →
      .result x ∈ r.2.inputs ∨ ∃ q ∈ (conversion c conv a r).1, q.1 = x := by
  unfold conversion
  split
  · rename_i v hv
    split
    · refine ⟨by simp, fun x hx => .inl ?_⟩
      rw [hv, List.mem_singleton]
      exact hx.symm
    · refine ⟨by simp [hv], fun x hx => .inr ⟨_, List.mem_singleton_self _, ?_⟩⟩
      exact Value.result.inj hx
  · exact ⟨by simp, fun x hx => by cases hx⟩

theorem storedValue_takes (h : storedValue c conv rs a = .result x) :
    (∃ r ∈ rs, .result x ∈ r.2.inputs) ∨ ∃ q ∈ rewrite c conv write rs, q.1 = x ∧
      ¬ q.2.IsDiscard := by
  unfold storedValue at h
  split at h
  · rename_i r hr
    have hmem := List.mem_of_find?_eq_some hr
    have ha : r.2.stores? = some a := by simpa using List.find?_some hr
    rcases conversion_takes.2 x h with hx | ⟨q, hq, hid⟩
    · exact .inl ⟨r, hmem, hx⟩
    · exact .inr ⟨q, conversion_subset hmem ha hq, hid, conversion_not_discard q hq⟩
  · cases h

/-- Once stores have been merged, what is taken was taken before, or is new. -/
theorem reference_takes (hq : q ∈ reference c conv (.const all) z rs)
    (hx : .result x ∈ q.2.inputs) : (∃ r ∈ rs, .result x ∈ r.2.inputs) ∨
      ∃ q' ∈ reference c conv (.const all) z rs, q'.1 = x ∧ ¬ q'.2.IsDiscard := by
  rcases mem_rewrite hq with hq | rfl | ⟨r, hr, a, hq⟩
  · exact .inl ⟨q, hq, hx⟩
  · simp only [Inst.combined, List.mem_cons, reduceCtorEq, List.not_mem_nil, or_false,
      false_or] at hx
    rcases hx with hx | hx
    · exact storedValue_takes hx.symm
    · exact storedValue_takes hx.symm
  · exact .inl ⟨r, hr, conversion_takes.1 q hq _ hx⟩

end DepthStencil

namespace Discard

/-- Once discards have been replaced, what is taken was taken before, or is new. -/
theorem reference_takes (hq : q ∈ reference (.const all) (.const nothing) choice kill rs)
    (hx : .result x ∈ q.2.inputs) : (∃ r ∈ rs, .result x ∈ r.2.inputs) ∨
      ∃ q' ∈ reference (.const all) (.const nothing) choice kill rs, q'.1 = x := by
  obtain ⟨r, hr, hq⟩ := List.mem_flatMap.1 hq
  rcases mem_replace hq with rfl | rfl | ⟨cond, hcond, hchoice, rfl | rfl⟩
  · exact .inl ⟨_, hr, hx⟩
  · simp [Inst.discardSamples] at hx
  · simp only [Inst.selectMask, List.mem_cons, reduceCtorEq, List.not_mem_nil, or_false] at hx
    exact .inl ⟨r, hr, hx ▸ hcond⟩
  · simp only [Inst.discardSamples, List.mem_singleton, Value.result.injEq] at hx
    exact .inr ⟨_, List.mem_flatMap.2 ⟨r, hr, hchoice⟩, hx.symm⟩

end Discard

/-- **All that the identities do is to name what is new.** -/
theorem lowered_rename (h : Older n rs) :
    (lowered c all nothing (Role.fresh n) b rs).map (Row.rename (Role.carry n name)) =
      lowered c all nothing name b rs := by
  have hfixes : Fixes (Role.carry n name) rs := h.fixes
  unfold lowered
  rw [Discard.reference_rename, DepthStencil.reference_rename hfixes _ rfl, Role.carry_fresh]
  · intro r _
    exact Role.carry_fresh _
  · intro r hr hdiscard
    -- only what was there before discards
    have hmem : r ∈ rs := by
      rcases DepthStencil.mem_rewrite hr with hr | rfl | ⟨q, _, a, hr⟩
      · exact hr
      · exact absurd (.inr hdiscard) not_isLowered_combined
      · exact absurd hdiscard (DepthStencil.conversion_not_discard r hr)
    rw [(hfixes r hmem).1]
    exact ⟨Role.carry_fresh _, Role.carry_fresh _⟩

/-- **What is new is computed where it is taken.** -/
theorem lowered_takes (h : Older n rs) (hq : q ∈ lowered c all nothing name b rs)
    (hx : .result x ∈ q.2.inputs) :
    (∃ q' ∈ lowered c all nothing name b rs, q'.1 = x) ∨ x.index < n := by
  rcases Discard.reference_takes hq hx with ⟨r, hr, hx⟩ | hnew
  · rcases DepthStencil.reference_takes hr hx with ⟨r', hr', hx⟩ | ⟨r', hr', hid, hother⟩
    · exact .inr ((h r' hr').2 x hx)
    · refine .inl ⟨r', List.mem_flatMap.2 ⟨r', hr', ?_⟩, hid⟩
      rw [Discard.replace_of_not hother]
      exact List.mem_singleton_self r'
  · exact .inl hnew

/-- Some rows are others whose stores have been merged and whose discards have been replaced, and
what is new has an identity from `n` on. -/
def Reduces (c : Code) (all nothing : Constant) (n : Nat) (rs out : List Row) : Prop :=
  ∃ (conv choice kill : InstId → InstId) (z : InstId), (∀ x, n ≤ (conv x).index) ∧
    (∀ x, n ≤ (choice x).index) ∧ (∀ x, n ≤ (kill x).index) ∧ n ≤ z.index ∧
    out = Discard.reference (.const all) (.const nothing) choice kill
      (DepthStencil.reference c conv (.const all) z rs)

/-- What is new in several blocks has one identity for every role. -/
theorem exists_names {bs : List BlockId} {rows rows' : BlockId → List Row}
    (h : ∀ b ∈ bs, Reduces c all nothing n (rows b) (rows' b)) :
    ∃ name : Role → InstId, (∀ role, n ≤ (name role).index) ∧
      ∀ b ∈ bs, rows' b = lowered c all nothing name b (rows b) := by
  have hblock : ∀ b, ∃ name : Role → InstId, (∀ role, n ≤ (name role).index) ∧
      (b ∈ bs → rows' b = lowered c all nothing name b (rows b)) := by
    intro b
    by_cases hb : b ∈ bs
    · obtain ⟨conv, choice, kill, z, hconv, hchoice, hkill, hz, hout⟩ := h b hb
      refine ⟨Role.assign conv z choice kill, fun role => ?_, fun _ => hout⟩
      cases role with
      | converts _ x => exact hconv x
      | writes _ => exact hz
      | chooses _ x => exact hchoice x
      | kills _ x => exact hkill x
    · exact ⟨fun _ => ⟨n⟩, fun _ => Nat.le_refl n, fun hmem => absurd hmem hb⟩
  choose name hname hrows using hblock
  exact ⟨fun role => name role.block role, fun role => hname role.block role, hrows⟩

end Lowered

end ShaderIR
