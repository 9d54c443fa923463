import ShaderIR.Entity.Defs

/-!
# Reading and changing definitions

How the operations on definitions look through `Defs.get?`, and how a computation that may meet a
fault is taken apart.

* `bind_eq_ok`: a computation in two parts has a result iff both parts have one.
* `findSomeM?_eq_none`, `mapM_eq_ok`, `filterM_eq_ok`: the same of a search, of a walk along a list
  and of a selection from one.
* `Defs.find_eq_ok`, `Defs.access_eq_ok`, `Defs.modify_eq_ok`, `Defs.remove_eq_ok`: an identity is
  found iff it is defined.
* `Defs.define_eq_ok`: the identity that the supply gives next is defined iff it is not yet.
* `Defs.length_le_size`: a list of distinct identities that are all defined is no longer than the
  collection.
-/

namespace ShaderIR

section Faults

variable {α β : Type}

theorem bind_eq_ok {x : Except Fault α} {f : α → Except Fault β} {b : β} :
    (x >>= f) = .ok b ↔ ∃ a, x = .ok a ∧ f a = .ok b := by
  cases x <;> simp [bind, Except.bind]

@[simp] theorem ok_bind (a : α) (f : α → Except Fault β) : (Except.ok a >>= f) = f a := rfl

@[simp] theorem pure_eq_ok (a : α) : (pure a : Except Fault α) = .ok a := rfl

/-- A search finds nothing iff it can look at everything and nothing there is found. -/
theorem findSomeM?_eq_none {f : α → Except Fault (Option β)} {l : List α} :
    l.findSomeM? f = .ok none ↔ ∀ a ∈ l, f a = .ok none := by
  induction l with
  | nil => simp [List.findSomeM?]
  | cons a l ih =>
    rw [List.findSomeM?, bind_eq_ok, List.forall_mem_cons, ← ih]
    constructor
    · rintro ⟨o, ho, h⟩
      cases o with
      | none => exact ⟨ho, h⟩
      | some b => cases h
    · rintro ⟨ho, h⟩
      exact ⟨none, ho, h⟩

theorem mapM_eq_ok {f : α → Except Fault β} {g : α → β} {l : List α}
    (h : ∀ a ∈ l, f a = .ok (g a)) : l.mapM f = .ok (l.map g) := by
  induction l with
  | nil => rfl
  | cons a l ih =>
    rw [List.mapM_cons, h a (by simp), ok_bind, ih fun b hb => h b (by simp [hb])]
    rfl

theorem filterM_eq_ok {f : α → Except Fault Bool} {p : α → Bool} {l : List α}
    (h : ∀ a ∈ l, f a = .ok (p a)) : l.filterM f = .ok (l.filter p) := by
  have haux : ∀ acc, l.filterAuxM f acc = .ok ((l.filter p).reverse ++ acc) := by
    induction l with
    | nil => exact fun _ => rfl
    | cons a l ih =>
      intro acc
      rw [List.filterAuxM, h a (by simp), ok_bind, ih fun b hb => h b (by simp [hb])]
      cases hp : p a <;> simp [hp]
  simp [List.filterM, haux]

theorem exists_of_mapM_eq_ok {f : α → Except Fault β} {l : List α} {bs : List β}
    (h : l.mapM f = .ok bs) : ∀ a ∈ l, ∃ b, f a = .ok b := by
  induction l generalizing bs with
  | nil => simp
  | cons a l ih =>
    rw [List.mapM_cons] at h
    obtain ⟨b, hb, h⟩ := bind_eq_ok.1 h
    obtain ⟨bs, hbs, -⟩ := bind_eq_ok.1 h
    exact List.forall_mem_cons.2 ⟨⟨b, hb⟩, ih hbs⟩

theorem exists_mem_of_mapM_eq_ok {f : α → Except Fault β} {l : List α} {bs : List β}
    (h : l.mapM f = .ok bs) : ∀ b ∈ bs, ∃ a ∈ l, f a = .ok b := by
  induction l generalizing bs with
  | nil =>
    cases h
    simp
  | cons a l ih =>
    rw [List.mapM_cons] at h
    obtain ⟨b, hb, h⟩ := bind_eq_ok.1 h
    obtain ⟨bs, hbs, h⟩ := bind_eq_ok.1 h
    cases h
    refine List.forall_mem_cons.2 ⟨⟨a, List.mem_cons_self, hb⟩, fun b' hb' => ?_⟩
    obtain ⟨a', ha', h'⟩ := ih hbs b' hb'
    exact ⟨a', List.mem_cons_of_mem _ ha', h'⟩

end Faults

namespace Defs

variable {κ : Kind} {α : Type} {d : Defs κ α} {id : Id κ} {a : α}

theorem find_eq_ok : d.find id = .ok a ↔ d.get? id = some a := by
  unfold find
  split <;> simp_all

theorem access_eq_ok : d.access id = .ok a ↔ d.get? id = some a := by
  unfold access
  split <;> simp_all

theorem find_of_get? (h : d.get? id = some a) : d.find id = .ok a := find_eq_ok.2 h

theorem access_of_get? (h : d.get? id = some a) : d.access id = .ok a := access_eq_ok.2 h

theorem remove_of_get? (h : d.get? id = some a) : d.remove id = .ok (a, d.erase id) := by
  simp only [remove, h]

theorem get?_set_of_get? {b : α} (h : d.get? id = some b) (id' : Id κ) :
    (d.set id a).get? id' = if id' = id then some a else d.get? id' := by
  rw [get?_set, h]
  rfl

/-- What is defined anew is the identity that the supply gives next. -/
theorem define_eq_ok {s : Supply κ} {r : Id κ × Defs κ α × Supply κ} :
    d.define s a = .ok r ↔
      d.get? ⟨s.next⟩ = none ∧ r = (⟨s.next⟩, d.insert ⟨s.next⟩ a, ⟨s.next + 1⟩) := by
  have hrun : d.define s a = if d.contains ⟨s.next⟩ then .error .redefined
      else .ok (⟨s.next⟩, d.insert ⟨s.next⟩ a, ⟨s.next + 1⟩) := rfl
  rw [hrun, contains]
  cases d.get? ⟨s.next⟩ <;> simp [eq_comm]

theorem modify_eq_ok {f : α → α} {d' : Defs κ α} :
    d.modify id f = .ok d' ↔ ∃ a, d.get? id = some a ∧ d' = d.set id (f a) := by
  rw [modify, bind_eq_ok]
  simp only [access_eq_ok, pure_eq_ok, Except.ok.injEq, eq_comm (b := d')]

theorem remove_eq_ok {r : α × Defs κ α} :
    d.remove id = .ok r ↔ ∃ a, d.get? id = some a ∧ r = (a, d.erase id) := by
  unfold remove
  cases d.get? id with
  | none => simp
  | some a => simp [eq_comm (b := r)]

/-- What is defined is one of the entries. -/
theorem mem_entries_of_get? (h : d.get? id = some a) : (id, a) ∈ d.entries := by
  obtain ⟨es⟩ := d
  induction es with
  | nil => simp [get?] at h
  | cons e es ih =>
    obtain ⟨k, v⟩ := e
    rw [get?_cons] at h
    by_cases hk : id = k
    · rw [if_pos hk] at h
      simp [hk, Option.some.inj h]
    · rw [if_neg hk] at h
      exact List.mem_cons_of_mem _ (ih h)

/-- Distinct identities that are all defined are no more than there are definitions. -/
theorem length_le_size {ids : List (Id κ)} (hn : ids.Nodup)
    (hd : ∀ id ∈ ids, (d.get? id).isSome) : ids.length ≤ d.size := by
  have hsub : ids ⊆ d.entries.map Prod.fst := by
    intro id hid
    obtain ⟨a, ha⟩ := Option.isSome_iff_exists.1 (hd id hid)
    exact List.mem_map_of_mem (f := Prod.fst) (mem_entries_of_get? ha)
  have hlen := hn.length_le_of_subset hsub
  rwa [List.length_map] at hlen

end Defs

end ShaderIR
