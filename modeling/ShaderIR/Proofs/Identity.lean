import Mathlib.Data.List.Nodup
import Mathlib.Data.List.Range
import Mathlib.Logic.Function.Basic
import Mathlib.Logic.Relation
import ShaderIR.Proofs.Entity

/-!
# Identities are never reused

One supply gives identities to any number of collections, such as the instructions of all functions
of a module.  An identity is given away once, knows one collection, and once it is removed from
there no collection ever knows it again.

* `Defs.Answers`, `Defs.Refuses`: what all operations do with an identity that is defined, and with
  one that is not.
* `DefsCall`, `DefsCall.run`: a call of an operation; `DefsEvent`: what has happened by it.
* `Registry`, `Registry.Step`: a supply and the collections that draw on it, with the log of all
  that has happened to them.
* `Registry.Lives`, `Registry.amend`: what the log says of an identity, and of its definition.

Principal statements: `DefsCall.run_get?` (what one call does to the view), `Registry.Sound.step`
and `Registry.Sound.run` (the collections are what the log says, after a step and after a run), and
`Registry.identities_unique`.
-/

namespace ShaderIR

/-! ## Collections -/

namespace Defs

variable {κ : Kind} {α : Type} {d : Defs κ α} {id : Id κ} {a : α}

/-- What every operation does with an identity that is defined as `a`. -/
structure Answers (d : Defs κ α) (id : Id κ) (a : α) : Prop where
  contains : d.contains id = true
  find : d.find id = .ok a
  access : d.access id = .ok a
  modify : ∀ f, d.modify id f = .ok (d.set id (f a))
  remove : d.remove id = .ok (a, d.erase id)

/-- Every operation fails on an identity that is not defined. -/
structure Refuses (d : Defs κ α) (id : Id κ) : Prop where
  contains : d.contains id = false
  find : d.find id = .error .readUndefined
  access : d.access id = .error .editUndefined
  modify : ∀ f, d.modify id f = .error .editUndefined
  remove : d.remove id = .error .removeUndefined

theorem answers_of_get? (h : d.get? id = some a) : d.Answers id a where
  contains := by rw [contains, h, Option.isSome_some]
  find := find_of_get? h
  access := access_of_get? h
  modify _ := modify_eq_ok.2 ⟨a, h, rfl⟩
  remove := remove_of_get? h

theorem refuses_of_get? (h : d.get? id = none) : d.Refuses id where
  contains := by rw [contains, h, Option.isSome_none]
  find := by simp only [find, h]
  access := by simp only [access, h]
  modify _ := by
    simp only [modify, access, h]
    rfl
  remove := by simp only [remove, h]

end Defs

/-! ## Calls -/

/-- What has happened to a collection. -/
inductive DefsEvent (κ : Kind) (α : Type) where
  | defined (id : Id κ) (a : α)
  | removed (id : Id κ) (a : α)
  | read (id : Id κ) (a : α)
  | edited (id : Id κ) (f : α → α)
  | refused (fault : Fault)

namespace DefsEvent

variable {κ : Kind} {α : Type} {e : DefsEvent κ α} {id : Id κ} {v : Option α} {a : α}

/-- The identity that was given away. -/
def issued? : DefsEvent κ α → Option (Id κ)
  | defined id _ => some id
  | _ => none

/-- The identity whose definition was changed. -/
def changed? : DefsEvent κ α → Option (Id κ)
  | defined id _ => some id
  | removed id _ => some id
  | edited id _ => some id
  | _ => none

/-- What an event makes of the definition of an identity, if it has one. -/
def act (id : Id κ) (v : Option α) : DefsEvent κ α → Option α
  | defined id' a => if id = id' then some a else v
  | removed id' _ => if id = id' then none else v
  | edited id' f => if id = id' then v.map f else v
  | _ => v

/-- What an event makes of the definition of an identity that goes on to be defined. -/
def amend (id : Id κ) (a : α) : DefsEvent κ α → α
  | edited id' f => if id = id' then f a else a
  | _ => a

theorem act_of_unchanged (h : e.changed? ≠ some id) : e.act id v = v := by
  have hne : ∀ id', some id' ≠ some id → id ≠ id' := by
    rintro id' hne rfl
    exact hne rfl
  cases e with
  | defined id' _ => exact if_neg (hne id' h)
  | removed id' _ => exact if_neg (hne id' h)
  | edited id' _ => exact if_neg (hne id' h)
  | read _ _ => rfl
  | refused _ => rfl

/-- Only a fresh identity comes to be defined. -/
theorem act_none (h : e.issued? ≠ some id) : e.act id none = none := by
  cases e with
  | defined id' _ =>
    refine if_neg ?_
    rintro rfl
    exact h rfl
  | removed _ _ => exact ite_self _
  | edited _ _ => exact ite_self _
  | read _ _ => rfl
  | refused _ => rfl

/-- What is defined stays so, unless it is removed. -/
theorem act_some (h : e.issued? ≠ some id) (hr : ∀ x, e ≠ removed id x) :
    e.act id (some a) = some (e.amend id a) := by
  cases e with
  | defined id' _ =>
    refine if_neg ?_
    rintro rfl
    exact h rfl
  | removed id' x =>
    refine if_neg ?_
    rintro rfl
    exact hr x rfl
  | edited id' f => exact (apply_ite some _ _ _).symm
  | read _ _ => rfl
  | refused _ => rfl

end DefsEvent

/-- A call of an operation on a collection. -/
inductive DefsCall (κ : Kind) (α : Type) where
  | define (a : α)
  | remove (id : Id κ)
  | read (id : Id κ)
  | edit (id : Id κ) (f : α → α)

namespace DefsCall

variable {κ : Kind} {α : Type}

/-- Carries out a call. -/
def run (d : Defs κ α) (s : Supply κ) :
    DefsCall κ α → Except Fault (DefsEvent κ α × Defs κ α × Supply κ)
  | define a => do
    let (id, d, s) ← d.define s a
    return (.defined id a, d, s)
  | remove id => do
    let (a, d) ← d.remove id
    return (.removed id a, d, s)
  | read id => do
    let a ← d.find id
    return (.read id a, d, s)
  | edit id f => do
    let d ← d.modify id f
    return (.edited id f, d, s)

variable {call : DefsCall κ α} {d d' : Defs κ α} {s s' : Supply κ} {e : DefsEvent κ α}

/-- Everything that a call can do. -/
theorem run_cases (h : call.run d s = .ok (e, d', s')) :
    (∃ a, e = .defined ⟨s.next⟩ a ∧ d' = d.insert ⟨s.next⟩ a ∧ s' = ⟨s.next + 1⟩) ∨
    (∃ id a, e = .removed id a ∧ d.get? id = some a ∧ d' = d.erase id ∧ s' = s) ∨
    (∃ id a, e = .read id a ∧ d.get? id = some a ∧ d' = d ∧ s' = s) ∨
    (∃ id f a, e = .edited id f ∧ d.get? id = some a ∧ d' = d.set id (f a) ∧ s' = s) := by
  cases call with
  | define a =>
    obtain ⟨r, hdefine, h⟩ := bind_eq_ok.1 h
    obtain ⟨-, rfl⟩ := Defs.define_eq_ok.1 hdefine
    cases h
    exact .inl ⟨a, rfl, rfl, rfl⟩
  | remove id =>
    obtain ⟨r, hremove, h⟩ := bind_eq_ok.1 h
    obtain ⟨a, ha, rfl⟩ := Defs.remove_eq_ok.1 hremove
    cases h
    exact .inr (.inl ⟨id, a, rfl, ha, rfl, rfl⟩)
  | read id =>
    obtain ⟨a, hfind, h⟩ := bind_eq_ok.1 h
    cases h
    exact .inr (.inr (.inl ⟨id, a, rfl, Defs.find_eq_ok.1 hfind, rfl, rfl⟩))
  | edit id f =>
    obtain ⟨d₁, hmodify, h⟩ := bind_eq_ok.1 h
    obtain ⟨a, ha, rfl⟩ := Defs.modify_eq_ok.1 hmodify
    cases h
    exact .inr (.inr (.inr ⟨id, f, a, rfl, ha, rfl, rfl⟩))

/-- **What a call does to the view** is what its event makes of each definition. -/
theorem run_get? (h : call.run d s = .ok (e, d', s')) (id : Id κ) :
    d'.get? id = e.act id (d.get? id) := by
  rcases run_cases h with ⟨a, rfl, rfl, -⟩ | ⟨id', a, rfl, -, rfl, -⟩ | ⟨id', a, rfl, -, rfl, -⟩ |
    ⟨id', f, a, rfl, ha, rfl, -⟩
  · exact Defs.get?_insert d _ id a
  · exact Defs.get?_erase d id' id
  · rfl
  · rw [Defs.get?_set, DefsEvent.act]
    split
    · rename_i hid
      rw [hid, ha]
      rfl
    · rfl

/-- The supply moves on just when it gives an identity away. -/
theorem run_supply (h : call.run d s = .ok (e, d', s')) :
    (e.issued? = some ⟨s.next⟩ ∧ s' = ⟨s.next + 1⟩) ∨ (e.issued? = none ∧ s' = s) := by
  rcases run_cases h with ⟨a, rfl, -, rfl⟩ | ⟨id', a, rfl, -, -, rfl⟩ | ⟨id', a, rfl, -, -, rfl⟩ |
    ⟨id', f, a, rfl, -, -, rfl⟩
  · exact .inl ⟨rfl, rfl⟩
  · exact .inr ⟨rfl, rfl⟩
  · exact .inr ⟨rfl, rfl⟩
  · exact .inr ⟨rfl, rfl⟩

/-- What is removed has been defined. -/
theorem get?_of_removed {id : Id κ} {a : α} (h : call.run d s = .ok (.removed id a, d', s')) :
    d.get? id = some a := by
  rcases run_cases h with ⟨_, he, -, -⟩ | ⟨_, _, he, ha, -, -⟩ | ⟨_, _, he, -, -, -⟩ |
    ⟨_, _, _, he, -, -, -⟩ <;> cases he
  exact ha

end DefsCall

/-! ## Logs -/

/-- A supply, the collections that draw on it, and all that has happened to each of them. -/
structure Registry (ι : Type) (κ : Kind) (α : Type) where
  fresh : Supply κ
  defs : ι → Defs κ α
  log : List (ι × DefsEvent κ α)

namespace Registry

variable {ι : Type} {κ : Kind} {α : Type}

/-- The identities that were given away, in that order. -/
def issuedIn (log : List (ι × DefsEvent κ α)) : List (Id κ) :=
  log.filterMap fun e => e.2.issued?

/-- An identity was defined in a collection as `a`, and not removed from there in all that came
`after`. -/
def Lives (log : List (ι × DefsEvent κ α)) (c : ι) (id : Id κ) (a : α)
    (after : List (ι × DefsEvent κ α)) : Prop :=
  ∃ before, log = before ++ (c, .defined id a) :: after ∧ ∀ x, (c, .removed id x) ∉ after

variable {log log' before after : List (ι × DefsEvent κ α)} {c c' : ι} {id : Id κ} {a b : α}
  {e : ι × DefsEvent κ α}

theorem issuedIn_append : issuedIn (log ++ log') = issuedIn log ++ issuedIn log' :=
  List.filterMap_append

theorem issuedIn_concat : issuedIn (log ++ [e]) = issuedIn log ++ e.2.issued?.toList := by
  rw [issuedIn_append, List.append_cancel_left_eq, issuedIn]
  cases he : e.2.issued? with
  | none => simp only [List.filterMap_cons, he, List.filterMap_nil, Option.toList_none]
  | some id => simp only [List.filterMap_cons, he, List.filterMap_nil, Option.toList_some]

theorem mem_issuedIn (h : (c, .defined id a) ∈ log) : id ∈ issuedIn log :=
  List.mem_filterMap.2 ⟨_, h, rfl⟩

theorem Lives.mem (h : Lives log c id a after) : (c, .defined id a) ∈ log := by
  obtain ⟨before, rfl, -⟩ := h
  exact List.mem_append_right _ List.mem_cons_self

theorem Lives.concat (h : Lives log c id a after) (he : ∀ x, e ≠ (c, .removed id x)) :
    Lives (log ++ [e]) c id a (after ++ [e]) := by
  obtain ⟨before, rfl, hr⟩ := h
  refine ⟨before, by rw [List.append_assoc, List.cons_append], fun x hx => ?_⟩
  rcases List.mem_append.1 hx with hx | hx
  · exact hr x hx
  · exact he x (List.mem_singleton.1 hx).symm

/-- Where no identity is given away twice, one that is defined was not given away before and is not
given away after. -/
theorem issued_once (hn : (issuedIn (before ++ (c, .defined id a) :: after)).Nodup) :
    id ∉ issuedIn before ∧ id ∉ issuedIn after := by
  rw [issuedIn_append] at hn
  obtain ⟨-, hlater, happart⟩ := List.nodup_append.1 hn
  exact ⟨fun hid => happart id hid id List.mem_cons_self rfl, (List.nodup_cons.1 hlater).1⟩

/-- Where no identity is given away twice, each has one collection and one first definition. -/
theorem eq_of_defined (hn : (issuedIn log).Nodup) (h : (c, .defined id a) ∈ log)
    (h' : (c', .defined id b) ∈ log) : c' = c ∧ b = a := by
  obtain ⟨before, after, rfl⟩ := List.append_of_mem h
  obtain ⟨hbefore, hafter⟩ := issued_once hn
  rcases List.mem_append.1 h' with h' | h'
  · exact absurd (mem_issuedIn h') hbefore
  · rcases List.mem_cons.1 h' with h' | h'
    · cases h'
      exact ⟨rfl, rfl⟩
    · exact absurd (mem_issuedIn h') hafter

variable [DecidableEq ι]

/-- What a log makes of the definition of an identity in a collection. -/
def replay (c : ι) (id : Id κ) (log : List (ι × DefsEvent κ α)) (v : Option α) : Option α :=
  log.foldl (fun v e => if e.1 = c then e.2.act id v else v) v

/-- What all changes in a log, one after the other, make of a definition. -/
def amend (c : ι) (id : Id κ) (log : List (ι × DefsEvent κ α)) (a : α) : α :=
  log.foldl (fun a e => if e.1 = c then e.2.amend id a else a) a

theorem replay_append (v : Option α) :
    replay c id (log ++ log') v = replay c id log' (replay c id log v) :=
  List.foldl_append

theorem replay_concat (v : Option α) : replay c id (log ++ [e]) v =
    if e.1 = c then e.2.act id (replay c id log v) else replay c id log v :=
  replay_append v

/-- What happens to other identities, or in other collections, makes no difference. -/
theorem replay_of_unchanged {v : Option α}
    (h : ∀ e ∈ log, e.1 = c → e.2.changed? ≠ some id) : replay c id log v = v := by
  induction log with
  | nil => rfl
  | cons e log ih =>
    obtain ⟨he, hlog⟩ := List.forall_mem_cons.1 h
    have hfirst : (if e.1 = c then e.2.act id v else v) = v := by
      split
      · rename_i hc
        exact DefsEvent.act_of_unchanged (he hc)
      · rfl
    rw [replay, List.foldl_cons, hfirst]
    exact ih hlog

theorem replay_of_kept (hi : id ∉ issuedIn log) (hr : ∀ x, (c, .removed id x) ∉ log) :
    replay c id log (some a) = some (amend c id log a) := by
  induction log generalizing a with
  | nil => rfl
  | cons e log ih =>
    have hissued : e.2.issued? ≠ some id := fun he =>
      hi (List.mem_filterMap.2 ⟨e, List.mem_cons_self, he⟩)
    have hrest : id ∉ issuedIn log := fun hid => by
      obtain ⟨e', he', hid⟩ := List.mem_filterMap.1 hid
      exact hi (List.mem_filterMap.2 ⟨e', List.mem_cons_of_mem _ he', hid⟩)
    have hkept : ∀ x, (c, .removed id x) ∉ log := fun x hx => hr x (List.mem_cons_of_mem _ hx)
    have hfirst : (if e.1 = c then e.2.act id (some a) else some a) =
        some (if e.1 = c then e.2.amend id a else a) := by
      split
      · rename_i hc
        refine DefsEvent.act_some hissued fun x hx => hr x ?_
        rw [← hc, ← hx]
        exact List.mem_cons_self
      · rfl
    rw [replay, List.foldl_cons, hfirst]
    exact ih hrest hkept

/-- Where no identity is given away twice, an identity that lives has the definition that it was
given, with all changes since. -/
theorem replay_of_lives (hn : (issuedIn log).Nodup) (h : Lives log c id a after) :
    replay c id log none = some (amend c id after a) := by
  obtain ⟨before, rfl, hr⟩ := h
  obtain ⟨-, hafter⟩ := issued_once hn
  have hborn : replay c id [(c, .defined id a)] (replay c id before none) = some a := by
    rw [replay, List.foldl_cons, if_pos rfl]
    exact if_pos rfl
  calc replay c id (before ++ (c, .defined id a) :: after) none
      = replay c id after (replay c id [(c, .defined id a)] (replay c id before none)) :=
        replay_append none
    _ = some (amend c id after a) := by rw [hborn, replay_of_kept hafter hr]

/-- What is defined in the end lives. -/
theorem exists_lives (h : replay c id log none = some b) : ∃ a after, Lives log c id a after := by
  -- from the end of the log, where `after` grows
  induction log using List.reverseRecOn generalizing b with
  | nil => cases h
  | append_singleton log e ih =>
    have hkept : ∀ {b}, replay c id log none = some b → (∀ x, e ≠ (c, .removed id x)) →
        ∃ a after, Lives (log ++ [e]) c id a after := by
      intro b hb he
      obtain ⟨a, after, hlives⟩ := ih hb
      exact ⟨a, after ++ [e], hlives.concat he⟩
    rw [replay_concat] at h
    obtain ⟨c', e⟩ := e
    by_cases hc : c' = c
    · subst hc
      rw [if_pos rfl] at h
      cases e with
      | defined id' a =>
        by_cases hid : id = id'
        · subst hid
          exact ⟨a, [], log, rfl, nofun⟩
        · exact hkept ((if_neg hid).symm.trans h) (by simp)
      | removed id' a =>
        by_cases hid : id = id'
        · cases (if_pos hid).symm.trans h
        · exact hkept ((if_neg hid).symm.trans h) (by simp [Ne.symm hid])
      | edited id' f =>
        by_cases hid : id = id'
        · obtain ⟨b', hb', -⟩ := Option.map_eq_some_iff.1 ((if_pos hid).symm.trans h)
          exact hkept hb' (by simp)
        · exact hkept ((if_neg hid).symm.trans h) (by simp)
      | read _ _ => exact hkept h (by simp)
      | refused _ => exact hkept h (by simp)
    · exact hkept ((if_neg hc).symm.trans h) (by simp [hc])

/-! ## Runs -/

/-- No identity has been given away, and nothing is defined. -/
def start : Registry ι κ α := ⟨.full, fun _ => .empty, []⟩

/-- One more call has been made of a collection.  A call that fails changes nothing. -/
inductive Step (r : Registry ι κ α) : Registry ι κ α → Prop where
  | made (c : ι) (call : DefsCall κ α) {e : DefsEvent κ α} {d : Defs κ α} {s : Supply κ}
    (made : call.run (r.defs c) r.fresh = .ok (e, d, s)) :
    Step r ⟨s, Function.update r.defs c d, r.log ++ [(c, e)]⟩
  | refused (c : ι) (call : DefsCall κ α) {fault : Fault}
    (failed : call.run (r.defs c) r.fresh = .error fault) :
    Step r { r with log := r.log ++ [(c, .refused fault)] }

/-- Identities are given away in order, all collections are what the log says, and what was removed
had been defined there and is gone. -/
structure Sound (r : Registry ι κ α) : Prop where
  issued : issuedIn r.log = (List.range r.fresh.next).map Id.mk
  replayed : ∀ c id, (r.defs c).get? id = replay c id r.log none
  removed : ∀ c id x, (c, .removed id x) ∈ r.log →
    (∃ a, (c, .defined id a) ∈ r.log) ∧ (r.defs c).get? id = none

variable {r r' : Registry ι κ α}

namespace Sound

theorem start : (start : Registry ι κ α).Sound where
  issued := rfl
  replayed _ _ := rfl
  removed _ _ _ := nofun

theorem mem_issued (h : r.Sound) : id ∈ issuedIn r.log ↔ id.index < r.fresh.next := by
  rw [h.issued, List.mem_map]
  constructor
  · rintro ⟨n, hn, rfl⟩
    exact List.mem_range.1 hn
  · intro hid
    exact ⟨id.index, List.mem_range.2 hid, rfl⟩

theorem nodup (h : r.Sound) : (issuedIn r.log).Nodup := by
  rw [h.issued]
  exact List.nodup_range.map fun m n hmn => congrArg Id.index hmn

theorem length_issued (h : r.Sound) : (issuedIn r.log).length = r.fresh.next := by
  rw [h.issued, List.length_map, List.length_range]

theorem lives_of_get? (h : r.Sound) (hget : (r.defs c).get? id = some b) :
    ∃ a after, Lives r.log c id a after :=
  exists_lives ((h.replayed c id).symm.trans hget)

/-- An identity is defined in the collection that it was defined in first, and in no other. -/
theorem home (h : r.Sound) (hd : (c, .defined id a) ∈ r.log) (hc : c' ≠ c) :
    (r.defs c').get? id = none := by
  refine Option.eq_none_iff_forall_ne_some.2 fun b hget => hc ?_
  obtain ⟨_, _, hlives⟩ := h.lives_of_get? hget
  exact (eq_of_defined h.nodup hd hlives.mem).1

/-- The identity that is given away next is defined nowhere. -/
theorem get?_next (h : r.Sound) (c : ι) : (r.defs c).get? ⟨r.fresh.next⟩ = none := by
  refine Option.eq_none_iff_forall_ne_some.2 fun b hget => ?_
  obtain ⟨_, _, hlives⟩ := h.lives_of_get? hget
  exact Nat.lt_irrefl _ (h.mem_issued.1 (mem_issuedIn hlives.mem))

/-- What was removed is defined in no collection. -/
theorem gone (h : r.Sound) {x : α} (hr : (c, .removed id x) ∈ r.log) (c' : ι) :
    (r.defs c').get? id = none := by
  obtain ⟨⟨a, ha⟩, hnone⟩ := h.removed c id x hr
  by_cases hc : c' = c
  · rw [hc, hnone]
  · exact h.home ha hc

/-- **One step keeps the collections what the log says.** -/
theorem step (h : r.Sound) (step : r.Step r') : r'.Sound := by
  cases step with
  | refused c call failed =>
    refine ⟨?_, fun c' id => ?_, fun c' id x hx => ?_⟩
    · rw [issuedIn_concat, h.issued]
      exact List.append_nil _
    · rw [replay_concat, h.replayed]
      exact (ite_self _).symm
    · rcases List.mem_append.1 hx with hx | hx
      · obtain ⟨⟨a, ha⟩, hnone⟩ := h.removed c' id x hx
        exact ⟨⟨a, List.mem_append_left _ ha⟩, hnone⟩
      · cases List.mem_singleton.1 hx
  | @made c call e d s made =>
    have hget : ∀ c' id, (Function.update r.defs c d c').get? id =
        if c = c' then e.act id ((r.defs c').get? id) else (r.defs c').get? id := by
      intro c' id
      split
      · rename_i hc
        subst hc
        rw [Function.update_self, DefsCall.run_get? made]
      · rename_i hc
        rw [Function.update_of_ne (Ne.symm hc)]
    refine ⟨?_, fun c' id => ?_, fun c' id x hx => ?_⟩
    · rw [issuedIn_concat, h.issued]
      rcases DefsCall.run_supply made with ⟨he, rfl⟩ | ⟨he, rfl⟩ <;> rw [he]
      · rw [List.range_succ, List.map_append]
        rfl
      · exact List.append_nil _
    · rw [replay_concat, ← h.replayed]
      exact hget c' id
    · rcases List.mem_append.1 hx with hx | hx
      · obtain ⟨⟨a, ha⟩, hnone⟩ := h.removed c' id x hx
        refine ⟨⟨a, List.mem_append_left _ ha⟩, ?_⟩
        -- an identity that was given away before is not the one that is given away now
        have hissued : e.issued? ≠ some id := by
          have hlt := h.mem_issued.1 (mem_issuedIn ha)
          rcases DefsCall.run_supply made with ⟨he, -⟩ | ⟨he, -⟩ <;> rw [he]
          · rintro ⟨⟩
            exact Nat.lt_irrefl _ hlt
          · exact nofun
        rw [hget, hnone, DefsEvent.act_none hissued, ite_self]
      · obtain ⟨rfl, rfl⟩ := Prod.mk.inj (List.mem_singleton.1 hx)
        obtain ⟨a, _, hlives⟩ := h.lives_of_get? (DefsCall.get?_of_removed made)
        refine ⟨⟨a, List.mem_append_left _ hlives.mem⟩, ?_⟩
        rw [hget, if_pos rfl]
        exact if_pos rfl

/-- **A run keeps the collections what the log says**, and the log goes on. -/
theorem run (h : r.Sound) (run : Relation.ReflTransGen Step r r') :
    r'.Sound ∧ ∃ more, r'.log = r.log ++ more := by
  induction run with
  | refl => exact ⟨h, [], (List.append_nil _).symm⟩
  | tail _ step ih =>
    obtain ⟨hsound, more, hmore⟩ := ih
    refine ⟨hsound.step step, ?_⟩
    cases step with
    | made c _ _ => exact ⟨more ++ [_], by rw [← List.append_assoc, ← hmore]⟩
    | refused c _ _ => exact ⟨more ++ [_], by rw [← List.append_assoc, ← hmore]⟩

theorem contains_iff (h : r.Sound) :
    (r.defs c).contains id = true ↔ ∃ a after, Lives r.log c id a after := by
  rw [Defs.contains, Option.isSome_iff_exists]
  constructor
  · rintro ⟨b, hget⟩
    exact h.lives_of_get? hget
  · rintro ⟨a, after, hlives⟩
    exact ⟨_, (h.replayed c id).trans (replay_of_lives h.nodup hlives)⟩

/-- What does not live in a collection is not defined there. -/
theorem get?_eq_none (h : r.Sound) (hdead : ∀ a after, ¬ Lives r.log c id a after) :
    (r.defs c).get? id = none := by
  refine Option.eq_none_iff_forall_ne_some.2 fun b hget => ?_
  obtain ⟨a, after, hlives⟩ := h.lives_of_get? hget
  exact hdead a after hlives

end Sound

/-- **Identities are never reused.**  Let any number of collections draw on one supply, and make any
number of calls of them, in any order.

* The identity that is defined next was never given away before, by any collection, and no fault
  comes of it; as long as there are fewer than `UInt32.size` identities with it, their count does
  not outrun a word of 32 bits.
* A collection contains an identity iff it was defined there and not removed since.  It then answers
  with the definition that was given, after all changes of it since; otherwise every operation
  fails.
* What happens to other identities, or in other collections, makes no difference.
* An identity that was removed, or that was defined in another collection, is refused forever. -/
theorem identities_unique (run : Relation.ReflTransGen Step start r)
    (later : Relation.ReflTransGen Step r r') :
    ((issuedIn r.log).Nodup ∧ ∀ c a, (issuedIn r.log).length + 1 < UInt32.size → ∃ id d s,
      (r.defs c).define r.fresh a = .ok (id, d, s) ∧ id ∉ issuedIn r.log ∧ s.next < UInt32.size) ∧
    (∀ c id, (r.defs c).contains id = true ↔ ∃ a after, Lives r.log c id a after) ∧
    (∀ c id a after, Lives r.log c id a after → (r.defs c).Answers id (amend c id after a)) ∧
    (∀ c id, (∀ a after, ¬ Lives r.log c id a after) → (r.defs c).Refuses id) ∧
    (∃ more, r'.log = r.log ++ more ∧ ∀ c id,
      (∀ e ∈ more, e.1 = c → e.2.changed? ≠ some id) → (r'.defs c).find id = (r.defs c).find id) ∧
    (∀ c id x, (c, .removed id x) ∈ r.log → ∀ c', (r'.defs c').Refuses id) ∧
    ∀ c id a, (c, .defined id a) ∈ r.log → ∀ c', c' ≠ c → (r'.defs c').Refuses id := by
  obtain ⟨hs, -⟩ := Sound.start.run run
  obtain ⟨hs', more, hmore⟩ := hs.run later
  have hkept : ∀ {e}, e ∈ r.log → e ∈ r'.log := by
    intro e he
    rw [hmore]
    exact List.mem_append_left _ he
  refine ⟨⟨hs.nodup, fun c a hfew => ?_⟩, fun c id => hs.contains_iff,
    fun c id a after hlives => ?_, fun c id hdead => ?_, ⟨more, hmore, fun c id hsame => ?_⟩,
    fun c id x hx c' => ?_, fun c id a ha c' hc => ?_⟩
  · refine ⟨_, _, _, Defs.define_eq_ok.2 ⟨hs.get?_next c, rfl⟩, fun hid => ?_, ?_⟩
    · exact Nat.lt_irrefl _ (hs.mem_issued.1 hid)
    · rwa [hs.length_issued] at hfew
  · refine Defs.answers_of_get? ?_
    rw [hs.replayed, replay_of_lives hs.nodup hlives]
  · exact Defs.refuses_of_get? (hs.get?_eq_none hdead)
  · have hget : (r'.defs c).get? id = (r.defs c).get? id := by
      rw [hs'.replayed, hs.replayed, hmore, replay_append, replay_of_unchanged hsame]
    rw [Defs.find, Defs.find, hget]
  · exact Defs.refuses_of_get? (hs'.gone (hkept hx) c')
  · exact Defs.refuses_of_get? (hs'.home (hkept ha) hc)

/-- Two collections: the first identity is removed from one of them, the second is changed in the
other, where the first is looked for in vain; then a third is defined. -/
def sampleLog : List (Bool × DefsEvent .inst Nat) :=
  [(false, .defined ⟨0⟩ 10), (true, .defined ⟨1⟩ 11), (true, .edited ⟨1⟩ (· + 5)),
    (false, .removed ⟨0⟩ 10), (true, .refused .readUndefined), (false, .defined ⟨2⟩ 12)]

theorem sampleLog_identities_unique : ∃ r, Relation.ReflTransGen Step start r ∧
    r.log = sampleLog ∧ (∀ c, (r.defs c).Refuses ⟨0⟩) ∧ (r.defs false).Refuses ⟨1⟩ ∧
    (r.defs true).Answers ⟨1⟩ 16 ∧
    ∃ id d s, (r.defs true).define r.fresh 13 = .ok (id, d, s) ∧ id ∉ issuedIn sampleLog := by
  obtain ⟨r, run, hlog⟩ : ∃ r, Relation.ReflTransGen Step start r ∧ r.log = sampleLog := by
    refine ⟨_, .tail (.tail (.tail (.tail (.tail (.tail .refl (.made false (.define 10) rfl))
      (.made true (.define 11) rfl)) (.made true (.edit ⟨1⟩ (· + 5)) rfl))
      (.made false (.remove ⟨0⟩) rfl)) (.refused true (.read ⟨0⟩) rfl))
      (.made false (.define 12) rfl), rfl⟩
  obtain ⟨⟨-, hfresh⟩, -, hanswers, -, -, hremoved, hhome⟩ := identities_unique run .refl
  rw [hlog] at hfresh hanswers hremoved hhome
  refine ⟨r, run, hlog, hremoved false ⟨0⟩ 10 (by simp [sampleLog]),
    hhome true ⟨1⟩ 11 (by simp [sampleLog]) false (by decide),
    hanswers true ⟨1⟩ 11 (sampleLog.drop 2) ⟨[(false, .defined ⟨0⟩ 10)], rfl, by simp [sampleLog]⟩,
    ?_⟩
  obtain ⟨id, d, s, hdefine, hnew, -⟩ := hfresh true 13 (by decide)
  exact ⟨id, d, s, hdefine, hnew⟩

end Registry

end ShaderIR
