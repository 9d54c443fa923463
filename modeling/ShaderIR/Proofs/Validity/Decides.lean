import ShaderIR.Proofs.Flow.DominatorTree
import ShaderIR.Proofs.Validity.Uses
import ShaderIR.Proofs.Validity.Violations

/-!
# What the check decides

* `LastAt`: the last position of an element of a list, which is the one that counts.
* `Checker.Knows`: what is gathered to check a body is right.
* `Checker.Knows.placeDefect?_finds` and the lemmas after it: each part of the check finds the first
  of the defects that there are.

Principal statements: `Body.exists_firstDefect_finds` (the check of a body finds its first defect)
and `Body.firstDefect_eq_none_iff` (there is no defect if and only if all that can be reached is
defined and the body is valid).
-/

namespace ShaderIR

section Lists

variable {α β : Type}

/-- Where no key has two values, a key leads to its value. -/
theorem lookup_eq_some_iff [DecidableEq α] {l : List (α × β)} {k : α} {v : β}
    (h : ∀ v v', (k, v) ∈ l → (k, v') ∈ l → v = v') : l.lookup k = some v ↔ (k, v) ∈ l := by
  induction l with
  | nil => simp
  | cons e l ih =>
    obtain ⟨k', w⟩ := e
    rw [List.lookup_cons]
    by_cases hk : k = k'
    · subst hk
      rw [beq_self_eq_true]
      constructor
      · intro he
        rw [← Option.some.inj he]
        exact List.mem_cons_self
      · intro hm
        exact congrArg some (h _ _ List.mem_cons_self hm)
    · have hne : (k == k') = false := by simpa using hk
      rw [hne]
      refine (ih fun v v' hv hv' => h v v' (by simp [hv]) (by simp [hv'])).trans ?_
      simp [hk]

/-- The last position of an element. -/
structure LastAt (l : List α) (n : Nat) (a : α) : Prop where
  elem : l[n]? = some a
  last : ∀ k : Nat, l[k]? = some a → k ≤ n

variable {l : List α} {n n' : Nat} {a x : α}

theorem LastAt.unique (h : LastAt l n a) (h' : LastAt l n' a) : n = n' :=
  Nat.le_antisymm (h'.last n h.elem) (h.last n' h'.elem)

theorem lastAt_of_nodup (hn : l.Nodup) (h : l[n]? = some a) : LastAt l n a := by
  refine ⟨h, fun k hk => ?_⟩
  rw [(List.getElem?_inj (List.getElem?_eq_some_iff.1 h).1 hn).1 (h.trans hk.symm)]

theorem lastAt_concat : LastAt (l ++ [x]) n a ↔
    (a = x ∧ n = l.length) ∨ (a ≠ x ∧ LastAt l n a) := by
  have hlast : (l ++ [x])[l.length]? = some x := by simp
  have hlt : ∀ {k : Nat}, (l ++ [x])[k]? = some a → a ≠ x → l[k]? = some a := by
    intro k hk hne
    rw [List.getElem?_append] at hk
    split at hk
    · exact hk
    · exact absurd (List.mem_singleton.1 (List.mem_of_getElem? hk)) hne
  constructor
  · rintro ⟨helem, hall⟩
    by_cases hx : a = x
    · subst hx
      have hle := hall _ hlast
      have hlen := (List.getElem?_eq_some_iff.1 helem).1
      rw [List.length_append, List.length_singleton] at hlen
      exact .inl ⟨rfl, by omega⟩
    · refine .inr ⟨hx, hlt helem hx, fun k hk => hall k ?_⟩
      rwa [List.getElem?_append_left (List.getElem?_eq_some_iff.1 hk).1]
  · rintro (⟨rfl, rfl⟩ | ⟨hx, helem, hall⟩)
    · refine ⟨hlast, fun k hk => ?_⟩
      have hlen := (List.getElem?_eq_some_iff.1 hk).1
      rw [List.length_append, List.length_singleton] at hlen
      omega
    · refine ⟨?_, fun k hk => hall k (hlt hk hx)⟩
      rwa [List.getElem?_append_left (List.getElem?_eq_some_iff.1 helem).1]

theorem exists_lastAt (h : a ∈ l) : ∃ n, LastAt l n a := by
  induction l using List.reverseRecOn with
  | nil => cases h
  | append_singleton l x ih =>
    by_cases hx : a = x
    · exact ⟨l.length, lastAt_concat.2 (.inl ⟨hx, rfl⟩)⟩
    · obtain ⟨n, hn⟩ := ih (by simpa [hx] using h)
      exact ⟨n, lastAt_concat.2 (.inr ⟨hx, hn⟩)⟩

end Lists

/-! ## The parts of the check -/

namespace Checker

/-- What is gathered to check a body is right. -/
structure Knows (c : Checker) (body : Body) : Prop where
  code : c.code = body.code
  blocks : c.blocks = body.blocks
  sites : ∀ id d k, c.sites.lookup id = some (d, k) ↔
    ∃ b, LastAt body.blocks d b ∧ body.LinkedAt b k id
  dominates : ∀ a b, c.dominators.dominates a b = true ↔
    a = b ∨ OnPaths body.entryBlock? body.code.blocks a b

variable {c : Checker} {body : Body} {rows : BlockId → List Row} {b d : BlockId} {n k j : Nat}
  {id : InstId} {v : Value} {e : Expected} {result found : Option ScalarType} {u : User}

/-- Nothing but its type can be wrong with an input whose place is right. -/
theorem typeDefect?_finds : Finds (fun key y => key = [2] ∧
      y = .inputType j (e.name result) (Expected.typeName found) ∧
      ∀ ty, found = some ty → ¬ e.Allows ty result) (typeDefect? j e found result) := by
  rw [typeDefect?]
  split
  · rename_i hadmits
    rintro key y ⟨-, -, refused⟩
    cases found with
    | none => cases e <;> cases hadmits
    | some ty => exact refused ty rfl (Expected.allows_iff.2 hadmits)
  · rename_i hadmits
    refine ⟨[2], ⟨rfl, rfl, ?_⟩, ?_⟩
    · rintro ty rfl allowed
      exact hadmits (Expected.allows_iff.1 allowed)
    · rintro key' y' ⟨rfl, -, -⟩
      exact le_refl _

section Uses

variable (hc : c.Knows body) (hs : body.code.Shows rows) (hn : LastAt body.blocks n b)

include hc hs hn

/-- The place of an input: here the positions of blocks, which the check compares, are turned into
the blocks themselves, which is right where the position of the user is the last of its block. -/
theorem Knows.placeDefect?_finds :
    Finds (body.PlaceDefect b k j id) (c.placeDefect? n k j id) := by
  rw [placeDefect?]
  cases hl : c.sites.lookup id with
  | none =>
    apply Body.placeDefect_finds_dangling
    intro d l linked
    obtain ⟨n', hn'⟩ := exists_lastAt linked.listed
    rw [(hc.sites id n' l).2 ⟨d, hn', linked⟩] at hl
    cases hl
  | some site =>
    obtain ⟨d', l⟩ := site
    obtain ⟨d, hd, linked⟩ := (hc.sites id d' l).1 hl
    dsimp only
    by_cases hdn : d' = n
    · subst hdn
      obtain rfl := Option.some.inj (hd.elem.symm.trans hn.elem)
      rw [if_pos rfl]
      exact linked.placeDefect_finds_early hs
    · rw [if_neg hdn]
      have hdb : d ≠ b := by
        rintro rfl
        exact hdn (hd.unique hn)
      apply linked.placeDefect_finds_avoided hs hdb hd.elem
      rw [Checker.dominates, hc.blocks, hd.elem, hn.elem]
      exact (hc.dominates d b).trans (or_iff_right hdb)

theorem Knows.inputDefect?_finds : ∃ o, c.inputDefect? n k result j v e = .ok o ∧
    Finds (body.InputDefect b k j result v e) o := by
  cases v with
  | const a =>
    refine ⟨_, rfl, typeDefect?_finds.congr fun key y => ?_⟩
    constructor
    · rintro (_ | ⟨has, refused⟩)
      cases has
      exact ⟨rfl, rfl, refused⟩
    · rintro ⟨rfl, rfl, refused⟩
      exact .type rfl refused
  | result id =>
    have hplace : Finds (body.PlaceDefect b k j id) (c.placeDefect? n k j id) :=
      hc.placeDefect?_finds hs hn
    cases hd : c.placeDefect? n k j id with
    | some y =>
      rw [hd] at hplace
      obtain ⟨key, hkey, hleast⟩ := hplace
      refine ⟨some y, by simp only [inputDefect?, hd], key, .place hkey, fun key' y' h => ?_⟩
      cases h with
      | place misplaced => exact hleast _ _ misplaced
      | type => cases hkey <;> exact cons_le_cons_iff.2 (.inl (by decide))
    | none =>
      rw [hd] at hplace
      obtain ⟨i, hinst⟩ : ∃ i, body.code.inst id = .ok i := by
        by_contra hno
        refine hplace _ _ (.dangling fun d l linked => hno ?_)
        obtain ⟨-, i, hi⟩ := (Body.linkedAt_iff hs).1 linked
        exact ⟨i, hs.inst (List.mem_of_getElem? hi)⟩
      have htype : body.code.type? (.result id) = .ok i.ty := by
        rw [Code.type?, hinst]
        rfl
      refine ⟨typeDefect? j e i.ty result, ?_, typeDefect?_finds.congr fun key y => ?_⟩
      · simp only [inputDefect?, hd, hc.code, hinst, ok_bind, pure_eq_ok]
      constructor
      · intro h
        cases h with
        | place misplaced => exact absurd misplaced (hplace _ _)
        | type has refused =>
          obtain rfl := Except.ok.inj (has.symm.trans htype)
          exact ⟨rfl, rfl, refused⟩
      · rintro ⟨rfl, rfl, refused⟩
        exact .type htype refused

theorem Knows.userDefect?_finds : ∃ o, c.userDefect? n k u.result u.inputs u.expected = .ok o ∧
    Finds (body.UserDefect b k u) o := by
  rw [userDefect?]
  by_cases hlen : u.inputs.length = u.expected.length
  · rw [if_neg (not_not_intro hlen)]
    obtain ⟨o, ho, hfinds⟩ := exists_findSomeM?_zipIdx_finds (l := u.inputs.zip u.expected)
      (f := fun p => c.inputDefect? n k u.result p.2 p.1.1 p.1.2)
      fun j p _ => hc.inputDefect?_finds hs hn (j := j) (v := p.1) (e := p.2)
    refine ⟨o, ho, (hfinds.cons 1).congr fun key y => ?_⟩
    constructor
    · rintro (differ | along)
      · exact absurd hlen differ
      · exact ⟨_, rfl, along⟩
    · rintro ⟨rest, rfl, along⟩
      exact .input along
  · rw [if_pos hlen]
    refine ⟨_, rfl, [0], .count hlen, fun key y h => ?_⟩
    cases h with
    | count => exact le_refl _
    | input => exact cons_le_cons_iff.2 (.inl (by decide))

theorem Knows.located_finds : ∃ o,
    (do
      let d ← c.userDefect? n k u.result u.inputs u.expected
      return d.map fun y => (⟨n, u.name, y⟩ : Located)) = Except.ok o ∧
      Finds (body.LocatedDefect n b k u) o := by
  obtain ⟨o, ho, hfinds⟩ := hc.userDefect?_finds hs hn (k := k) (u := u)
  refine ⟨o.map fun y => ⟨n, u.name, y⟩, by rw [ho]; rfl, hfinds.map fun key x => ?_⟩
  constructor
  · rintro ⟨defect⟩
    exact ⟨_, defect, rfl⟩
  · rintro ⟨y, defect, rfl⟩
    exact .here defect

omit hc hn in
/-- The defects of the instructions of a block, found by their identities. -/
theorem along_insts {key : List Nat} {x : Located} :
    Along ((rows b).map Prod.fst) (fun k id key x => ∃ i, body.code.inst id = .ok i ∧
      body.LocatedDefect n b k i.user key x) key x ↔
    Along ((rows b).map fun r => r.2.user) (body.LocatedDefect n b) key x := by
  rw [along_map, along_map]
  constructor
  · rintro ⟨elem, i, hi, found⟩
    obtain rfl := Except.ok.inj (hi.symm.trans (hs.inst (List.mem_of_getElem? elem)))
    exact .at elem found
  · rintro ⟨elem, found⟩
    exact .at elem ⟨_, hs.inst (List.mem_of_getElem? elem), found⟩

/-- The check of the instructions of a block finds the first defect of them. -/
theorem Knows.insts_finds : ∃ o,
    ((rows b).map Prod.fst).zipIdx.findSomeM? (fun p => c.instDefect? n p.2 p.1) = .ok o ∧
      Finds (Along ((rows b).map fun r => r.2.user) (body.LocatedDefect n b)) o := by
  obtain ⟨o, ho, hfinds⟩ := exists_findSomeM?_zipIdx_finds (l := (rows b).map Prod.fst)
    (f := fun p => c.instDefect? n p.2 p.1)
    (V := fun k id key x => ∃ i, body.code.inst id = .ok i ∧
      body.LocatedDefect n b k i.user key x) fun k id hk => by
    rw [List.getElem?_map] at hk
    obtain ⟨⟨id, i⟩, hr, rfl⟩ := Option.map_eq_some_iff.1 hk
    have hi : body.code.inst id = .ok i := hs.inst (List.mem_of_getElem? hr)
    obtain ⟨o, ho, hfinds⟩ := hc.located_finds hs hn (k := k) (u := i.user)
    refine ⟨o, ?_, hfinds.congr fun key x => by simp [hi]⟩
    rw [instDefect?, hc.code, hi]
    exact ho
  exact ⟨o, ho, hfinds.congr fun key x => (along_insts hs).symm⟩

/-- The check of a block finds its first defect: first come the instructions, then the
terminator. -/
theorem Knows.blockDefect?_finds (hb : ∃ blk, body.code.blocks.get? b = some blk) :
    ∃ o, c.blockDefect? n b = .ok o ∧ Finds (body.BlockDefect n b) o := by
  obtain ⟨blk, hblk⟩ := hb
  obtain ⟨o, ho, hfinds⟩ := hc.insts_finds hs hn
  obtain ⟨o', ho', hfinds'⟩ :=
    hc.located_finds hs hn (k := (rows b).length) (u := blk.terminator.user)
  have hlen : ((rows b).map fun r => r.2.user).length = (rows b).length := List.length_map _
  have hboth := hfinds.or (fun _ => hfinds'.cons (rows b).length) fun key x key' x' h h' => by
    obtain ⟨elem, -⟩ := h
    obtain ⟨rest, rfl, -⟩ := h'
    have hlt := (List.getElem?_eq_some_iff.1 elem).1
    exact cons_le_cons_iff.2 (.inl (hlen ▸ hlt))
  refine ⟨_, ?_, hboth.congr fun key x => ?_⟩
  · rw [blockDefect?, hc.code, hs.instsOf hblk, ok_bind, ho, ok_bind]
    cases o with
    | some x => rfl
    | none =>
      simp only [Defs.find_of_get? hblk, ok_bind, List.length_map]
      exact ho'
  · have husers := hs.usersOf hblk
    rw [← hlen, ← along_concat]
    constructor
    · rintro ⟨husers', along⟩
      obtain rfl := Except.ok.inj (husers'.symm.trans husers)
      exact along
    · exact fun along => .user husers along

end Uses

end Checker

/-! ## Users that fit in valid bodies -/

namespace Body

variable {body : Body} {rows : BlockId → List Row} {b : BlockId} {p s : List Row} {u : User}

theorem UserFits.userOk (hs : body.code.Shows rows) (hp : rows b = p ++ s)
    (h : body.UserFits b p.length u) :
    body.flow.UserOk .checked rows b p u.result u.inputs u.expected := by
  rw [Flow.UserOk, List.forall₂_iff_zip]
  refine ⟨h.count, @fun v e hve => ?_⟩
  obtain ⟨j, hj, he⟩ := List.mem_iff_getElem.1 hve
  obtain ⟨hv, he⟩ := List.getElem?_zip_eq_some.1 (List.getElem?_eq_some_iff.2 ⟨hj, he⟩)
  obtain ⟨ty, hty, allowed⟩ := h.typed j v e hv he
  refine ⟨ty, ?_, Expected.allows_iff.1 allowed⟩
  cases v with
  | const a => exact Except.ok.inj hty
  | result id =>
    have hmem := List.mem_of_getElem? hv
    obtain ⟨d, l, linked⟩ := h.linked id hmem
    obtain ⟨hd, i, hi⟩ := (linkedAt_iff hs).1 linked
    have hity : i.ty = some ty := by
      have htype := Code.type?_of_typeOf hty
      rw [Code.type?, hs.inst (List.mem_of_getElem? hi)] at htype
      exact Except.ok.inj htype
    by_cases hdb : d = b
    · subst hdb
      rw [hp, List.getElem?_append_left (h.before id hmem l linked)] at hi
      exact .inl ⟨i, List.mem_of_getElem? hi, hity⟩
    · exact .inr ⟨d, hd, hdb, h.onPaths id hmem d l linked hdb, i, List.mem_of_getElem? hi, hity⟩

/-- What is computed before some rows end is linked at a place from which it can be used. -/
theorem exists_linkedAt_of_computed (hs : body.code.Shows rows) (hb : b ∈ body.blocks)
    (hp : rows b = p ++ s) {id : InstId} {ty : ScalarType}
    (h : body.flow.Computed rows b p id ty) : ∃ d l, body.LinkedAt d l id ∧
      ((d = b ∧ l < p.length) ∨ d ≠ b ∧ OnPaths body.entryBlock? body.code.blocks d b) := by
  rcases h with ⟨i, hi, -⟩ | ⟨d, hd, hdb, hon, i, hi, -⟩
  · obtain ⟨l, hl, he⟩ := List.mem_iff_getElem.1 hi
    refine ⟨b, l, (linkedAt_iff hs).2 ⟨hb, i, ?_⟩, .inl ⟨rfl, hl⟩⟩
    rw [hp, List.getElem?_append_left hl, List.getElem?_eq_getElem hl, he]
  · obtain ⟨l, hl, he⟩ := List.mem_iff_getElem.1 hi
    exact ⟨d, l, (linkedAt_iff hs).2 ⟨hd, i, List.getElem?_eq_some_iff.2 ⟨hl, he⟩⟩,
      .inr ⟨hdb, hon⟩⟩

/-- A user fits if and only if its inputs are computed before it on every path, and admitted. -/
theorem userFits_iff_userOk (hs : body.code.Shows rows) (hb : b ∈ body.blocks)
    (hp : rows b = p ++ s) : body.UserFits b p.length u ↔
      body.flow.UserOk .checked rows b p u.result u.inputs u.expected := by
  refine ⟨UserFits.userOk hs hp, fun h => ?_⟩
  have hplace : ∀ id, .result id ∈ u.inputs → ∃ d l, body.LinkedAt d l id ∧
      ((d = b ∧ l < p.length) ∨ d ≠ b ∧ OnPaths body.entryBlock? body.code.blocks d b) := by
    intro id hid
    obtain ⟨ty, hcomputed⟩ := h.hasType hid
    exact exists_linkedAt_of_computed hs hb hp hcomputed
  rw [Flow.UserOk, List.forall₂_iff_zip] at h
  obtain ⟨count, hzip⟩ := h
  refine ⟨count, fun id hid => ?_, fun id hid l linked => ?_, fun id hid d l linked hdb => ?_,
    fun j v e hv he => ?_⟩
  · obtain ⟨d, l, linked, -⟩ := hplace id hid
    exact ⟨d, l, linked⟩
  · obtain ⟨d, l', linked', hat⟩ := hplace id hid
    obtain ⟨rfl, rfl⟩ := linked.unique hs linked'
    rcases hat with ⟨-, hlt⟩ | ⟨hne, -⟩
    · exact hlt
    · exact absurd rfl hne
  · obtain ⟨d', l', linked', hat⟩ := hplace id hid
    obtain ⟨rfl, rfl⟩ := linked.unique hs linked'
    rcases hat with ⟨he, -⟩ | ⟨-, hon⟩
    · exact absurd he hdb
    · exact hon
  · obtain ⟨ty, hty, admits⟩ := hzip (List.mem_of_getElem? (List.getElem?_zip_eq_some.2 ⟨hv, he⟩))
    exact ⟨ty, hty.typeOf hs hp, Expected.allows_iff.2 admits⟩

/-- A block is valid if and only if all its users fit. -/
theorem blockOk_iff (hs : body.code.Shows rows) (hb : b ∈ body.blocks) :
    body.flow.BlockOk .checked rows b ↔ ∃ users, body.code.usersOf b = .ok users ∧
      ∀ (k : Nat) (u : User), users[k]? = some u → body.UserFits b k u := by
  have hsplit : ∀ {k r}, (rows b)[k]? = some r →
      rows b = (rows b).take k ++ r :: (rows b).drop (k + 1) ∧ ((rows b).take k).length = k := by
    intro k r hr
    obtain ⟨hk, rfl⟩ := List.getElem?_eq_some_iff.1 hr
    refine ⟨?_, by rw [List.length_take]; omega⟩
    rw [← List.drop_eq_getElem_cons hk, List.take_append_drop]
  have hflow : ∀ {t}, body.flow.terminator? b = some t →
      ∃ blk, body.code.blocks.get? b = some blk ∧ blk.terminator = t := Option.map_eq_some_iff.1
  have hterm : ∀ t : Terminator, body.UserFits b (rows b).length t.user ↔
      body.flow.UserOk .checked rows b (rows b) none t.inputs t.kind.expected := fun t =>
    userFits_iff_userOk hs hb (u := t.user) (List.append_nil _).symm
  constructor
  · rintro ⟨hrows, t, ht, hleaves⟩
    obtain ⟨blk, hblk, rfl⟩ := hflow ht
    refine ⟨_, hs.usersOf hblk, fun k u hu => ?_⟩
    rw [List.getElem?_append, List.length_map] at hu
    split at hu
    · rw [List.getElem?_map] at hu
      obtain ⟨r, hr, rfl⟩ := Option.map_eq_some_iff.1 hu
      obtain ⟨hat, hlen⟩ := hsplit hr
      have hok := Flow.rowsOk_iff.1 hrows _ r _ hat
      rw [← hlen]
      exact (userFits_iff_userOk hs hb hat).2 hok
    · rename_i hge
      have hk : k = (rows b).length := by
        have hlt := (List.getElem?_eq_some_iff.1 hu).1
        rw [List.length_singleton] at hlt
        omega
      subst hk
      rw [Nat.sub_self] at hu
      obtain rfl := Option.some.inj hu
      exact (hterm _).2 hleaves
  · rintro ⟨users, husers, hfit⟩
    obtain ⟨ids, hids, -⟩ := bind_eq_ok.1 husers
    obtain ⟨blk, hblk, -⟩ := bind_eq_ok.1 hids
    have hblk := Defs.find_eq_ok.1 hblk
    obtain rfl := Except.ok.inj (husers.symm.trans (hs.usersOf hblk))
    have hflow : body.flow.terminator? b = some blk.terminator := by
      show (body.code.blocks.get? b).map Block.terminator = _
      rw [hblk]
      rfl
    refine ⟨Flow.rowsOk_iff.2 fun q r t hq => ?_, _, hflow, (hterm _).1 (hfit _ _ (by simp))⟩
    exact (userFits_iff_userOk hs hb hq).1 (hfit q.length r.2.user (by simp [hq]))

/-! ## The check of a body -/

/-- The sites of one block. -/
theorem sitesIn_eq (hs : body.code.Shows rows) {blk : Block}
    (hb : body.code.blocks.get? b = some blk) (n : Nat) :
    body.sitesIn n b = .ok ((rows b).zipIdx.map fun x => (x.1.1, n, x.2)) := by
  rw [sitesIn, hs.instsOf hb, ok_bind, pure_eq_ok, List.zipIdx_map, List.map_map]
  rfl

/-- The sites of a block lead from an instruction to its place. -/
theorem lookup_sitesIn (hs : body.code.Shows rows) {id : InstId} {n d k : Nat} :
    ((rows b).zipIdx.map fun x => (x.1.1, n, x.2)).reverse.lookup id = some (d, k) ↔
      d = n ∧ ∃ i, (rows b)[k]? = some (id, i) := by
  have hmem : ∀ d k, (id, d, k) ∈ ((rows b).zipIdx.map fun x => (x.1.1, n, x.2)).reverse ↔
      d = n ∧ ∃ i, (rows b)[k]? = some (id, i) := by
    intro d k
    rw [List.mem_reverse, List.mem_map]
    constructor
    · rintro ⟨⟨⟨id, i⟩, k⟩, hr, he⟩
      cases he
      exact ⟨rfl, i, List.mk_mem_zipIdx_iff_getElem?.1 hr⟩
    · rintro ⟨rfl, i, hi⟩
      exact ⟨((id, i), k), List.mk_mem_zipIdx_iff_getElem?.2 hi, rfl⟩
  rw [← hmem]
  apply lookup_eq_some_iff
  rintro ⟨d, k⟩ ⟨d', k'⟩ h h'
  obtain ⟨rfl, i, hi⟩ := (hmem d k).1 h
  obtain ⟨rfl, i', hi'⟩ := (hmem d' k').1 h'
  obtain ⟨-, rfl⟩ := hs.place_unique hi hi'
  rfl

/-- The sites of a list of blocks lead from an instruction to the last position of its block. -/
theorem lookup_sites (hs : body.code.Shows rows) {blocks : List BlockId} {id : InstId}
    {d k : Nat} :
    (blocks.zipIdx.map fun x =>
        (rows x.1).zipIdx.map fun y => (y.1.1, x.2, y.2)).flatten.reverse.lookup id = some (d, k) ↔
      ∃ b i, LastAt blocks d b ∧ (rows b)[k]? = some (id, i) := by
  induction blocks using List.reverseRecOn with
  | nil =>
    constructor
    · intro h
      cases h
    · rintro ⟨b, i, hlast, -⟩
      cases hlast.elem
  | append_singleton blocks x ih =>
    rw [List.zipIdx_append, List.map_append, List.flatten_append, List.reverse_append,
      List.lookup_append]
    simp only [List.zipIdx_singleton, List.map_cons, List.map_nil, List.flatten_cons,
      List.flatten_nil, List.append_nil, Nat.zero_add]
    cases hl : ((rows x).zipIdx.map fun y => (y.1.1, blocks.length, y.2)).reverse.lookup id with
    | none =>
      rw [Option.none_or, ih]
      refine exists_congr fun b => exists_congr fun i => and_congr_left fun hi => ?_
      have hbx : b ≠ x := by
        rintro rfl
        rw [(lookup_sitesIn hs).2 ⟨rfl, i, hi⟩] at hl
        cases hl
      rw [lastAt_concat]
      simp [hbx]
    | some v =>
      obtain ⟨hv, i, hi⟩ := (lookup_sitesIn hs).1 hl
      rw [Option.some_or]
      constructor
      · intro h
        obtain rfl := Option.some.inj h
        exact ⟨x, i, lastAt_concat.2 (.inl ⟨rfl, hv⟩), hi⟩
      · rintro ⟨b, i', hlast, hi'⟩
        obtain ⟨rfl, rfl⟩ := hs.place_unique hi' hi
        rcases lastAt_concat.1 hlast with ⟨-, rfl⟩ | ⟨hne, -⟩
        · rw [← hv]
        · exact absurd rfl hne

/-- What is gathered is right if there is anything to gather. -/
theorem checker_knows (hs : body.code.Shows rows)
    (listed : ∀ b ∈ body.blocks, ∃ blk, body.code.blocks.get? b = some blk)
    (defined : ∀ b, Reached body.entryBlock? body.code.blocks b →
      (body.code.blocks.get? b).isSome = true) :
    ∃ c, body.checker = .ok c ∧ c.Knows body := by
  obtain ⟨doms, hdoms, hiff⟩ := body.exists_dominators defined
  let site := fun x : BlockId × Nat => (rows x.1).zipIdx.map fun y => (y.1.1, x.2, y.2)
  have hsites : body.sites = .ok (body.blocks.zipIdx.map site).flatten.reverse := by
    have hmap : body.blocks.zipIdx.mapM (fun x => body.sitesIn x.2 x.1) =
        .ok (body.blocks.zipIdx.map site) := by
      apply mapM_eq_ok
      intro x hx
      obtain ⟨blk, hblk⟩ := listed x.1 (List.fst_mem_of_mem_zipIdx hx)
      exact sitesIn_eq hs hblk x.2
    rw [sites, hmap]
    rfl
  refine ⟨⟨body.code, body.blocks, (body.blocks.zipIdx.map site).flatten.reverse, doms⟩, ?_, rfl,
    rfl, fun id d k => ?_, hiff⟩
  · rw [checker, hsites, ok_bind, hdoms]
    rfl
  · refine (lookup_sites hs).trans (exists_congr fun b => ?_)
    rw [linkedAt_iff hs]
    constructor
    · rintro ⟨i, hlast, hi⟩
      exact ⟨hlast, List.mem_of_getElem? hlast.elem, i, hi⟩
    · rintro ⟨hlast, -, i, hi⟩
      exact ⟨i, hlast, hi⟩

/-- **The check of a body finds its first defect.** -/
theorem exists_firstDefect_finds (hs : body.code.Shows rows) (hn : body.blocks.Nodup)
    (listed : ∀ b ∈ body.blocks, ∃ blk, body.code.blocks.get? b = some blk)
    (defined : ∀ b, Reached body.entryBlock? body.code.blocks b →
      (body.code.blocks.get? b).isSome = true) :
    ∃ o, body.firstDefect = .ok o ∧ Finds (Along body.blocks body.BlockDefect) o := by
  obtain ⟨c, hc, hknows⟩ := checker_knows hs listed defined
  obtain ⟨o, ho, hfinds⟩ := exists_findSomeM?_zipIdx_finds (l := body.blocks)
    (f := fun p => c.blockDefect? p.2 p.1) fun n b hb =>
      hknows.blockDefect?_finds hs (lastAt_of_nodup hn hb) (listed b (List.mem_of_getElem? hb))
  exact ⟨o, by rw [firstDefect, hc, ok_bind, ho], hfinds⟩

/-- A body without a defect is valid, also if it lists a block several times: the block is checked
in earnest at the last of its positions. -/
theorem valid_of_firstDefect (hs : body.code.Shows rows) (h : body.firstDefect = .ok none) :
    (∀ b, Reached body.entryBlock? body.code.blocks b →
      (body.code.blocks.get? b).isSome = true) ∧ body.flow.Valid .checked rows := by
  obtain ⟨c, hc, hfind⟩ := bind_eq_ok.1 h
  obtain ⟨sites, hsites, hrest⟩ := bind_eq_ok.1 hc
  obtain ⟨doms, hdoms, -⟩ := bind_eq_ok.1 hrest
  have defined : ∀ b, Reached body.entryBlock? body.code.blocks b →
      (body.code.blocks.get? b).isSome = true := fun b hb =>
    Option.isSome_iff_exists.2 (Dominators.ofBlocks_reached hdoms hb)
  have listed : ∀ b ∈ body.blocks, ∃ blk, body.code.blocks.get? b = some blk := by
    obtain ⟨l, hl, -⟩ := bind_eq_ok.1 hsites
    intro b hb
    obtain ⟨n, hn, rfl⟩ := List.mem_iff_getElem.1 hb
    have hmem := List.mk_mem_zipIdx_iff_getElem?.2 (List.getElem?_eq_getElem hn)
    obtain ⟨site, hsite⟩ := exists_of_mapM_eq_ok hl _ hmem
    obtain ⟨ids, hids, -⟩ := bind_eq_ok.1 hsite
    obtain ⟨blk, hblk, -⟩ := bind_eq_ok.1 hids
    exact ⟨blk, Defs.find_eq_ok.1 hblk⟩
  obtain ⟨c', hc', hknows⟩ := checker_knows hs listed defined
  obtain rfl := Except.ok.inj (hc.symm.trans hc')
  refine ⟨defined, fun b hb => (blockOk_iff hs hb).2 ?_⟩
  obtain ⟨n, hn⟩ := exists_lastAt hb
  obtain ⟨o, ho, hfinds⟩ := hknows.blockDefect?_finds hs hn (listed b hb)
  have hnone := findSomeM?_eq_none.1 hfind (b, n) (List.mk_mem_zipIdx_iff_getElem?.2 hn.elem)
  obtain rfl := Except.ok.inj (ho.symm.trans hnone)
  obtain ⟨blk, hblk⟩ := listed b hb
  refine ⟨_, hs.usersOf hblk, fun k u hu => (userFits_iff hs).2 fun key y defect => ?_⟩
  exact hfinds _ _ (.user (hs.usersOf hblk) (.at hu (.here defect)))

/-- **A body has no defect if and only if all that can be reached is defined and the body is
valid.** -/
theorem firstDefect_eq_none_iff (hs : body.code.Shows rows) (hn : body.blocks.Nodup) :
    body.firstDefect = .ok none ↔
      (∀ b, Reached body.entryBlock? body.code.blocks b →
        (body.code.blocks.get? b).isSome = true) ∧
      body.flow.Valid .checked rows := by
  refine ⟨valid_of_firstDefect hs, ?_⟩
  rintro ⟨defined, hvalid⟩
  have listed : ∀ b ∈ body.blocks, ∃ blk, body.code.blocks.get? b = some blk := by
    intro b hb
    obtain ⟨-, t, ht, -⟩ := hvalid b hb
    obtain ⟨blk, hblk, -⟩ := Option.map_eq_some_iff.1 ht
    exact ⟨blk, hblk⟩
  have conforms : body.Conforms := fun b hb => (blockOk_iff hs hb).1 (hvalid b hb)
  obtain ⟨o, ho, hfinds⟩ := exists_firstDefect_finds hs hn listed defined
  cases o with
  | none => exact ho
  | some x =>
    obtain ⟨key, hkey, -⟩ := hfinds
    exact absurd hkey ((conforms_iff hs listed).1 conforms key x)

end Body

end ShaderIR
