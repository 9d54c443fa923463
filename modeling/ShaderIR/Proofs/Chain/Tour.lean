import ShaderIR.Proofs.Chain.Calls
import ShaderIR.Proofs.Chain.Walk

/-!
# Touring a chain from both ends

A segment is no more than two nodes.  It is split from either end while the chain that it is a part
of is edited, and yields what the chain held at the start.

* `Tour`, `Turn`, `Tour.run`: a chain with a segment of it, and what can be done next with either.
* `ChainEdit.InsertsAt`: the place in a sequence at which an edit inserts a node.
* `ChainEdit.Spares`, `Turn.Spares`, `Tour.Spared`: nothing is changed within what is still ahead.
* `Spells`: a chain by itself spells a sequence.
* `Tour.OnCourse`: what is ahead stands together in the chain, between what has been split off.

Principal statements: `Tour.OnCourse.take` (every turn that spares what is ahead can be taken, and
keeps the tour on course), `Layout.tour_exact` (a tour yields every node of the start once).
-/

namespace ShaderIR

variable {κ : Kind} {α : Type}

/-! ## Tours -/

/-- A chain, the segment of it that is still ahead, and what has been split off at either side, in
the order in which it was. -/
structure Tour (κ : Kind) (α : Type) where
  nodes : Nodes κ α
  chain : Chain κ
  ahead : Segment κ
  fronts : List (Id κ)
  backs : List (Id κ)

/-- What is done next on a tour: a node is split off, the chain is edited, or the collection is
changed elsewhere. -/
inductive Turn (κ : Kind) (α : Type) where
  | front
  | back
  | edit (e : ChainEdit κ)
  | elsewhere (nodes : Nodes κ α)

/-- Whether a turn splits a node off. -/
def Turn.splits : Turn κ α → Bool
  | front => true
  | back => true
  | edit _ => false
  | elsewhere _ => false

namespace Tour

/-- A tour that begins, with the whole chain ahead. -/
def start (c : Chain κ) (ns : Nodes κ α) : Tour κ α := ⟨ns, c, c.segment, [], []⟩

/-- Takes one turn.  When nothing is left to split off, the tour stays as it is. -/
def take (t : Tour κ α) : Turn κ α → Except Fault (Tour κ α)
  | .front => do
    match ← t.ahead.popFront t.nodes with
    | none => return t
    | some (x, rest) => return { t with ahead := rest, fronts := t.fronts ++ [x] }
  | .back => do
    match ← t.ahead.popBack t.nodes with
    | none => return t
    | some (x, rest) => return { t with ahead := rest, backs := t.backs ++ [x] }
  | .edit e => do
    let (c, ns) ← e.run t.chain t.nodes
    return { t with chain := c, nodes := ns }
  | .elsewhere ns => .ok { t with nodes := ns }

/-- Takes several turns, one after the other. -/
def run : List (Turn κ α) → Tour κ α → Except Fault (Tour κ α)
  | [], t => .ok t
  | turn :: turns, t => do run turns (← t.take turn)

end Tour

/-- An edit inserts a node into a sequence, after `p` and before `s`. -/
inductive ChainEdit.InsertsAt (ids : List (Id κ)) :
    ChainEdit κ → Id κ → List (Id κ) → List (Id κ) → Prop where
  | first (new : Id κ) : InsertsAt ids (.insertFirst new) new [] ids
  | last (new : Id κ) : InsertsAt ids (.insertLast new) new ids []
  | before {new next : Id κ} {p s : List (Id κ)} (place : ids = p ++ next :: s) :
    InsertsAt ids (.insertBefore new next) new p (next :: s)
  | after {new prev : Id κ} {p s : List (Id κ)} (place : ids = p ++ prev :: s) :
    InsertsAt ids (.insertAfter new prev) new (p ++ [prev]) s

/-- An edit of a sequence that has nothing to do with the nodes for which `ahead` holds: a loose
node is inserted, not between two of them, or another node is removed. -/
inductive ChainEdit.Spares (ns : Nodes κ α) (ids : List (Id κ)) (ahead : Id κ → Prop) :
    ChainEdit κ → Prop where
  | insert {e : ChainEdit κ} {new : Id κ} {p s : List (Id κ)} {v : α}
    (place : e.InsertsAt ids new p s) (fresh : ns.get? new = some (.loose v)) (out : new ∉ ids)
    (apart : ∀ x ∈ p, ∀ y ∈ s, ahead x → ¬ ahead y) : Spares ns ids ahead e
  | remove {node : Id κ} (mem : node ∈ ids) (done : ¬ ahead node) :
    Spares ns ids ahead (.remove node)

/-- A change of a collection that leaves the links of some nodes as they are. -/
def Nodes.LinksKept (ids : List (Id κ)) (ns ns' : Nodes κ α) : Prop :=
  ∀ x ∈ ids, ∀ n, ns.get? x = some n → ∃ v, ns'.get? x = some { n with val := v }

/-- Of the nodes of the start, one that has not been split off. -/
def Tour.Ahead (whole : List (Id κ)) (t : Tour κ α) (x : Id κ) : Prop :=
  x ∈ whole ∧ x ∉ t.fronts ∧ x ∉ t.backs

/-- A turn spares what is ahead on a tour. -/
def Turn.Spares (whole : List (Id κ)) (t : Tour κ α) : Turn κ α → Prop
  | front => True
  | back => True
  | edit e => ∃ ids, t.chain.toList t.nodes = .ok ids ∧ e.Spares t.nodes ids (t.Ahead whole)
  | elsewhere ns => ∃ ids, t.chain.toList t.nodes = .ok ids ∧ t.nodes.LinksKept ids ns

/-- Every one of several turns spares what is ahead when it is taken. -/
def Tour.Spared (whole : List (Id κ)) : List (Turn κ α) → Tour κ α → Prop
  | [], _ => True
  | turn :: turns, t =>
    turn.Spares whole t ∧ ∀ t', t.take turn = .ok t' → Tour.Spared whole turns t'

/-! ## One chain -/

section Single

variable {c : Chain κ} {ns ns' : Nodes κ α} {ids p s : List (Id κ)} {new x : Id κ} {v : α}
  {e : ChainEdit κ}

/-- A chain by itself spells a sequence. -/
def Spells (c : Chain κ) (ns : Nodes κ α) (ids : List (Id κ)) : Prop :=
  Layout (fun _ : Unit => c) ns fun _ => ids

theorem Layout.spells {ι : Type} {cs : ι → Chain κ} {ls : ι → List (Id κ)}
    (h : Layout cs ns ls) (i : ι) : Spells (cs i) ns (ls i) :=
  ⟨fun _ => h.chain i, fun _ => h.linked i, fun _ => h.nodup i, fun _ _ hne => absurd rfl hne⟩

theorem Spells.of_update {c' : Chain κ} {ids' : List (Id κ)}
    (h : Layout (Function.update (fun _ : Unit => c) () c') ns'
      (Function.update (fun _ => ids) () ids')) : Spells c' ns' ids' := by
  simpa only [Function.update_self] using h.spells ()

/-- An insertion into one of several chains can be made at its place, and touches no other chain. -/
theorem Layout.insert {ι : Type} [DecidableEq ι] {cs : ι → Chain κ} {ls : ι → List (Id κ)} {j : ι}
    (h : Layout cs ns ls) (place : e.InsertsAt (ls j) new p s)
    (fresh : ns.get? new = some (.loose v)) (out : ∀ i, new ∉ ls i) :
    ∃ c' ns', e.run (cs j) ns = .ok (c', ns') ∧
      Layout (Function.update cs j c') ns' (Function.update ls j (p ++ new :: s)) ∧
      Untouched ls new ns ns' := by
  cases place with
  | first =>
    obtain ⟨ns', hok, hl, hu⟩ := h.insertFirst j fresh out
    exact ⟨_, ns', hok, hl, hu⟩
  | last =>
    obtain ⟨ns', hok, hl, hu⟩ := h.insertLast j fresh out
    exact ⟨_, ns', hok, hl, hu⟩
  | before place =>
    obtain ⟨ns', hl, hu, hcall⟩ := h.insertBefore place fresh out
    obtain ⟨c', hok, hc⟩ := hcall j (.inl rfl)
    exact ⟨c', ns', hok, hc ▸ hl, hu⟩
  | after place =>
    obtain ⟨ns', hl, hu, hcall⟩ := h.insertAfter place fresh out
    obtain ⟨c', hok, hc⟩ := hcall j (.inl rfl)
    refine ⟨c', ns', hok, ?_, hu⟩
    rw [List.append_assoc]
    exact hc ▸ hl

/-- An insertion can be made at its place, puts the node there, and touches no other node. -/
theorem Spells.insert (h : Spells c ns ids) (place : e.InsertsAt ids new p s)
    (fresh : ns.get? new = some (.loose v)) (out : new ∉ ids) :
    ∃ c' ns', e.run c ns = .ok (c', ns') ∧ Spells c' ns' (p ++ new :: s) ∧
      Untouched (fun _ : Unit => ids) new ns ns' := by
  obtain ⟨c', ns', hrun, hl, hu⟩ := Layout.insert (j := ()) h place fresh fun _ => out
  exact ⟨c', ns', hrun, .of_update hl, hu⟩

/-- A removal can be made of every node of the chain. -/
theorem Spells.remove (h : Spells c ns (p ++ x :: s)) :
    ∃ c' ns', (ChainEdit.remove x).run c ns = .ok (c', ns') ∧ Spells c' ns' (p ++ s) := by
  obtain ⟨ns', hl, -, -, hcall⟩ := Layout.remove h (j := ()) rfl
  obtain ⟨c', hok, hc⟩ := hcall () (.inl rfl)
  exact ⟨c', ns', hok, .of_update (hc ▸ hl)⟩

/-- What happens to other nodes, and to the contents of all, does not matter. -/
theorem Spells.elsewhere (h : Spells c ns ids) (hk : ns.LinksKept ids ns') : Spells c ns' ids :=
  ⟨h.chain, fun i => (h.linked i).relabel hk, h.nodup, h.disjoint⟩

end Single

/-! ## What is ahead -/

/-- A node that is inserted next to a part of a sequence, or further away, leaves it together. -/
theorem exists_around_insert {p rest s a b : List (Id κ)} (new : Id κ)
    (h : p ++ (rest ++ s) = a ++ b) (apart : ∀ x ∈ a, ∀ y ∈ b, x ∈ rest → y ∉ rest) :
    ∃ p' s', a ++ new :: b = p' ++ (rest ++ s') := by
  rcases List.append_eq_append_iff.1 h with ⟨u, rfl, hu⟩ | ⟨u, rfl, rfl⟩
  · rcases List.append_eq_append_iff.1 hu with ⟨w, rfl, rfl⟩ | ⟨w, rfl, rfl⟩
    · -- behind the part
      exact ⟨p, w ++ new :: b, by simp⟩
    · -- the place cuts the part into `u` and `w`, of which one is empty
      cases u with
      | nil => exact ⟨p ++ [new], s, by simp⟩
      | cons x u =>
        cases w with
        | nil => exact ⟨p, new :: s, by simp⟩
        | cons y w => exact absurd (by simp) (apart x (by simp) y (by simp) (by simp))
  · -- before the part
    exact ⟨a ++ new :: u, s, by simp⟩

namespace Tour

/-- What is ahead stands together in the chain, and lies between what has been split off. -/
structure OnCourse (whole rest : List (Id κ)) (t : Tour κ α) : Prop where
  ahead : t.ahead = .ofList rest
  yielded : t.fronts ++ rest ++ t.backs.reverse = whole
  held : ∃ p s, Spells t.chain t.nodes (p ++ (rest ++ s))

variable {whole rest : List (Id κ)} {t : Tour κ α}

theorem onCourse_start {c : Chain κ} {ns : Nodes κ α} (h : Spells c ns whole) :
    (start c ns).OnCourse whole whole := by
  refine ⟨?_, by simp [start], [], [], by simpa [start] using h⟩
  rw [start, h.chain (), Chain.segment_ofList]

namespace OnCourse

theorem ahead_iff (h : t.OnCourse whole rest) (distinct : whole.Nodup) {x : Id κ} :
    t.Ahead whole x ↔ x ∈ rest := by
  have hsplit := h.yielded
  subst hsplit
  simp only [List.nodup_append, List.mem_reverse, List.mem_append] at distinct
  obtain ⟨⟨-, -, hfront⟩, -, hback⟩ := distinct
  simp only [Ahead, List.mem_append, List.mem_reverse]
  constructor
  · rintro ⟨(hx | hx) | hx, hf, hb⟩
    · exact absurd hx hf
    · exact hx
    · exact absurd hx hb
  · intro hx
    exact ⟨.inl (.inr hx), fun hf => hfront x hf x hx rfl, fun hb => hback x (.inr hx) x hb rfl⟩

/-- What is ahead stands together in the sequence that a walk along the chain meets. -/
theorem held_of_toList (h : t.OnCourse whole rest) {ids : List (Id κ)}
    (hids : t.chain.toList t.nodes = .ok ids) :
    ∃ p s, ids = p ++ (rest ++ s) ∧ Spells t.chain t.nodes ids := by
  obtain ⟨p, s, hsp⟩ := h.held
  obtain rfl : p ++ (rest ++ s) = ids := Except.ok.inj ((hsp.toList_eq ()).symm.trans hids)
  exact ⟨p, s, rfl, hsp⟩

/-- A node is split off in front, if any is left. -/
theorem front (h : t.OnCourse whole rest) : ∃ t' rest', t.take .front = .ok t' ∧
    t'.OnCourse whole rest' ∧ rest'.length = rest.length - 1 := by
  obtain ⟨p, s, hsp⟩ := h.held
  rw [take, h.ahead]
  cases rest with
  | nil => exact ⟨t, [], rfl, h, rfl⟩
  | cons x rest =>
    have hlinked := (Nodes.Linked.append_iff.1 (hsp.linked ())).2
    have hx : x ∉ rest := by
      have hnd := (hsp.nodup ()).sublist
        ((List.sublist_append_left _ _).trans (List.sublist_append_right _ _))
      exact (List.nodup_cons.1 hnd).1
    rw [hlinked.popFront hx]
    refine ⟨_, rest, rfl, ⟨rfl, ?_, p ++ [x], s, ?_⟩, rfl⟩
    · rw [← h.yielded]
      simp
    · simpa using hsp

/-- A node is split off at the back, if any is left. -/
theorem back (h : t.OnCourse whole rest) : ∃ t' rest', t.take .back = .ok t' ∧
    t'.OnCourse whole rest' ∧ rest'.length = rest.length - 1 := by
  obtain ⟨p, s, hsp⟩ := h.held
  rw [take, h.ahead]
  rcases List.eq_nil_or_concat rest with rfl | ⟨rest, x, rfl⟩
  · exact ⟨t, [], rfl, h, rfl⟩
  · rw [List.concat_eq_append] at *
    rw [List.append_assoc] at hsp
    have hlinked := (Nodes.Linked.append_iff.1 (hsp.linked ())).2
    have hx : x ∉ rest := by
      have hnd := (List.nodup_append.1 ((hsp.nodup ()).sublist (List.sublist_append_right _ _))).2.2
      exact fun hmem => hnd x hmem x (by simp) rfl
    rw [hlinked.popBack hx]
    refine ⟨_, rest, rfl, ⟨rfl, ?_, p, [x] ++ s, hsp⟩, by simp⟩
    rw [← h.yielded]
    simp

/-- An edit that spares what is ahead can be made, and leaves it together. -/
theorem edit (h : t.OnCourse whole rest) (distinct : whole.Nodup) {e : ChainEdit κ}
    (hs : (Turn.edit e).Spares whole t) :
    ∃ t', t.take (.edit e) = .ok t' ∧ t'.OnCourse whole rest := by
  obtain ⟨ids, hids, hspares⟩ := hs
  obtain ⟨p₀, s₀, rfl, hsp⟩ := h.held_of_toList hids
  obtain ⟨c', ns', p, s, hrun, hsp'⟩ : ∃ c' ns' p s, e.run t.chain t.nodes = .ok (c', ns') ∧
      Spells c' ns' (p ++ (rest ++ s)) := by
    cases hspares with
    | @insert e new a b v place fresh out apart =>
      obtain ⟨c', ns', hrun, hsp', -⟩ := hsp.insert place fresh out
      have hplace : p₀ ++ (rest ++ s₀) = a ++ b := by
        cases place <;> simp_all
      obtain ⟨p, s, hps⟩ := exists_around_insert new hplace fun x hx y hy hxr hyr =>
        apart x hx y hy ((h.ahead_iff distinct).2 hxr) ((h.ahead_iff distinct).2 hyr)
      exact ⟨c', ns', p, s, hrun, hps ▸ hsp'⟩
    | @remove node mem done =>
      rw [h.ahead_iff distinct] at done
      simp only [List.mem_append, done, false_or] at mem
      rcases mem with hmem | hmem
      · obtain ⟨a, b, rfl⟩ := List.append_of_mem hmem
        rw [List.append_assoc, List.cons_append] at hsp
        obtain ⟨c', ns', hrun, hsp'⟩ := hsp.remove
        exact ⟨c', ns', a ++ b, s₀, hrun, by simpa using hsp'⟩
      · obtain ⟨a, b, rfl⟩ := List.append_of_mem hmem
        have hassoc : p₀ ++ (rest ++ (a ++ node :: b)) = (p₀ ++ (rest ++ a)) ++ node :: b := by
          simp
        rw [hassoc] at hsp
        obtain ⟨c', ns', hrun, hsp'⟩ := hsp.remove
        exact ⟨c', ns', p₀, a ++ b, hrun, by simpa using hsp'⟩
  refine ⟨{ t with chain := c', nodes := ns' }, ?_, h.ahead, h.yielded, p, s, hsp'⟩
  rw [take, hrun]
  rfl

theorem elsewhere (h : t.OnCourse whole rest) {ns : Nodes κ α}
    (hs : (Turn.elsewhere ns).Spares whole t) : ({ t with nodes := ns }).OnCourse whole rest := by
  obtain ⟨ids, hids, hkept⟩ := hs
  obtain ⟨p, s, rfl, hsp⟩ := h.held_of_toList hids
  exact ⟨h.ahead, h.yielded, p, s, hsp.elsewhere hkept⟩

/-- **A turn that spares what is ahead can be taken**, and the tour stays on its course. -/
theorem take (h : t.OnCourse whole rest) (distinct : whole.Nodup) {turn : Turn κ α}
    (hs : turn.Spares whole t) : ∃ t' rest', t.take turn = .ok t' ∧ t'.OnCourse whole rest' ∧
      rest'.length = rest.length - if turn.splits then 1 else 0 := by
  cases turn with
  | front => exact h.front
  | back => exact h.back
  | edit e =>
    obtain ⟨t', htake, h'⟩ := h.edit distinct hs
    exact ⟨t', rest, htake, h', rfl⟩
  | elsewhere ns => exact ⟨_, rest, rfl, h.elsewhere hs, rfl⟩

theorem run (distinct : whole.Nodup) {turns : List (Turn κ α)} (h : t.OnCourse whole rest)
    (hs : Spared whole turns t) : ∃ t' rest', Tour.run turns t = .ok t' ∧ t'.OnCourse whole rest' ∧
      rest'.length = rest.length - turns.countP Turn.splits := by
  induction turns generalizing t rest with
  | nil => exact ⟨t, rest, rfl, h, by simp⟩
  | cons turn turns ih =>
    obtain ⟨hturn, hturns⟩ := hs
    obtain ⟨t₁, rest₁, htake, h₁, hlen₁⟩ := h.take distinct hturn
    obtain ⟨t₂, rest₂, hrun, h₂, hlen₂⟩ := ih h₁ (hturns t₁ htake)
    refine ⟨t₂, rest₂, by rw [Tour.run, htake, ok_bind, hrun], h₂, ?_⟩
    rw [hlen₂, hlen₁, List.countP_cons]
    omega

end OnCourse

end Tour

/-- **A tour yields every node of the start once.**  Take any turns on a tour that begins with the
whole of a chain, each of which spares what is ahead: loose nodes are inserted into the chain, not
between two nodes that are still ahead, nodes that are not ahead are removed from it, and elsewhere
the collection may change in any way.  Then all turns can be taken.  What has been split off in
front, in order, what is left, and what has been split off at the back, in reverse order, are the
chain as it was at the start; each split has yielded one of these nodes, as long as there were any,
and never one that has been inserted.  Once all have been yielded, nothing can be split off. -/
theorem Layout.tour_exact {ι : Type} {cs : ι → Chain κ} {ns : Nodes κ α} {ls : ι → List (Id κ)}
    (h : Layout cs ns ls) (i : ι) (turns : List (Turn κ α))
    (spared : Tour.Spared (ls i) turns (.start (cs i) ns)) :
    ∃ t rest, Tour.run turns (.start (cs i) ns) = .ok t ∧
      t.fronts ++ rest ++ t.backs.reverse = ls i ∧
      rest.length = (ls i).length - turns.countP Turn.splits ∧
      (∀ e new, .edit e ∈ turns → e.inserted? = some new → new ∉ ls i →
        new ∉ t.fronts ∧ new ∉ t.backs) ∧
      ((ls i).length ≤ turns.countP Turn.splits → t.fronts ++ t.backs.reverse = ls i ∧
        t.ahead.popFront t.nodes = .ok none ∧ t.ahead.popBack t.nodes = .ok none) := by
  obtain ⟨t, rest, hrun, hcourse, hlen⟩ :=
    (Tour.onCourse_start (h.spells i)).run (h.nodup i) spared
  refine ⟨t, rest, hrun, hcourse.yielded, hlen, fun e new _ _ hnew => ?_, fun hall => ?_⟩
  · rw [← hcourse.yielded] at hnew
    simp only [List.mem_append, List.mem_reverse, not_or] at hnew
    exact ⟨hnew.1.1, hnew.2⟩
  · obtain rfl : rest = [] := List.eq_nil_of_length_eq_zero (by omega)
    refine ⟨by simpa using hcourse.yielded, ?_, ?_⟩ <;> rw [hcourse.ahead] <;> rfl

/-! ## A chain whose nodes are replaced -/

theorem Tour.Spared.cons {whole : List (Id κ)} {turn : Turn κ α} {turns : List (Turn κ α)}
    {t t' : Tour κ α} (take : t.take turn = .ok t') (here : turn.Spares whole t)
    (later : Spared whole turns t') : Spared whole (turn :: turns) t :=
  ⟨here, fun _ h => Except.ok.inj (take.symm.trans h) ▸ later⟩

/-- Three nodes in a chain, and a loose one. -/
def sampleRow : Nodes .inst Nat :=
  ⟨[(⟨0⟩, ⟨none, some ⟨1⟩, 10⟩), (⟨1⟩, ⟨some ⟨0⟩, some ⟨2⟩, 11⟩), (⟨2⟩, ⟨some ⟨1⟩, none, 12⟩),
    (⟨3⟩, .loose 13)]⟩

theorem sampleRow_spells :
    Spells (Chain.ofList [⟨0⟩, ⟨1⟩, ⟨2⟩]) sampleRow [⟨0⟩, ⟨1⟩, ⟨2⟩] :=
  ⟨fun _ => rfl, fun _ => ⟨⟨10, rfl⟩, ⟨11, rfl⟩, ⟨12, rfl⟩, trivial⟩, fun _ => by decide,
    fun _ _ hne => absurd rfl hne⟩

/-- The same collection after the last node of the chain has been replaced by the loose one, and its
definition destroyed. -/
def sampleRowReplaced : Nodes .inst Nat :=
  ⟨[(⟨0⟩, ⟨none, some ⟨1⟩, 10⟩), (⟨1⟩, ⟨some ⟨0⟩, some ⟨3⟩, 11⟩), (⟨3⟩, ⟨some ⟨1⟩, none, 13⟩)]⟩

/-- The last node is split off and another one put in its place.  The tour goes on with the first
node, and then with the one in the middle. -/
theorem sampleRow_tour_exact : ∃ t, Tour.run
    [.back, .edit (.insertBefore ⟨3⟩ ⟨2⟩), .edit (.remove ⟨2⟩), .elsewhere sampleRowReplaced,
      .front, .back, .front] (.start (Chain.ofList [⟨0⟩, ⟨1⟩, ⟨2⟩]) sampleRow) = .ok t ∧
    t.fronts = [⟨0⟩] ∧ t.backs = [⟨2⟩, ⟨1⟩] ∧ t.ahead.popFront t.nodes = .ok none := by
  have hkept : ∀ ns : Nodes .inst Nat, ns.get? ⟨0⟩ = some ⟨none, some ⟨1⟩, 10⟩ →
      ns.get? ⟨1⟩ = some ⟨some ⟨0⟩, some ⟨3⟩, 11⟩ → ns.get? ⟨3⟩ = some ⟨some ⟨1⟩, none, 13⟩ →
      ns.LinksKept [⟨0⟩, ⟨1⟩, ⟨3⟩] sampleRowReplaced := by
    intro ns h₀ h₁ h₃ x hx n hn
    simp only [List.mem_cons, List.not_mem_nil, or_false] at hx
    rcases hx with rfl | rfl | rfl <;> simp_all [sampleRowReplaced, Defs.get?_cons]
  obtain ⟨t, rest, hrun, -, -, -, hend⟩ := Layout.tour_exact sampleRow_spells ()
    [.back, .edit (.insertBefore ⟨3⟩ ⟨2⟩), .edit (.remove ⟨2⟩), .elsewhere sampleRowReplaced,
      .front, .back, .front] (by
    refine .cons rfl trivial (.cons rfl ?_ (.cons rfl ?_ (.cons rfl ?_ (.cons rfl trivial
      (.cons rfl trivial (.cons rfl trivial trivial))))))
    · refine ⟨[⟨0⟩, ⟨1⟩, ⟨2⟩], rfl, .insert (.before (p := [⟨0⟩, ⟨1⟩]) rfl) rfl (by decide) ?_⟩
      exact fun x _ y hy _ hahead => hahead.2.2 hy
    · exact ⟨[⟨0⟩, ⟨1⟩, ⟨3⟩, ⟨2⟩], rfl, .remove (by decide) fun hahead =>
        hahead.2.2 (List.mem_singleton_self _)⟩
    · exact ⟨[⟨0⟩, ⟨1⟩, ⟨3⟩], rfl, hkept _ rfl rfl rfl⟩)
  refine ⟨t, hrun, ?_, ?_, (hend (by decide)).2.1⟩
  · cases hrun
    rfl
  · cases hrun
    rfl

end ShaderIR
