import ShaderIR.Flow.Graph
import ShaderIR.Proofs.Entity

/-!
# Paths through the blocks of a function

* `Leads`: a block is a target of the terminator of another.
* `Path`: a way from the entry to a block along targets, with all blocks that it goes through.
* `Reached`, `OnPaths`: some path leads to a block, and all of them go through another one.
* `Led`: a list of blocks in which something that comes before leads to each.
-/

namespace ShaderIR

/-- Block `v` is a target of the terminator of block `u`. -/
def Leads (blocks : Defs .block Block) (u v : BlockId) : Prop :=
  ∃ blk, blocks.get? u = some blk ∧ v ∈ blk.terminator.targets

/-- A way from the entry to a block, with the blocks that it goes through, the latest first. -/
inductive Path (entry : Option BlockId) (blocks : Defs .block Block) :
    List BlockId → BlockId → Prop where
  | start {b : BlockId} (first : entry = some b) : Path entry blocks [b] b
  | step {ids : List BlockId} {u v : BlockId} (path : Path entry blocks ids u)
    (leads : Leads blocks u v) : Path entry blocks (v :: ids) v

variable {entry : Option BlockId} {blocks : Defs .block Block} {a b u v : BlockId}

/-- Some path leads to a block. -/
def Reached (entry : Option BlockId) (blocks : Defs .block Block) (b : BlockId) : Prop :=
  ∃ ids, Path entry blocks ids b

/-- Every path to block `b` goes through block `a`. -/
def OnPaths (entry : Option BlockId) (blocks : Defs .block Block) (a b : BlockId) : Prop :=
  ∀ ids, Path entry blocks ids b → a ∈ ids

theorem Reached.step (h : Reached entry blocks u) (leads : Leads blocks u v) :
    Reached entry blocks v := by
  obtain ⟨ids, hp⟩ := h
  exact ⟨v :: ids, .step hp leads⟩

/-- What can be reached from a target can be reached from the block that leads to it. -/
theorem Reached.after (h : Reached (some v) blocks b) (leads : Leads blocks u v) :
    Reached (some u) blocks b := by
  obtain ⟨ids, hp⟩ := h
  induction hp with
  | start first =>
    obtain rfl := Option.some.inj first
    exact ⟨_, .step (.start rfl) leads⟩
  | step _ leads ih => exact ih.step leads

/-- Nothing is reached without an entry. -/
theorem not_reached_none : ¬ Reached none blocks b := by
  rintro ⟨ids, hp⟩
  induction hp with
  | start first => cases first
  | step _ _ ih => exact ih

theorem Path.mem {ids : List BlockId} (h : Path entry blocks ids b) : b ∈ ids := by
  cases h <;> simp

/-- A path reaches everything that it goes through. -/
theorem Path.reached_of_mem {ids : List BlockId} (h : Path entry blocks ids b) (ha : a ∈ ids) :
    Reached entry blocks a := by
  induction h with
  | start first =>
    obtain rfl := List.mem_singleton.1 ha
    exact ⟨[a], .start first⟩
  | step path leads ih =>
    rcases List.mem_cons.1 ha with rfl | ha
    · exact ⟨_, .step path leads⟩
    · exact ih ha

/-- Where the entry and all targets are defined, so is everything that is reached. -/
theorem reached_defined (hentry : ∀ e, entry = some e → (blocks.get? e).isSome = true)
    (htargets : ∀ e ∈ blocks.entries, ∀ t ∈ e.2.terminator.targets,
      (blocks.get? t).isSome = true) (hb : Reached entry blocks b) :
    (blocks.get? b).isSome = true := by
  obtain ⟨ids, hp⟩ := hb
  cases hp with
  | start first => exact hentry b first
  | step path leads =>
    obtain ⟨blk, hblk, hmem⟩ := leads
    exact htargets _ (Defs.mem_entries_of_get? hblk) b hmem

theorem OnPaths.reached (h : OnPaths entry blocks a b) (hb : Reached entry blocks b) :
    Reached entry blocks a := by
  obtain ⟨ids, hp⟩ := hb
  exact hp.reached_of_mem (h ids hp)

theorem OnPaths.of_not_reached (h : ¬ Reached entry blocks b) : OnPaths entry blocks a b :=
  fun ids hp => absurd ⟨ids, hp⟩ h

/-- To each block of a list leads one that comes before it, or one that has been seen already. -/
def Led (blocks : Defs .block Block) : List BlockId → List BlockId → Prop
  | _, [] => True
  | seen, b :: rest => (∃ u ∈ seen, Leads blocks u b) ∧ Led blocks (b :: seen) rest

section Led

variable {seen seen' xs ys : List BlockId}

theorem Led.mono (h : Led blocks seen xs) (sub : seen ⊆ seen') : Led blocks seen' xs := by
  induction xs generalizing seen seen' with
  | nil => trivial
  | cons x xs ih =>
    obtain ⟨⟨u, hu, hleads⟩, hrest⟩ := h
    exact ⟨⟨u, sub hu, hleads⟩, ih hrest (List.cons_subset_cons x sub)⟩

/-- A block can be put after one that leads to it. -/
theorem Led.insert (h : Led blocks seen (xs ++ ys)) (hb : ∃ u ∈ xs ++ seen, Leads blocks u b) :
    Led blocks seen (xs ++ b :: ys) := by
  induction xs generalizing seen with
  | nil => exact ⟨hb, h.mono (List.subset_cons_self b seen)⟩
  | cons x xs ih =>
    obtain ⟨u, hu, hleads⟩ := hb
    refine ⟨h.1, ih h.2 ⟨u, ?_, hleads⟩⟩
    simp only [List.cons_append, List.mem_cons, List.mem_append] at hu ⊢
    exact or_left_comm.1 hu

theorem Led.reached (h : Led blocks seen xs) (hs : ∀ u ∈ seen, Reached entry blocks u) :
    ∀ u ∈ xs, Reached entry blocks u := by
  induction xs generalizing seen with
  | nil => simp
  | cons x xs ih =>
    obtain ⟨⟨u, hu, hleads⟩, hrest⟩ := h
    have hx : Reached entry blocks x := (hs u hu).step hleads
    have htail := ih hrest (List.forall_mem_cons.2 ⟨hx, hs⟩)
    exact List.forall_mem_cons.2 ⟨hx, htail⟩

/-- Something before a position leads to the block there. -/
theorem Led.exists_lt (h : Led blocks seen xs) {i : Nat} (hi : xs[i]? = some b) :
    (∃ u ∈ seen, Leads blocks u b) ∨ ∃ j < i, ∃ u, xs[j]? = some u ∧ Leads blocks u b := by
  induction xs generalizing seen i with
  | nil => simp at hi
  | cons x xs ih =>
    obtain ⟨hx, hrest⟩ := h
    cases i with
    | zero =>
      obtain rfl : x = b := by simpa using hi
      exact .inl hx
    | succ i =>
      rw [List.getElem?_cons_succ] at hi
      rcases ih hrest hi with ⟨u, hu, hleads⟩ | ⟨j, hj, u, hu, hleads⟩
      · rcases List.mem_cons.1 hu with rfl | hu
        · exact .inr ⟨0, Nat.succ_pos i, u, rfl, hleads⟩
        · exact .inl ⟨u, hu, hleads⟩
      · exact .inr ⟨j + 1, Nat.succ_lt_succ hj, u, hu, hleads⟩

end Led

end ShaderIR
