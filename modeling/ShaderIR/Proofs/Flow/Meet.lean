import ShaderIR.Flow.Dominators
import ShaderIR.Proofs.Entity

/-!
# Nearest common dominators

The positions whose dominator is known form a tree with position 0 as its root.

* `Parents.Above`: what a climb from a position meets.
* `Parents.Grounded`: every climb goes down in position and ends at the root.
* `Parents.Nearest`: what the nearest common dominator of several positions is.

Principal statements: `Grounded.meet` and `Grounded.meetAll` (the nearest common dominator is found,
and keeps whatever a climb keeps).
-/

namespace ShaderIR

namespace Dominators.Parents

variable {t u : Parents} {a i j p q d m : Nat}

theorem parent_eq_ok : t.parent i = .ok d ↔ t[i]?.join = some d := by
  unfold parent
  split <;> simp_all

theorem knows_iff : t.knows i = true ↔ ∃ d, t.parent i = .ok d := by
  simp only [knows, Option.isSome_iff_exists, parent_eq_ok]

theorem parent_unique (h : t.parent i = .ok d) (h' : t.parent i = .ok m) : d = m := by
  rw [h] at h'
  exact Except.ok.inj h'

theorem parent_congr (h : t[i]? = u[i]?) : t.parent i = u.parent i := by
  simp only [parent, h]

theorem knows_congr (h : t[i]? = u[i]?) : t.knows i = u.knows i := by
  simp only [knows, h]

/-- A climb from position `i` meets position `a`. -/
inductive Above (t : Parents) (a : Nat) : Nat → Prop where
  | here : Above t a a
  | climb {i d : Nat} (parent : t.parent i = .ok d) (lt : d < i) (above : Above t a d) : Above t a i

theorem Above.le (h : Above t a i) : a ≤ i := by
  induction h with
  | here => exact Nat.le_refl a
  | climb _ lt _ ih => omega

theorem Above.trans (h : Above t a i) (h' : Above t i j) : Above t a j := by
  induction h' with
  | here => exact h
  | climb parent lt _ ih => exact .climb parent lt ih

/-- A climb that meets another position meets it from the parent on. -/
theorem Above.of_parent (h : Above t a i) (ne : a ≠ i) (hd : t.parent i = .ok d) :
    Above t a d := by
  cases h with
  | here => exact absurd rfl ne
  | climb parent _ above => exact parent_unique parent hd ▸ above

/-- A climb looks only at positions up to its start. -/
theorem Above.congr (h : Above t a i) (same : ∀ j ≤ i, t[j]? = u[j]?) : Above u a i := by
  induction h with
  | here => exact .here
  | climb parent lt _ ih =>
    rw [parent_congr (same _ (Nat.le_refl _))] at parent
    exact .climb parent lt (ih fun j hj => same j (by omega))

/-- Every climb goes down in position and ends at the root. -/
structure Grounded (t : Parents) : Prop where
  root : t.parent 0 = .ok 0
  below : ∀ i d, 0 < i → t.parent i = .ok d → d < i ∧ t.knows d = true

theorem Grounded.knows_root (h : Grounded t) : t.knows 0 = true := knows_iff.2 ⟨0, h.root⟩

theorem Grounded.knows_above (h : Grounded t) (hi : t.knows i = true) (ha : Above t a i) :
    t.knows a = true := by
  induction ha with
  | here => exact hi
  | climb parent lt _ ih => exact ih (h.below _ _ (by omega) parent).2

/-- A property of positions from `a` on that a climb keeps until it comes to `a`. -/
def Kept (t : Parents) (a : Nat) (S : Nat → Prop) : Prop :=
  ∀ i, S i → a ≤ i ∧ ∀ d, a < i → t.parent i = .ok d → S d

theorem kept_above : Kept t a (Above t a) := fun _ hi =>
  ⟨hi.le, fun _ lt hd => hi.of_parent (by omega) hd⟩

/-- Position `m` is the nearest one that a climb meets from each of several positions, so far as
they are known. -/
structure Nearest (t : Parents) (ps : List Nat) (m : Nat) : Prop where
  above : ∀ p ∈ ps, t.knows p = true → Above t m p
  kept : ∀ a S, Kept t a S → (∀ p ∈ ps, t.knows p = true → S p) → S m

/-- What both climbs meet is met from where they meet first. -/
theorem Nearest.above_of {ps : List Nat} (h : Nearest t ps m)
    (ha : ∀ p ∈ ps, t.knows p = true → Above t a p) : Above t a m :=
  h.kept a _ kept_above ha

/-- **Two climbs meet, and keep what they both keep.** -/
theorem Grounded.meet (h : Grounded t) : ∀ fuel p q, p + q ≤ fuel → t.knows p = true →
    t.knows q = true → ∃ m, t.meet fuel p q = .ok m ∧ Above t m p ∧ Above t m q ∧
      ∀ a S, Kept t a S → S p → S q → S m := by
  intro fuel
  induction fuel with
  | zero =>
    intro p q hle _ _
    obtain ⟨rfl, rfl⟩ : p = 0 ∧ q = 0 := by omega
    exact ⟨0, rfl, .here, .here, fun _ _ _ hp _ => hp⟩
  | succ fuel ih =>
    intro p q hle hp hq
    rcases Nat.lt_trichotomy q p with hlt | rfl | hlt
    · obtain ⟨d, hd⟩ := knows_iff.1 hp
      obtain ⟨hdp, hkd⟩ := h.below p d (by omega) hd
      obtain ⟨m, hm, hmd, hmq, hS⟩ := ih d q (by omega) hkd hq
      refine ⟨m, ?_, .climb hd hdp hmd, hmq, fun a S hk sp sq => ?_⟩
      · rw [Parents.meet, if_neg (by omega), if_pos hlt, hd, ok_bind, hm]
      · -- the bound lies at `q` at the latest, so the climb from `p` still keeps the property
        have haq := (hk q sq).1
        exact hS a S hk ((hk p sp).2 d (by omega) hd) sq
    · refine ⟨q, ?_, .here, .here, fun _ _ _ sq _ => sq⟩
      rw [Parents.meet, if_pos rfl]
    · obtain ⟨d, hd⟩ := knows_iff.1 hq
      obtain ⟨hdq, hkd⟩ := h.below q d (by omega) hd
      obtain ⟨m, hm, hmp, hmd, hS⟩ := ih p d (by omega) hp hkd
      refine ⟨m, ?_, hmp, .climb hd hdq hmd, fun a S hk sp sq => ?_⟩
      · rw [Parents.meet, if_neg (by omega), if_neg (by omega), hd, ok_bind, hm]
      · have hap := (hk p sp).1
        exact hS a S hk sp ((hk q sq).2 d (by omega) hd)

/-- All positions of a list that are known meet, together with one more. -/
theorem Grounded.meet_foldl (h : Grounded t) : ∀ (ps : List Nat) (p : Nat),
    (∀ q ∈ ps, t.knows q = true) → t.knows p = true →
    ∃ m, ps.foldlM (fun d q => t.meet (q + d) q d) p = .ok m ∧
      (∀ q ∈ p :: ps, Above t m q) ∧
      ∀ a S, Kept t a S → (∀ q ∈ p :: ps, S q) → S m
  | [], p, _, _ => ⟨p, rfl, by simp [Above.here], fun a S _ hS => hS p (by simp)⟩
  | q :: ps, p, hps, hp => by
    have hq := hps q (by simp)
    obtain ⟨d, hd, hdq, hdp, hSd⟩ := h.meet (q + p) q p (Nat.le_refl _) hq hp
    have hkd := h.knows_above hp hdp
    obtain ⟨m, hm, habove, hSm⟩ := h.meet_foldl ps d (fun r hr => hps r (by simp [hr])) hkd
    have hmd : Above t m d := habove d (by simp)
    refine ⟨m, ?_, fun r hr => ?_, fun a S hk hS => ?_⟩
    · rw [List.foldlM_cons, hd, ok_bind, hm]
    · rcases List.mem_cons.1 hr with rfl | hr
      · exact hmd.trans hdp
      · rcases List.mem_cons.1 hr with rfl | hr
        · exact hmd.trans hdq
        · exact habove r (by simp [hr])
    · apply hSm a S hk
      intro r hr
      rcases List.mem_cons.1 hr with rfl | hr
      · exact hSd a S hk (hS q (by simp)) (hS p (by simp))
      · exact hS r (by simp [hr])

/-- **The nearest common dominator of all known positions of a list is found.** -/
theorem Grounded.meetAll (h : Grounded t) {ps : List Nat} (known : ∃ p ∈ ps, t.knows p = true) :
    ∃ m, t.meetAll ps = .ok (some m) ∧ Nearest t ps m := by
  obtain ⟨p, hp, hkp⟩ := known
  cases hf : ps.filter t.knows with
  | nil =>
    have hmem : p ∈ ps.filter t.knows := List.mem_filter.2 ⟨hp, hkp⟩
    rw [hf] at hmem
    simp at hmem
  | cons q rest =>
    have hmem : ∀ r, r ∈ q :: rest ↔ r ∈ ps ∧ t.knows r = true := by
      intro r
      rw [← hf, List.mem_filter]
    obtain ⟨m, hm, habove, hS⟩ := h.meet_foldl rest q
      (fun r hr => ((hmem r).1 (by simp [hr])).2) ((hmem q).1 (by simp)).2
    refine ⟨m, ?_, fun r hr hk => habove r ((hmem r).2 ⟨hr, hk⟩), fun a S hk hps => ?_⟩
    · simp only [Parents.meetAll, hf, hm, ok_bind, pure_eq_ok]
    · apply hS a S hk
      intro r hr
      obtain ⟨hr, hkr⟩ := (hmem r).1 hr
      exact hps r hr hkr

end Dominators.Parents

end ShaderIR
