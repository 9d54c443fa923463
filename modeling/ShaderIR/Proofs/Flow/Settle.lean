import Mathlib.Algebra.Order.BigOperators.Group.Finset
import ShaderIR.Proofs.Flow.Meet

/-!
# The rounds of the dominator iteration

A graph is given by the predecessors of every position but the root.

* `Trail`, `OnTrails`: the ways from the root to a position, and what lies on all of them.
* `Ordered`: every position has a predecessor that comes before it.
* `Parents.Sound`: no step of a climb leaves out what lies on all trails.  It holds at all times.
* `Parents.Settling`: what holds between two rounds.  It makes climbs from a position only lose
  positions from one round to the next, so that the rounds come to an end.
* `Parents.Settled`: a round would change nothing.

Principal statements: `Round.settling` (a round keeps `Settling`), `settle_settled` (the rounds
end), `Settled.above_iff` (a climb then meets just what lies on all trails).
-/

namespace ShaderIR

namespace Dominators

/-- The predecessors of a position; the root has none that matter. -/
def predsOf (preds : List (List Nat)) : Nat → List Nat
  | 0 => []
  | i + 1 => preds[i]?.getD []

/-- A way from the root to a position, with all that lies on it, the latest first. -/
inductive Trail (preds : List (List Nat)) : List Nat → Nat → Prop where
  | root : Trail preds [0] 0
  | step {ids : List Nat} {q i : Nat} (trail : Trail preds ids q) (pred : q ∈ predsOf preds i) :
    Trail preds (i :: ids) i

/-- Position `a` lies on all trails to position `i`. -/
def OnTrails (preds : List (List Nat)) (a i : Nat) : Prop := ∀ ids, Trail preds ids i → a ∈ ids

/-- Every position has a predecessor that comes before it. -/
def Ordered (preds : List (List Nat)) : Prop :=
  ∀ i, 0 < i → i ≤ preds.length → ∃ q ∈ predsOf preds i, q < i

variable {preds : List (List Nat)} {a i j k q d m y : Nat}

theorem Ordered.exists_trail (h : Ordered preds) :
    ∀ i, i ≤ preds.length → ∃ ids, Trail preds ids i ∧ ∀ k ∈ ids, k ≤ i := by
  intro i
  induction i using Nat.strongRecOn with
  | ind i ih =>
    intro hi
    rcases Nat.eq_zero_or_pos i with rfl | hpos
    · exact ⟨[0], .root, by simp⟩
    · obtain ⟨q, hq, hlt⟩ := h i hpos hi
      obtain ⟨ids, ht, hle⟩ := ih q hlt (by omega)
      refine ⟨i :: ids, .step ht hq, fun k hk => ?_⟩
      rcases List.mem_cons.1 hk with rfl | hk
      · exact Nat.le_refl k
      · have hkq := hle k hk
        omega

/-- What lies on all trails to a position does not come after it. -/
theorem OnTrails.le (h : OnTrails preds a i) (ho : Ordered preds) (hi : i ≤ preds.length) :
    a ≤ i := by
  obtain ⟨ids, ht, hle⟩ := ho.exists_trail i hi
  exact hle a (h ids ht)

theorem OnTrails.pred (h : OnTrails preds a i) (ne : a ≠ i) (hq : q ∈ predsOf preds i) :
    OnTrails preds a q := by
  intro ids ht
  rcases List.mem_cons.1 (h _ (.step ht hq)) with e | hmem
  · exact absurd e ne
  · exact hmem

namespace Parents

variable {t u s : Parents} {c : Bool}

theorem lt_length_of_parent (h : t.parent i = .ok d) : i < t.length := by
  rw [parent_eq_ok] at h
  by_contra hge
  rw [List.getElem?_eq_none (by omega)] at h
  cases h

theorem parent_set (hi : i < t.length) (j : Nat) :
    Parents.parent (t.set i (some m)) j = if j = i then .ok m else t.parent j := by
  by_cases h : j = i
  · subst h
    rw [if_pos rfl, parent_eq_ok, List.getElem?_set_self hi]
    rfl
  · rw [if_neg h]
    exact parent_congr (List.getElem?_set_ne (Ne.symm h))

theorem knows_set (hi : i < t.length) (h : t.knows j = true) :
    Parents.knows (t.set i (some m)) j = true := by
  obtain ⟨d, hd⟩ := knows_iff.1 h
  rw [knows_iff]
  by_cases e : j = i
  · exact ⟨m, by rw [parent_set hi, if_pos e]⟩
  · exact ⟨d, by rw [parent_set hi, if_neg e, hd]⟩

/-- No step of a climb leaves out what lies on all trails. -/
structure Sound (preds : List (List Nat)) (t : Parents) : Prop where
  length : t.length = preds.length + 1
  grounded : Grounded t
  onTrails : ∀ a i d, 0 < i → t.parent i = .ok d → a ≠ i → OnTrails preds a i → OnTrails preds a d

theorem Sound.le_of_knows (h : Sound preds t) (hi : t.knows i = true) : i ≤ preds.length := by
  obtain ⟨d, hd⟩ := knows_iff.1 hi
  have hlt := lt_length_of_parent hd
  have hlen := h.length
  omega

theorem Sound.kept (h : Sound preds t) (ho : Ordered preds) (a : Nat) :
    Kept t a fun i => t.knows i = true ∧ OnTrails preds a i := by
  intro i ⟨hi, ha⟩
  refine ⟨ha.le ho (h.le_of_knows hi), fun d hlt hd => ⟨?_, ?_⟩⟩
  · exact (h.grounded.below i d (by omega) hd).2
  · exact h.onTrails a i d (by omega) hd (by omega) ha

/-- One position is brought up to date. -/
theorem Sound.refine (h : Sound preds t) (ho : Ordered preds) (hpos : 0 < i)
    (hi : i ≤ preds.length) (known : ∀ j < i, t.knows j = true) :
    ∃ m, t.refine i (predsOf preds i) = .ok (t.set i (some m), decide (t[i]?.join ≠ some m)) ∧
      Nearest t (predsOf preds i) m ∧ Sound preds (t.set i (some m)) := by
  obtain ⟨q, hq, hlt⟩ := ho i hpos hi
  obtain ⟨m, hm, hn⟩ := h.grounded.meetAll ⟨q, hq, known q hlt⟩
  have hlen : i < t.length := by rw [h.length]; omega
  have hmq : Above t m q := hn.above q hq (known q hlt)
  have hmi : m < i := Nat.lt_of_le_of_lt hmq.le hlt
  refine ⟨m, ?_, hn, ?_, ?_, ?_⟩
  · simp only [Parents.refine, hm, ok_bind, pure_eq_ok]
  · rw [List.length_set, h.length]
  · refine ⟨?_, fun j d hj hd => ?_⟩
    · rw [parent_set hlen, if_neg (by omega), h.grounded.root]
    · rw [parent_set hlen] at hd
      by_cases e : j = i
      · rw [if_pos e] at hd
        obtain rfl := Except.ok.inj hd
        exact ⟨by omega, knows_set hlen (known m hmi)⟩
      · rw [if_neg e] at hd
        obtain ⟨hdj, hk⟩ := h.grounded.below j d hj hd
        exact ⟨hdj, knows_set hlen hk⟩
  · intro a j d hj hd ne ha
    rw [parent_set hlen] at hd
    by_cases e : j = i
    · rw [if_pos e] at hd
      obtain rfl := Except.ok.inj hd
      subst e
      exact (hn.kept a _ (h.kept ho a) fun p hp hk => ⟨hk, ha.pred ne hp⟩).2
    · rw [if_neg e] at hd
      exact h.onTrails a j d hj hd ne ha

/-- What a round works with when it comes to position `k`: before `k` the dominators that it has
found itself, and from `k` on those of the round before. -/
structure Mixed (k : Nat) (u t s : Parents) : Prop where
  new : ∀ j < k, s[j]? = u[j]?
  old : ∀ j, k ≤ j → s[j]? = t[j]?

/-- The positions from `i` on of `t` have been brought up to date, which gave `u`. -/
structure Round (preds : List (List Nat)) (i : Nat) (t u : Parents) (changed : Bool) : Prop where
  kept : ∀ j < i, u[j]? = t[j]?
  nearest : ∀ k, i ≤ k → k ≤ preds.length →
    ∃ s m, Mixed k u t s ∧ u.parent k = .ok m ∧ Nearest s (predsOf preds k) m
  same : changed = false → u = t
  differs : changed = true → ∃ k, u.parent k ≠ t.parent k

/-- Bringing position `i` up to date and then those after it is a round from `i` on. -/
theorem Round.cons (hi : i < t.length) (hn : Nearest t (predsOf preds i) m)
    (h : Round preds (i + 1) (t.set i (some m)) u c) :
    Round preds i t u (decide (t[i]?.join ≠ some m) || c) := by
  have hui : u[i]? = (t.set i (some m))[i]? := h.kept i (by omega)
  have hne : ∀ j, j ≠ i → (t.set i (some m))[j]? = t[j]? := fun j hj =>
    List.getElem?_set_ne (Ne.symm hj)
  have hpi : u.parent i = .ok m := by rw [parent_congr hui, parent_set hi, if_pos rfl]
  refine ⟨fun j hj => ?_, fun k hk hle => ?_, fun hc => ?_, fun hc => ?_⟩
  · rw [h.kept j (by omega), hne j (by omega)]
  · rcases Nat.eq_or_lt_of_le hk with rfl | hlt
    · refine ⟨t, m, ⟨fun j hj => ?_, fun j _ => rfl⟩, hpi, hn⟩
      rw [h.kept j (by omega), hne j (by omega)]
    · obtain ⟨s, m', hs, hm', hn'⟩ := h.nearest k (by omega) hle
      refine ⟨s, m', ⟨hs.new, fun j hj => ?_⟩, hm', hn'⟩
      rw [hs.old j hj, hne j (by omega)]
  · rw [Bool.or_eq_false_iff, decide_eq_false_iff_not, not_not] at hc
    rw [h.same hc.2]
    refine List.ext_getElem? fun j => ?_
    by_cases e : j = i
    · subst e
      rw [List.getElem?_set_self hi]
      have hj := hc.1
      rw [List.getElem?_eq_getElem hi, Option.join_some] at hj
      rw [List.getElem?_eq_getElem hi, hj]
    · exact hne j e
  · rw [Bool.or_eq_true, decide_eq_true_eq] at hc
    rcases hc with hc | hc
    · refine ⟨i, fun e => hc ?_⟩
      rw [hpi] at e
      exact parent_eq_ok.1 e.symm
    · obtain ⟨k, hk⟩ := h.differs hc
      refine ⟨k, fun e => hk ?_⟩
      by_cases hki : k = i
      · rw [hki, parent_congr hui]
      · rw [e, parent_set hi, if_neg hki]

/-- A round goes through, and knows every position afterwards. -/
theorem Sound.round (ho : Ordered preds) : ∀ (rest done : List (List Nat)) (t : Parents),
    preds = done ++ rest → Sound preds t → (∀ j ≤ done.length, t.knows j = true) →
    ∃ u c, t.round (done.length + 1) rest = .ok (u, c) ∧ Round preds (done.length + 1) t u c ∧
      Sound preds u ∧ ∀ j ≤ preds.length, u.knows j = true
  | [], done, t, e, h, known => by
    have hlen : preds.length = done.length := by rw [e, List.append_nil]
    refine ⟨t, false, rfl, ⟨fun _ _ => rfl, fun k hk hle => ?_, fun _ => rfl, ?_⟩, h, ?_⟩
    · omega
    · simp
    · rwa [hlen]
  | qs :: rest, done, t, e, h, known => by
    have hqs : predsOf preds (done.length + 1) = qs := by simp [predsOf, e]
    have hi : done.length + 1 ≤ preds.length := by simp [e]
    obtain ⟨m, hm, hn, hsound⟩ := h.refine ho (Nat.succ_pos _) hi fun j hj => known j (by omega)
    have hlt : done.length + 1 < t.length := by rw [h.length]; omega
    have hnext : ∀ j ≤ (done ++ [qs]).length,
        Parents.knows (t.set (done.length + 1) (some m)) j = true := by
      intro j hj
      rcases Nat.lt_or_ge done.length j with hlj | hle
      · rw [List.length_append, List.length_singleton] at hj
        exact knows_iff.2 ⟨m, by rw [parent_set hlt, if_pos (by omega)]⟩
      · exact knows_set hlt (known j hle)
    obtain ⟨u, c, hu, hround, hsu, hku⟩ :=
      Sound.round ho rest (done ++ [qs]) _ (by simp [e]) hsound hnext
    rw [List.length_append, List.length_singleton] at hu hround
    refine ⟨u, _, ?_, hround.cons hlt hn, hsu, hku⟩
    rw [← hqs]
    simp only [Parents.round, hm, ok_bind, hu, pure_eq_ok]

section Mixed

/-- Climbs that start before `k` are those of the new round. -/
theorem Mixed.above_iff (h : Mixed k u t s) (hq : q < k) : Above s y q ↔ Above u y q :=
  ⟨fun ha => ha.congr fun j hj => h.new j (by omega),
    fun ha => ha.congr fun j hj => (h.new j (by omega)).symm⟩

/-- A climb from `k` or later goes on as in the old round until it comes before `k`. -/
theorem Mixed.above_old (h : Mixed k u t s) (ha : Above s y q) (hq : k ≤ q) (hy : y < k) :
    ∃ p < k, Above t p q ∧ Above u y p := by
  induction ha with
  | here => omega
  | @climb q d parent lt above ih =>
    rw [parent_congr (h.old q hq)] at parent
    rcases Nat.lt_or_ge d k with hd | hd
    · exact ⟨d, hd, .climb parent lt .here, (h.above_iff hd).1 above⟩
    · obtain ⟨p, hp, hpd, hyp⟩ := ih hd
      exact ⟨p, hp, .climb parent lt hpd, hyp⟩

theorem Mixed.above_new (h : Mixed k u t s) (ha : Above t y q) (hq : k ≤ q) (hy : y < k) :
    ∃ p < k, y ≤ p ∧ Above t p q ∧ ∀ x, Above u x p → Above s x q := by
  induction ha with
  | here => omega
  | @climb q d parent lt above ih =>
    have hparent : s.parent q = .ok d := by rw [parent_congr (h.old q hq), parent]
    rcases Nat.lt_or_ge d k with hd | hd
    · exact ⟨d, hd, above.le, .climb parent lt .here, fun x hx =>
        .climb hparent lt ((h.above_iff hd).2 hx)⟩
    · obtain ⟨p, hp, hyp, hpd, hx⟩ := ih hd
      exact ⟨p, hp, hyp, .climb parent lt hpd, fun x hxp => .climb hparent lt (hx x hxp)⟩

end Mixed

/-- What holds between two rounds. -/
structure Settling (preds : List (List Nat)) (t : Parents) : Prop extends Sound preds t where
  /-- A parent is met from every predecessor that comes before. -/
  earlier : ∀ i d q, 0 < i → t.parent i = .ok d → q ∈ predsOf preds i → q < i →
    t.knows q = true ∧ Above t d q
  /-- What is met from all predecessors is met from the parent. -/
  shared : ∀ i d y, 0 < i → t.parent i = .ok d → y < i →
    (∀ q ∈ predsOf preds i, t.knows q = true → Above t y q) → Above t y d

section Round

variable (ht : Settling preds t) (hu : Sound preds u) (ku : ∀ j ≤ preds.length, u.knows j = true)
  (hr : Round preds 1 t u c)

include hu ku hr

theorem Round.earlier (i d q : Nat) (hpos : 0 < i) (hd : u.parent i = .ok d)
    (hq : q ∈ predsOf preds i) (hlt : q < i) : u.knows q = true ∧ Above u d q := by
  have hi : i ≤ preds.length := hu.le_of_knows (knows_iff.2 ⟨d, hd⟩)
  obtain ⟨s, m, hs, hm, hn⟩ := hr.nearest i hpos hi
  obtain rfl := parent_unique hd hm
  have hk : u.knows q = true := ku q (by omega)
  have hks : s.knows q = true := by rw [knows_congr (hs.new q hlt), hk]
  exact ⟨hk, (hs.above_iff hlt).1 (hn.above q hq hks)⟩

include ht

/-- Climbs only lose positions. -/
theorem Round.above_of (i : Nat) : t.knows i = true → ∀ y, Above u y i → Above t y i := by
  induction i using Nat.strongRecOn with
  | ind i ih =>
    intro hi y hy
    rcases Nat.eq_or_lt_of_le hy.le with rfl | hlt
    · exact .here
    obtain ⟨s, m, hs, hm, hn⟩ := hr.nearest i (by omega) (ht.le_of_knows hi)
    obtain ⟨d, hd⟩ := knows_iff.1 hi
    have hmi := (hu.grounded.below i m (by omega) hm).1
    have hym : Above u y m := hy.of_parent (by omega) hm
    -- all that the round found above `m` was above the predecessors before the round already
    refine .climb hd (ht.grounded.below i d (by omega) hd).1
      (ht.shared i d y (by omega) hd hlt fun q hq hkq => ?_)
    rcases Nat.lt_or_ge q i with hqi | hqi
    · have hks : s.knows q = true := by
        rw [knows_congr (hs.new q hqi)]
        exact ku q (ht.le_of_knows hkq)
      have hmq : Above u m q := (hs.above_iff hqi).1 (hn.above q hq hks)
      exact ih q hqi hkq y (hym.trans hmq)
    · have hks : s.knows q = true := by rw [knows_congr (hs.old q hqi), hkq]
      have hyq : Above s y q := ((hs.above_iff hmi).2 hym).trans (hn.above q hq hks)
      obtain ⟨p, hp, hpq, hyp⟩ := hs.above_old hyq hqi hlt
      exact (ih p hp (ht.grounded.knows_above hkq hpq) y hyp).trans hpq

/-- What a climb still meets above a position that it met before the round, it meets from there. -/
theorem Round.above_between (ho : Ordered preds) (q : Nat) : t.knows q = true → ∀ p y,
    Above t p q → Above u y q → y ≤ p → Above u y p := by
  induction q using Nat.strongRecOn with
  | ind q ih =>
    intro hq p y hp hy hle
    rcases Nat.eq_or_lt_of_le hp.le with rfl | hlt
    · exact hy
    -- both trees agree that the parent is above the predecessor `r` that comes before `q`
    obtain ⟨d, hd⟩ := knows_iff.1 hq
    obtain ⟨r, hr', hrq⟩ := ho q (by omega) (ht.le_of_knows hq)
    obtain ⟨m, hm⟩ := knows_iff.1 (ku q (ht.le_of_knows hq))
    obtain ⟨hkr, hdr⟩ := ht.earlier q d r (by omega) hd hr' hrq
    obtain ⟨-, hmr⟩ := hr.earlier hu ku q m r (by omega) hm hr' hrq
    have hpr : Above t p r := (hp.of_parent (by omega) hd).trans hdr
    have hyr : Above u y r := (hy.of_parent (by omega) hm).trans hmr
    exact ih r hrq hkr p y hpr hyr hle

/-- **A round leads from one state between rounds to another.** -/
theorem Round.settling (ho : Ordered preds) : Settling preds u := by
  refine ⟨hu, hr.earlier hu ku, fun i d y hpos hd hlt hy => ?_⟩
  have hi : i ≤ preds.length := hu.le_of_knows (knows_iff.2 ⟨d, hd⟩)
  obtain ⟨s, m, hs, hm, hn⟩ := hr.nearest i hpos hi
  obtain rfl := parent_unique hd hm
  have hdi := (hu.grounded.below i d hpos hd).1
  refine (hs.above_iff hdi).1 (hn.above_of fun q hq hkq => ?_)
  rcases Nat.lt_or_ge q i with hqi | hqi
  · exact (hs.above_iff hqi).2 (hy q hq (ku q (by omega)))
  · have hkt : t.knows q = true := by rw [← knows_congr (hs.old q hqi), hkq]
    have hyq : Above u y q := hy q hq (ku q (ht.le_of_knows hkt))
    obtain ⟨p, hp, hyp, hpq, hx⟩ := hs.above_new (hr.above_of ht hu ku q hkt y hyq) hqi hlt
    exact hx y (hr.above_between ht hu ku ho q hkt p y hpq hyq hyp)

end Round

/-- The sum of all positions of parents, which falls from round to round. -/
def weight (n : Nat) (t : Parents) : Nat := ∑ i ∈ Finset.range n, t[i]?.join.getD 0

theorem weight_le (h : Grounded t) (n : Nat) : weight n t ≤ n * n := by
  have hle : ∀ i ∈ Finset.range n, t[i]?.join.getD 0 ≤ n := by
    intro i hi
    rw [Finset.mem_range] at hi
    cases hp : t[i]?.join with
    | none => exact Nat.zero_le n
    | some d =>
      rw [← parent_eq_ok] at hp
      rcases Nat.eq_zero_or_pos i with rfl | hpos
      · rw [← parent_unique h.root hp]
        exact Nat.zero_le n
      · have hd := (h.below i d hpos hp).1
        rw [Option.getD_some]
        omega
  have hsum := Finset.sum_le_card_nsmul _ _ n hle
  rwa [Finset.card_range, Nat.nsmul_eq_mul] at hsum

/-- A round that changes something makes the sum smaller. -/
theorem Round.weight_lt (ht : Settling preds t) (kt : ∀ j ≤ preds.length, t.knows j = true)
    (hu : Sound preds u) (ku : ∀ j ≤ preds.length, u.knows j = true)
    (hr : Round preds 1 t u true) :
    weight (preds.length + 1) u < weight (preds.length + 1) t := by
  have hle : ∀ i d m, t.parent i = .ok d → u.parent i = .ok m → m ≤ d := by
    intro i d m hd hm
    rcases Nat.eq_zero_or_pos i with rfl | hpos
    · rw [hu.grounded.root] at hm
      exact Except.ok.inj hm ▸ Nat.zero_le d
    · have hmi := (hu.grounded.below i m hpos hm).1
      have habove := hr.above_of ht hu ku i (knows_iff.2 ⟨d, hd⟩) m (.climb hm hmi .here)
      exact (habove.of_parent (by omega) hd).le
  have hparents : ∀ i ≤ preds.length, ∃ d m, t.parent i = .ok d ∧ u.parent i = .ok m := by
    intro i hi
    obtain ⟨d, hd⟩ := knows_iff.1 (kt i hi)
    obtain ⟨m, hm⟩ := knows_iff.1 (ku i hi)
    exact ⟨d, m, hd, hm⟩
  obtain ⟨k, hk⟩ := hr.differs rfl
  have hkle : k ≤ preds.length := by
    by_contra hgt
    refine hk (parent_congr ?_)
    rw [List.getElem?_eq_none (by rw [hu.length]; omega),
      List.getElem?_eq_none (by rw [ht.length]; omega)]
  refine Finset.sum_lt_sum (fun i hi => ?_) ⟨k, Finset.mem_range.2 (by omega), ?_⟩
  · obtain ⟨d, m, hd, hm⟩ := hparents i (by simpa [Nat.lt_succ_iff] using hi)
    rw [parent_eq_ok.1 hd, parent_eq_ok.1 hm]
    exact hle i d m hd hm
  · obtain ⟨d, m, hd, hm⟩ := hparents k hkle
    have hmd : m ≠ d := fun e => hk (by rw [hd, hm, e])
    have hmle := hle k d m hd hm
    rw [parent_eq_ok.1 hd, parent_eq_ok.1 hm]
    exact Nat.lt_of_le_of_ne hmle hmd

/-- A round would change nothing. -/
structure Settled (preds : List (List Nat)) (t : Parents) : Prop extends Sound preds t where
  known : ∀ j ≤ preds.length, t.knows j = true
  nearest : ∀ i d, 0 < i → t.parent i = .ok d → Nearest t (predsOf preds i) d

theorem Round.settled (hu : Sound preds u) (ku : ∀ j ≤ preds.length, u.knows j = true)
    (hr : Round preds 1 t u false) : Settled preds u := by
  obtain rfl := hr.same rfl
  refine ⟨hu, ku, fun i d hpos hd => ?_⟩
  obtain ⟨s, m, hs, hm, hn⟩ := hr.nearest i hpos (hu.le_of_knows (knows_iff.2 ⟨d, hd⟩))
  obtain rfl := parent_unique hd hm
  have hsu : s = u := by
    refine List.ext_getElem? fun j => ?_
    rcases Nat.lt_or_ge j i with hj | hj
    · exact hs.new j hj
    · exact hs.old j hj
  rwa [hsu] at hn

/-- One round of the iteration; `go` is what happens if it has changed something. -/
theorem settle_round (ho : Ordered preds) (ht : Settling preds t) {n : Nat}
    (go : ∀ u, Settling preds u → (∀ j ≤ preds.length, u.knows j = true) →
      Round preds 1 t u true → ∃ v, settle preds n u = .ok v ∧ Settled preds v) :
    ∃ v, settle preds (n + 1) t = .ok v ∧ Settled preds v := by
  have hroot : ∀ j ≤ ([] : List (List Nat)).length, t.knows j = true := by
    intro j hj
    obtain rfl : j = 0 := by simpa using hj
    exact ht.grounded.knows_root
  obtain ⟨u, c, hu, hr, hsu, ku⟩ := Sound.round ho preds [] t rfl ht.toSound hroot
  rw [List.length_nil, Nat.zero_add] at hu hr
  cases c with
  | false =>
    refine ⟨u, ?_, hr.settled hsu ku⟩
    simp only [settle, hu, ok_bind, Bool.false_eq_true, if_false, pure_eq_ok]
  | true =>
    obtain ⟨v, hv, hs⟩ := go u (hr.settling ht hsu ku ho) ku hr
    refine ⟨v, ?_, hs⟩
    simp only [settle, hu, ok_bind, if_true, hv]

theorem settle_of_known (ho : Ordered preds) : ∀ (n : Nat) (t : Parents), Settling preds t →
    (∀ j ≤ preds.length, t.knows j = true) → weight (preds.length + 1) t < n →
    ∃ u, settle preds n t = .ok u ∧ Settled preds u
  | 0, _, _, _, hw => absurd hw (Nat.not_lt_zero _)
  | n + 1, _, ht, kt, hw => settle_round ho ht fun u hu ku hr => by
    have hlt := hr.weight_lt ht kt hu.toSound ku
    exact settle_of_known ho n u hu ku (by omega)

/-- What is known before the first round. -/
def start (n : Nat) : Parents := some 0 :: List.replicate n none

theorem start_parent {n : Nat} (h : (start n).parent i = .ok d) : i = 0 ∧ d = 0 := by
  rw [parent_eq_ok] at h
  cases i with
  | zero => exact ⟨rfl, by simpa [start] using h.symm⟩
  | succ i =>
    simp only [start, List.getElem?_cons_succ, List.getElem?_replicate] at h
    split at h <;> simp at h

theorem start_settling (preds : List (List Nat)) : Settling preds (start preds.length) := by
  refine ⟨⟨by simp [start], ⟨rfl, fun i d hpos hd => ?_⟩, fun a i d hpos hd => ?_⟩,
    fun i d q hpos hd => ?_, fun i d y hpos hd => ?_⟩
  all_goals exact absurd (start_parent hd).1 (by omega)

/-- **The rounds come to an end.** -/
theorem settle_settled (ho : Ordered preds) :
    ∃ t, settle preds ((preds.length + 1) * (preds.length + 1) + 2) (start preds.length) = .ok t ∧
      Settled preds t := by
  refine settle_round ho (start_settling preds) fun u hu ku _ => settle_of_known ho _ u hu ku ?_
  have hw := weight_le hu.grounded (preds.length + 1)
  omega

/-- What a climb meets lies on every trail. -/
theorem Settled.onTrail (h : Settled preds t) {ids : List Nat} (ht : Trail preds ids i) :
    i ≤ preds.length ∧ ∀ a, Above t a i → a ∈ ids := by
  induction ht with
  | root =>
    refine ⟨Nat.zero_le _, fun a ha => ?_⟩
    have hle := ha.le
    simp only [List.mem_singleton]
    omega
  | @step ids q i trail pred ih =>
    have hi : 0 < i ∧ i ≤ preds.length := by
      cases i with
      | zero => simp [predsOf] at pred
      | succ i =>
        refine ⟨Nat.succ_pos i, ?_⟩
        by_contra hgt
        rw [predsOf, List.getElem?_eq_none (by omega)] at pred
        simp at pred
    refine ⟨hi.2, fun a ha => ?_⟩
    obtain ⟨d, hd⟩ := knows_iff.1 (h.known i hi.2)
    by_cases e : a = i
    · simp [e]
    · have hdq := (h.nearest i d hi.1 hd).above q pred (h.known q ih.1)
      exact List.mem_cons_of_mem _ (ih.2 a ((ha.of_parent e hd).trans hdq))

/-- **Once settled, a climb meets just what lies on all trails.** -/
theorem Settled.above_iff (h : Settled preds t) (ho : Ordered preds) (hi : i ≤ preds.length) :
    Above t a i ↔ OnTrails preds a i := by
  refine ⟨fun ha ids ht => (h.onTrail ht).2 a ha, ?_⟩
  induction i using Nat.strongRecOn with
  | ind i ih =>
    intro ha
    rcases Nat.eq_or_lt_of_le (ha.le ho hi) with rfl | hlt
    · exact .here
    obtain ⟨d, hd⟩ := knows_iff.1 (h.known i hi)
    have hdi := (h.grounded.below i d (by omega) hd).1
    exact .climb hd hdi (ih d hdi (by omega) (h.onTrails a i d (by omega) hd (by omega) ha))

/-- The climb that stops early still finds all that a climb meets. -/
theorem climbs_iff (h : Grounded t) : ∀ (n j : Nat), j < n → t.knows j = true →
    (climbs (t.set 0 none) a n j = true ↔ Above t a j)
  | 0, _, hlt, _ => absurd hlt (Nat.not_lt_zero _)
  | n + 1, j, hlt, hj => by
    rw [climbs]
    by_cases haj : a < j
    · obtain ⟨d, hd⟩ := knows_iff.1 hj
      obtain ⟨hdj, hkd⟩ := h.below j d (by omega) hd
      have hset : (t.set 0 none)[j]?.join = some d := by
        rw [List.getElem?_set_ne (by omega), parent_eq_ok.1 hd]
      rw [if_pos haj, hset]
      refine (climbs_iff h n d (by omega) hkd).trans ⟨.climb hd hdj, fun ha => ?_⟩
      exact ha.of_parent (by omega) hd
    · rw [if_neg haj, beq_iff_eq]
      refine ⟨fun e => e ▸ .here, fun ha => ?_⟩
      have hle := ha.le
      omega

end Parents

end Dominators

end ShaderIR
