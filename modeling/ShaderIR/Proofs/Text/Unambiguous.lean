import ShaderIR.Printer

/-!
# Texts that can be taken apart in one way only

* `Text.Stops`: a text does not go on with some kind of character.

Principal statements: `Text.append_unique` (what goes on as long as it can is known from the whole),
`Text.suffix_unique` (so is what goes back as far as it can), `Text.separated_injective`,
`Text.lines_injective` and `Text.groups_injective` (lists are known from their texts, lines from a
text, and headings with the lines below them from all lines).
-/

namespace ShaderIR

namespace Text

section Lists

variable {α : Type} {p : α → Bool} {x y s t : List α} {a b : α}

/-- A list does not go on with an element of some kind. -/
def Stops (p : α → Bool) (s : List α) : Prop := ∀ a ∈ s.head?, p a = false

theorem stops_nil (p : α → Bool) : Stops p [] := fun _ h => by cases h

theorem stops_cons (h : p a = false) : Stops p (a :: s) := fun b hb => by
  obtain rfl := Option.some.inj hb
  exact h

/-- What is taken as long as it is of some kind. -/
theorem takeWhile_append (hx : ∀ a ∈ x, p a = true) (hs : Stops p s) :
    (x ++ s).takeWhile p = x := by
  rw [List.takeWhile_append_of_pos hx]
  cases s with
  | nil => simp
  | cons a s => simp [hs a rfl]

/-- **What goes on as long as it can is known from the whole.** -/
theorem append_unique (hx : ∀ a ∈ x, p a = true) (hy : ∀ a ∈ y, p a = true) (hs : Stops p s)
    (ht : Stops p t) (h : x ++ s = y ++ t) : x = y ∧ s = t := by
  have htake : x = y := by rw [← takeWhile_append hx hs, h, takeWhile_append hy ht]
  subst htake
  exact ⟨rfl, List.append_cancel_left h⟩

/-- **What goes back as far as it can is known from the whole**, and so is what it stops at. -/
theorem suffix_unique (hs : ∀ c ∈ s, p c = true) (ht : ∀ c ∈ t, p c = true) (ha : p a = false)
    (hb : p b = false) (h : x ++ a :: s = y ++ b :: t) : x = y ∧ a = b ∧ s = t := by
  have hreverse : s.reverse ++ a :: x.reverse = t.reverse ++ b :: y.reverse := by
    simpa using congrArg List.reverse h
  obtain ⟨hst, hrest⟩ := append_unique (by simpa using hs) (by simpa using ht) (stops_cons ha)
    (stops_cons hb) hreverse
  obtain ⟨rfl, hxy⟩ := List.cons.inj hrest
  exact ⟨List.reverse_inj.1 hxy, rfl, List.reverse_inj.1 hst⟩

/-- **Headings and what stands below each are known from the whole**, if nothing below a heading is
one. -/
theorem groups_injective {gs gs' : List (α × List α)}
    (h : ∀ g ∈ gs, p g.1 = false ∧ ∀ a ∈ g.2, p a = true)
    (h' : ∀ g ∈ gs', p g.1 = false ∧ ∀ a ∈ g.2, p a = true)
    (heq : gs.flatMap (fun g => g.1 :: g.2) = gs'.flatMap fun g => g.1 :: g.2) : gs = gs' := by
  have hstops : ∀ {gs : List (α × List α)}, (∀ g ∈ gs, p g.1 = false ∧ ∀ a ∈ g.2, p a = true) →
      Stops p (gs.flatMap fun g => g.1 :: g.2) := by
    intro gs hgs
    cases gs with
    | nil => exact stops_nil p
    | cons g gs => exact stops_cons (hgs g (by simp)).1
  induction gs generalizing gs' with
  | nil =>
    cases gs' with
    | nil => rfl
    | cons g gs' => simp at heq
  | cons g gs ih =>
    cases gs' with
    | nil => simp at heq
    | cons g' gs' =>
      obtain ⟨hg, hgs⟩ := List.forall_mem_cons.1 h
      obtain ⟨hg', hgs'⟩ := List.forall_mem_cons.1 h'
      rw [List.flatMap_cons, List.flatMap_cons, List.cons_append, List.cons_append] at heq
      obtain ⟨hhead, hrest⟩ := List.cons.inj heq
      obtain ⟨hbelow, hrest⟩ := append_unique hg.2 hg'.2 (hstops hgs) (hstops hgs') hrest
      rw [ih hgs hgs' hrest, Prod.ext hhead hbelow]

/-- Two lists of which the same is made correspond, if their elements do. -/
theorem map_known {β γ : Type} {l : List α} {l' : List β} {f : α → γ} {f' : β → γ} {g : α → β}
    (hf : ∀ a ∈ l, ∀ b ∈ l', f' b = f a → b = g a) (h : l'.map f' = l.map f) :
    l' = l.map g := by
  induction l generalizing l' with
  | nil => exact List.map_eq_nil_iff.1 h
  | cons a l ih =>
    cases l' with
    | nil => cases h
    | cons b l' =>
      obtain ⟨hab, hrest⟩ := List.cons.inj h
      rw [List.map_cons, hf a (by simp) b (by simp) hab,
        ih (fun x hx y hy => hf x (by simp [hx]) y (by simp [hy])) hrest]

/-- A list is known from what a function makes of its elements, if each of them is. -/
theorem map_unique {β : Type} {f : α → β} {l l' : List α}
    (hf : ∀ a ∈ l, ∀ b ∈ l', f a = f b → a = b) (h : l.map f = l'.map f) : l = l' := by
  simpa using (map_known (g := id) (fun a ha b hb e => (hf a ha b hb e.symm).symm) h.symm).symm

end Lists

section Strings

variable {l l' : List String} {sep : String} {c : Char} {x y s t cs : List Char}

/-- **What stands before a character is known from the whole** if it does not have it itself. -/
theorem cut_unique (hx : c ∉ x) (hy : c ∉ y) (h : x ++ c :: s = y ++ c :: t) : x = y ∧ s = t := by
  have hword : ∀ {cs : List Char}, c ∉ cs → ∀ d ∈ cs, (d != c) = true := by
    intro cs hcs d hd
    rw [bne_iff_ne]
    rintro rfl
    exact hcs hd
  obtain ⟨hxy, hst⟩ := append_unique (hword hx) (hword hy) (stops_cons (by simp))
    (stops_cons (by simp)) h
  exact ⟨hxy, (List.cons.inj hst).2⟩

/-- What the texts in a row are made of. -/
theorem mem_separated (h : c ∈ (separated sep l).toList) :
    c ∈ sep.toList ∨ ∃ s ∈ l, c ∈ s.toList := by
  induction l with
  | nil => cases h
  | cons a l ih =>
    cases l with
    | nil => exact .inr ⟨a, by simp, h⟩
    | cons b l =>
      rw [separated, String.toList_append, String.toList_append, List.mem_append,
        List.mem_append] at h
      · rcases h with (h | h) | h
        · exact .inr ⟨a, by simp, h⟩
        · exact .inl h
        · exact (ih h).imp_right fun ⟨s, hs, h⟩ => ⟨s, List.mem_cons_of_mem a hs, h⟩
      · simp

/-- **A list is known from its texts in a row**, if none is empty and none has the character that
the separator starts with. -/
theorem separated_injective (hsep : sep.toList = c :: cs)
    (h : ∀ s ∈ l, s.toList ≠ [] ∧ c ∉ s.toList) (h' : ∀ s ∈ l', s.toList ≠ [] ∧ c ∉ s.toList)
    (heq : separated sep l = separated sep l') : l = l' := by
  have hcons : ∀ a b r, (separated sep (a :: b :: r)).toList =
      a.toList ++ c :: (cs ++ (separated sep (b :: r)).toList) := by
    intro a b r
    simp [separated, hsep]
  have hnil : ∀ {a r}, (∀ s ∈ a :: r, s.toList ≠ [] ∧ c ∉ s.toList) →
      (separated sep (a :: r)).toList ≠ [] := by
    intro a r hr
    cases r with
    | nil => exact (hr a (by simp)).1
    | cons b r => simp [hcons]
  have hlist := congrArg String.toList heq
  induction l generalizing l' with
  | nil =>
    cases l' with
    | nil => rfl
    | cons b l' => exact absurd hlist.symm (hnil h')
  | cons a l ih =>
    cases l' with
    | nil => exact absurd hlist (hnil h)
    | cons b l' =>
      obtain ⟨⟨-, ha⟩, hl⟩ := List.forall_mem_cons.1 h
      obtain ⟨⟨-, hb⟩, hl'⟩ := List.forall_mem_cons.1 h'
      cases l with
      | nil =>
        cases l' with
        | nil => rw [show a = b from heq]
        | cons b' l' =>
          rw [hcons, show separated sep [a] = a from rfl] at hlist
          exact absurd (by simp [hlist]) ha
      | cons a' l =>
        cases l' with
        | nil =>
          rw [hcons, show separated sep [b] = b from rfl] at hlist
          exact absurd (by simp [← hlist]) hb
        | cons b' l' =>
          rw [hcons, hcons] at hlist
          obtain ⟨hab, hrest⟩ := cut_unique ha hb hlist
          have htail := List.append_cancel_left hrest
          rw [String.toList_inj.1 hab, ih hl hl' (String.toList_inj.1 htail) htail]

/-- **Lines are known from the text that they make.** -/
theorem lines_injective (h : ∀ s ∈ l, '\n' ∉ s.toList) (h' : ∀ s ∈ l', '\n' ∉ s.toList)
    (heq : String.join (l.map line) = String.join (l'.map line)) : l = l' := by
  have hcons : ∀ a r, (String.join ((a :: r).map line)).toList =
      a.toList ++ '\n' :: (String.join (r.map line)).toList := by
    intro a r
    simp [line]
  have hlist := congrArg String.toList heq
  induction l generalizing l' with
  | nil =>
    cases l' with
    | nil => rfl
    | cons b l' => simp [line] at hlist
  | cons a l ih =>
    cases l' with
    | nil => simp [line] at hlist
    | cons b l' =>
      obtain ⟨ha, hl⟩ := List.forall_mem_cons.1 h
      obtain ⟨hb, hl'⟩ := List.forall_mem_cons.1 h'
      rw [hcons, hcons] at hlist
      obtain ⟨hab, hrest⟩ := cut_unique ha hb hlist
      rw [String.toList_inj.1 hab, ih hl hl' (String.toList_inj.1 hrest) hrest]

end Strings

end Text

end ShaderIR
