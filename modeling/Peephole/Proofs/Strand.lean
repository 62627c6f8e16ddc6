import Mathlib.Data.List.Nodup
import Mathlib.Data.List.Perm.Basic
import Peephole.Circuit.Strand

/-!
# Neighbours on a strand

The vertices of a strand are distinct, so a strand is a chain: the vertex after `v` is the head of
what follows `v`, and the vertex before it is the last of what comes first. This file reads
`Strand.next?`, `Strand.prev?` and `Strand.exchange` off a cut of the strand at `v`.

* `next?_eq_some_iff` and `prev?_eq_some_iff`: two vertices are neighbours when they stand side by
  side, so `next?` and `prev?` undo each other (`next?_eq_some_iff_prev?`).
* `prev?_eq_next?_reverse`: going back is going forward on the strand turned around.
* `prev?_concat`, `next?_concat`: what a vertex put behind a strand changes.
* `next?_filter_ne`, `prev?_filter_ne`, `next?_exchange`, `prev?_exchange`: neighbours after a
  removal and an exchange.
* `next?_map`, `prev?_map`: neighbours are kept when vertices are renamed.
* `exchange_append`, `exchange_perm`: an exchange swaps two neighbours and loses nothing.
* `pair_sublist_exchange`, `exchange_exchange`: it turns around one pair only, and can be undone.
* `prev?_eq_some_iff_of_ascending`: neighbours on a strand in ascending order.
* `not_sublist_swap`, `filter_append_filter_of_pairwise`: order in a list of distinct vertices.
-/

namespace Peephole.Strand

/-! ## Order in a list -/

/-- One vertex comes before another when the list can be cut at the first with the second behind
the cut. -/
theorem pair_sublist_iff {a b : VertexId} {s : List VertexId} :
    [a, b].Sublist s ↔ ∃ P Q, s = P ++ a :: Q ∧ b ∈ Q := by
  constructor
  · intro h
    obtain ⟨P, Q, rfl, hP, hQ⟩ := List.append_sublist_iff.1 (show ([a] ++ [b]).Sublist s from h)
    obtain ⟨P₁, P₂, rfl⟩ := List.append_of_mem (List.singleton_sublist.1 hP)
    refine ⟨P₁, P₂ ++ Q, by simp, ?_⟩
    exact List.mem_append_right _ (List.singleton_sublist.1 hQ)
  · rintro ⟨P, Q, rfl, hb⟩
    exact ((List.singleton_sublist.2 hb).cons_cons a).trans (List.sublist_append_right P _)

theorem mem_left_of_pair_sublist {a b : VertexId} {s : List VertexId} (h : [a, b].Sublist s) :
    a ∈ s :=
  h.subset (by simp)

theorem mem_right_of_pair_sublist {a b : VertexId} {s : List VertexId} (h : [a, b].Sublist s) :
    b ∈ s :=
  h.subset (by simp)

/-- Where no vertex occurs twice, two vertices have one order. -/
theorem not_sublist_swap {a b : VertexId} {s : List VertexId} (hs : s.Nodup)
    (h : [a, b].Sublist s) : ¬ [b, a].Sublist s := by
  intro h'
  obtain ⟨P, Q, rfl, hb⟩ := pair_sublist_iff.1 h
  have hd := List.nodup_append.1 hs
  rcases List.sublist_append_iff.1 h' with ⟨l₁, l₂, hl, h₁, h₂⟩
  cases l₁ with
  | nil =>
      -- both lie behind the cut, so `a` occurs again after its own place
      rw [List.nil_append] at hl
      subst hl
      have haQ : a ∈ Q := by
        rcases List.sublist_cons_iff.1 h₂ with h₃ | ⟨r, hr, h₃⟩
        · exact h₃.subset (by simp)
        · rw [List.cons.injEq] at hr
          rw [← hr.2] at h₃
          exact h₃.subset (by simp)
      exact (List.nodup_cons.1 hd.2.1).1 haQ
  | cons x l =>
      -- `b` lies before the cut and behind it
      rw [List.cons_append, List.cons.injEq] at hl
      have hbP : b ∈ P := h₁.subset (by simp [hl.1])
      exact hd.2.2 b hbP b (List.mem_cons_of_mem a hb) rfl

/-- Two members of a list without repetitions are equal or one of them comes first. -/
theorem pair_sublist_or {a b : VertexId} {s : List VertexId} (ha : a ∈ s) (hb : b ∈ s)
    (hab : a ≠ b) : [a, b].Sublist s ∨ [b, a].Sublist s := by
  obtain ⟨P, Q, rfl⟩ := List.append_of_mem ha
  rcases List.mem_append.1 hb with h | h
  · right
    obtain ⟨P₁, P₂, rfl⟩ := List.append_of_mem h
    exact pair_sublist_iff.2 ⟨P₁, P₂ ++ a :: Q, by simp, by simp⟩
  · rcases List.mem_cons.1 h with rfl | h
    · exact absurd rfl hab
    · exact Or.inl (pair_sublist_iff.2 ⟨P, Q, rfl, h⟩)

theorem pair_sublist_trans {a b x : VertexId} {s : List VertexId} (hs : s.Nodup)
    (h₁ : [a, b].Sublist s) (h₂ : [b, x].Sublist s) : [a, x].Sublist s := by
  obtain ⟨P, Q, rfl, hb⟩ := pair_sublist_iff.1 h₁
  obtain ⟨Q₁, Q₂, rfl⟩ := List.append_of_mem hb
  have hbx : b ≠ x := fun e => by
    subst e
    exact not_sublist_swap hs h₂ h₂
  have hx := mem_right_of_pair_sublist h₂
  simp only [List.mem_append, List.mem_cons] at hx
  -- in front of `b`, the vertex `x` would come both before and after it
  have hfront : x ∉ P ++ a :: Q₁ := by
    intro hm
    obtain ⟨R₁, R₂, hR⟩ := List.append_of_mem hm
    refine not_sublist_swap hs h₂ (pair_sublist_iff.2 ⟨R₁, R₂ ++ b :: Q₂, ?_, by simp⟩)
    have := congrArg (· ++ b :: Q₂) hR
    simpa using this
  simp only [List.mem_append, List.mem_cons, not_or] at hfront
  refine pair_sublist_iff.2 ⟨P, Q₁ ++ b :: Q₂, rfl, ?_⟩
  have hxQ : x ∈ Q₂ := by tauto
  simp [hxQ]

/-- A list whose members stand in the order of another list is a part of it. -/
theorem sublist_of_pairs {s L : List VertexId} (hs : s.Nodup) (hL : L.Nodup)
    (hmem : ∀ a ∈ s, a ∈ L) (h : ∀ a b, [a, b].Sublist s → [a, b].Sublist L) : s.Sublist L := by
  induction s generalizing L with
  | nil => exact List.nil_sublist L
  | cons a rest ih =>
      obtain ⟨P, Q, rfl⟩ := List.append_of_mem (hmem a (by simp))
      have hbehind : ∀ b ∈ rest, b ∈ Q := by
        intro b hb
        have hab : [a, b].Sublist (P ++ a :: Q) :=
          h a b ((List.singleton_sublist.2 hb).cons_cons a)
        have hne : b ≠ a := fun e => (List.nodup_cons.1 hs).1 (e ▸ hb)
        have hbP : b ∉ P := by
          intro hm
          obtain ⟨P₁, P₂, rfl⟩ := List.append_of_mem hm
          exact not_sublist_swap hL hab (pair_sublist_iff.2 ⟨P₁, P₂ ++ a :: Q, by simp, by simp⟩)
        have := hmem b (List.mem_cons_of_mem a hb)
        simp only [List.mem_append, List.mem_cons] at this
        tauto
      have hQ : Q.Nodup := (List.nodup_cons.1 (List.nodup_append.1 hL).2.1).2
      have hrest : rest.Sublist Q := by
        refine ih (List.nodup_cons.1 hs).2 hQ hbehind ?_
        intro x y hxy
        have hxyL := h x y (hxy.trans (List.sublist_cons_self a rest))
        have hne : x ≠ y := fun e => by
          subst e
          exact not_sublist_swap hL hxyL hxyL
        rcases pair_sublist_or (hbehind x (mem_left_of_pair_sublist hxy))
          (hbehind y (mem_right_of_pair_sublist hxy)) hne with hQ' | hQ'
        · exact hQ'
        · have hQL : Q.Sublist (P ++ a :: Q) :=
            (List.sublist_cons_self a Q).trans (List.sublist_append_right P _)
          exact absurd (hQ'.trans hQL) (not_sublist_swap hL hxyL)
      exact (hrest.cons_cons a).trans (List.sublist_append_right P _)

/-- A part of a list without repetitions is what its members leave of the list. -/
theorem eq_filter_of_sublist {s L : List VertexId} (hL : L.Nodup) (h : s.Sublist L) :
    s = L.filter (· ∈ s) := by
  refine (hL.perm_iff_eq_of_sublist h List.filter_sublist).1 ?_
  rw [List.perm_ext_iff_of_nodup (h.nodup hL) (hL.filter _)]
  intro v
  rw [List.mem_filter, decide_eq_true_eq]
  exact ⟨fun hv => ⟨h.subset hv, hv⟩, fun hv => hv.2⟩

/-- If every member with a property has only such members behind it, the members without the
property come first. -/
theorem filter_append_filter_of_pairwise {s : List VertexId} {p : VertexId → Bool}
    (h : s.Pairwise fun x y => p x → p y) :
    s.filter (fun x => !p x) ++ s.filter p = s := by
  induction s with
  | nil => rfl
  | cons x rest ih =>
      obtain ⟨hx, hrest⟩ := List.pairwise_cons.1 h
      by_cases hpx : p x
      · -- from here on every member has the property
        have hnone : rest.filter (fun y => !p y) = [] := by
          rw [List.filter_eq_nil_iff]
          intro y hy
          simp [hx y hy hpx]
        have hall : rest.filter p = rest := by
          rw [List.filter_eq_self]
          exact fun y hy => hx y hy hpx
        simp [hpx, hnone, hall]
      · simpa [hpx] using ih hrest

/-! ## Neighbours -/

theorem next?_append {v : VertexId} {P : List VertexId} (Q : List VertexId) (hv : v ∉ P) :
    next? v (P ++ v :: Q) = Q.head? := by
  induction P with
  | nil => simp [next?]
  | cons x rest ih =>
      have hx : x ≠ v := fun e => hv (by simp [e])
      simpa [next?, hx] using ih fun h => hv (List.mem_cons_of_mem x h)

theorem next?_of_notMem {v : VertexId} {s : List VertexId} (hv : v ∉ s) : next? v s = none := by
  induction s with
  | nil => rfl
  | cons x rest ih =>
      have hx : x ≠ v := fun e => hv (by simp [e])
      simpa [next?, hx] using ih fun h => hv (List.mem_cons_of_mem x h)

theorem next?_mem {v x : VertexId} {s : List VertexId} (h : next? v s = some x) : x ∈ s := by
  induction s with
  | nil => cases h
  | cons y rest ih =>
      rw [next?] at h
      split at h
      · exact List.mem_cons_of_mem y (List.mem_of_head? h)
      · exact List.mem_cons_of_mem y (ih h)

theorem prev?_of_notMem {v : VertexId} {s : List VertexId} (hv : v ∉ s) : prev? v s = none := by
  induction s with
  | nil => rfl
  | cons x rest ih =>
      have hr : rest.head? ≠ some v := fun e => hv (List.mem_cons_of_mem x (List.mem_of_head? e))
      simpa [prev?, hr] using ih fun h => hv (List.mem_cons_of_mem x h)

theorem prev?_append {v : VertexId} {P Q : List VertexId} (hv : v ∉ P) (hQ : v ∉ Q) :
    prev? v (P ++ v :: Q) = P.getLast? := by
  induction P with
  | nil =>
      have hr : Q.head? ≠ some v := fun e => hQ (List.mem_of_head? e)
      simpa [prev?, hr] using prev?_of_notMem hQ
  | cons x rest ih =>
      have hrest : v ∉ rest := fun h => hv (List.mem_cons_of_mem x h)
      cases rest with
      | nil => simp [prev?]
      | cons y more =>
          have hy : y ≠ v := fun e => hrest (by simp [e])
          have := ih hrest
          simp only [List.cons_append, prev?, List.head?_cons, Option.some.injEq, hy, if_false]
          simpa [prev?] using this

theorem notMem_of_nodup_append {v : VertexId} {P Q : List VertexId}
    (h : (P ++ v :: Q).Nodup) : v ∉ P ∧ v ∉ Q := by
  obtain ⟨-, h₂, h₃⟩ := List.nodup_append.1 h
  exact ⟨fun hv => h₃ v hv v (by simp) rfl, (List.nodup_cons.1 h₂).1⟩

/-- The vertices in front of one are those that come before it. -/
theorem pair_sublist_append_iff {p v : VertexId} {P Q : List VertexId}
    (h : (P ++ v :: Q).Nodup) : [p, v].Sublist (P ++ v :: Q) ↔ p ∈ P := by
  constructor
  · intro hpv
    rcases List.mem_append.1 (mem_left_of_pair_sublist hpv) with hp | hp
    · exact hp
    · rcases List.mem_cons.1 hp with rfl | hp
      · exact absurd hpv (not_sublist_swap h hpv)
      · exact absurd hpv (not_sublist_swap h (pair_sublist_iff.2 ⟨P, Q, rfl, hp⟩))
  · intro hp
    obtain ⟨P₁, P₂, rfl⟩ := List.append_of_mem hp
    exact pair_sublist_iff.2 ⟨P₁, P₂ ++ v :: Q, by simp, by simp⟩

/-- A vertex is followed by another exactly when the two stand side by side. -/
theorem next?_eq_some_iff {a b : VertexId} {s : List VertexId} (hs : s.Nodup) :
    next? a s = some b ↔ ∃ P Q, s = P ++ a :: b :: Q := by
  constructor
  · intro h
    have ha : a ∈ s := by
      by_contra hn
      rw [next?_of_notMem hn] at h
      cases h
    obtain ⟨P, Q, rfl⟩ := List.append_of_mem ha
    rw [next?_append Q (notMem_of_nodup_append hs).1] at h
    obtain ⟨t, rfl⟩ := List.head?_eq_some_iff.1 h
    exact ⟨P, t, rfl⟩
  · rintro ⟨P, Q, rfl⟩
    rw [next?_append _ (notMem_of_nodup_append hs).1]
    rfl

theorem pair_sublist_of_next? {a b : VertexId} {s : List VertexId} (hs : s.Nodup)
    (h : next? a s = some b) : [a, b].Sublist s := by
  obtain ⟨P, Q, rfl⟩ := (next?_eq_some_iff hs).1 h
  exact pair_sublist_iff.2 ⟨P, b :: Q, rfl, by simp⟩

/-- A vertex is preceded by another exactly when the two stand side by side. -/
theorem prev?_eq_some_iff {a b : VertexId} {s : List VertexId} (hs : s.Nodup) :
    prev? b s = some a ↔ ∃ P Q, s = P ++ a :: b :: Q := by
  constructor
  · intro h
    clear hs
    induction s with
    | nil => simp [prev?] at h
    | cons x rest ih =>
        by_cases hr : rest.head? = some b
        · obtain ⟨t, rfl⟩ := List.head?_eq_some_iff.1 hr
          have hx : x = a := by simpa [prev?] using h
          exact ⟨[], t, by simp [hx]⟩
        · obtain ⟨P, Q, rfl⟩ := ih (by simpa [prev?, hr] using h)
          exact ⟨x :: P, Q, rfl⟩
  · rintro ⟨P, Q, rfl⟩
    have hs' : ((P ++ [a]) ++ b :: Q).Nodup := by simpa using hs
    obtain ⟨h₁, h₂⟩ := notMem_of_nodup_append hs'
    have := prev?_append h₁ h₂
    simpa using this

/-- Going forward and going back undo each other. -/
theorem next?_eq_some_iff_prev? {a b : VertexId} {s : List VertexId} (hs : s.Nodup) :
    next? a s = some b ↔ prev? b s = some a := by
  rw [next?_eq_some_iff hs, prev?_eq_some_iff hs]

theorem prev?_eq_next?_reverse {v : VertexId} {s : List VertexId} (hs : s.Nodup) :
    prev? v s = next? v s.reverse := by
  ext u
  rw [prev?_eq_some_iff hs, next?_eq_some_iff (List.nodup_reverse.2 hs)]
  constructor
  · rintro ⟨P, Q, rfl⟩
    exact ⟨Q.reverse, P.reverse, by simp⟩
  · rintro ⟨P, Q, hr⟩
    exact ⟨Q.reverse, P.reverse, by simpa using congrArg List.reverse hr⟩

/-- A vertex put behind a strand comes after the last one there, and all others keep their
places. -/
theorem prev?_concat {v x : VertexId} {s : List VertexId} (hv : v ∉ s) :
    prev? x (s ++ [v]) = if x = v then s.getLast? else prev? x s := by
  by_cases hx : x = v
  · subst hx
    rw [if_pos rfl]
    exact prev?_append hv List.not_mem_nil
  · rw [if_neg hx]
    clear hv
    induction s with
    | nil => simp [prev?]
    | cons a rest ih =>
        cases rest with
        | nil => simp [prev?, Ne.symm hx]
        | cons b more =>
            rw [List.cons_append, prev?, prev?, ih]
            rfl

theorem next?_concat {v x : VertexId} {s : List VertexId} (hs : (s ++ [v]).Nodup) :
    next? x (s ++ [v]) = if s.getLast? = some x then some v else next? x s := by
  obtain ⟨hs', -, hdisjoint⟩ := List.nodup_append.1 hs
  have hv : v ∉ s := fun h => hdisjoint v h v (by simp) rfl
  ext y
  rw [next?_eq_some_iff_prev? hs, prev?_concat hv]
  by_cases hlast : s.getLast? = some x
  · -- nothing came after the last vertex
    obtain ⟨P, rfl⟩ := List.getLast?_eq_some_iff.1 hlast
    have hnone : next? x (P ++ [x]) = none := next?_append [] (notMem_of_nodup_append hs').1
    by_cases hy : y = v
    · simp [hy]
    · simp [hy, Ne.symm hy, ← next?_eq_some_iff_prev? hs', hnone]
  · rw [if_neg hlast]
    by_cases hy : y = v
    · subst hy
      simp only [if_true, hlast, false_iff]
      exact fun h => hv (next?_mem h)
    · rw [if_neg hy, next?_eq_some_iff_prev? hs']

/-- Nothing follows the last vertex. -/
theorem next?_of_getLast? {v : VertexId} {s : List VertexId} (hs : s.Nodup)
    (hv : s.getLast? = some v) : next? v s = none := by
  obtain ⟨t, rfl⟩ := List.getLast?_eq_some_iff.1 hv
  have hv : v ∉ t := fun h => (List.nodup_append.1 hs).2.2 v h v (by simp) rfl
  rw [next?_concat hs, if_neg fun h => hv (List.mem_of_getLast? h), next?_of_notMem hv]

/-! ## Renaming -/

section Renaming

variable {f : VertexId → VertexId} {v : VertexId} {s : List VertexId}

theorem next?_map (hf : ∀ x ∈ s, f x = f v → x = v) :
    next? (f v) (s.map f) = (next? v s).map f := by
  induction s with
  | nil => rfl
  | cons a rest ih =>
      rw [List.forall_mem_cons] at hf
      rw [List.map_cons, next?, next?, ih hf.2]
      by_cases ha : a = v
      · simp [ha]
      · rw [if_neg ha, if_neg fun h => ha (hf.1 h)]

theorem prev?_map (hf : ∀ x ∈ s, f x = f v → x = v) :
    prev? (f v) (s.map f) = (prev? v s).map f := by
  induction s with
  | nil => rfl
  | cons a rest ih =>
      rw [List.forall_mem_cons] at hf
      have hhead : (rest.map f).head? = some (f v) ↔ rest.head? = some v := by
        cases rest with
        | nil => simp
        | cons b more =>
            simp only [List.map_cons, List.head?_cons, Option.some.injEq]
            exact ⟨hf.2 b List.mem_cons_self, congrArg f⟩
      rw [List.map_cons, prev?, prev?, ih hf.2]
      by_cases hr : rest.head? = some v
      · rw [if_pos hr, if_pos (hhead.2 hr), Option.map_some]
      · rw [if_neg hr, if_neg (hr ∘ hhead.1)]

end Renaming

/-! ## Removal -/

theorem filter_ne_of_notMem {v : VertexId} {s : List VertexId} (hv : v ∉ s) :
    s.filter (· ≠ v) = s := by
  refine List.filter_eq_self.2 fun x hx => decide_eq_true ?_
  rintro rfl
  exact hv hx

/-- Without a vertex, the one before it is followed by the one after it. -/
theorem next?_filter_ne {v x : VertexId} {s : List VertexId} (hs : s.Nodup) (hx : x ≠ v) :
    next? x (s.filter (· ≠ v)) = if next? x s = some v then next? v s else next? x s := by
  induction s with
  | nil => simp [next?]
  | cons y rest ih =>
      obtain ⟨hy, hrest⟩ := List.nodup_cons.1 hs
      by_cases hyv : y = v
      · subst hyv
        have hne : next? x rest ≠ some y := fun h => hy (next?_mem h)
        rw [List.filter_cons_of_neg (by simp), filter_ne_of_notMem hy]
        simp [next?, Ne.symm hx, hne]
      · rw [List.filter_cons_of_pos (by simpa using hyv)]
        by_cases hyx : y = x
        · subst hyx
          cases rest with
          | nil => simp [next?]
          | cons z more =>
              by_cases hzv : z = v
              · subst hzv
                rw [List.filter_cons_of_neg (by simp),
                  filter_ne_of_notMem (List.nodup_cons.1 hrest).1]
                simp [next?, hyv]
              · simp [next?, hzv]
        · simpa [next?, hyx, hyv] using ih hrest

/-- Without a vertex, the one after it is preceded by the one before it. -/
theorem prev?_filter_ne {v x : VertexId} {s : List VertexId} (hs : s.Nodup) (hx : x ≠ v) :
    prev? x (s.filter (· ≠ v)) = if prev? x s = some v then prev? v s else prev? x s := by
  rw [prev?_eq_next?_reverse (hs.filter _), ← List.filter_reverse,
    next?_filter_ne (List.nodup_reverse.2 hs) hx, prev?_eq_next?_reverse hs,
    prev?_eq_next?_reverse hs]

/-! ## Exchange -/

theorem exchange_append {a : VertexId} (b : VertexId) {P : List VertexId} (Q : List VertexId)
    (ha : a ∉ P) : exchange a b (P ++ a :: b :: Q) = P ++ b :: a :: Q := by
  induction P with
  | nil => simp [exchange]
  | cons x rest ih =>
      have hx : x ≠ a := fun e => ha (by simp [e])
      simpa [exchange, hx] using ih fun h => ha (List.mem_cons_of_mem x h)

/-- Where `b` follows `a`, an exchange links what was before `a` to `b`, `b` to `a` and `a` to what
was after `b`. -/
theorem next?_exchange {a b x : VertexId} {s : List VertexId} (hs : s.Nodup)
    (hab : next? a s = some b) :
    next? x (exchange a b s) =
      if x = a then next? b s
      else if x = b then some a
      else if next? x s = some a then some b
      else next? x s := by
  induction s with
  | nil => cases hab
  | cons y rest ih =>
      obtain ⟨hy, hrest⟩ := List.nodup_cons.1 hs
      by_cases hya : y = a
      · subst hya
        obtain ⟨Q, rfl⟩ : ∃ Q, rest = b :: Q :=
          List.head?_eq_some_iff.1 (by simpa [next?] using hab)
        have hyb : y ≠ b := fun h => hy (by simp [h])
        by_cases hxy : x = y
        · subst hxy
          simp [exchange, next?, hyb, hyb.symm]
        · by_cases hxb : x = b
          · subst hxb
            simp [exchange, next?, hxy]
          · have hne : next? x Q ≠ some y := fun h => hy (by simp [next?_mem h])
            simp [exchange, next?, hxy, hxb, Ne.symm hxy, Ne.symm hxb, hne]
      · have hab' : next? a rest = some b := by simpa [next?, hya] using hab
        have hyb : y ≠ b := fun h => hy (h ▸ next?_mem hab')
        have hex : exchange a b (y :: rest) = y :: exchange a b rest := by simp [exchange, hya]
        rw [hex]
        by_cases hyx : y = x
        · subst hyx
          cases rest with
          | nil => cases hab'
          | cons z more =>
              by_cases hza : z = a
              · subst hza
                obtain ⟨Q, rfl⟩ : ∃ Q, more = b :: Q :=
                  List.head?_eq_some_iff.1 (by simpa [next?] using hab')
                simp [exchange, next?, hya, hyb]
              · simp [exchange, next?, hya, hyb, hza]
        · simpa [next?, hyx, hyb] using ih hrest hab'

theorem reverse_exchange {a b : VertexId} {s : List VertexId} (hs : s.Nodup)
    (hab : next? a s = some b) : (exchange a b s).reverse = exchange b a s.reverse := by
  obtain ⟨P, Q, rfl⟩ := (next?_eq_some_iff hs).1 hab
  have hrev : (P ++ a :: b :: Q).reverse = Q.reverse ++ b :: a :: P.reverse := by simp
  rw [exchange_append b Q (notMem_of_nodup_append hs).1]
  rw [← List.nodup_reverse, hrev] at hs
  rw [hrev, exchange_append a P.reverse (notMem_of_nodup_append hs).1]
  simp

theorem prev?_exchange {a b x : VertexId} {s : List VertexId} (hs : s.Nodup)
    (hab : next? a s = some b) :
    prev? x (exchange a b s) =
      if x = b then prev? a s
      else if x = a then some b
      else if prev? x s = some b then some a
      else prev? x s := by
  have hs' : (exchange a b s).Nodup := (exchange_perm a b s).nodup_iff.2 hs
  have hba : next? b s.reverse = some a := by
    rw [← prev?_eq_next?_reverse hs]
    exact (next?_eq_some_iff_prev? hs).1 hab
  simp only [prev?_eq_next?_reverse hs', reverse_exchange hs hab, prev?_eq_next?_reverse hs,
    next?_exchange (List.nodup_reverse.2 hs) hba]

theorem mem_exchange {a b v : VertexId} {s : List VertexId} : v ∈ exchange a b s ↔ v ∈ s :=
  (exchange_perm a b s).mem_iff

/-- An exchange keeps the order of all pairs but the one it turns around. -/
theorem pair_sublist_exchange {a b x y : VertexId} {s : List VertexId} (h : [x, y].Sublist s)
    (hne : ¬ (x = a ∧ y = b)) : [x, y].Sublist (exchange a b s) := by
  induction s with
  | nil => cases h
  | cons z rest ih =>
      by_cases hz : z = a
      · subst hz
        cases rest with
        | nil => simp at h
        | cons z' more =>
            by_cases hz' : z' = b
            · subst hz'
              simp only [exchange, if_true]
              rcases List.sublist_cons_iff.1 h with h | ⟨r, hr, h⟩
              · -- behind the first of the two nothing comes before the second
                exact h.trans ((List.sublist_cons_self z more).cons_cons z')
              · obtain ⟨rfl, rfl⟩ := List.cons.inj hr
                have hy : y ∈ more := by
                  refine (List.mem_cons.1 (List.singleton_sublist.1 h)).resolve_left ?_
                  exact fun hy => hne ⟨rfl, hy⟩
                exact ((List.singleton_sublist.2 hy).cons_cons x).trans
                  (List.sublist_cons_self z' _)
            · simpa [exchange, hz'] using h
      · simp only [exchange, hz, if_false]
        rcases List.sublist_cons_iff.1 h with h | ⟨r, hr, h⟩
        · exact (ih h).trans (List.sublist_cons_self z _)
        · obtain ⟨rfl, rfl⟩ := List.cons.inj hr
          have hy : y ∈ exchange a b rest := mem_exchange.2 (List.singleton_sublist.1 h)
          exact (List.singleton_sublist.2 hy).cons_cons x

/-- Exchanging back undoes an exchange, on a strand that has at most one of the two or has them side
by side. -/
theorem exchange_exchange {a b : VertexId} {s : List VertexId} (hs : s.Nodup)
    (h : a ∈ s → b ∈ s → next? a s = some b) : exchange b a (exchange a b s) = s := by
  by_cases hab : next? a s = some b
  · obtain ⟨P, Q, rfl⟩ := (next?_eq_some_iff hs).1 hab
    have hs' : ((P ++ [a]) ++ b :: Q).Nodup := by simpa using hs
    have hb : b ∉ P := fun hm => (notMem_of_nodup_append hs').1 (List.mem_append_left _ hm)
    rw [exchange_append b Q (notMem_of_nodup_append hs).1, exchange_append a Q hb]
  · have hba : next? b s ≠ some a := by
      intro hba
      have hpair := pair_sublist_of_next? hs hba
      exact hab (h (mem_right_of_pair_sublist hpair) (mem_left_of_pair_sublist hpair))
    rw [exchange_eq_self hab, exchange_eq_self hba]

/-! ## Ascending strands -/

/-- In ascending order, a vertex is preceded by another exactly when nothing lies between them. -/
theorem prev?_eq_some_iff_of_ascending {u v : VertexId} {s : List VertexId}
    (hs : s.Pairwise (· < ·)) :
    prev? v s = some u ↔ u ∈ s ∧ v ∈ s ∧ u < v ∧ ∀ x ∈ s, u < x → ¬ x < v := by
  rw [prev?_eq_some_iff (hs.imp fun hab => Nat.ne_of_lt hab)]
  constructor
  · rintro ⟨P, Q, rfl⟩
    obtain ⟨-, hright, hleft⟩ := List.pairwise_append.1 hs
    obtain ⟨hu, hright⟩ := List.pairwise_cons.1 hright
    refine ⟨by simp, by simp, hu v (by simp), fun x hx hux hxv => ?_⟩
    rcases List.mem_append.1 hx with hx | hx
    · exact Nat.lt_asymm hux (hleft x hx u (by simp))
    · rcases List.mem_cons.1 hx with rfl | hx
      · exact Nat.lt_irrefl x hux
      · rcases List.mem_cons.1 hx with rfl | hx
        · exact Nat.lt_irrefl x hxv
        · exact Nat.lt_asymm hxv ((List.pairwise_cons.1 hright).1 x hx)
  · rintro ⟨hu, hv, huv, hbetween⟩
    obtain ⟨P, R, rfl⟩ := List.append_of_mem hu
    obtain ⟨-, hright, hleft⟩ := List.pairwise_append.1 hs
    obtain ⟨huR, hR⟩ := List.pairwise_cons.1 hright
    have hvR : v ∈ R := by
      rcases List.mem_append.1 hv with hv | hv
      · exact absurd huv (Nat.lt_asymm (hleft v hv u (by simp)))
      · exact (List.mem_cons.1 hv).resolve_left (Nat.ne_of_gt huv)
    cases R with
    | nil => cases hvR
    | cons x Q =>
        -- the head of what follows `u` is `v`, or it would lie between the two
        rcases List.mem_cons.1 hvR with rfl | hvQ
        · exact ⟨P, Q, rfl⟩
        · have hxv := (List.pairwise_cons.1 hR).1 v hvQ
          exact absurd hxv (hbetween x (by simp) (huR x (by simp)))

end Peephole.Strand
