import Peephole.Proofs.Circuit.Linear

/-!
# Linear orders up to swaps

Two linear orders of a circuit put some pairs of vertices in a different order, but no pair that
shares a strand. So either of them is obtained from the other by swapping neighbours that share no
strand.

* `Swap`: two neighbours in a list of vertices change places.
* `swaps_of_inversions`: how a list is sorted by swaps of neighbours.
* `Linear.swaps`: any two linear orders differ by swaps.
* `Linear.swap`: a swap of vertices without a common strand gives another linear order.
-/

namespace Peephole

open Relation (ReflTransGen)

variable {free : VertexId → VertexId → Prop} {L L' : List VertexId}

/-- Two neighbours that are free to do so change places. -/
inductive Swap (free : VertexId → VertexId → Prop) : List VertexId → List VertexId → Prop where
  | swap (A : List VertexId) {a b : VertexId} (B : List VertexId) (hab : free a b) :
      Swap free (A ++ a :: b :: B) (A ++ b :: a :: B)

theorem Swap.symm (h : Swap free L L') : Swap (fun a b => free b a) L' L := by
  cases h with
  | swap A B hab => exact .swap A B hab

theorem Swap.cons (h : Swap free L L') (x : VertexId) : Swap free (x :: L) (x :: L') := by
  cases h with
  | swap A B hab => exact .swap (x :: A) B hab

theorem swaps_cons (x : VertexId) (h : ReflTransGen (Swap free) L L') :
    ReflTransGen (Swap free) (x :: L) (x :: L') :=
  h.lift (x :: ·) fun _ _ hswap => hswap.cons x

/-- A vertex that is free to pass some others moves behind them. -/
theorem swaps_past {a : VertexId} {A : List VertexId} (B : List VertexId)
    (h : ∀ x ∈ A, free a x) : ReflTransGen (Swap free) (a :: (A ++ B)) (A ++ a :: B) := by
  induction A with
  | nil => exact .refl
  | cons x A ih =>
      rw [List.forall_mem_cons] at h
      have hfirst : Swap free (a :: x :: (A ++ B)) (x :: a :: (A ++ B)) := .swap [] (A ++ B) h.1
      exact .head hfirst (swaps_cons x (ih h.2))

/-- One order of some vertices becomes another if every pair in which they differ is free to change
places. -/
theorem swaps_of_inversions (hperm : L.Perm L')
    (h : ∀ a b, [a, b].Sublist L → [b, a].Sublist L' → free a b) :
    ReflTransGen (Swap free) L L' := by
  -- first the rest of the list is brought in order, then its head is moved to its place
  induction L generalizing L' with
  | nil => rw [List.nil_perm.1 hperm]
  | cons a T ih =>
      obtain ⟨A, B, rfl⟩ := List.append_of_mem (hperm.mem_iff.1 List.mem_cons_self)
      have hTperm : T.Perm (A ++ B) := (hperm.trans List.perm_middle).cons_inv
      have hsub : (A ++ B).Sublist (A ++ a :: B) :=
        (List.Sublist.refl A).append (List.sublist_cons_self a B)
      have hrest : ReflTransGen (Swap free) T (A ++ B) := by
        refine ih hTperm fun x y hx hy => h x y ?_ (hy.trans hsub)
        exact hx.trans (List.sublist_cons_self a T)
      have hpast : ∀ x ∈ A, free a x := by
        intro x hx
        have hxT : x ∈ T := hTperm.mem_iff.2 (List.mem_append_left B hx)
        refine h a x ((List.singleton_sublist.2 hxT).cons_cons a) ?_
        obtain ⟨A₁, A₂, rfl⟩ := List.append_of_mem hx
        exact Strand.pair_sublist_iff.2 ⟨A₁, A₂ ++ a :: B, by simp, by simp⟩
      exact (swaps_cons a hrest).trans (swaps_past B hpast)

namespace Circuit

variable {c : Circuit}

/-- Any two linear orders of a circuit differ by swaps of neighbours that share no strand. -/
theorem Linear.swaps (h : c.Linked) (hL : c.Linear L) (hL' : c.Linear L')
    (hfree : ∀ a ∈ c.ids, ∀ b ∈ c.ids, (∀ w, a ∈ c.strand w → b ∉ c.strand w) → free a b) :
    ReflTransGen (Swap free) L L' := by
  refine swaps_of_inversions (hL.perm.trans hL'.perm.symm) fun a b hab hba => ?_
  have ha : a ∈ c.ids := hL.perm.mem_iff.1 (Strand.mem_left_of_pair_sublist hab)
  have hb : b ∈ c.ids := hL.perm.mem_iff.1 (Strand.mem_right_of_pair_sublist hab)
  refine hfree a ha b hb fun w haw hbw => ?_
  have hne : a ≠ b := by
    rintro rfl
    exact Strand.not_sublist_swap (hL.nodup h) hab hab
  -- a strand with both would give them one order
  rcases Strand.pair_sublist_or haw hbw hne with hs | hs
  · exact Strand.not_sublist_swap (hL'.nodup h) hba (hs.trans (hL'.sublist w))
  · exact Strand.not_sublist_swap (hL.nodup h) hab (hs.trans (hL.sublist w))

/-- Neighbours in a linear order that share no strand may change places. -/
theorem Linear.swap (h : c.Linked) (hL : c.Linear L)
    (hfree : ∀ a b, free a b → ∀ w, a ∈ c.strand w → b ∉ c.strand w) (hswap : Swap free L L') :
    c.Linear L' := by
  cases hswap with
  | @swap A a b B hab =>
      have hL' : (c.swapped a b).Linear (A ++ b :: a :: B) := hL.swapped h
      refine ⟨hL'.perm, fun w => ?_⟩
      have hnext : Strand.next? a (c.strand w) ≠ some b := by
        intro hn
        obtain ⟨ha, hb⟩ := mem_of_next? hn
        exact hfree a b hab w ha hb
      have hsub := hL'.sublist w
      rwa [strand_swapped, Strand.exchange_eq_self hnext] at hsub

end Circuit

end Peephole
