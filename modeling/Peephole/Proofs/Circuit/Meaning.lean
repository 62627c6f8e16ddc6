import Mathlib.Algebra.BigOperators.Group.List.Basic
import Mathlib.Algebra.Order.Monoid.Unbundled.Basic
import Peephole.Proofs.Circuit.Swaps

/-!
# What a circuit means

An interpretation gives every gate a value in a monoid, and a circuit means the product of the
values of its gates in order. When gates without a common wire commute, any linear order gives the
same product: two linear orders differ by swaps of neighbours that share no strand.

* `Circuit.meaning`: the product along `Circuit.gatesInOrder`.
* `DisjointCommute`: gates without a common wire commute.
* `Proper.meaning_eq_along`: every linear order gives the meaning.
* `meaning_eq_of_blocks`: a block of a linear order may be replaced by one of the same value;
  `meaning_le_of_blocks`: or of a larger one.
-/

namespace Peephole

open Relation (ReflTransGen)

variable {M : Type*} [Monoid M]

/-- Gates without a common wire commute. -/
def DisjointCommute (den : Gate → M) : Prop :=
  ∀ g h : Gate, (∀ w ∈ g.wires, w ∉ h.wires) → Commute (den g) (den h)

namespace Circuit

/-! ## Meaning -/

/-- The value of the gate at a vertex. -/
def value (den : Gate → M) (c : Circuit) (v : VertexId) : M := ((c.gate? v).map den).getD 1

/-- The product of the values along a list of vertices. -/
def along (den : Gate → M) (c : Circuit) (L : List VertexId) : M := (L.map (c.value den)).prod

/-- The product of the values of the gates in order. -/
def meaning (den : Gate → M) (c : Circuit) : M := (c.gatesInOrder.map den).prod

variable {den : Gate → M} {c d : Circuit}

theorem value_of_gate? {v : VertexId} {g : Gate} (h : c.gate? v = some g) :
    c.value den v = den g := by
  rw [value, h]
  rfl

theorem along_append (L L' : List VertexId) :
    c.along den (L ++ L') = c.along den L * c.along den L' := by
  rw [along, List.map_append, List.prod_append]
  rfl

theorem along_cons (v : VertexId) (L : List VertexId) :
    c.along den (v :: L) = c.value den v * c.along den L := by
  rw [along, List.map_cons, List.prod_cons]
  rfl

theorem along_congr {L : List VertexId} (h : ∀ v ∈ L, d.gate? v = c.gate? v) :
    d.along den L = c.along den L := by
  refine congrArg List.prod (List.map_congr_left fun v hv => ?_)
  rw [value, value, h v hv]

theorem prod_filterMap_gate? (L : List VertexId) :
    ((L.filterMap c.gate?).map den).prod = c.along den L := by
  induction L with
  | nil => rfl
  | cons v rest ih =>
      rw [along_cons, ← ih]
      cases hv : c.gate? v with
      | none =>
          rw [List.filterMap_cons_none hv, value, hv, Option.map_none, Option.getD_none, one_mul]
      | some g => rw [List.filterMap_cons_some hv, value_of_gate? hv, List.map_cons, List.prod_cons]

theorem meaning_eq_along_order : c.meaning den = c.along den c.order := prod_filterMap_gate? _

/-- Vertices that share no strand hold gates without a common wire. -/
theorem Aligned.commute_value (h : c.Aligned) (hden : DisjointCommute den) {a b : VertexId}
    (hab : ∀ w, a ∈ c.strand w → b ∉ c.strand w) :
    Commute (c.value den a) (c.value den b) := by
  cases ha : c.gate? a with
  | none =>
      rw [value, ha]
      exact Commute.one_left _
  | some g =>
      cases hb : c.gate? b with
      | none =>
          rw [value, value, hb]
          exact Commute.one_right _
      | some k =>
          rw [value_of_gate? ha, value_of_gate? hb]
          refine hden g k fun w hg hk => ?_
          exact hab w ((h a g ha w).2 hg) ((h b k hb w).2 hk)

/-- Neighbours whose values commute may change places. -/
theorem along_eq_of_swap {L L' : List VertexId}
    (h : Swap (fun a b => Commute (c.value den a) (c.value den b)) L L') :
    c.along den L = c.along den L' := by
  cases h with
  | @swap A a b B hab =>
      simp only [along_append, along_cons]
      rw [← mul_assoc (c.value den a), hab.eq, mul_assoc]

/-- Any two linear orders of a circuit give the same product. -/
theorem Linear.along_eq (h : c.Linked) (ha : c.Aligned) (hden : DisjointCommute den)
    {L L' : List VertexId} (hL : c.Linear L) (hL' : c.Linear L') :
    c.along den L = c.along den L' := by
  have hswaps : ReflTransGen (Swap fun a b => Commute (c.value den a) (c.value den b)) L L' :=
    hL.swaps h hL' fun a _ b _ hab => ha.commute_value hden hab
  clear hL hL'
  induction hswaps with
  | refl => rfl
  | tail _ hswap ih => exact ih.trans (along_eq_of_swap hswap)

/-- A circuit means the product along any of its linear orders. -/
theorem Proper.meaning_eq_along (h : c.Proper) (hden : DisjointCommute den) {L : List VertexId}
    (hL : c.Linear L) : c.meaning den = c.along den L := by
  rw [meaning_eq_along_order]
  exact h.linear_order.along_eq h.linked h.aligned hden hL

/-- If two circuits agree around a block of their linear orders, and the blocks have the same
value, they mean the same. -/
theorem meaning_eq_of_blocks (hden : DisjointCommute den) (hc : c.Proper) (hd : d.Proper)
    {A S T B : List VertexId} (hL : c.Linear (A ++ S ++ B)) (hL' : d.Linear (A ++ T ++ B))
    (hA : ∀ v ∈ A, d.gate? v = c.gate? v) (hB : ∀ v ∈ B, d.gate? v = c.gate? v)
    (hST : d.along den T = c.along den S) : d.meaning den = c.meaning den := by
  rw [hc.meaning_eq_along hden hL, hd.meaning_eq_along hden hL', along_append, along_append,
    along_append, along_append, hST, along_congr hA, along_congr hB]

/-- The same where the values are ordered, and that of the block has not become smaller. -/
theorem meaning_le_of_blocks [Preorder M] [MulLeftMono M] [MulRightMono M]
    (hden : DisjointCommute den) (hc : c.Proper) (hd : d.Proper) {A S T B : List VertexId}
    (hL : c.Linear (A ++ S ++ B)) (hL' : d.Linear (A ++ T ++ B))
    (hA : ∀ v ∈ A, d.gate? v = c.gate? v) (hB : ∀ v ∈ B, d.gate? v = c.gate? v)
    (hST : c.along den S ≤ d.along den T) : c.meaning den ≤ d.meaning den := by
  rw [hc.meaning_eq_along hden hL, hd.meaning_eq_along hden hL', along_append, along_append,
    along_append, along_append, along_congr hA, along_congr hB]
  exact mul_le_mul_left (mul_le_mul_right hST _) _

end Circuit

end Peephole
