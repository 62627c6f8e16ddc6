import Peephole.Dict
import Peephole.Proofs.Circuit.View

/-!
# Lookups in dictionaries

Every operation on a dictionary is described by what is found afterwards. Since the entries ascend,
two dictionaries where the same is found are the same.

* `Dict.ext_get?`: a dictionary is determined by its lookups.
* `Dict.mapped`: all values changed, each by its key. A change in place is a case of it.
-/

namespace Peephole.Dict

open Circuit (mem_of_lookup lookup_of_mem lookup_map_keyed lookup_filter_ne)

variable {κ β : Type} [Ranked κ] {d e : Dict κ β}

theorem keys_nodup (d : Dict κ β) : (d.entries.map (·.1)).Nodup := by
  refine d.ascending.imp fun hlt => ?_
  rintro rfl
  exact Nat.lt_irrefl _ hlt

variable [BEq κ] [LawfulBEq κ]

theorem mem_entries_iff {k : κ} {b : β} : (k, b) ∈ d.entries ↔ d.get? k = some b :=
  ⟨lookup_of_mem d.keys_nodup, mem_of_lookup⟩

/-- A dictionary is determined by what is found in it. -/
theorem ext_get? (h : ∀ k, d.get? k = e.get? k) : d = e := by
  have hperm : d.entries.Perm e.entries := by
    refine (List.perm_ext_iff_of_nodup d.keys_nodup.of_map e.keys_nodup.of_map).2 ?_
    rintro ⟨k, b⟩
    rw [mem_entries_iff, mem_entries_iff, h k]
  have hd := List.pairwise_map.1 d.ascending
  have he := List.pairwise_map.1 e.ascending
  have hentries : d.entries = e.entries :=
    hperm.eq_of_pairwise (fun _ _ _ _ hab hba => absurd hba (Nat.lt_asymm hab)) hd he
  cases d
  cases e
  simpa using hentries

/-! ## Insertion and removal -/

theorem lookup_insertEntry (k k' : κ) (b : β) (l : List (κ × β)) :
    (insertEntry k b l).lookup k' = if k' == k then some b else l.lookup k' := by
  induction l with
  | nil =>
      rw [insertEntry, List.lookup_cons]
      cases k' == k <;> rfl
  | cons x rest ih =>
      obtain ⟨k₀, b₀⟩ := x
      rw [insertEntry]
      simp only
      split
      · rw [List.lookup_cons]
        cases k' == k <;> rfl
      · split
        · rename_i hlt
          simp only [List.lookup_cons, ih]
          cases hk₀ : k' == k₀ with
          | true =>
              -- the first key is another one than that of the new entry
              have hne : (k' == k) = false := by
                rw [beq_eq_false_iff_ne]
                rintro rfl
                rw [eq_of_beq hk₀] at hlt
                exact Nat.lt_irrefl _ hlt
              simp [hne]
          | false => rfl
        · rename_i hge hle
          obtain rfl : k = k₀ := Ranked.rank_inj (by omega)
          simp only [List.lookup_cons]
          cases k' == k <;> rfl

theorem get?_insert (d : Dict κ β) (k k' : κ) (b : β) :
    (d.insert k b).get? k' = if k' == k then some b else d.get? k' :=
  lookup_insertEntry k k' b d.entries

theorem get?_erase (d : Dict κ β) (k k' : κ) :
    (d.erase k).get? k' = if k' == k then none else d.get? k' :=
  lookup_filter_ne d.entries k k'

/-! ## Changes in place -/

/-- The dictionary with every value changed, by its key. -/
def mapped (d : Dict κ β) (f : κ → β → β) : Dict κ β where
  entries := d.entries.map fun e => (e.1, f e.1 e.2)
  ascending := by
    rw [List.map_map]
    exact d.ascending

@[simp]
theorem get?_mapped (d : Dict κ β) (f : κ → β → β) (k : κ) :
    (d.mapped f).get? k = (d.get? k).map (f k) :=
  lookup_map_keyed f d.entries k

omit [LawfulBEq κ] in
theorem modify_eq_mapped (d : Dict κ β) (k : κ) (f : β → β) :
    d.modify k f = d.mapped fun k' b => if k' == k then f b else b := rfl

theorem mapped_mapped (d : Dict κ β) (f g : κ → β → β) :
    (d.mapped f).mapped g = d.mapped fun k b => g k (f k b) :=
  ext_get? fun k => by simp [Option.map_map, Function.comp_def]

theorem mapped_eq_self {f : κ → β → β} (h : ∀ k b, f k b = b) : d.mapped f = d :=
  ext_get? fun k => by simp [funext (h k)]

end Peephole.Dict
