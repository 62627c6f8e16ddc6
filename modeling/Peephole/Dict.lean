/-!
# Dictionaries

A dictionary has at most one value under a key, and lists its entries by ascending keys. The order
is part of the type, so that a dictionary is determined by what is found in it.
-/

namespace Peephole

/-- What can be put in order by a number. -/
class Ranked (κ : Type) where
  /-- The place of a key. -/
  rank : κ → Nat
  /-- Different keys have different places. -/
  rank_inj : ∀ {a b : κ}, rank a = rank b → a = b

/-- Numbers are their own places. -/
instance : Ranked Nat := ⟨id, id⟩

/-- Machine words are placed by their value. -/
instance : Ranked UInt32 := ⟨UInt32.toNat, UInt32.toNat_inj.1⟩

/-- Values under keys. -/
structure Dict (κ β : Type) [Ranked κ] where
  /-- The values with their keys. -/
  entries : List (κ × β)
  /-- The keys ascend. -/
  ascending : (entries.map (·.1)).Pairwise fun a b => Ranked.rank a < Ranked.rank b

namespace Dict

variable {κ β : Type} [Ranked κ]

/-- The dictionary without entries. -/
def empty : Dict κ β := ⟨[], by simp⟩

/-- The value under a key. -/
def get? [BEq κ] (d : Dict κ β) (k : κ) : Option β := d.entries.lookup k

/-- Whether there is a value under a key. -/
def contains [BEq κ] (d : Dict κ β) (k : κ) : Bool := (d.get? k).isSome

/-! ## Insertion -/

/-- The entries with a value put under a key, in place of the one before. -/
def insertEntry (k : κ) (b : β) : List (κ × β) → List (κ × β)
  | [] => [(k, b)]
  | e :: rest =>
      if Ranked.rank k < Ranked.rank e.1 then (k, b) :: e :: rest
      else if Ranked.rank e.1 < Ranked.rank k then e :: insertEntry k b rest
      else (k, b) :: rest

theorem mem_of_mem_insertEntry {k : κ} {b : β} {l : List (κ × β)} {e : κ × β}
    (h : e ∈ insertEntry k b l) : e = (k, b) ∨ e ∈ l := by
  induction l with
  | nil => exact Or.inl (List.mem_singleton.1 h)
  | cons x rest ih =>
      rw [insertEntry] at h
      split at h
      · exact List.mem_cons.1 h
      · split at h
        · rcases List.mem_cons.1 h with rfl | h
          · exact Or.inr List.mem_cons_self
          · exact (ih h).imp id (List.mem_cons_of_mem x)
        · exact (List.mem_cons.1 h).imp id (List.mem_cons_of_mem x)

theorem ascending_insertEntry {l : List (κ × β)} (k : κ) (b : β)
    (h : (l.map (·.1)).Pairwise fun a b => Ranked.rank a < Ranked.rank b) :
    ((insertEntry k b l).map (·.1)).Pairwise fun a b => Ranked.rank a < Ranked.rank b := by
  rw [List.pairwise_map] at h ⊢
  induction l with
  | nil => simp [insertEntry]
  | cons x rest ih =>
      obtain ⟨hx, hrest⟩ := List.pairwise_cons.1 h
      rw [insertEntry]
      split
      · rename_i hk
        refine List.pairwise_cons.2 ⟨fun e he => ?_, h⟩
        rcases List.mem_cons.1 he with rfl | he
        · exact hk
        · exact Nat.lt_trans hk (hx e he)
      · split
        · rename_i hk
          refine List.pairwise_cons.2 ⟨fun e he => ?_, ih hrest⟩
          rcases mem_of_mem_insertEntry he with rfl | he
          · exact hk
          · exact hx e he
        · -- the key is that of the first entry
          refine List.pairwise_cons.2 ⟨fun e he => ?_, hrest⟩
          have := hx e he
          show Ranked.rank k < Ranked.rank e.1
          omega

/-- The dictionary with a value put under a key, in place of the one before. -/
def insert (d : Dict κ β) (k : κ) (b : β) : Dict κ β where
  entries := insertEntry k b d.entries
  ascending := ascending_insertEntry k b d.ascending

/-! ## Changes in place -/

/-- The dictionary with the value under a key changed, if there is one. -/
def modify [BEq κ] (d : Dict κ β) (k : κ) (f : β → β) : Dict κ β where
  entries := d.entries.map fun e => (e.1, if e.1 == k then f e.2 else e.2)
  ascending := by
    rw [List.map_map]
    exact d.ascending

/-- The dictionary without what is under a key. -/
def erase [BEq κ] (d : Dict κ β) (k : κ) : Dict κ β where
  entries := d.entries.filter fun e => e.1 != k
  ascending := d.ascending.sublist (List.filter_sublist.map _)

end Dict

end Peephole
