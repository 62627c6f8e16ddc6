import Peephole.Proofs.Cancel.Tracking
import Peephole.Proofs.Circuit.Inspection

/-!
# Searches and sweeps end

A search slides its candidate forward and looks again, with no bound on how often. It ends because a
slide brings the candidate past a vertex on some strand and back on none. Nothing else is needed for
this, so it holds on cycles, and where gates have been overwritten by others on other wires. A sweep
then ends because no candidate is searched from twice.

* `Slides`: one slide, and `Slides.passes`, `descent_slides`: what it does to the strands.
* `exists_slides_of_seek`: a search goes along its slides to the last one.
* `descent_advances`: every step of a sweep takes a vertex from its queue.
-/

namespace Peephole

/-- The event of a slide. -/
def Event.isSlid : Event → Bool
  | .slid _ => true
  | _ => false

namespace Cancel

open Circuit
open Relation (ReflTransGen)

variable {c d : Circuit} {k : Candidate} {v : VertexId}

/-! ## Slides -/

/-- One slide of a search: no partner is at hand, and the candidate is commuted past the vertices of
a path. -/
def Slides (k : Candidate) (v : VertexId) (c d : Circuit) : Prop :=
  k.merge? c v = .ok none ∧
    ∃ path, k.slide? c v = .ok (some path) ∧ c.applyAll (path.map (.commute v)) = (d, none)

theorem ne_nil_of_slideHadamards? {w : Wire} {n : VertexId} {g : Gate} {path : List VertexId}
    (h : slideHadamards? c w n g = some path) : path ≠ [] := by
  simp only [slideHadamards?, Option.bind_eq_bind, Option.ite_none_right_eq_some,
    Option.bind_eq_some_iff] at h
  obtain ⟨-, m, -, -, x, -, hpath⟩ := h
  simp [← Option.some.inj hpath]

theorem ne_nil_of_slideGadget? {w : Wire} {n : VertexId} {g : Gate} {path : List VertexId}
    (h : slideGadget? c w n g = some path) : path ≠ [] := by
  rw [slideGadget?] at h
  split at h
  · simp only [Option.bind_eq_bind, Option.ite_none_right_eq_some, Option.bind_eq_some_iff] at h
    obtain ⟨-, r, -, x, -, -, hpath⟩ := h
    simp [← Option.some.inj hpath]
  · cases h

theorem ne_nil_of_slideConjugated? {g : Gate} {p : VertexId × VertexId} {path : List VertexId}
    (h : slideConjugated? c v g p = .ok (some path)) : path ≠ [] := by
  obtain ⟨l, -, h⟩ := bind_eq_ok_iff.1 h
  split at h
  · obtain ⟨k, -, h⟩ := bind_eq_ok_iff.1 h
    have h := Except.ok.inj h
    simp only [Option.bind_eq_bind, Option.ite_none_right_eq_some, Option.ite_none_left_eq_some,
      Option.bind_eq_some_iff] at h
    obtain ⟨-, x, -, -, hpath⟩ := h
    simp [← Option.some.inj hpath]
  · cases h

theorem ne_nil_of_slide? {path : List VertexId} (h : k.slide? c v = .ok (some path)) :
    path ≠ [] := by
  cases k with
  | rotation =>
      obtain ⟨g, n, l, -, -, -, hh | hh | hh⟩ := slideRotation?_eq_some h
      · exact ne_nil_of_slideHadamards? hh
      · exact ne_nil_of_slideGadget? hh
      · rw [slideControl?, Option.ite_none_right_eq_some] at hh
        simp [← Option.some.inj hh.2]
  | cnot =>
      obtain ⟨g, -, ⟨n, -, hh⟩ | ⟨p, -, hh⟩⟩ := slideCnot?_eq_some h
      · obtain ⟨l, -, hh⟩ := bind_eq_ok_iff.1 hh
        have hh := Option.ite_none_right_eq_some.1 (Except.ok.inj hh)
        simp [← Option.some.inj hh.2]
      · exact ne_nil_of_slideConjugated? hh

theorem descent_slides (k : Candidate) (v : VertexId) :
    Descent (Slides k v) Linked fun c => c.ahead v where
  keeps := by
    rintro c d hc ⟨-, path, -, hd⟩
    exact hc.of_applyAll hd
  lowers := by
    rintro c d - ⟨-, path, hpath, hd⟩
    exact ahead_applyAll_commute hd (ne_nil_of_slide? hpath)

/-- A slide brings the candidate past a vertex on some strand. -/
theorem Slides.passes (h : Slides k v c d) (hc : c.Linked) :
    ∃ w x, [v, x].Sublist (c.strand w) ∧ [x, v].Sublist (d.strand w) := by
  obtain ⟨-, path, hpath, hd⟩ := h
  cases path with
  | nil => exact absurd rfl (ne_nil_of_slide? hpath)
  | cons b rest =>
      obtain ⟨c', hb, hrest⟩ := applyAll_cons_eq_iff.1 hd
      obtain ⟨hcomm, rfl⟩ := commute_eq_ok_iff.1 hb
      obtain ⟨w, hw⟩ := hc.mem_successors_iff.1 hcomm.edge
      refine ⟨w, b, Strand.pair_sublist_of_next? (Circuit.strand_nodup _ w) hw, ?_⟩
      refine (Moved.of_applyAll hrest).forward w b ?_
      obtain ⟨A, B, hcut⟩ := (Strand.next?_eq_some_iff (Circuit.strand_nodup _ w)).1 hw
      have hA : v ∉ A := (Strand.notMem_of_nodup_append (hcut ▸ Circuit.strand_nodup _ w)).1
      rw [strand_swapped, hcut, Strand.exchange_append b B hA]
      exact Strand.pair_sublist_iff.2 ⟨A, v :: B, rfl, List.mem_cons_self⟩

/-! ## Searches -/

theorem Slides.seek_eq (h : Slides k v c d) (saved : Option Snapshot) :
    seek k c v saved = .after (.slid v) (seek k d v (some (saved.getD c.snapshot))) := by
  obtain ⟨hm, path, hpath, hd⟩ := h
  cases path with
  | nil => exact absurd rfl (ne_nil_of_slide? hpath)
  | cons a rest =>
      rw [seek, hm, hpath]
      simp only
      split
      · rename_i d' hd'
        obtain rfl : d = d' := congrArg Prod.fst (hd.symm.trans hd')
        rfl
      · rename_i d' e hd'
        cases hd.symm.trans hd'

theorem countP_isSlid_giveUp (c : Circuit) (v : VertexId) (saved : Option Snapshot) :
    (giveUp c v saved).events.countP Event.isSlid = 0 := by
  cases saved with
  | none => rfl
  | some s =>
      rw [giveUp]
      cases s.restore with
      | ok r => rfl
      | error e => rfl

/-- Where the candidate cannot slide, the search is over. -/
theorem countP_isSlid_seek (h : ∀ d, ¬ Slides k v c d) (saved : Option Snapshot) :
    (seek k c v saved).events.countP Event.isSlid = 0 := by
  fun_cases seek k c v saved with
  | case1 e he => rfl
  | case2 m hm d hd => cases k <;> rfl
  | case3 m hm d e hd => rfl
  | case4 hm e he => rfl
  | case5 hm a rest hslide d hd => exact absurd ⟨hm, _, hslide, hd⟩ (h d)
  | case6 hm a rest hslide d e hd => rfl
  | case7 hm r hnone hslide => exact countP_isSlid_giveUp c v saved

/-- A search goes from slide to slide, up to a point where the candidate cannot slide, and reports
every one of them. -/
theorem exists_slides_of_seek {c : Circuit} (hc : c.Linked) (k : Candidate) (v : VertexId)
    (saved : Option Snapshot) :
    ∃ ds, (c :: ds).IsChain (Slides k v) ∧
      (∀ d, ¬ Slides k v ((c :: ds).getLast (List.cons_ne_nil c ds)) d) ∧
      (seek k c v saved).events.countP Event.isSlid = ds.length := by
  by_cases h : ∃ d, Slides k v c d
  · obtain ⟨d, hd⟩ := h
    have hlt := (descent_slides k v).lowers hc hd
    obtain ⟨ds, hchain, hlast, hcount⟩ :=
      exists_slides_of_seek ((descent_slides k v).keeps hc hd) k v (some (saved.getD c.snapshot))
    refine ⟨d :: ds, List.isChain_cons_cons.2 ⟨hd, hchain⟩, ?_, ?_⟩
    · rwa [List.getLast_cons (List.cons_ne_nil d ds)]
    · rw [hd.seek_eq, Run.after, List.countP_cons_of_pos rfl, hcount, List.length_cons]
  · have hnone : ∀ d, ¬ Slides k v c d := fun d hd => h ⟨d, hd⟩
    exact ⟨[], .singleton c, hnone, countP_isSlid_seek hnone saved⟩
termination_by c.ahead v

/-! ## Sweeps -/

/-- Every step of a sweep takes a vertex from those that wait. -/
theorem descent_advances : Descent Advances (fun _ => True) fun p => p.pending.length where
  keeps _ _ := trivial
  lowers := by
    intro p q _ h
    cases h with
    | skip hv => simp
    | @visit e v rest now history k o hv ho =>
        have := o.length_rename_le rest
        simp only [List.length_cons]
        omega

/-- Searches and sweeps end after any history, also on cycles and where gates are away from their
strands. A slide moves the candidate past a vertex on some strand and back on none, and nothing else
moves; so there are at most as many slides as vertices ahead of the candidate, and a search goes on
until it cannot slide. A sweep searches from each of the candidates it began with at most once, and
goes on until nothing waits or a search fails. -/
theorem search_ends_of_reachable (hc : Reachable (fun _ _ => True) c) :
    (∀ k v d e, ReflTransGen (Slides k v) c d → Slides k v d e → Moved v d e ∧
      (∃ w x, [v, x].Sublist (d.strand w) ∧ [x, v].Sublist (e.strand w)) ∧ e.ahead v < d.ahead v) ∧
    (∀ k v, (∀ ds, (c :: ds).IsChain (Slides k v) → ds.length ≤ c.ahead v) ∧
      (search k c v).events.countP Event.isSlid ≤ c.ahead v ∧
      (candidateAt? c v = some k → ∃ ds, (c :: ds).IsChain (Slides k v) ∧
        (∀ d, ¬ Slides k v ((c :: ds).getLast (List.cons_ne_nil c ds)) d) ∧
        (search k c v).events.countP Event.isSlid = ds.length)) ∧
    (∀ p, Reaches c p → ∃ searched, List.Forall₂ Visit.IsFrom p.history searched ∧
      searched.Nodup ∧ searched.Sublist (candidates c)) ∧
    (∀ ps, (Progress.start c :: ps).IsChain Advances → ps.length ≤ (candidates c).length) ∧
    ∃ p, Reaches c p ∧
      ((p.pending = [] ∧ (sweep c).result = .ok (c.size - (sweep c).circuit.size) ∧
          p.circuit = (sweep c).circuit) ∨
        ∃ v rest k e, p.pending = v :: rest ∧ candidateAt? p.circuit v = some k ∧
          (search k p.circuit v).result = .error e ∧ (sweep c).result = .error e) := by
  have hlinked := hc.linked
  refine ⟨fun k v d e hd he => ?_, fun k v => ?_, fun p hp => ?_,
    fun ps hps => descent_advances.length_le trivial hps, sweep_reaches c⟩
  · have hd' := (descent_slides k v).of_reflTransGen hlinked hd
    have hmoved : Moved v d e := by
      obtain ⟨-, path, -, hpath⟩ := he
      exact .of_applyAll hpath
    exact ⟨hmoved, he.passes hd', (descent_slides k v).lowers hd' he⟩
  · have hbound : ∀ ds, (c :: ds).IsChain (Slides k v) → ds.length ≤ c.ahead v :=
      fun ds hds => (descent_slides k v).length_le hlinked hds
    have hslides := exists_slides_of_seek hlinked k v none
    by_cases hk : candidateAt? c v = some k
    · rw [search_eq_seek hk]
      obtain ⟨ds, hchain, -, hcount⟩ := hslides
      exact ⟨hbound, hcount ▸ hbound ds hchain, fun _ => exists_slides_of_seek hlinked k v none⟩
    · obtain ⟨e, he⟩ := search_eq_failed hk
      rw [he]
      exact ⟨hbound, Nat.zero_le _, fun hk' => absurd hk' hk⟩
  · obtain ⟨passed, waiting, searched, hcand, -, hhistory, hsub, -⟩ := (hp.queued hlinked).2
    have hsub' : searched.Sublist (candidates c) :=
      hcand ▸ hsub.trans (List.sublist_append_left _ _)
    have hnodup : searched.Nodup := hlinked.ids_nodup.sublist (hsub'.trans (candidates_sublist c))
    exact ⟨searched, hhistory, hnodup, hsub'⟩

/-- A controlled not that closes a cycle slides past the one after it, while the gate between the
two is away from its strands. -/
theorem search_ends_of_reachable_cyclic :
    ∃ c d, build 3 [.cnot [0] 1, .cnot [1] 2, .cnot [0] 2] = .ok c ∧ c.commute 0 2 = .ok d ∧
      ¬ (d.modify 1 fun _ => .hadamard 0).Acyclic ∧
      (d.modify 1 fun _ => .hadamard 0).ahead 2 = 1 ∧
      ∃ ds, ((d.modify 1 fun _ => .hadamard 0) :: ds).IsChain (Slides .cnot 2) ∧ ds.length = 1 := by
  have hbuild : build 3 [.cnot [0] 1, .cnot [1] 2, .cnot [0] 2]
      = .ok (ofGates 3 [.cnot [0] 1, .cnot [1] 2, .cnot [0] 2]) := rfl
  have hcommute : (ofGates 3 [.cnot [0] 1, .cnot [1] 2, .cnot [0] 2]).commute 0 2
      = .ok ((ofGates 3 [.cnot [0] 1, .cnot [1] 2, .cnot [0] 2]).swapped 0 2) := rfl
  have hreach : Reachable (fun _ _ => True) (((ofGates 3 [.cnot [0] 1, .cnot [1] 2,
      .cnot [0] 2]).swapped 0 2).modify 1 fun _ => .hadamard 0) :=
    .modify (.commute (.build hbuild) hcommute) fun _ _ => trivial
  obtain ⟨-, hsearch, -⟩ := search_ends_of_reachable hreach
  obtain ⟨ds, hchain, -, hcount⟩ := (hsearch .cnot 2).2.2 (by cbv)
  refine ⟨_, _, hbuild, hcommute, ?_, by decide, ds, hchain, ?_⟩
  · rw [← hreach.linked.isCyclic_eq_false_iff, Bool.not_eq_false]
    cbv
  · rw [← hcount]
    cbv

end Cancel

end Peephole
