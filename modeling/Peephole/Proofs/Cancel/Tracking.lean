import Peephole.Proofs.Cancel.Merge
import Peephole.Proofs.Cancel.Search

/-!
# The candidates of a sweep

A sweep queues its candidates by name, and then removes vertices and gives new names to all others.
To see that it neither loses a candidate nor mistakes another vertex for one, every vertex is
followed through the run, from search to search, by the renumbering that a search that goes back
reports.

* `Outcome.nameOf`, `Carries`: what becomes of the vertices in one search.
* `Progress`, `Advances`: how far a sweep got, and its next step; `sweepFrom_reaches` ties the
  steps to the run.
* `Named`, `Queued`: what holds at every point, whatever the circuit. No name stands for two
  vertices, and each candidate waits, was searched from once, or was dropped.
* `Follows`, `Counted`: what holds besides on acyclic circuits whose gates are on their strands.
  Names stand for the vertices they stood for, and a vertex that is gone was removed by a merge.
-/

namespace Peephole

/-- The same gate, up to the angle of a lone rotation. -/
def Gate.Turned (g h : Gate) : Prop := h = g ∨ ∃ θ φ t, g = .rotation θ t ∧ h = .rotation φ t

namespace Gate.Turned

variable {g h k : Gate}

theorem trans (hgh : g.Turned h) (hhk : h.Turned k) : g.Turned k := by
  rcases hgh with rfl | ⟨θ, φ, t, rfl, rfl⟩
  · exact hhk
  · rcases hhk with rfl | ⟨_, ψ, _, he, rfl⟩
    · exact Or.inr ⟨θ, φ, t, rfl, rfl⟩
    · cases he
      exact Or.inr ⟨θ, ψ, t, rfl, rfl⟩

theorem wires_eq (hgh : g.Turned h) : h.wires = g.wires := by
  rcases hgh with rfl | ⟨θ, φ, t, rfl, rfl⟩ <;> rfl

theorem ofGate?_eq (hgh : g.Turned h) :
    Cancel.Candidate.ofGate? h = Cancel.Candidate.ofGate? g := by
  rcases hgh with rfl | ⟨θ, φ, t, rfl, rfl⟩ <;> rfl

end Gate.Turned

namespace Cancel

open Circuit

variable {c d : Circuit} {k : Candidate} {v : VertexId}

/-! ## One search -/

/-- The name that a vertex has after a search, if it is still there. -/
def Outcome.nameOf : Outcome → VertexId → Option VertexId
  | .rolledBack names, x => names.lookup x
  | _, x => some x

/-- Whether a partner was found. -/
@[simp] def Outcome.isMerged : Outcome → Bool
  | .merged => true
  | _ => false

theorem Outcome.rename_eq_filterMap (o : Outcome) (pending : List VertexId) :
    o.rename pending = pending.filterMap o.nameOf := by
  cases o with
  | rolledBack names => rfl
  | merged => exact List.filterMap_some.symm
  | unchanged => exact List.filterMap_some.symm

/-- What a search does to the names of the vertices: it leaves them, or takes up those of the
snapshot it can go back to. -/
def Outcome.NamesOf (c : Circuit) (o : Outcome) : Prop :=
  ∀ names, o = .rolledBack names → names = c.snapshot.renumbering

theorem giveUp_names {c₀ : Circuit} {saved : Option Snapshot} (hc : c.Linked)
    (hs : saved.getD c.snapshot = c₀.snapshot) :
    (giveUp c v saved).Meets (fun d o => d.Linked ∧ o.NamesOf c₀) fun _ => True := by
  cases saved with
  | none => exact .done ⟨hc, by rintro names ⟨⟩⟩
  | some s =>
      obtain rfl : s = c₀.snapshot := hs
      rw [giveUp]
      cases hr : c₀.snapshot.restore with
      | error e => exact .after (.failed trivial) _
      | ok r =>
          obtain ⟨names, d⟩ := r
          obtain ⟨-, rfl, rfl⟩ := restore_eq_ok_iff.1 hr
          refine .after (.done ⟨.ofGates _ _, ?_⟩) _
          rintro names ⟨⟩
          rfl

theorem seek_names {c₀ : Circuit} {saved : Option Snapshot} (hc : c.Linked)
    (hs : saved.getD c.snapshot = c₀.snapshot) :
    (seek k c v saved).Meets (fun d o => d.Linked ∧ o.NamesOf c₀) fun _ => True := by
  -- along the recursion: the snapshot to go back to is the one of the first circuit
  fun_induction seek k c v saved with
  | case1 c saved e he => exact .failed trivial
  | case2 c saved m hm d hd => exact .after (.done ⟨hc.of_applyAll hd, by rintro names ⟨⟩⟩) _
  | case3 c saved m hm d e hd => exact .failed trivial
  | case4 c saved hm e he => exact .failed trivial
  | case5 c saved hm a rest hslide d hd ih => exact .after (ih (hc.of_applyAll hd) hs) _
  | case6 c saved hm a rest hslide d e hd => exact .failed trivial
  | case7 c saved hm r hnone hslide => exact giveUp_names hc hs

theorem search_names (hc : c.Linked) (k : Candidate) (v : VertexId) :
    (search k c v).Meets (fun d o => d.Linked ∧ o.NamesOf c) fun _ => True := by
  by_cases hk : candidateAt? c v = some k
  · rw [search_eq_seek hk]
    exact seek_names hc rfl
  · obtain ⟨e, he⟩ := search_eq_failed hk
    rw [he]
    exact .failed trivial

/-- No two vertices get the same name. -/
theorem Outcome.NamesOf.inj (hc : c.Linked) {o : Outcome} (h : o.NamesOf c) {x y z : VertexId}
    (hx : o.nameOf x = some z) (hy : o.nameOf y = some z) : x = y := by
  cases o with
  | merged => exact Option.some.inj (hx.trans hy.symm)
  | unchanged => exact Option.some.inj (hx.trans hy.symm)
  | rolledBack names =>
      obtain rfl := h names rfl
      rw [Outcome.nameOf, hc.lookup_renumbering, Option.ite_none_right_eq_some] at hx hy
      exact hc.bijOn_position.injOn hx.1 hy.1 (Option.some.inj (hx.2.trans hy.2.symm))

/-- What becomes of the vertices in a search. -/
structure Carries (o : Outcome) (c d : Circuit) : Prop where
  /-- A name stands for a vertex with the same gate, up to an angle. -/
  turned : ∀ x y h, o.nameOf x = some y → d.gate? y = some h → ∃ g, c.gate? x = some g ∧ g.Turned h
  /-- No vertex is new. -/
  onto : ∀ y ∈ d.ids, ∃ x, o.nameOf x = some y
  /-- Only a merge takes vertices away. -/
  stays : o ≠ .merged → ∀ x ∈ c.ids, ∃ y ∈ d.ids, o.nameOf x = some y

theorem Merging.turned (h : Merging c v k d) {x : VertexId} {g : Gate}
    (hg : d.gate? x = some g) : ∃ g', c.gate? x = some g' ∧ g'.Turned g := by
  cases h with
  | @rotation n θ φ t hn hv hφ =>
      by_cases hx : x = v
      · subst hx
        rw [gate?_modify_self, Option.map_eq_some_iff] at hg
        obtain ⟨g', hg', rfl⟩ := hg
        obtain ⟨-, hg'⟩ := gate?_without c n hg'
        rw [hv] at hg'
        obtain rfl := Option.some.inj hg'
        exact ⟨_, hv, Or.inr ⟨θ, θ + φ, t, rfl, rfl⟩⟩
      · rw [gate?_modify_of_ne _ v _ hx] at hg
        exact ⟨g, (gate?_without c n hg).2, Or.inl rfl⟩
  | @cnot n x t hn hv hu => exact ⟨g, (gate?_without c n (gate?_without _ v hg).2).2, Or.inl rfl⟩

theorem Outcome.Merges.carries (h : Outcome.merged.Merges k c v d) : Carries .merged c d := by
  obtain ⟨e, hmoved, -, hmerging⟩ := h rfl
  have hturned : ∀ x g, d.gate? x = some g → ∃ g', c.gate? x = some g' ∧ g'.Turned g := by
    intro x g hg
    obtain ⟨g', hg', ht⟩ := hmerging.turned hg
    exact ⟨g', (hmoved.gate?_eq x).symm.trans hg', ht⟩
  refine ⟨fun x y g hx hg => ?_, fun y _ => ⟨y, rfl⟩, fun hne => absurd rfl hne⟩
  obtain rfl := Option.some.inj hx
  exact hturned x g hg

theorem carries_refl (c : Circuit) : Carries .unchanged c c where
  turned x y g hx hg := by
    obtain rfl := Option.some.inj hx
    exact ⟨g, hg, Or.inl rfl⟩
  onto y _ := ⟨y, rfl⟩
  stays _ x hx := ⟨x, hx, rfl⟩

theorem carries_of_restores {names : Renumbering} (h : Restores names c d) :
    Carries (.rolledBack names) c d := by
  have hname : ∀ x y, (Outcome.rolledBack names).nameOf x = some y ↔
      x ∈ c.ids ∧ c.position x = y := by
    intro x y
    rw [Outcome.nameOf, h.lookup_eq]
    by_cases hx : x ∈ c.ids
    · simp [hx]
    · simp [hx]
  refine ⟨fun x y g hx hg => ?_, fun y hy => ?_, fun _ x hx => ?_⟩
  · obtain ⟨hlive, rfl⟩ := (hname x y).1 hx
    rw [h.isomorphic.gate?_eq x hlive] at hg
    exact ⟨g, hg, Or.inl rfl⟩
  · obtain ⟨x, hx, rfl⟩ := h.isomorphic.bijOn.surjOn hy
    exact ⟨x, (hname x _).2 ⟨hx, rfl⟩⟩
  · exact ⟨c.position x, h.isomorphic.bijOn.mapsTo hx, (hname x _).2 ⟨hx, rfl⟩⟩

theorem search_carries (hc : c.Proper) (hk : candidateAt? c v = some k) :
    (search k c v).Meets (fun d o => Carries o c d) (Unrestorable c) := by
  have haccounts := search_meets hc hk
  obtain ⟨g, hg, hgk⟩ := Option.bind_eq_some_iff.1 hk
  refine ⟨fun o ho => ?_, haccounts.error⟩
  have hmerges := (search_merges hc hg hgk).ok o ho
  have hd := haccounts.ok o ho
  cases o with
  | merged => exact hmerges.carries
  | unchanged =>
      have he : (search k c v).circuit = c := hd
      rw [he]
      exact carries_refl c
  | rolledBack names => exact carries_of_restores hd

/-! ## The steps of a sweep -/

/-- A search of a sweep. -/
structure Visit where
  /-- The circuit that the search starts with. -/
  circuit : Circuit
  /-- The names, at that time, of the vertices that the sweep began with. -/
  now : VertexId → Option VertexId
  /-- The vertex that is searched from, by its name at that time. -/
  vertex : VertexId
  kind : Candidate

namespace Visit

/-- The run of the search. -/
def run (s : Visit) : Run Outcome := search s.kind s.circuit s.vertex

/-- Whether the search found a partner. -/
def merged (s : Visit) : Bool :=
  match s.run.result with
  | .ok o => o.isMerged
  | .error _ => false

/-- The search is from the vertex that was `u` at the beginning, and from no other. -/
def IsFrom (s : Visit) (u : VertexId) : Prop := ∀ u', s.now u' = some s.vertex ↔ u' = u

/-- The search is from the vertex that was `u` at the beginning, and from no other, and the vertex
was a candidate of the same kind then. -/
def IsFor (c : Circuit) (s : Visit) (u : VertexId) : Prop :=
  s.IsFrom u ∧ candidateAt? c u = some s.kind

/-- The search is a merge that removes the vertex that was `u` at the beginning. -/
def Removes (s : Visit) (u : VertexId) : Prop :=
  s.run.result = .ok .merged ∧ ∃ x, s.now u = some x ∧ x ∈ s.circuit.ids ∧ x ∉ s.run.circuit.ids

end Visit

/-- How many searches were merges of this kind. -/
def mergesOf (k : Candidate) (history : List Visit) : Nat :=
  history.countP fun s => s.kind = k && s.merged

theorem mergesOf_concat (k : Candidate) (history : List Visit) (s : Visit) :
    mergesOf k (history ++ [s]) =
      mergesOf k history + if s.kind = k ∧ s.merged = true then 1 else 0 := by
  rw [mergesOf, mergesOf, List.countP_append, List.countP_singleton]
  simp only [Bool.and_eq_true, decide_eq_true_eq]

/-- How far a sweep got. -/
structure Progress where
  circuit : Circuit
  /-- The vertices that wait, by their present names. -/
  pending : List VertexId
  /-- The present names of the vertices that the sweep began with. -/
  now : VertexId → Option VertexId
  /-- The searches so far, in order. -/
  history : List Visit

namespace Progress

/-- Before the first search. -/
def start (c : Circuit) : Progress := ⟨c, candidates c, some, []⟩

end Progress

/-- One step of a sweep: the first vertex that waits holds no candidate, or is searched from. A
search that goes back gives new names to the vertices that wait, and to those that are followed. -/
inductive Advances : Progress → Progress → Prop where
  | skip {c : Circuit} {v : VertexId} {rest : List VertexId} {now : VertexId → Option VertexId}
      {history : List Visit} (hv : candidateAt? c v = none) :
      Advances ⟨c, v :: rest, now, history⟩ ⟨c, rest, now, history⟩
  | visit {c : Circuit} {v : VertexId} {rest : List VertexId} {now : VertexId → Option VertexId}
      {history : List Visit} {k : Candidate} {o : Outcome} (hv : candidateAt? c v = some k)
      (ho : (search k c v).result = .ok o) :
      Advances ⟨c, v :: rest, now, history⟩
        ⟨(search k c v).circuit, o.rename rest, fun u => (now u).bind o.nameOf,
          history ++ [⟨c, now, v, k⟩]⟩

/-- The points of a sweep. -/
def Reaches (c : Circuit) : Progress → Prop := Relation.ReflTransGen Advances (.start c)

/-- The run of a sweep goes along its steps, up to a point where nothing waits, if it ends well, or
where a search fails. -/
theorem sweepFrom_reaches (c : Circuit) (pending : List VertexId)
    (now : VertexId → Option VertexId) (history : List Visit) :
    ∃ p, Relation.ReflTransGen Advances ⟨c, pending, now, history⟩ p ∧
      ((p.pending = [] ∧ (sweepFrom c pending).result = .ok () ∧
          p.circuit = (sweepFrom c pending).circuit) ∨
        ∃ v rest k e, p.pending = v :: rest ∧ candidateAt? p.circuit v = some k ∧
          (search k p.circuit v).result = .error e ∧ (sweepFrom c pending).result = .error e) := by
  fun_induction sweepFrom c pending generalizing now history with
  | case1 c => exact ⟨_, .refl, Or.inl ⟨rfl, rfl, rfl⟩⟩
  | case2 c v rest hk ih =>
      obtain ⟨p, hp, hend⟩ := ih now history
      exact ⟨p, .head (.skip hk) hp, hend⟩
  | case3 c v rest k hk ih =>
      cases ho : (search k c v).result with
      | ok o =>
          obtain ⟨p, hp, hend⟩ :=
            ih _ o (fun u => (now u).bind o.nameOf) (history ++ [⟨c, now, v, k⟩])
          refine ⟨p, .head (.visit hk ho) hp, ?_⟩
          simpa only [Run.andThen, ho] using hend
      | error e =>
          refine ⟨_, .refl, Or.inr ⟨v, rest, k, e, rfl, hk, ho, ?_⟩⟩
          rw [Run.andThen, ho]

/-! ## What holds at every point -/

/-- No name stands for two of the vertices that a sweep began with. -/
structure Named (p : Progress) : Prop where
  linked : p.circuit.Linked
  inj : ∀ u u' x, p.now u = some x → p.now u' = some x → u = u'

theorem Named.start (hc : c.Linked) : Named (.start c) where
  linked := hc
  inj _ _ _ hu hu' := Option.some.inj (hu.trans hu'.symm)

theorem Named.step {p q : Progress} (h : Named p) (hpq : Advances p q) : Named q := by
  cases hpq with
  | skip hv => exact ⟨h.linked, h.inj⟩
  | @visit e v rest now history k o hv ho =>
      obtain ⟨hlinked, hnames⟩ := (search_names h.linked k v).ok o ho
      refine ⟨hlinked, fun u u' x hu hu' => ?_⟩
      obtain ⟨y, hy, hyx⟩ := Option.bind_eq_some_iff.1 hu
      obtain ⟨y', hy', hyx'⟩ := Option.bind_eq_some_iff.1 hu'
      obtain rfl := hnames.inj h.linked hyx hyx'
      exact h.inj u u' y hy hy'

theorem Named.now_eq_some_iff {p : Progress} (h : Named p) {u : VertexId} (hu : p.now u = some v)
    (u' : VertexId) : p.now u' = some v ↔ u' = u := by
  refine ⟨fun hu' => h.inj u' u v hu' hu, ?_⟩
  rintro rfl
  exact hu

/-- Of the candidates that a sweep began with, in order, those it has come past were searched from,
once each, or dropped; the others wait. What is known of a search is `IsOf`, and of a candidate that
was dropped, given the searches so far, `Drops`. -/
def Queued (IsOf : Visit → VertexId → Prop) (Drops : List Visit → VertexId → Prop) (c : Circuit)
    (p : Progress) : Prop :=
  ∃ passed waiting searched, candidates c = passed ++ waiting ∧
    p.pending = waiting.filterMap p.now ∧ List.Forall₂ IsOf p.history searched ∧
    searched.Sublist passed ∧ ∀ u ∈ passed, u ∉ searched → Drops p.history u

namespace Queued

variable {IsOf : Visit → VertexId → Prop} {Drops : List Visit → VertexId → Prop} {p q : Progress}

theorem start (c : Circuit) : Queued IsOf Drops c (.start c) := by
  refine ⟨[], candidates c, [], rfl, ?_, .nil, List.nil_sublist _, by simp⟩
  exact List.filterMap_some.symm

/-- The first vertex that waits is a candidate that was not come past yet. Those before it have no
name any more, and are dropped. -/
theorem pop (h : Queued IsOf Drops c p) {rest : List VertexId} (hp : p.pending = v :: rest)
    (hdrop : ∀ u ∈ candidates c, p.now u = none → Drops p.history u) :
    ∃ passed u waiting searched, candidates c = passed ++ u :: waiting ∧ p.now u = some v ∧
      rest = waiting.filterMap p.now ∧ List.Forall₂ IsOf p.history searched ∧
      searched.Sublist passed ∧ ∀ u ∈ passed, u ∉ searched → Drops p.history u := by
  obtain ⟨passed, waiting, searched, hcand, hpending, hhistory, hsub, hdropped⟩ := h
  rw [hp, eq_comm, List.filterMap_eq_cons_iff] at hpending
  obtain ⟨nameless, u, waiting, rfl, hnone, hu, hrest⟩ := hpending
  refine ⟨passed ++ nameless, u, waiting, searched, by simpa using hcand, hu, hrest.symm, hhistory,
    hsub.trans (List.sublist_append_left _ _), fun x hx hxs => ?_⟩
  rcases List.mem_append.1 hx with hx | hx
  · exact hdropped x hx hxs
  · exact hdrop x (by simp [hcand, hx]) (hnone x hx)

/-- One step: the vertex that is searched from is of a candidate, and one that is no candidate under
its present name is dropped. -/
theorem step (h : Queued IsOf Drops c p) (hpq : Advances p q)
    (hvisit : ∀ u v k, p.now u = some v → candidateAt? p.circuit v = some k →
      IsOf ⟨p.circuit, p.now, v, k⟩ u)
    (hdrop : ∀ u ∈ candidates c, (∀ v, p.now u = some v → candidateAt? p.circuit v = none) →
      Drops p.history u)
    (hmono : ∀ u s, Drops p.history u → Drops (p.history ++ [s]) u) : Queued IsOf Drops c q := by
  have hnameless : ∀ u ∈ candidates c, p.now u = none → Drops p.history u := by
    intro u hu hnone
    refine hdrop u hu fun v hv => ?_
    rw [hnone] at hv
    cases hv
  cases hpq with
  | @skip e v rest now history hv =>
      obtain ⟨passed, u, waiting, searched, hcand, hu, hrest, hhistory, hsub, hdropped⟩ :=
        h.pop rfl hnameless
      refine ⟨passed ++ [u], waiting, searched, by simpa using hcand, hrest, hhistory,
        hsub.trans (List.sublist_append_left _ _), fun x hx hxs => ?_⟩
      rcases List.mem_append.1 hx with hx | hx
      · exact hdropped x hx hxs
      · obtain rfl := List.mem_singleton.1 hx
        refine hdrop x (by simp [hcand]) fun y hy => ?_
        obtain rfl : v = y := Option.some.inj (hu.symm.trans hy)
        exact hv
  | @visit e v rest now history k o hv ho =>
      obtain ⟨passed, u, waiting, searched, hcand, hu, hrest, hhistory, hsub, hdropped⟩ :=
        h.pop rfl hnameless
      refine ⟨passed ++ [u], waiting, searched ++ [u], by simpa using hcand, ?_,
        List.rel_append hhistory (.cons (hvisit u v k hu hv) .nil),
        hsub.append (List.Sublist.refl _), fun x hx hxs => ?_⟩
      · rw [Outcome.rename_eq_filterMap, hrest, List.filterMap_filterMap]
      · simp only [List.mem_append, List.mem_singleton, not_or] at hx hxs
        exact hmono x _ (hdropped x (hx.resolve_right hxs.2) hxs.1)

end Queued

/-- Whatever the circuit, a sweep searches from its candidates in order, and from none twice. -/
theorem Reaches.queued {p : Progress} (h : Reaches c p) (hc : c.Linked) :
    Named p ∧ Queued Visit.IsFrom (fun _ _ => True) c p := by
  induction h with
  | refl => exact ⟨.start hc, .start c⟩
  | tail _ hstep ih =>
      obtain ⟨hn, hq⟩ := ih
      refine ⟨hn.step hstep, hq.step hstep ?_ (fun _ _ _ => trivial) fun _ _ _ => trivial⟩
      intro u v k hu _
      exact hn.now_eq_some_iff hu

/-! ## Acyclic circuits -/

/-- The vertex that was `u` at the beginning is gone. -/
def Progress.Gone (p : Progress) (u : VertexId) : Prop := ∀ x, p.now u = some x → x ∉ p.circuit.ids

/-- Names stand for the vertices they stood for, and only merges remove any. -/
structure Follows (c : Circuit) (p : Progress) : Prop where
  proper : p.circuit.Proper
  width_eq : p.circuit.width = c.width
  turned : ∀ u x h, p.now u = some x → p.circuit.gate? x = some h →
    ∃ g, c.gate? u = some g ∧ g.Turned h
  onto : ∀ x ∈ p.circuit.ids, ∃ u, p.now u = some x
  gone : ∀ u ∈ c.ids, p.Gone u → ∃ s ∈ p.history, s.Removes u

theorem Follows.start (hc : c.Proper) : Follows c (.start c) where
  proper := hc
  width_eq := rfl
  turned u x h hu hh := by
    obtain rfl := Option.some.inj hu
    exact ⟨h, hh, Or.inl rfl⟩
  onto x _ := ⟨x, rfl⟩
  gone u hu hgone := absurd hu (hgone u rfl)

theorem Follows.step {p q : Progress} (h : Follows c p) (hpq : Advances p q) : Follows c q := by
  cases hpq with
  | skip hv => exact ⟨h.proper, h.width_eq, h.turned, h.onto, h.gone⟩
  | @visit e v rest now history k o hv ho =>
      have hcarries := (search_carries h.proper hv).ok o ho
      obtain ⟨hproper, hwidth⟩ :=
        (search_keeps (stable_width Rule c.width) ⟨h.proper, h.width_eq⟩ hv).circuit o ho
      refine ⟨hproper, hwidth, fun u x g hu hg => ?_, fun x hx => ?_, fun u hu hgone => ?_⟩
      · obtain ⟨y, hy, hyx⟩ := Option.bind_eq_some_iff.1 hu
        obtain ⟨g', hg', hturned⟩ := hcarries.turned y x g hyx hg
        obtain ⟨g₀, hg₀, hturned₀⟩ := h.turned u y g' hy hg'
        exact ⟨g₀, hg₀, hturned₀.trans hturned⟩
      · obtain ⟨y, hy⟩ := hcarries.onto x hx
        obtain ⟨g, hg⟩ := mem_ids.1 hx
        obtain ⟨g', hg', -⟩ := hcarries.turned y x g hy hg
        obtain ⟨u, hu⟩ := h.onto y (mem_ids_of_gate? hg')
        exact ⟨u, Option.bind_eq_some_iff.2 ⟨y, hu, hy⟩⟩
      · by_cases halive : ∃ x, now u = some x ∧ x ∈ e.ids
        · -- it was there before the search and is not after it, so that the search was a merge
          obtain ⟨x, hx, hlive⟩ := halive
          have hmerged : o = .merged := by
            by_contra hne
            obtain ⟨y, hy, hxy⟩ := hcarries.stays hne x hlive
            exact hgone y (Option.bind_eq_some_iff.2 ⟨x, hx, hxy⟩) hy
          subst hmerged
          refine ⟨⟨e, now, v, k⟩, by simp, ho, x, hx, hlive, ?_⟩
          exact hgone x (Option.bind_eq_some_iff.2 ⟨x, hx, rfl⟩)
        · obtain ⟨s, hs, hremoves⟩ := h.gone u hu fun x hx hlive => halive ⟨x, hx, hlive⟩
          exact ⟨s, List.mem_append_left _ hs, hremoves⟩

theorem candidates_sublist (c : Circuit) : (candidates c).Sublist c.ids := List.filter_sublist.map _

theorem mem_candidates (hc : c.Linked) {u : VertexId} :
    u ∈ candidates c ↔ ∃ k, candidateAt? c u = some k := by
  simp only [candidates, candidateAt?, List.mem_map, List.mem_filter, Option.isSome_iff_exists,
    Option.bind_eq_some_iff]
  constructor
  · rintro ⟨⟨x, g⟩, ⟨hmem, k, hk⟩, rfl⟩
    exact ⟨k, g, gate?_of_mem hc.ids_nodup hmem, hk⟩
  · rintro ⟨k, g, hg, hk⟩
    exact ⟨(u, g), ⟨mem_of_lookup hg, k, hk⟩, rfl⟩

/-- A live vertex is a candidate of the kind it was at the beginning. -/
theorem Follows.candidateAt?_eq {p : Progress} (h : Follows c p) {u x : VertexId}
    (hu : p.now u = some x) (hx : x ∈ p.circuit.ids) :
    candidateAt? p.circuit x = candidateAt? c u := by
  obtain ⟨g, hg⟩ := mem_ids.1 hx
  obtain ⟨g₀, hg₀, hturned⟩ := h.turned u x g hu hg
  rw [candidateAt?, candidateAt?, hg, hg₀]
  exact hturned.ofGate?_eq

/-- A candidate that is none any more under its present name was removed by a merge: were it still
there, it would be one. -/
theorem Follows.exists_removes {p : Progress} (h : Follows c p) (hc : c.Linked) {u : VertexId}
    (hu : u ∈ candidates c) (hnone : ∀ v, p.now u = some v → candidateAt? p.circuit v = none) :
    ∃ s ∈ p.history, s.Removes u := by
  obtain ⟨k, hk⟩ := (mem_candidates hc).1 hu
  refine h.gone u ((candidates_sublist c).subset hu) fun x hx hlive => ?_
  have hsame := h.candidateAt?_eq hx hlive
  rw [hnone x hx, hk] at hsame
  cases hsame

/-- Candidates are dropped when a merge has removed them. -/
def Searched (c : Circuit) (p : Progress) : Prop :=
  Queued (Visit.IsFor c) (fun history u => ∃ s ∈ history, s.Removes u) c p

theorem Searched.step {p q : Progress} (h : Searched c p) (hn : Named p) (hf : Follows c p)
    (hc : c.Linked) (hpq : Advances p q) : Searched c q := by
  refine Queued.step h hpq (fun u v k hu hv => ⟨hn.now_eq_some_iff hu, ?_⟩)
    (fun u hu hnone => hf.exists_removes hc hu hnone) fun u s hremoved => ?_
  · obtain ⟨g, hg, -⟩ := Option.bind_eq_some_iff.1 hv
    exact (hf.candidateAt?_eq hu (mem_ids_of_gate? hg)).symm.trans hv
  · obtain ⟨s', hs', hremoves⟩ := hremoved
    exact ⟨s', List.mem_append_left _ hs', hremoves⟩

/-- Every merge so far took one gate for a rotation and two for a controlled not, and nothing else
took any. -/
def Counted (c : Circuit) (p : Progress) : Prop :=
  p.circuit.size + mergesOf .rotation p.history + 2 * mergesOf .cnot p.history = c.size

theorem Counted.step {p q : Progress} (h : Counted c p) (hf : Follows c p) (hpq : Advances p q) :
    Counted c q := by
  have hq := (hf.step hpq).proper.linked
  cases hpq with
  | skip hv => exact h
  | @visit e v rest now history k o hv ho =>
      have haccounts := (search_meets hf.proper hv).ok o ho
      have hlast : Visit.merged ⟨e, now, v, k⟩ = o.isMerged := by rw [Visit.merged, Visit.run, ho]
      have hcount : e.size + mergesOf .rotation history + 2 * mergesOf .cnot history = c.size := h
      rw [Counted, mergesOf_concat, mergesOf_concat, hlast]
      cases o with
      | merged =>
          have hsize : (search k e v).circuit.size + k.removed = e.size := haccounts
          cases k with
          | rotation =>
              simp only [Candidate.removed] at hsize
              simp
              omega
          | cnot =>
              simp only [Candidate.removed] at hsize
              simp
              omega
      | unchanged =>
          have hsame : (search k e v).circuit = e := haccounts
          simpa [hsame] using hcount
      | rolledBack names =>
          have hsize : (search k e v).circuit.size = e.size := by
            rw [← hq.length_gatesInOrder, haccounts.gatesInOrder_eq,
              hf.proper.linked.length_gatesInOrder]
          simpa [hsize] using hcount

/-- A sweep goes along its steps to a point where nothing waits, or fails in a search. -/
theorem sweep_reaches (c : Circuit) :
    ∃ p, Reaches c p ∧
      ((p.pending = [] ∧ (sweep c).result = .ok (c.size - (sweep c).circuit.size) ∧
          p.circuit = (sweep c).circuit) ∨
        ∃ v rest k e, p.pending = v :: rest ∧ candidateAt? p.circuit v = some k ∧
          (search k p.circuit v).result = .error e ∧ (sweep c).result = .error e) := by
  obtain ⟨p, hp, hend⟩ := sweepFrom_reaches c (candidates c) some []
  refine ⟨p, hp, hend.imp ?_ ?_⟩
  · rintro ⟨hpending, hr, hcircuit⟩
    rw [sweep, Run.andThen, hr]
    exact ⟨hpending, rfl, hcircuit⟩
  · rintro ⟨v, rest, k, e, hpending, hv, he, hr⟩
    refine ⟨v, rest, k, e, hpending, hv, he, ?_⟩
    rw [sweep, Run.andThen, hr]

end Cancel

end Peephole
