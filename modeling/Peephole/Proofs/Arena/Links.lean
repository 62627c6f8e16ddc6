import Peephole.Proofs.Arena.Represents

/-!
# Links one after another

The edits of an arena go through wires and vertices one after another, and would stop half way where
a lookup fails. This file says what each of them does where none does: in terms of all links at
once, since what is done on one wire leaves the links on the others alone.

* `Arena.relinked`, `Arena.refreshedAt`: every link changed, by its vertex and its wire, and the
  neighbours of some vertices computed again. `Fresh.refreshedAt`: when neighbours are right again.
* `Link.spliced`, `Link.exchanged`: what becomes of a link when two vertices are made neighbours,
  or two neighbours exchanged. `Strand.link?_filter_ne`, `Strand.link?_exchange`: it is the link
  that the changed strand gives.
* `on_splice`, `on_exchange`, `on_forM_relinked`, `on_forM_refresh`: the actions.
-/

namespace Peephole

/-! ## One link -/

namespace Link

/-- The link of the vertex `u` when the two given ones become neighbours. -/
def spliced (u : VertexId) (before after : Option VertexId) (l : Link) : Link :=
  ⟨if after = some u then before else l.prev, if before = some u then after else l.next⟩

/-- The link of the vertex `u` when `b`, which followed `a`, is put before it. -/
def exchanged (a b : VertexId) (before after : Option VertexId) (u : VertexId) (l : Link) : Link :=
  ((l.spliced u before (some b)).spliced u (some b) (some a)).spliced u (some a) after

theorem spliced_of_notMem {u : VertexId} {before after : Option VertexId}
    (h : u ∉ before.toList ++ after.toList) (l : Link) : l.spliced u before after = l := by
  simp only [List.mem_append, Option.mem_toList, not_or] at h
  rw [spliced, if_neg h.2, if_neg h.1]

theorem exchanged_of_notMem {a b u : VertexId} {before after : Option VertexId} (ha : u ≠ a)
    (hb : u ≠ b) (h : u ∉ before.toList ++ after.toList) (l : Link) :
    l.exchanged a b before after u = l := by
  simp only [List.mem_append, Option.mem_toList, not_or] at h
  rw [exchanged, spliced_of_notMem, spliced_of_notMem, spliced_of_notMem]
  · simp [hb, h.1]
  · simp [ha, hb]
  · simp [ha, h.2]

end Link

namespace Strand

variable {a b u v : VertexId} {s : List VertexId}

/-- Without a vertex, the links to it lead past it. -/
theorem link?_filter_ne (hs : s.Nodup) (hu : u ≠ v) :
    link? u (s.filter (· ≠ v)) = (link? u s).map (Link.spliced u (prev? v s) (next? v s)) := by
  by_cases hmem : u ∈ s
  · have hfilter : u ∈ s.filter (· ≠ v) := List.mem_filter.2 ⟨hmem, decide_eq_true hu⟩
    rw [link?_of_mem hfilter, link?_of_mem hmem, Option.map_some, next?_filter_ne hs hu,
      prev?_filter_ne hs hu, Link.spliced]
    simp only [next?_eq_some_iff_prev? hs]
  · have hfilter : u ∉ s.filter (· ≠ v) := fun h => hmem (List.mem_of_mem_filter h)
    rw [link?_of_notMem hfilter, link?_of_notMem hmem, Option.map_none]

/-- An exchange changes the links of the two vertices and of those around them. -/
theorem link?_exchange (hs : s.Nodup) (hab : next? a s = some b) :
    link? u (exchange a b s)
      = (link? u s).map (Link.exchanged a b (prev? a s) (next? b s) u) := by
  have hne : a ≠ b := ne_of_next? hs hab
  have hbb : next? b s ≠ some b := fun h => ne_of_next? hs h rfl
  have haa : prev? a s ≠ some a := fun h => ne_of_next? hs ((next?_eq_some_iff_prev? hs).2 h) rfl
  -- two neighbours are neighbours in one direction only
  have hba : next? b s ≠ some a := fun h =>
    not_sublist_swap hs (pair_sublist_of_next? hs hab) (pair_sublist_of_next? hs h)
  have hab' : prev? a s ≠ some b := fun h => hba ((next?_eq_some_iff_prev? hs).2 h)
  by_cases hmem : u ∈ s
  · rw [link?_of_mem (mem_exchange.2 hmem), link?_of_mem hmem, Option.map_some,
      next?_exchange hs hab, prev?_exchange hs hab]
    simp only [Link.exchanged, Link.spliced, Option.some.injEq, Link.mk.injEq]
    by_cases hua : u = a
    · subst hua
      simp [hne, hba]
    · by_cases hub : u = b
      · subst hub
        simp [hua, Ne.symm hua, hbb]
      · simp only [hua, hub, Ne.symm hua, Ne.symm hub, if_false, next?_eq_some_iff_prev? hs]
        trivial
  · have hmem' : u ∉ exchange a b s := fun h => hmem (mem_exchange.1 h)
    rw [link?_of_notMem hmem', link?_of_notMem hmem, Option.map_none]

end Strand

namespace Arena

variable {a b : Arena} {α β : Type}

/-! ## Actions -/

theorem on_get (a : Arena) : (get : Action Arena).on a = (.ok a, a) := rfl

theorem on_modify (f : Arena → Arena) (a : Arena) :
    (modify f : Action Unit).on a = (.ok (), f a) := rfl

theorem on_bind_of_ok {x : Action α} {f : α → Action β} {r : α} (h : x.on a = (.ok r, b)) :
    (x >>= f).on a = (f r).on b := by
  unfold Action.on at h ⊢
  rw [ExceptT.run_bind, StateT.run_bind]
  show (match (ExceptT.run x).run a with | p => _) = _
  rw [h]
  rfl

theorem on_bind_of_error {x : Action α} {f : α → Action β} {e : Circuit.Error}
    (h : x.on a = (.error e, b)) : (x >>= f).on a = (.error e, b) := by
  unfold Action.on at h ⊢
  rw [ExceptT.run_bind, StateT.run_bind]
  show (match (ExceptT.run x).run a with | p => _) = _
  rw [h]
  rfl

theorem on_forM_cons_of_ok {ι : Type} {act : ι → Action Unit} {i : ι} (is : List ι)
    (h : (act i).on a = (.ok (), b)) : ((i :: is).forM act).on a = (is.forM act).on b :=
  on_bind_of_ok h

theorem on_entry_of_some {v : VertexId} {x : Vertex} (hx : a.vertex? v = some x) :
    (entry v).on a = (.ok x, a) := by
  rw [entry, on_bind_of_ok (on_get a), hx]
  rfl

theorem on_entry_of_none {v : VertexId} (hx : a.vertex? v = none) :
    (entry v).on a = (.error (.noVertex v), a) := by
  rw [entry, on_bind_of_ok (on_get a), hx]
  rfl

/-! ## Many vertices at once -/

/-- The arena with every vertex changed, by its name. -/
def mapped (a : Arena) (f : VertexId → Vertex → Vertex) : Arena :=
  { a with vertices := a.vertices.mapped f }

/-- The arena with every link changed, by its vertex and its wire. -/
def relinked (a : Arena) (φ : VertexId → Wire → Link → Link) : Arena :=
  a.mapped fun u x => { x with links := x.links.mapped (φ u) }

/-- The arena with the neighbours of some vertices computed again. -/
def refreshedAt (a : Arena) (vs : List VertexId) : Arena :=
  a.mapped fun u x => if u ∈ vs then x.refreshed else x

section Mapped

variable {φ ψ : VertexId → Wire → Link → Link} {vs : List VertexId} {u v : VertexId} {w : Wire}

theorem vertex?_mapped (f : VertexId → Vertex → Vertex) :
    (a.mapped f).vertex? u = (a.vertex? u).map (f u) :=
  Dict.get?_mapped a.vertices f u

theorem update_eq_mapped (f : Vertex → Vertex) :
    a.update v f = a.mapped fun u x => if u = v then f x else x := by
  simp only [update, mapped, Dict.modify_eq_mapped, beq_iff_eq]

@[simp]
theorem link?_relinked : (a.relinked φ).link? u w = (a.link? u w).map (φ u w) := by
  rw [link?, relinked, vertex?_mapped, link?]
  cases a.vertex? u with
  | none => rfl
  | some x => exact Dict.get?_mapped x.links (φ u) w

@[simp]
theorem gate?_relinked : (a.relinked φ).gate? u = a.gate? u := by
  rw [gate?, relinked, vertex?_mapped, Option.map_map, gate?]
  rfl

@[simp]
theorem link?_refreshedAt : (a.refreshedAt vs).link? u w = a.link? u w := by
  rw [link?, refreshedAt, vertex?_mapped, link?]
  cases a.vertex? u with
  | none => rfl
  | some x =>
      simp only [Option.map_some, Option.bind_some]
      split <;> rfl

@[simp]
theorem gate?_refreshedAt : (a.refreshedAt vs).gate? u = a.gate? u := by
  rw [gate?, refreshedAt, vertex?_mapped, Option.map_map, gate?]
  refine congrArg (Option.map · (a.vertex? u)) (funext fun x => ?_)
  simp only [Function.comp_apply]
  split <;> rfl

theorem relinked_congr (h : ∀ u w l, φ u w l = ψ u w l) : a.relinked φ = a.relinked ψ := by
  rw [show φ = ψ from funext fun u => funext fun w => funext (h u w)]

theorem relinked_relinked :
    (a.relinked φ).relinked ψ = a.relinked fun u w l => ψ u w (φ u w l) := by
  simp only [relinked, mapped, Dict.mapped_mapped]

theorem relinked_eq_self (h : ∀ u w l, φ u w l = l) : a.relinked φ = a := by
  have hid : ∀ u (x : Vertex), { x with links := x.links.mapped (φ u) } = x := fun u x => by
    rw [Dict.mapped_eq_self (h u)]
  simp only [relinked, mapped, Dict.mapped_eq_self hid]

theorem refreshedAt_nil : a.refreshedAt [] = a := by
  have hid : ∀ u (x : Vertex), (if u ∈ ([] : List VertexId) then x.refreshed else x) = x :=
    fun u x => if_neg (List.not_mem_nil)
  simp only [refreshedAt, mapped, Dict.mapped_eq_self hid]

theorem refreshedAt_cons :
    a.refreshedAt (v :: vs) = (a.update v Vertex.refreshed).refreshedAt vs := by
  rw [update_eq_mapped, refreshedAt, refreshedAt]
  simp only [mapped, Dict.mapped_mapped, List.mem_cons]
  congr 2
  funext u x
  by_cases hu : u = v
  · simp [hu, Vertex.refreshed, Vertex.linkedPredecessors, Vertex.linkedSuccessors]
  · simp [hu]

/-- Neighbours are right again when they have been computed again wherever links were changed. -/
theorem Fresh.refreshedAt (h : a.Fresh) (hφ : ∀ u, u ∉ vs → ∀ w l, φ u w l = l) :
    ((a.relinked φ).refreshedAt vs).Fresh := by
  intro u y hy
  rw [Arena.refreshedAt, vertex?_mapped, relinked, vertex?_mapped, Option.map_map,
    Option.map_eq_some_iff] at hy
  obtain ⟨x, hx, rfl⟩ := hy
  simp only [Function.comp_apply]
  by_cases hu : u ∈ vs
  · rw [if_pos hu]
    exact Vertex.fresh_refreshed _
  · rw [if_neg hu, Dict.mapped_eq_self (hφ u hu)]
    exact h u x hx

end Mapped

/-! ## One wire -/

section Wire

variable {w : Wire} {v : VertexId}

theorem on_relink {f : Link → Link} (h : (a.link? v w).isSome) :
    (relink v w f).on a
      = (.ok (), a.relinked fun u z l => if u = v ∧ z = w then f l else l) := by
  obtain ⟨l, hl⟩ := Option.isSome_iff_exists.1 h
  obtain ⟨x, hx, hlink⟩ := Option.bind_eq_some_iff.1 hl
  rw [relink, on_bind_of_ok (on_entry_of_some hx), hlink, on_modify, update_eq_mapped, relinked]
  refine congrArg (Prod.mk _) (congrArg a.mapped (funext fun u => funext fun y => ?_))
  by_cases hu : u = v
  · simp [hu, Dict.modify_eq_mapped]
  · simp [hu, Dict.mapped_eq_self]

theorem on_relinkEnd {f : Link → Link} {o : Option VertexId}
    (h : ∀ v ∈ o.toList, (a.link? v w).isSome) :
    (relinkEnd o w f).on a
      = (.ok (), a.relinked fun u z l => if o = some u ∧ z = w then f l else l) := by
  cases o with
  | none =>
      refine congrArg (Prod.mk _) (relinked_eq_self fun u z l => ?_).symm
      simp
  | some v =>
      rw [relinkEnd, on_relink (h v (by simp))]
      simp only [Option.some.injEq, eq_comm]

/-- Two vertices on a wire, or one of them, are made neighbours. -/
theorem on_splice {before after : Option VertexId}
    (h : ∀ v ∈ before.toList ++ after.toList, (a.link? v w).isSome) :
    (splice w before after).on a
      = (.ok (), a.relinked fun u z l => if z = w then l.spliced u before after else l) := by
  rw [List.forall_mem_append] at h
  rw [splice, on_bind_of_ok (on_relinkEnd h.1), on_relinkEnd (by simpa using h.2),
    relinked_relinked]
  refine congrArg (Prod.mk _) (relinked_congr fun u z l => ?_)
  by_cases hz : z = w
  · by_cases hb : before = some u <;> by_cases ha : after = some u <;>
      simp [hz, hb, ha, Link.spliced]
  · simp [hz]

/-- Two vertices that follow each other on a wire are exchanged there. -/
theorem on_exchange {u v : VertexId} {s : Site}
    (h : ∀ x ∈ u :: v :: s.ends, (a.link? x s.wire).isSome) :
    (exchange u v s).on a = (.ok (), a.relinked fun x z l =>
      if z = s.wire then l.exchanged u v s.before s.after x else l) := by
  rw [List.forall_mem_cons, List.forall_mem_cons, Site.ends, List.forall_mem_append] at h
  obtain ⟨hu, hv, hbefore, hafter⟩ := h
  have hbefore : ∀ x ∈ s.before.toList ++ (some v).toList, (a.link? x s.wire).isSome :=
    List.forall_mem_append.2 ⟨hbefore, by simpa using hv⟩
  have hafter : ∀ x ∈ (some u).toList ++ s.after.toList, (a.link? x s.wire).isSome :=
    List.forall_mem_append.2 ⟨by simpa using hu, hafter⟩
  rw [exchange, on_bind_of_ok (on_splice hbefore), on_bind_of_ok (on_splice (by simp [hu, hv])),
    on_splice (by simpa using hafter), relinked_relinked, relinked_relinked]
  refine congrArg (Prod.mk _) (relinked_congr fun x z l => ?_)
  by_cases hz : z = s.wire
  · simp [hz, Link.exchanged]
  · simp [hz]

/-- What changes the links of one wire only is done for one wire after another. -/
theorem on_forM_relinked {ι : Type} {act : ι → Action Unit} {wire : ι → Wire}
    {ends : ι → List VertexId} {φ : ι → VertexId → Link → Link}
    (hact : ∀ i a, (∀ v ∈ ends i, (a.link? v (wire i)).isSome) →
      (act i).on a = (.ok (), a.relinked fun u z l => if z = wire i then φ i u l else l))
    {is : List ι} (hwires : (is.map wire).Nodup)
    (hends : ∀ i ∈ is, ∀ v ∈ ends i, (a.link? v (wire i)).isSome) :
    ∃ ψ, (is.forM act).on a = (.ok (), a.relinked ψ) ∧
      (∀ i ∈ is, ∀ u l, ψ u (wire i) l = φ i u l) ∧ ∀ z ∉ is.map wire, ∀ u l, ψ u z l = l := by
  induction is generalizing a with
  | nil =>
      refine ⟨fun _ _ l => l, ?_, by simp, fun _ _ _ _ => rfl⟩
      rw [relinked_eq_self fun _ _ _ => rfl]
      rfl
  | cons i rest ih =>
      rw [List.map_cons, List.nodup_cons] at hwires
      rw [List.forall_mem_cons] at hends
      obtain ⟨ψ, hrest, hon, hoff⟩ := ih (a := a.relinked fun u z l =>
        if z = wire i then φ i u l else l) hwires.2 (by simpa using hends.2)
      refine ⟨fun u z l => ψ u z (if z = wire i then φ i u l else l), ?_, ?_, fun z hz u l => ?_⟩
      · rw [on_forM_cons_of_ok rest (hact i a hends.1), hrest, relinked_relinked]
      · refine List.forall_mem_cons.2 ⟨fun u l => ?_, fun j hj u l => ?_⟩
        · simp only [if_true]
          exact hoff _ hwires.1 u _
        · have hne : wire j ≠ wire i := fun he => hwires.1 (he ▸ List.mem_map_of_mem hj)
          simp only [if_neg hne]
          exact hon j hj u l
      · rw [List.map_cons, List.mem_cons, not_or] at hz
        simp only [if_neg hz.1]
        exact hoff z hz.2 u l

theorem on_forM_refresh {vs : List VertexId} (h : ∀ v ∈ vs, (a.vertex? v).isSome) :
    (vs.forM refresh).on a = (.ok (), a.refreshedAt vs) := by
  induction vs generalizing a with
  | nil =>
      rw [refreshedAt_nil]
      rfl
  | cons v rest ih =>
      rw [List.forall_mem_cons] at h
      obtain ⟨x, hx⟩ := Option.isSome_iff_exists.1 h.1
      have hone : (refresh v).on a = (.ok (), a.update v Vertex.refreshed) := by
        rw [refresh, on_bind_of_ok (on_entry_of_some hx), on_modify]
      rw [on_forM_cons_of_ok rest hone, ih, refreshedAt_cons]
      simpa [update_eq_mapped, vertex?_mapped] using h.2

end Wire

end Arena

end Peephole
