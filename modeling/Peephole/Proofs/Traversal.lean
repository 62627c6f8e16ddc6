import Mathlib.Data.List.Induction
import Mathlib.Data.List.Nodup
import Mathlib.Logic.Relation
import Peephole.Circuit.Traversal

/-!
# What a depth-first traversal finds

A traversal keeps a stack of entries and exits. The vertices with an exit on the stack are under
way: they form a path, the innermost first, and whatever lies above an exit on the stack is below
that vertex in the graph. So when a vertex is left, everything below it was left before or is
under way, and in the second case the graph has a cycle.

* `Invariant` is what holds of the stack, the vertices seen and the vertices done at every step;
  `Invariant.leave`, `Invariant.enter` and `Invariant.skip` are the three steps.
* `nodup_lastLeftFirst`, `mem_lastLeftFirst_of_mem`: the traversal lists vertices once, all roots
  among them.
* `lastLeftFirst_eq_append`: a vertex comes before what is below it, unless there is a way back.
* `lastLeftFirst_reverse`: where edges go up, the names come out in ascending order.
* `Frontier` is what holds of the stack and the visited vertices in a search for one vertex;
  `Frontier.visit` and `Frontier.pass` are its steps.
* `meets_eq_true_iff`: a search meets what can be reached from the vertices it starts with.
-/

namespace Peephole.Traversal

open Relation (TransGen ReflTransGen)

/-- The vertices that were entered and not left yet, the innermost first. -/
def underway : List Step → List VertexId
  | [] => []
  | .enter _ :: rest => underway rest
  | .leave v :: rest => v :: underway rest

theorem mem_underway {v : VertexId} {todo : List Step} : v ∈ underway todo ↔ .leave v ∈ todo := by
  induction todo with
  | nil => simp [underway]
  | cons step rest ih => cases step with
    | enter w => simp [underway, ih]
    | leave w => simp [underway, ih]

theorem underway_enters (vs : List VertexId) (todo : List Step) :
    underway (vs.map .enter ++ todo) = underway todo := by
  induction vs with
  | nil => rfl
  | cons v rest ih => simpa [underway] using ih

/-- An exit behind entries is an exit of what follows them. -/
theorem split_enters {vs : List VertexId} {todo A B : List Step} {u : VertexId}
    (h : vs.map Step.enter ++ todo = A ++ .leave u :: B) :
    ∃ A', A = vs.map .enter ++ A' ∧ todo = A' ++ .leave u :: B := by
  induction vs generalizing A with
  | nil => exact ⟨A, rfl, h⟩
  | cons v rest ih =>
      cases A with
      | nil => simp at h
      | cons x A =>
          simp only [List.map_cons, List.cons_append, List.cons.injEq] at h
          obtain ⟨A', rfl, hA'⟩ := ih h.2
          exact ⟨A', by simp [h.1], hA'⟩

variable {below : VertexId → List VertexId} {live roots : List VertexId}

/-- One vertex lies right below another. -/
def Under (below : VertexId → List VertexId) (v w : VertexId) : Prop := w ∈ below v

/-- What holds throughout a traversal from some roots. -/
structure Invariant (below : VertexId → List VertexId) (live roots : List VertexId)
    (todo : List Step) (seen done : List VertexId) : Prop where
  nodup : (underway todo ++ done).Nodup
  mem_seen : ∀ v, v ∈ seen ↔ v ∈ underway todo ∨ v ∈ done
  seen_live : ∀ v ∈ seen, v ∈ live
  roots_met : ∀ r ∈ roots, r ∈ live → r ∈ seen ∨ .enter r ∈ todo
  /-- What is below a vertex under way was seen or is about to be entered before the exit. -/
  met_above : ∀ A v B, todo = A ++ .leave v :: B →
    ∀ w ∈ below v, w ∈ live → w ∈ seen ∨ .enter w ∈ A
  /-- Whatever stands above an exit on the stack can be reached from its vertex. -/
  path_above : ∀ A v B, todo = A ++ .leave v :: B →
    ∀ w, .enter w ∈ A ∨ .leave w ∈ A → TransGen (Under below) v w
  /-- A vertex that is done comes before what is below it, unless there is a way back. -/
  ordered : ∀ A v B, done = A ++ v :: B →
    ∀ w ∈ below v, w ∈ live → w ∈ B ∨ w ∈ seen ∧ ReflTransGen (Under below) w v

namespace Invariant

variable {rest : List Step} {seen done : List VertexId} {v : VertexId}

theorem start (below : VertexId → List VertexId) (live roots : List VertexId) :
    Invariant below live roots (roots.map .enter) [] [] := by
  have hnone : ∀ A v B, roots.map Step.enter = A ++ .leave v :: B → False := by
    intro A v B h
    have : Step.leave v ∈ roots.map Step.enter := by rw [h]; simp
    simp at this
  have hunder : underway (roots.map Step.enter) = [] := by
    simpa [underway] using underway_enters roots []
  exact {
    nodup := by simp [hunder]
    mem_seen := by simp [hunder]
    seen_live := by simp
    roots_met := fun r hr _ => Or.inr (List.mem_map_of_mem hr)
    met_above := fun A v B h => (hnone A v B h).elim
    path_above := fun A v B h => (hnone A v B h).elim
    ordered := by simp }

/-- Leaving a vertex. What is below it was left before, or is under way and so has a way to it. -/
theorem leave (h : Invariant below live roots (.leave v :: rest) seen done) :
    Invariant below live roots rest seen (v :: done) where
  nodup := by
    have := h.nodup
    simp only [underway, List.cons_append] at this
    exact (List.perm_middle.nodup_iff).2 this
  mem_seen := by
    intro x
    rw [h.mem_seen x]
    simp only [underway, List.mem_cons]
    tauto
  seen_live := h.seen_live
  roots_met := by
    intro r hr hl
    rcases h.roots_met r hr hl with hs | hm
    · exact Or.inl hs
    · exact Or.inr (by simpa using hm)
  met_above := by
    intro A u B he w hw hl
    rcases h.met_above (.leave v :: A) u B (by simp [he]) w hw hl with hs | hm
    · exact Or.inl hs
    · exact Or.inr (by simpa using hm)
  path_above := by
    intro A u B he w hw
    refine h.path_above (.leave v :: A) u B (by simp [he]) w ?_
    rcases hw with hw | hw
    · exact Or.inl (List.mem_cons_of_mem _ hw)
    · exact Or.inr (List.mem_cons_of_mem _ hw)
  ordered := by
    intro A u B he w hw hl
    cases A with
    | cons x A =>
        rw [List.cons_append, List.cons.injEq] at he
        exact h.ordered A u B he.2 w hw hl
    | nil =>
        rw [List.nil_append, List.cons.injEq] at he
        obtain ⟨rfl, rfl⟩ := he
        have hs : w ∈ seen := by
          rcases h.met_above [] v rest rfl w hw hl with hs | hm
          · exact hs
          · simp at hm
        rcases (h.mem_seen w).1 hs with hu | hd
        · right
          refine ⟨hs, ?_⟩
          rcases List.mem_cons.1 hu with rfl | hu
          · exact .refl
          · obtain ⟨A, B, hAB⟩ := List.append_of_mem (mem_underway.1 hu)
            exact (h.path_above (.leave v :: A) w B (by simp [hAB]) v (by simp)).to_reflTransGen
        · exact Or.inl hd

/-- Entering a vertex for the first time. -/
theorem enter (h : Invariant below live roots (.enter v :: rest) seen done) (hlive : v ∈ live)
    (hnew : v ∉ seen) :
    Invariant below live roots ((below v).map .enter ++ .leave v :: rest) (v :: seen) done where
  nodup := by
    rw [underway_enters]
    refine List.nodup_cons.2 ⟨?_, h.nodup⟩
    intro hm
    exact hnew ((h.mem_seen v).2 (List.mem_append.1 hm))
  mem_seen := by
    intro x
    rw [underway_enters, List.mem_cons, h.mem_seen x]
    simp only [underway, List.mem_cons]
    tauto
  seen_live := by
    intro x hx
    rcases List.mem_cons.1 hx with rfl | hx
    · exact hlive
    · exact h.seen_live x hx
  roots_met := by
    intro r hr hl
    rcases h.roots_met r hr hl with hs | hm
    · exact Or.inl (List.mem_cons_of_mem v hs)
    · rcases List.mem_cons.1 hm with he | hm
      · cases he
        exact Or.inl List.mem_cons_self
      · exact Or.inr (by simp [hm])
  met_above := by
    intro A u B he w hw hl
    obtain ⟨A', rfl, hA'⟩ := split_enters he
    cases A' with
    | nil =>
        simp only [List.nil_append, List.cons.injEq, Step.leave.injEq] at hA'
        rw [← hA'.1] at hw
        exact Or.inr (by simpa using hw)
    | cons x A' =>
        rw [List.cons_append, List.cons.injEq] at hA'
        rcases h.met_above (.enter v :: A') u B (by simp [hA'.2]) w hw hl with hs | hm
        · exact Or.inl (List.mem_cons_of_mem v hs)
        · rcases List.mem_cons.1 hm with hm | hm
          · cases hm
            exact Or.inl List.mem_cons_self
          · exact Or.inr (by simp [hm])
  path_above := by
    intro A u B he w hw
    obtain ⟨A', rfl, hA'⟩ := split_enters he
    cases A' with
    | nil =>
        simp only [List.nil_append, List.cons.injEq, Step.leave.injEq] at hA'
        rw [← hA'.1]
        have hwv : w ∈ below v := by simpa using hw
        exact .single hwv
    | cons x A' =>
        rw [List.cons_append, List.cons.injEq] at hA'
        have hold := h.path_above (.enter v :: A') u B (by simp [hA'.2])
        have hv : TransGen (Under below) u v := hold v (by simp)
        rw [← hA'.1] at hw
        simp only [List.mem_append, List.mem_map, List.mem_cons, Step.enter.injEq,
          exists_eq_right, reduceCtorEq, and_false, exists_false, false_or,
          Step.leave.injEq] at hw
        rcases hw with (hw | hw) | (rfl | hw)
        · exact hv.tail hw
        · exact hold w (Or.inl (List.mem_cons_of_mem _ hw))
        · exact hv
        · exact hold w (Or.inr (List.mem_cons_of_mem _ hw))
  ordered := by
    intro A u B he w hw hl
    rcases h.ordered A u B he w hw hl with hB | ⟨hs, hp⟩
    · exact Or.inl hB
    · exact Or.inr ⟨List.mem_cons_of_mem v hs, hp⟩

/-- Passing over a vertex that was seen before, or that is none. -/
theorem skip (h : Invariant below live roots (.enter v :: rest) seen done)
    (hv : ¬ (v ∈ live ∧ v ∉ seen)) : Invariant below live roots rest seen done where
  nodup := h.nodup
  mem_seen := h.mem_seen
  seen_live := h.seen_live
  roots_met := by
    intro r hr hl
    rcases h.roots_met r hr hl with hs | hm
    · exact Or.inl hs
    · rcases List.mem_cons.1 hm with he | hm
      · cases he
        exact Or.inl (by tauto)
      · exact Or.inr hm
  met_above := by
    intro A u B he w hw hl
    rcases h.met_above (.enter v :: A) u B (by simp [he]) w hw hl with hs | hm
    · exact Or.inl hs
    · rcases List.mem_cons.1 hm with hm | hm
      · cases hm
        exact Or.inl (by tauto)
      · exact Or.inr hm
  path_above := by
    intro A u B he w hw
    refine h.path_above (.enter v :: A) u B (by simp [he]) w ?_
    rcases hw with hw | hw
    · exact Or.inl (List.mem_cons_of_mem _ hw)
    · exact Or.inr (List.mem_cons_of_mem _ hw)
  ordered := h.ordered

/-- A traversal ends with nothing left to do and nothing seen that is not done. -/
theorem run {todo : List Step} (h : Invariant below live roots todo seen done) :
    ∃ seen', Invariant below live roots [] seen' (run below live todo seen done) := by
  fun_induction Traversal.run below live todo seen done with
  | case1 seen done => exact ⟨seen, h⟩
  | case2 seen done v rest ih => exact ih h.leave
  | case3 seen done v rest hv ih => exact ih (h.enter hv.1 hv.2)
  | case4 seen done v rest hv ih => exact ih (h.skip hv)

end Invariant

/-! ## The vertices listed -/

theorem exists_invariant_lastLeftFirst (below : VertexId → List VertexId)
    (live roots : List VertexId) :
    ∃ seen, Invariant below live roots [] seen (lastLeftFirst below live roots) ∧
      ∀ v ∈ seen, v ∈ lastLeftFirst below live roots := by
  obtain ⟨seen, h⟩ := (Invariant.start below live roots).run
  refine ⟨seen, h, fun v hv => ?_⟩
  exact ((h.mem_seen v).1 hv).resolve_left (by simp [underway])

theorem nodup_lastLeftFirst : (lastLeftFirst below live roots).Nodup := by
  obtain ⟨seen, h, -⟩ := exists_invariant_lastLeftFirst below live roots
  simpa [underway] using h.nodup

theorem live_of_mem_lastLeftFirst {v : VertexId} (hv : v ∈ lastLeftFirst below live roots) :
    v ∈ live := by
  obtain ⟨seen, h, -⟩ := exists_invariant_lastLeftFirst below live roots
  exact h.seen_live v ((h.mem_seen v).2 (Or.inr hv))

theorem mem_lastLeftFirst_of_mem {r : VertexId} (hr : r ∈ roots) (hl : r ∈ live) :
    r ∈ lastLeftFirst below live roots := by
  obtain ⟨seen, h, hseen⟩ := exists_invariant_lastLeftFirst below live roots
  exact hseen r (by simpa using h.roots_met r hr hl)

/-- A vertex comes before what is below it, unless there is a way back. -/
theorem lastLeftFirst_eq_append {A B : List VertexId} {v w : VertexId}
    (he : lastLeftFirst below live roots = A ++ v :: B) (hw : w ∈ below v) (hl : w ∈ live) :
    w ∈ B ∨ w ∈ lastLeftFirst below live roots ∧ ReflTransGen (Under below) w v := by
  obtain ⟨seen, h, hseen⟩ := exists_invariant_lastLeftFirst below live roots
  rcases h.ordered A v B he w hw hl with hB | ⟨hs, hp⟩
  · exact Or.inl hB
  · exact Or.inr ⟨hseen w hs, hp⟩

/-! ## Graphs whose edges go up -/

/-- Entries of vertices that were seen before change nothing. -/
theorem run_enters_of_seen {vs seen done : List VertexId} {todo : List Step}
    (h : ∀ x ∈ vs, x ∈ live → x ∈ seen) :
    run below live (vs.map .enter ++ todo) seen done = run below live todo seen done := by
  induction vs with
  | nil => rfl
  | cons x rest ih =>
      rw [List.forall_mem_cons] at h
      rw [List.map_cons, List.cons_append, run, dif_neg fun hx => hx.2 (h.1 hx.1)]
      exact ih h.2

/-- Where every edge leads to a higher name, a traversal from the highest name down lists the names
in ascending order. -/
theorem lastLeftFirst_reverse (hlive : live.Pairwise (· < ·))
    (hup : ∀ v ∈ live, ∀ x ∈ below v, v < x) : lastLeftFirst below live live.reverse = live := by
  -- the vertices left so far are the upper part of the list, in order
  have hupper : ∀ A B, live = A ++ B → run below live (A.reverse.map .enter) B B = live := by
    intro A
    induction A using List.reverseRecOn with
    | nil =>
        intro B hB
        rw [List.reverse_nil, List.map_nil, run]
        exact hB.symm
    | append_singleton A a ih =>
        intro B hB
        have hsplit : live = A ++ a :: B := by simpa using hB
        have ha : a ∈ live := by simp [hsplit]
        obtain ⟨-, hright, hleft⟩ := List.pairwise_append.1 (hsplit ▸ hlive)
        have haB : a ∉ B := fun hm => Nat.lt_irrefl a ((List.pairwise_cons.1 hright).1 a hm)
        have hseen : ∀ x ∈ below a, x ∈ live → x ∈ a :: B := by
          intro x hx hxl
          rw [hsplit] at hxl
          rcases List.mem_append.1 hxl with hxA | hxB
          · exact absurd (hleft x hxA a List.mem_cons_self) (Nat.lt_asymm (hup a ha x hx))
          · exact hxB
        rw [List.reverse_concat, List.map_cons, run, dif_pos ⟨ha, haB⟩, run_enters_of_seen hseen,
          run]
        exact ih (a :: B) hsplit
  exact hupper live [] (List.append_nil live).symm

/-! ## Looking for one vertex -/

section Search

variable {goal v w : VertexId} {stack rest visited : List VertexId}

theorem mem_pushed : w ∈ pushed below visited v ↔ w ∈ below v ∧ w ∉ visited := by
  simp [pushed]

/-- What a search meets can be reached from its stack. -/
theorem exists_of_meets (h : meets below live goal stack visited = true) :
    ∃ v ∈ stack, ReflTransGen (Under below) v goal := by
  fun_induction meets below live goal stack visited with
  | case1 visited => cases h
  | case2 visited rest => exact ⟨goal, List.mem_cons_self, .refl⟩
  | case3 visited v rest hne hv ih =>
      obtain ⟨x, hx, hpath⟩ := ih h
      rcases List.mem_append.1 hx with hx | hx
      · exact ⟨v, List.mem_cons_self, .head (mem_pushed.1 hx).1 hpath⟩
      · exact ⟨x, List.mem_cons_of_mem v hx, hpath⟩
  | case4 visited v rest hne hv ih =>
      obtain ⟨x, hx, hpath⟩ := ih h
      exact ⟨x, List.mem_cons_of_mem v hx, hpath⟩

/-- What holds throughout a search: `goal` was not visited, and the stack separates what was visited
from the rest. -/
structure Frontier (below : VertexId → List VertexId) (goal : VertexId)
    (stack visited : List VertexId) : Prop where
  unmet : goal ∉ visited
  closed : ∀ v ∈ visited, ∀ w ∈ below v, w ∈ visited ∨ w ∈ stack

namespace Frontier

theorem start (below : VertexId → List VertexId) (goal : VertexId) (stack : List VertexId) :
    Frontier below goal stack [] :=
  ⟨List.not_mem_nil, by simp⟩

/-- Visiting a vertex. -/
theorem visit (h : Frontier below goal (v :: rest) visited) (hne : v ≠ goal) :
    Frontier below goal (pushed below (v :: visited) v ++ rest) (v :: visited) where
  unmet := by
    rw [List.mem_cons, not_or]
    exact ⟨Ne.symm hne, h.unmet⟩
  closed := by
    intro x hx w hw
    rcases List.mem_cons.1 hx with rfl | hx
    · by_cases hwv : w ∈ x :: visited
      · exact Or.inl hwv
      · exact Or.inr (List.mem_append_left rest (mem_pushed.2 ⟨hw, hwv⟩))
    · rcases h.closed x hx w hw with hv | hs
      · exact Or.inl (List.mem_cons_of_mem v hv)
      · rcases List.mem_cons.1 hs with rfl | hs
        · exact Or.inl List.mem_cons_self
        · exact Or.inr (List.mem_append_right _ hs)

/-- Passing over a vertex that was visited before. -/
theorem pass (h : Frontier below goal (v :: rest) visited) (hv : v ∈ visited) :
    Frontier below goal rest visited where
  unmet := h.unmet
  closed := by
    intro x hx w hw
    rcases h.closed x hx w hw with hvisited | hs
    · exact Or.inl hvisited
    · rcases List.mem_cons.1 hs with rfl | hs
      · exact Or.inl hv
      · exact Or.inr hs

/-- With nothing left on the stack, all that can be reached from a visited vertex was visited. -/
theorem not_reflTransGen (h : Frontier below goal [] visited) (hv : v ∈ visited) :
    ¬ ReflTransGen (Under below) v goal := by
  intro hpath
  have hall : ∀ x, ReflTransGen (Under below) v x → x ∈ visited := by
    intro x hx
    induction hx with
    | refl => exact hv
    | tail _ hxy ih => exact (h.closed _ ih _ hxy).resolve_right List.not_mem_nil
  exact h.unmet (hall goal hpath)

/-- A search goes on until it meets what can be reached from a vertex it has visited or will look
at. -/
theorem meets (h : Frontier below goal stack visited)
    (hbelow : ∀ v ∈ live, ∀ w ∈ below v, w ∈ live) (hstack : ∀ v ∈ stack, v ∈ live)
    (hv : v ∈ visited ∨ v ∈ stack) (hpath : ReflTransGen (Under below) v goal) :
    meets below live goal stack visited = true := by
  fun_induction Traversal.meets below live goal stack visited with
  | case1 visited =>
      exact absurd hpath (h.not_reflTransGen (hv.resolve_right List.not_mem_nil))
  | case2 visited rest => rfl
  | case3 visited x rest hne hx ih =>
      refine ih (h.visit hne) (fun y hy => ?_) ?_
      · rcases List.mem_append.1 hy with hy | hy
        · exact hbelow x hx.1 y (mem_pushed.1 hy).1
        · exact hstack y (List.mem_cons_of_mem x hy)
      · simp only [List.mem_cons, List.mem_append] at hv ⊢
        tauto
  | case4 visited x rest hne hx ih =>
      rw [List.forall_mem_cons] at hstack
      have hold : x ∈ visited := by
        by_contra hnew
        exact hx ⟨hstack.1, hnew⟩
      refine ih (h.pass hold) hstack.2 ?_
      rcases hv with hv | hv
      · exact Or.inl hv
      · rcases List.mem_cons.1 hv with rfl | hv
        · exact Or.inl hold
        · exact Or.inr hv

end Frontier

/-- A search meets what can be reached from the vertices it starts with, and nothing else. -/
theorem meets_eq_true_iff (hbelow : ∀ v ∈ live, ∀ w ∈ below v, w ∈ live)
    (hstack : ∀ v ∈ stack, v ∈ live) :
    meets below live goal stack [] = true ↔ ∃ v ∈ stack, ReflTransGen (Under below) v goal := by
  refine ⟨exists_of_meets, ?_⟩
  rintro ⟨v, hv, hpath⟩
  exact (Frontier.start below goal stack).meets hbelow hstack (Or.inr hv) hpath

end Search

end Peephole.Traversal
