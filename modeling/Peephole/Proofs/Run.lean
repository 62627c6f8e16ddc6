import Mathlib.Data.List.Chain
import Peephole.Run

/-!
# What a run keeps

A run keeps a property when the circuit it leaves has it, whenever the run ends well. Under a
condition `safe` the run is also known to end well. Both are built up along the way a run is.

* `Run.Keeps`: a property of the circuit is kept.
* `Run.Meets`: what circuit and result are like if the run ends well, and what the failure is if it
  does not.
* `Run.Echoes`: two runs that differ in their events only, up to a change of the result.
* `Descent`: a loop, given by its steps, each of which lowers a number. It ends.
-/

namespace Peephole

/-! ## Loops that end -/

open Relation (ReflTransGen)

/-- Every step of a loop keeps an invariant, and lowers a number as long as the invariant holds. -/
structure Descent {σ : Type*} (step : σ → σ → Prop) (I : σ → Prop) (weight : σ → Nat) : Prop where
  keeps : ∀ {a b}, I a → step a b → I b
  lowers : ∀ {a b}, I a → step a b → weight b < weight a

namespace Descent

variable {σ : Type*} {step : σ → σ → Prop} {I : σ → Prop} {weight : σ → Nat}

theorem of_reflTransGen (h : Descent step I weight) {a b : σ} (ha : I a)
    (hab : ReflTransGen step a b) : I b := by
  induction hab with
  | refl => exact ha
  | tail _ hstep ih => exact h.keeps ih hstep

/-- No way through the loop has more steps than the number it starts with. -/
theorem length_le (h : Descent step I weight) {a : σ} (ha : I a) {l : List σ}
    (hl : (a :: l).IsChain step) : l.length ≤ weight a := by
  induction l generalizing a with
  | nil => exact Nat.zero_le _
  | cons b rest ih =>
      rw [List.isChain_cons_cons] at hl
      obtain ⟨hab, hrest⟩ := hl
      have hlen := ih (h.keeps ha hab) hrest
      have hlt := h.lowers ha hab
      rw [List.length_cons]
      omega

/-- From every point on, the loop comes to one where no step can be made. -/
theorem exists_last (h : Descent step I weight) {a : σ} (ha : I a) :
    ∃ b, ReflTransGen step a b ∧ ∀ x, ¬ step b x := by
  by_cases hstep : ∃ b, step a b
  · obtain ⟨b, hab⟩ := hstep
    have hlt := h.lowers ha hab
    obtain ⟨z, hbz, hlast⟩ := h.exists_last (h.keeps ha hab)
    exact ⟨z, .head hab hbz, hlast⟩
  · exact ⟨a, .refl, fun x hx => hstep ⟨x, hx⟩⟩
termination_by weight a

end Descent

namespace Run

variable {α β : Type} {P : Circuit → Prop} {safe : Prop}

/-! ## One run after another -/

theorem andThen_of_ok {r : Run α} {a : α} (h : r.result = .ok a) (next : Circuit → α → Run β) :
    r.andThen next = ⟨(next r.circuit a).circuit, r.events ++ (next r.circuit a).events,
      (next r.circuit a).result⟩ := by
  rw [andThen, h]

/-- A run in two parts ends well only if both parts do. -/
theorem exists_of_andThen_ok {r : Run α} {next : Circuit → α → Run β} {b : β}
    (h : (r.andThen next).result = .ok b) :
    ∃ a, r.result = .ok a ∧ (next r.circuit a).result = .ok b := by
  cases hr : r.result with
  | ok a =>
      rw [andThen_of_ok hr] at h
      exact ⟨a, rfl, h⟩
  | error e =>
      rw [andThen, hr] at h
      cases h

theorem exists_of_map_ok {r : Run α} {f : α → β} {b : β} (h : (r.map f).result = .ok b) :
    ∃ a, r.result = .ok a ∧ f a = b := by
  rw [map] at h
  cases hr : r.result with
  | ok a =>
      rw [hr] at h
      cases h
      exact ⟨a, rfl, rfl⟩
  | error e =>
      rw [hr] at h
      cases h

theorem andThen_assoc {γ : Type} (r : Run α) (f : Circuit → α → Run β) (g : Circuit → β → Run γ) :
    (r.andThen f).andThen g = r.andThen fun c a => (f c a).andThen g := by
  cases hr : r.result with
  | error e => simp only [andThen, hr]
  | ok a =>
      rw [andThen_of_ok hr, andThen_of_ok hr]
      cases hf : (f r.circuit a).result with
      | error e => simp only [andThen, hf]
      | ok b => simp only [andThen, hf, List.append_assoc]

theorem done_andThen (c : Circuit) (a : α) (f : Circuit → α → Run β) :
    (done c a).andThen f = f c a := rfl

/-- To change a result is to go on and do nothing. -/
theorem map_eq_andThen (r : Run α) (f : α → β) : r.map f = r.andThen fun c a => .done c (f a) := by
  cases hr : r.result with
  | error e => simp only [map, andThen, hr, Except.map]
  | ok a => simp only [map, andThen, hr, Except.map, done, List.append_nil]

theorem map_andThen {γ : Type} (r : Run α) (f : Circuit → α → Run β) (g : β → γ) :
    (r.andThen f).map g = r.andThen fun c a => (f c a).map g := by
  simp only [map_eq_andThen, andThen_assoc]

theorem andThen_map {γ : Type} (r : Run α) (f : α → β) (g : Circuit → β → Run γ) :
    (r.map f).andThen g = r.andThen fun c a => g c (f a) := by
  simp only [map_eq_andThen, andThen_assoc, done_andThen]

theorem map_id (r : Run α) : r.map id = r := by
  obtain ⟨circuit, events, result⟩ := r
  cases result <;> rfl

theorem map_map {γ : Type} (r : Run α) (f : α → β) (g : β → γ) :
    (r.map f).map g = r.map fun a => g (f a) := by
  simp only [map_eq_andThen, andThen_assoc, done_andThen]

/-- Only the circuit and the result of a run matter for what comes after it. -/
theorem andThen_congr {r : Run α} {f g : Circuit → α → Run β}
    (h : ∀ a, r.result = .ok a → f r.circuit a = g r.circuit a) : r.andThen f = r.andThen g := by
  rw [andThen, andThen]
  cases hr : r.result with
  | ok a => simp only [h a hr]
  | error e => rfl

/-! ## What is kept -/

/-- The run leaves a circuit with the property, if it ends well, which it does if it is safe. -/
structure Keeps (P : Circuit → Prop) (safe : Prop) (r : Run α) : Prop where
  circuit : ∀ a, r.result = .ok a → P r.circuit
  ends : safe → ∃ a, r.result = .ok a

namespace Keeps

theorem done {c : Circuit} {a : α} (h : P c) : (Run.done c a).Keeps P safe :=
  ⟨fun _ _ => h, fun _ => ⟨a, rfl⟩⟩

theorem failed {c : Circuit} {e : Failure} (h : ¬ safe) : (Run.failed c e : Run α).Keeps P safe :=
  ⟨nofun, fun hsafe => absurd hsafe h⟩

theorem after {r : Run α} (h : r.Keeps P safe) (e : Event) : (Run.after e r).Keeps P safe :=
  ⟨h.circuit, h.ends⟩

theorem mono {r : Run α} (h : r.Keeps P safe) {safe' : Prop} (hs : safe' → safe) :
    r.Keeps P safe' :=
  ⟨h.circuit, fun hsafe => h.ends (hs hsafe)⟩

theorem map {r : Run α} (h : r.Keeps P safe) (f : α → β) : (Run.map f r).Keeps P safe where
  circuit := by
    intro b hb
    obtain ⟨a, ha, -⟩ := exists_of_map_ok hb
    exact h.circuit a ha
  ends := by
    intro hsafe
    obtain ⟨a, ha⟩ := h.ends hsafe
    exact ⟨f a, by rw [Run.map, ha]; rfl⟩

theorem andThen {r : Run α} {next : Circuit → α → Run β} (h : r.Keeps P safe)
    (hnext : ∀ a, r.result = .ok a → (next r.circuit a).Keeps P safe) :
    (r.andThen next).Keeps P safe where
  circuit := by
    intro b hb
    obtain ⟨a, ha, hb'⟩ := exists_of_andThen_ok hb
    rw [andThen_of_ok ha]
    exact (hnext a ha).circuit b hb'
  ends := by
    intro hsafe
    obtain ⟨a, ha⟩ := h.ends hsafe
    rw [Run.andThen, ha]
    exact (hnext a ha).ends hsafe

end Keeps

/-- The run ends well with a circuit and a result that satisfy `post`, or it stops with a failure
that satisfies `fail`. -/
structure Meets (post : Circuit → α → Prop) (fail : Failure → Prop) (r : Run α) : Prop where
  ok : ∀ a, r.result = .ok a → post r.circuit a
  error : ∀ e, r.result = .error e → fail e

namespace Meets

variable {post : Circuit → α → Prop} {fail : Failure → Prop}

theorem done {c : Circuit} {a : α} (h : post c a) : (Run.done c a).Meets post fail where
  ok := by
    rintro b ⟨⟩
    exact h
  error := nofun

theorem failed {c : Circuit} {e : Failure} (h : fail e) :
    (Run.failed c e : Run α).Meets post fail where
  ok := nofun
  error := by
    rintro e' ⟨⟩
    exact h

theorem after {r : Run α} (h : r.Meets post fail) (e : Event) : (Run.after e r).Meets post fail :=
  ⟨h.ok, h.error⟩

theorem mono {r : Run α} {post' : Circuit → α → Prop} (h : r.Meets post fail)
    (hpost : ∀ c a, post c a → post' c a) : r.Meets post' fail :=
  ⟨fun a ha => hpost r.circuit a (h.ok a ha), h.error⟩

theorem map {r : Run α} {post' : Circuit → β → Prop} {f : α → β}
    (h : r.Meets (fun c a => post' c (f a)) fail) : (Run.map f r).Meets post' fail where
  ok := by
    intro b hb
    obtain ⟨a, ha, rfl⟩ := exists_of_map_ok hb
    exact h.ok a ha
  error := by
    intro e he
    rw [Run.map] at he
    cases hr : r.result with
    | ok a =>
        rw [hr] at he
        cases he
    | error e' =>
        rw [hr] at he
        cases he
        exact h.error e hr

theorem andThen {r : Run α} {next : Circuit → α → Run β} {post' : Circuit → β → Prop}
    (h : r.Meets post fail)
    (hnext : ∀ a, r.result = .ok a → (next r.circuit a).Meets post' fail) :
    (r.andThen next).Meets post' fail := by
  rw [Run.andThen]
  cases hr : r.result with
  | ok a => exact ⟨(hnext a hr).ok, (hnext a hr).error⟩
  | error e =>
      refine ⟨nofun, ?_⟩
      rintro e' ⟨⟩
      exact h.error e hr

end Meets

/-! ## Runs that differ in their events only -/

/-- The second run leaves the circuit of the first, and its result up to a change. -/
structure Echoes (f : α → β) (r : Run α) (r' : Run β) : Prop where
  circuit : r'.circuit = r.circuit
  result : r'.result = r.result.map f

namespace Echoes

variable {γ δ : Type} {f : α → β} {g : γ → δ}

theorem refl (r : Run α) : Echoes id r r := ⟨rfl, by cases r.result <;> rfl⟩

theorem done {c : Circuit} {a : α} : Echoes f (.done c a) (.done c (f a)) := ⟨rfl, rfl⟩

theorem failed {c : Circuit} {e : Failure} : Echoes f (.failed c e) (.failed c e) := ⟨rfl, rfl⟩

theorem after (e e' : Event) {r : Run α} {r' : Run β} (h : Echoes f r r') :
    Echoes f (Run.after e r) (Run.after e' r') :=
  ⟨h.circuit, h.result⟩

theorem andThen {r : Run α} {r' : Run β} {next : Circuit → α → Run γ}
    {next' : Circuit → β → Run δ} (h : Echoes f r r')
    (hnext : ∀ a, r.result = .ok a → Echoes g (next r.circuit a) (next' r.circuit (f a))) :
    Echoes g (r.andThen next) (r'.andThen next') := by
  have hresult := h.result
  cases hr : r.result with
  | error e =>
      rw [hr] at hresult
      simp only [Run.andThen, hr, hresult, Except.map]
      exact ⟨h.circuit, rfl⟩
  | ok a =>
      rw [hr] at hresult
      rw [andThen_of_ok hr, andThen_of_ok hresult, h.circuit]
      exact ⟨(hnext a hr).circuit, (hnext a hr).result⟩

theorem map {r : Run α} {r' : Run β} {k : α → γ} {k' : β → δ} (h : Echoes f r r')
    (hk : ∀ a, k' (f a) = g (k a)) : Echoes g (r.map k) (r'.map k') := by
  refine ⟨h.circuit, ?_⟩
  rw [Run.map, Run.map, h.result]
  cases r.result with
  | error e => rfl
  | ok a => exact congrArg _ (hk a)

end Echoes

end Run

end Peephole
