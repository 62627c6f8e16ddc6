import Peephole.Proofs.Circuit.Wires
import Peephole.Proofs.Pipeline

/-!
# Gates that the optimizer does not understand

No rule takes out or brings in a gate that the optimizer only knows by name, or one with more
controls than the rules speak of, so these gates come through in order on every wire. The
cancellation moves nothing past most of them. Between two such barriers on a wire it may add up
angles and let equal controlled nots vanish in pairs, and nothing else changes there.

* `Gate.isOpaque`, `Gate.isBarrier`: the gates in question.
* `Cancel.AddsUp`: angles of which some have been added up.
* `Cancel.Balanced`: what the cancellation keeps between two barriers on a wire.
* `Cancel.Rule.segmentwise`: a rule of the cancellation keeps it, whatever stands around its block.
-/

namespace Peephole

open Circuit
open Relation (ReflTransGen)

namespace Gate

/-- Whether the optimizer has no rule for the gate: it is known by name only, marked as removed, or
has other controls than the rules speak of. -/
def isOpaque (g : Gate) : Bool :=
  match g.kind with
  | .named _ => true
  | .removed => true
  | .cnot => g.controls.length != 1
  | _ => !g.controls.isEmpty

/-- Whether the cancellation moves nothing past the gate: all gates are but the controlled nots and
the Hadamard, phase and rotation gates without controls. -/
def isBarrier (g : Gate) : Bool :=
  match g.kind with
  | .named _ => true
  | .removed => true
  | .cnot => false
  | _ => !g.controls.isEmpty

/-- The angle of a rotation without controls. -/
def freeAngle? (g : Gate) : Option Angle := if g.controls.isEmpty then g.kind.angle? else none

/-- Whether the gate is the controlled not with this control and this target. -/
def isCnotFrom (x t : Wire) (g : Gate) : Bool := g.isCnot && g.controls == [x] && g.target == t

end Gate

/-! ## Opaque gates -/

/-- The rules of the Hadamard reduction leave opaque gates alone. -/
theorem Hadamard.Step.filter_isOpaque (lhs rhs : List Gate) (h : Step lhs rhs) :
    lhs.filter Gate.isOpaque = rhs.filter Gate.isOpaque := by
  cases h with
  | flipPhase t hpq =>
      rcases inversePhase?_eq_some hpq with ⟨rfl, rfl⟩ | ⟨rfl, rfl⟩
      · rfl
      · rfl
  | reverseCnot htu => rfl
  | @phaseCnot t cs p q hpq ht =>
      -- the controlled not in the middle may be opaque itself
      rcases inversePhase?_eq_some hpq with ⟨rfl, rfl⟩ | ⟨rfl, rfl⟩
      · simp [List.filter_cons, Gate.isOpaque, Gate.hadamard]
      · simp [List.filter_cons, Gate.isOpaque, Gate.hadamard]

theorem Cancel.Passes.isOpaque_eq_false {g : Gate} {gs : List Gate} (h : Passes g gs) :
    g.isOpaque = false := by
  cases h <;> rfl

/-- So do those of the cancellation: only gates that are not opaque slide and merge. -/
theorem Cancel.Rule.filter_isOpaque (lhs rhs : List Gate) (h : Rule lhs rhs) :
    lhs.filter Gate.isOpaque = rhs.filter Gate.isOpaque := by
  cases h with
  | slide g gs hg => simp [hg.isOpaque_eq_false]
  | rotations θ φ t => rfl
  | cnots x t => rfl

/-- The opaque gates of a circuit are those of another, in the same order on every wire. -/
structure SameOpaque (c d : Circuit) : Prop where
  perm : (c.gatesInOrder.filter Gate.isOpaque).Perm (d.gatesInOrder.filter Gate.isOpaque)
  filter_eq : ∀ w, (c.gatesOn w).filter Gate.isOpaque = (d.gatesOn w).filter Gate.isOpaque

/-- Rules that leave opaque gates alone keep all of them in order. -/
theorem stable_sameOpaque {R : List Gate → List Gate → Prop}
    (hfits : ∀ n lhs rhs, R lhs rhs → (∀ g ∈ lhs, g.Fits n) → ∀ g ∈ rhs, g.Fits n)
    (hR : ∀ lhs rhs, R lhs rhs → lhs.filter Gate.isOpaque = rhs.filter Gate.isOpaque)
    (c₀ : Circuit) : Stable R fun c => c.Sound ∧ SameOpaque c₀ c := by
  have hwires : ∀ lhs rhs, R lhs rhs → ∀ (w : Wire) (P Q : List Gate),
      (P ++ lhs.filter (·.touches w) ++ Q).filter Gate.isOpaque
        = (P ++ rhs.filter (·.touches w) ++ Q).filter Gate.isOpaque := by
    intro lhs rhs hrule w P Q
    have hcomm : ∀ gs : List Gate, (gs.filter (·.touches w)).filter Gate.isOpaque
        = (gs.filter Gate.isOpaque).filter (·.touches w) := fun gs => by
      simp only [List.filter_filter, Bool.and_comm]
    simp only [List.filter_append, hcomm, hR lhs rhs hrule]
  have hstable := (stable_sound hfits).and ((stable_perm_filter hR c₀).and
    (stable_gatesOn (K := fun x y => x.filter Gate.isOpaque = y.filter Gate.isOpaque)
      Eq.trans hwires c₀))
  refine hstable.congr fun c => ⟨fun h => ⟨h.1, h.2.1.2, h.2.2.2⟩, fun h => ?_⟩
  exact ⟨h.1, ⟨h.1.1, h.2.perm⟩, h.1.1, h.2.filter_eq⟩

/-! ## Between barriers -/

namespace Cancel

/-- Two angles are added up. -/
inductive AddStep : Multiset Angle → Multiset Angle → Prop where
  | intro (θ φ : Angle) (rest : Multiset Angle) : AddStep (θ ::ₘ φ ::ₘ rest) ((θ + φ) ::ₘ rest)

/-- The second angles are the first, of which some have been added up. -/
def AddsUp : Multiset Angle → Multiset Angle → Prop := ReflTransGen AddStep

theorem AddsUp.add {s t : Multiset Angle} (h : AddsUp s t) (u : Multiset Angle) :
    AddsUp (s + u) (t + u) := by
  refine h.lift (· + u) fun a b hab => ?_
  obtain ⟨θ, φ, rest⟩ := hab
  show AddStep (θ ::ₘ φ ::ₘ rest + u) ((θ + φ) ::ₘ rest + u)
  rw [Multiset.cons_add, Multiset.cons_add, Multiset.cons_add]
  exact .intro θ φ (rest + u)

/-- Where addition is exact, adding up leaves the sum as it is. -/
theorem AddsUp.sum_eq {M : Type*} [AddCommMonoid M] {val : Angle → M}
    (hval : ∀ θ φ, val (θ + φ) = val θ + val φ) {s t : Multiset Angle} (h : AddsUp s t) :
    (t.map val).sum = (s.map val).sum := by
  induction h with
  | refl => rfl
  | tail _ hstep ih =>
      obtain ⟨θ, φ, rest⟩ := hstep
      rw [← ih]
      simp [hval, add_assoc]

/-- The angles of the rotations without controls. -/
def angles (gs : List Gate) : Multiset Angle := gs.filterMap Gate.freeAngle?

theorem angles_append (gs hs : List Gate) : angles (gs ++ hs) = angles gs + angles hs := by
  simp [angles, List.filterMap_append]

/-- What the cancellation keeps of the gates between two barriers on a wire: rotations are only
added up, and each controlled not is there an even number of times more or less. -/
structure Balanced (before after : List Gate) : Prop where
  addsUp : AddsUp (angles before) (angles after)
  parity : ∀ x t, before.countP (Gate.isCnotFrom x t) ≡ after.countP (Gate.isCnotFrom x t) [MOD 2]

namespace Balanced

variable {l r : List Gate}

theorem of_perm (h : l.Perm r) : Balanced l r where
  addsUp := by
    have hangles : angles l = angles r := Multiset.coe_eq_coe.2 (h.filterMap _)
    rw [hangles]
    exact .refl
  parity := fun x t => by rw [h.countP_eq]

theorem refl (l : List Gate) : Balanced l l := .of_perm (.refl l)

theorem trans {m : List Gate} (h : Balanced l m) (h' : Balanced m r) : Balanced l r :=
  ⟨ReflTransGen.trans h.addsUp h'.addsUp, fun x t => (h.parity x t).trans (h'.parity x t)⟩

theorem append_right (h : Balanced l r) (gs : List Gate) : Balanced (l ++ gs) (r ++ gs) where
  addsUp := by
    rw [angles_append, angles_append]
    exact h.addsUp.add _
  parity := fun x t => by
    rw [List.countP_append, List.countP_append]
    exact (h.parity x t).add_right _

theorem cons (h : Balanced l r) (g : Gate) : Balanced (g :: l) (g :: r) :=
  (of_perm (List.perm_append_singleton g l).symm).trans
    ((h.append_right [g]).trans (of_perm (List.perm_append_singleton g r)))

end Balanced

/-- The gates of a list from one barrier to the next. -/
def segments (gs : List Gate) : List (List Gate) := gs.splitOnP Gate.isBarrier

/-- Between any two barriers the gates are balanced. -/
def Segmentwise (l r : List Gate) : Prop := List.Forall₂ Balanced (segments l) (segments r)

theorem Segmentwise.refl (l : List Gate) : Segmentwise l l :=
  List.forall₂_same.2 fun s _ => .refl s

theorem Segmentwise.trans {l m r : List Gate} (h : Segmentwise l m) (h' : Segmentwise m r) :
    Segmentwise l r := by
  have key : ∀ {a b x : List (List Gate)}, List.Forall₂ Balanced a b → List.Forall₂ Balanced b x →
      List.Forall₂ Balanced a x := by
    intro a b x hab
    induction hab generalizing x with
    | nil => exact id
    | cons hr _ ih =>
        rintro (_ | ⟨hr', hrest⟩)
        exact .cons (hr.trans hr') (ih hrest)
  exact key h h'

theorem segments_cons (g : Gate) (gs : List Gate) :
    segments (g :: gs)
      = if g.isBarrier then [] :: segments gs else (segments gs).modifyHead (g :: ·) :=
  List.splitOnP_cons_eq_if_modifyHead g gs

/-- Gates in front that are no barriers join the first segment. -/
theorem segments_append {l : List Gate} (hl : ∀ g ∈ l, g.isBarrier = false) (gs : List Gate) :
    segments (l ++ gs) = (segments gs).modifyHead (l ++ ·) := by
  induction l with
  | nil =>
      rw [List.nil_append]
      cases segments gs with
      | nil => rfl
      | cons s ss => rfl
  | cons g l ih =>
      rw [List.forall_mem_cons] at hl
      rw [List.cons_append, segments_cons, hl.1, ih hl.2]
      cases segments gs with
      | nil => rfl
      | cons s ss => rfl

/-- Gates without barriers may be replaced by balanced ones, whatever stands around them. -/
theorem Segmentwise.of_balanced {l r : List Gate} (hl : ∀ g ∈ l, g.isBarrier = false)
    (hr : ∀ g ∈ r, g.isBarrier = false) (h : Balanced l r) (P Q : List Gate) :
    Segmentwise (P ++ l ++ Q) (P ++ r ++ Q) := by
  have hhead : ∀ {a b : List (List Gate)} (f k : List Gate → List Gate),
      List.Forall₂ Balanced a b → (∀ x y, Balanced x y → Balanced (f x) (k y)) →
      List.Forall₂ Balanced (a.modifyHead f) (b.modifyHead k) := by
    rintro _ _ f k (_ | ⟨hxy, hrest⟩) hfk
    · exact .nil
    · exact .cons (hfk _ _ hxy) hrest
  induction P with
  | nil =>
      rw [List.nil_append, List.nil_append, Segmentwise, segments_append hl, segments_append hr]
      cases segments Q with
      | nil => exact .nil
      | cons s ss => exact .cons (h.append_right s) (List.forall₂_same.2 fun x _ => .refl x)
  | cons p P ih =>
      simp only [Segmentwise, List.cons_append, segments_cons]
      split
      · exact .cons (.refl []) ih
      · exact hhead _ _ ih fun _ _ hxy => hxy.cons p

/-- No rule has a barrier. -/
theorem Rule.isBarrier_eq_false {lhs rhs : List Gate} (h : Rule lhs rhs) :
    (∀ g ∈ lhs, g.isBarrier = false) ∧ ∀ g ∈ rhs, g.isBarrier = false := by
  cases h with
  | slide g gs hg =>
      have hall : ∀ k ∈ g :: gs, k.isBarrier = false := by
        cases hg <;> simp [Gate.isBarrier, Gate.rotation, Gate.cnot, Gate.hadamard]
      rw [List.forall_mem_cons] at hall
      exact ⟨List.forall_mem_cons.2 hall, by simpa [or_imp, forall_and] using hall.symm⟩
  | rotations θ φ t => simp [Gate.isBarrier, Gate.rotation]
  | cnots x t => simp [Gate.isBarrier, Gate.cnot]

/-- On every wire the two sides of a rule are balanced. -/
theorem Rule.balanced {lhs rhs : List Gate} (h : Rule lhs rhs) (w : Wire) :
    Balanced (lhs.filter (·.touches w)) (rhs.filter (·.touches w)) := by
  cases h with
  | slide g gs hg => exact .of_perm ((List.perm_append_singleton g gs).symm.filter _)
  | rotations θ φ t =>
      by_cases ht : (Gate.rotation θ t).touches w
      · have ht' : ∀ ψ, (Gate.rotation ψ t).touches w = true := fun ψ => ht
        simp only [List.filter_cons, ht', if_true, List.filter_nil]
        exact ⟨.single (.intro θ φ 0), fun x u => rfl⟩
      · have ht' : ∀ ψ, (Gate.rotation ψ t).touches w = false := fun ψ => Bool.eq_false_iff.2 ht
        simp only [List.filter_cons, ht', Bool.false_eq_true, if_false, List.filter_nil]
        exact .refl []
  | cnots x t =>
      by_cases ht : (Gate.cnot [x] t).touches w
      · simp only [List.filter_cons, ht, if_true, List.filter_nil]
        refine ⟨.refl, fun y u => ?_⟩
        by_cases hyu : (Gate.cnot [x] t).isCnotFrom y u
        · simp [hyu, Nat.ModEq]
        · simp [hyu, Nat.ModEq]
      · simp only [List.filter_cons, ht, Bool.false_eq_true, if_false, List.filter_nil]
        exact .refl []

theorem Rule.segmentwise (lhs rhs : List Gate) (h : Rule lhs rhs) (w : Wire) (P Q : List Gate) :
    Segmentwise (P ++ lhs.filter (·.touches w) ++ Q) (P ++ rhs.filter (·.touches w) ++ Q) :=
  .of_balanced (fun g hg => h.isBarrier_eq_false.1 g (List.mem_of_mem_filter hg))
    (fun g hg => h.isBarrier_eq_false.2 g (List.mem_of_mem_filter hg)) (h.balanced w) P Q

/-- A sweep keeps the gates balanced between any two barriers, on every wire. -/
theorem sweep_keeps_segmentwise {c : Circuit} (hc : c.Sound) :
    (sweep c).Keeps
      (fun d => d.Sound ∧ d.Proper ∧ ∀ w, Segmentwise (c.gatesOn w) (d.gatesOn w)) True := by
  have hstable := (stable_sound Rule.fits).and
    (stable_gatesOn (K := Segmentwise) Segmentwise.trans Rule.segmentwise c)
  exact sweep_keeps_of_sound (fun _ h => h.1) hstable ⟨hc, hc.1, fun w => .refl _⟩

end Cancel

/-! ## The optimizer -/

/-- Opaque gates come through every run of the optimizer, on every wire in the order they were in.
Between any two barriers on a wire, a sweep only adds up the angles of rotations, so that their sum
stays the same wherever addition is exact, and keeps how many times each controlled not is there,
odd or even. This holds for the circuit that was built, and after any passes of the optimizer. -/
theorem run_keeps_opaque {c : Circuit} {width : Nat} {gs : List Gate}
    (h : build width gs = .ok c) (s : Settings) :
    (∃ reports, (s.pipeline.run c).result = .ok reports) ∧
      SameOpaque c (s.pipeline.run c).circuit ∧
      ∀ round passes, (∀ q ∈ passes, q ∈ s.pipeline.passes) → ∀ d,
        d = (s.pipeline.runPasses round passes c).circuit →
        (∃ n, (Cancel.sweep d).result = .ok n) ∧
          ∀ w, Cancel.Segmentwise (d.gatesOn w) ((Cancel.sweep d).circuit.gatesOn w) ∧
            ∀ (M : Type) [AddCommMonoid M] (val : Angle → M),
              (∀ θ φ, val (θ + φ) = val θ + val φ) →
              List.Forall₂
                (fun before after => ((Cancel.angles after).map val).sum
                  = ((Cancel.angles before).map val).sum)
                (Cancel.segments (d.gatesOn w))
                (Cancel.segments ((Cancel.sweep d).circuit.gatesOn w)) := by
  have hc := Sound.of_build h
  have hrun := Pipeline.run_keeps_of_pass (p := s.pipeline) (fun d (hd : d.Sound ∧ _) => hd.1)
    (fun q hq => Settings.keeps_of_stable (fun d hd => hd.1)
      (stable_sameOpaque Hadamard.Step.fits Hadamard.Step.filter_isOpaque c)
      (stable_sameOpaque Cancel.Rule.fits Cancel.Rule.filter_isOpaque c) hq)
    ⟨hc, .refl _, fun _ => rfl⟩
  obtain ⟨reports, hr⟩ := hrun.ends trivial
  refine ⟨⟨reports, hr⟩, (hrun.circuit reports hr).2, fun round passes hp d hd => ?_⟩
  have hpasses := Pipeline.runPasses_keeps (p := s.pipeline) round
    (fun q hq => Settings.safe_of_mem_passes (hp q hq)) hc
  obtain ⟨reports, hr⟩ := hpasses.ends trivial
  have hsound : d.Sound := hd ▸ hpasses.circuit reports hr
  have hsweep := Cancel.sweep_keeps_segmentwise hsound
  obtain ⟨n, hn⟩ := hsweep.ends trivial
  refine ⟨⟨n, hn⟩, fun w => ⟨(hsweep.circuit n hn).2.2 w, fun M _ val hval => ?_⟩⟩
  exact ((hsweep.circuit n hn).2.2 w).imp fun _ _ hb => hb.addsUp.sum_eq hval

/-- A controlled not in front of a gate that is known by name stays, while the two behind it
cancel. -/
theorem run_keeps_opaque_named :
    ∃ c, build 2 [.cnot [0] 1, ⟨.named "T", 1, []⟩, .cnot [0] 1, .cnot [0] 1,
        ⟨.hadamard, 1, [0]⟩] = .ok c ∧
      (({} : Settings).pipeline.run c).circuit.gatesOn 1
        = [.cnot [0] 1, ⟨.named "T", 1, []⟩, ⟨.hadamard, 1, [0]⟩] ∧
      SameOpaque c (({} : Settings).pipeline.run c).circuit ∧
      Cancel.Segmentwise (c.gatesOn 1) ((Cancel.sweep c).circuit.gatesOn 1) := by
  have hbuild : build 2 [.cnot [0] 1, ⟨.named "T", 1, []⟩, .cnot [0] 1, .cnot [0] 1,
      ⟨.hadamard, 1, [0]⟩] = .ok (ofGates 2 [.cnot [0] 1, ⟨.named "T", 1, []⟩, .cnot [0] 1,
        .cnot [0] 1, ⟨.hadamard, 1, [0]⟩]) := rfl
  have h := run_keeps_opaque hbuild {}
  exact ⟨_, hbuild, by cbv, h.2.1, ((h.2.2 1 [] (by simp) _ rfl).2 1).1⟩

end Peephole
