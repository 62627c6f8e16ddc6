import Peephole.Circuit.Edit
import Peephole.Circuit.Neighbours

/-!
# Candidates, partners and slides

A candidate is a lone rotation or a controlled not with one control. It meets a partner when its
only successor is one: two rotations on a wire become one, two equal controlled nots vanish. A
candidate without a partner at hand may slide forward past gates it commutes with.

* `Candidate.merge?` finds the partner.
* `Candidate.slide?` finds the vertices to move past, in order.

Both fail on a vertex that is not in the circuit, which none of those they look at is.
-/

namespace Peephole.Cancel

/-- The kinds of gates that look for a partner. -/
inductive Candidate where
  /-- A rotation without controls. -/
  | rotation
  /-- A controlled not with one control. -/
  | cnot
  deriving DecidableEq

namespace Candidate

/-- What a gate is a candidate for. -/
def ofGate? (g : Gate) : Option Candidate :=
  match g.kind, g.controls with
  | .rotation _, [] => some .rotation
  | .cnot, [_] => some .cnot
  | _, _ => none

/-- The name of the gates that are candidates. -/
def expected : Candidate → String
  | .rotation => "R_z"
  | .cnot => "CNOT"

end Candidate

/-! ## Partners -/

/-- A partner, and what happens when the candidate meets it. -/
structure Merge where
  /-- The vertex that the candidate meets. -/
  partner : VertexId
  /-- What is done to the circuit. -/
  edits : List Circuit.Edit

/-- The rotation that comes right after a lone rotation. -/
def mergeRotation? (c : Circuit) (v : VertexId) : Except Circuit.Error (Option Merge) :=
  match c.onlySuccessor? v with
  | none => .ok none
  | some next => do
      let g ← c.gateOf v
      let h ← c.gateOf next
      pure <|
        if h.isSingle .rotation g.target then
          h.kind.angle?.map fun θ => ⟨next, [.remove next, .turn v θ]⟩
        else none

/-- The equal gate that comes right after a controlled not. -/
def mergeCnot? (c : Circuit) (v : VertexId) : Except Circuit.Error (Option Merge) :=
  match c.onlySuccessor? v with
  | none => .ok none
  | some next => do
      let h ← c.gateOf next
      let g ← c.gateOf v
      pure (if h == g then some ⟨next, [.remove next, .remove v]⟩ else none)

/-- The partner of a candidate, if it is its only successor. -/
def Candidate.merge? : Candidate → Circuit → VertexId → Except Circuit.Error (Option Merge)
  | .rotation => mergeRotation?
  | .cnot => mergeCnot?

/-! ## Slides of a rotation

The gate `h` is that of the only successor `next`. -/

/-- Past `H`, a controlled not on this target, and `H`. -/
def slideHadamards? (c : Circuit) (w : Wire) (next : VertexId) (h : Gate) :
    Option (List VertexId) := do
  if h.isSingle .hadamard w then
    let cnot ← c.onlySuccessor? next
    if c.holds (fun g => g.isCnot && g.target == w) cnot then
      let closing ← c.successorWhere? cnot fun g => g.isSingle .hadamard w
      some [next, cnot, closing]
    else none
  else none

/-- Past a controlled not on this target, a rotation, and the same controlled not, if nothing
comes between the two on the control wire. -/
def slideGadget? (c : Circuit) (w : Wire) (next : VertexId) (h : Gate) :
    Option (List VertexId) := do
  match h.controls with
  | [control] =>
      if h.isCnot && h.target == w then
        let rotation ← c.successorWhere? next fun k => k.isSingle .rotation w
        let closing ← c.onlySuccessor? rotation
        if c.holds (fun k => k.isCnot && k.target == w && k.controls == [control]) closing
            && (c.successors next).contains closing then
          some [next, rotation, closing]
        else none
      else none
  | _ => none

/-- Past a controlled not that has this wire as its control. -/
def slideControl? (w : Wire) (next : VertexId) (h : Gate) : Option (List VertexId) :=
  if h.isCnot && h.controls == [w] then some [next] else none

/-- The first slide of a rotation that applies. -/
def slideRotation? (c : Circuit) (v : VertexId) :
    Except Circuit.Error (Option (List VertexId)) := do
  let g ← c.gateOf v
  match c.onlySuccessor? v with
  | none => pure none
  | some next =>
      let h ← c.gateOf next
      pure <| (slideHadamards? c g.target next h).or
        ((slideGadget? c g.target next h).or (slideControl? g.target next h))

/-! ## Slides of a controlled not -/

/-- Whether two controlled nots commute although they share wires: the same target under other
controls, or the same controls on another target. -/
def commuting (g h : Gate) : Bool :=
  h.isCnot && ((h.target == g.target && h.controls != g.controls)
    || (h.controls == g.controls && h.target != g.target))

/-- Past a commuting controlled not that no other way leads to. -/
def slideCommuting? (c : Circuit) (v : VertexId) (g : Gate) (next : VertexId) :
    Except Circuit.Error (Option (List VertexId)) := do
  let h ← c.gateOf next
  pure (if commuting g h && !c.hasDetour v next next then some [next] else none)

/-- Past `H`, a controlled not that this wire controls, and `H`, where the target of that
controlled not is none of the candidate's controls and no other way leads to it. -/
def slideConjugated? (c : Circuit) (v : VertexId) (g : Gate) (p : VertexId × VertexId) :
    Except Circuit.Error (Option (List VertexId)) := do
  let h ← c.gateOf p.1
  if h.isSingle .hadamard g.target then
    let k ← c.gateOf p.2
    pure <| do
      if k.isCnot && k.controls == [g.target] && !g.controls.contains k.target then
        let closing ← c.successorWhere? p.2 fun h => h.isSingle .hadamard g.target
        if c.hasDetour v p.1 p.2 then none else some [p.1, p.2, closing]
      else none
  else pure none

/-- The first slide of a controlled not that applies. -/
def slideCnot? (c : Circuit) (v : VertexId) : Except Circuit.Error (Option (List VertexId)) := do
  let g ← c.gateOf v
  match ← (c.successors v).findSomeM? (slideCommuting? c v g) with
  | some path => pure (some path)
  | none => (c.forwardPairs v).findSomeM? (slideConjugated? c v g)

/-- The vertices that a candidate moves past, if a slide applies. -/
def Candidate.slide? :
    Candidate → Circuit → VertexId → Except Circuit.Error (Option (List VertexId))
  | .rotation => slideRotation?
  | .cnot => slideCnot?

end Peephole.Cancel
