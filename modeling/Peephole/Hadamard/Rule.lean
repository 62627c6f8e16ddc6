import Peephole.Circuit.Edit
import Peephole.Circuit.Neighbours

/-!
# Rules that save Hadamard gates

Each rule replaces gates around a first Hadamard gate by others with the same effect, in circuit
order:

* phase flip: `H P H` becomes `P_dag H P_dag`, and `H P_dag H` becomes `P H P`;
* reversal: a controlled not between Hadamard gates on both its wires loses all four and trades
  its control for its target;
* phases around a controlled not: `H P CNOT P_dag H` becomes `P_dag CNOT P`, and the same with the
  phases inverted, where all but the control is on the target wire.

`match?` finds the first rule that applies at a vertex, and `Match.edits` is what it does to the
circuit.
-/

namespace Peephole.Hadamard

/-- The rules, without the place where they apply. -/
inductive Rule where
  | flipPhase
  | reverseCnot
  | phaseCnot
  deriving DecidableEq

/-- The name of a rule in a log. -/
def Rule.name : Rule → String
  | .flipPhase => "flip_phase"
  | .reverseCnot => "reverse_cnot"
  | .phaseCnot => "phase_cnot"

/-- A place where a rule applies. -/
inductive Match where
  /-- The Hadamard gates `first` and `last` become `outer`, the phase between them a Hadamard. -/
  | flipPhase (first middle last : VertexId) (outer : Kind)
  /-- The four Hadamard gates vanish and the controlled not gets these wires. -/
  | reverseCnot (first last before after : VertexId) (cnot : VertexId) (control target : Wire)
  /-- The Hadamard gates vanish and the phases change to these kinds. -/
  | phaseCnot (first last : VertexId) (opening : VertexId) (openingKind : Kind)
      (closing : VertexId) (closingKind : Kind)

namespace Match

/-- The rule that a match is of. -/
def rule : Match → Rule
  | .flipPhase .. => .flipPhase
  | .reverseCnot .. => .reverseCnot
  | .phaseCnot .. => .phaseCnot

/-- What the rule does to the circuit. -/
def edits : Match → List Circuit.Edit
  | .flipPhase first middle last outer =>
      [.setKind first outer, .setKind middle .hadamard, .setKind last outer]
  | .reverseCnot first last before after cnot control target =>
      [.remove first, .remove last, .remove before, .remove after,
        .setWires cnot target [control]]
  | .phaseCnot first last opening openingKind closing closingKind =>
      [.remove first, .remove last, .setKind opening openingKind, .setKind closing closingKind]

/-- The Hadamard gates that the rule creates. -/
def created : Match → List VertexId
  | .flipPhase _ middle _ _ => [middle]
  | _ => []

end Match

/-! ## Matching -/

/-- Whether a vertex holds a lone Hadamard gate on a wire. -/
def isHadamardOn (c : Circuit) (w : Wire) (v : VertexId) : Bool :=
  c.holds (fun g => g.isSingle .hadamard w) v

/-- The phase flip at a Hadamard gate on wire `w`, with a given middle and last vertex. -/
def flipPhaseAt? (c : Circuit) (h : VertexId) (w : Wire) (p : VertexId × VertexId) :
    Option Match := do
  let g ← c.gate? p.1
  let outer ← g.kind.inversePhase?
  if g.isSingle g.family w && isHadamardOn c w p.2 then some (.flipPhase h p.1 p.2 outer)
  else none

/-- The reversal at a Hadamard gate on wire `w`, with a given controlled not and last vertex. -/
def reverseCnotAt? (c : Circuit) (h : VertexId) (w : Wire) (p : VertexId × VertexId) :
    Option Match := do
  let g ← c.gate? p.1
  if g.isCnot && g.controls == [w] && isHadamardOn c w p.2 then
    let before ← c.predecessorWhere? p.1 fun k => k.target == g.target
    let after ← c.successorWhere? p.1 fun k => k.target == g.target
    if isHadamardOn c g.target before && isHadamardOn c g.target after then
      some (.reverseCnot h p.2 before after p.1 g.target w)
    else none
  else none

/-- The rule with phases around a controlled not, with a given first phase and controlled not. -/
def phaseCnotAt? (c : Circuit) (h : VertexId) (w : Wire) (p : VertexId × VertexId) :
    Option Match := do
  let g ← c.gate? p.1
  let inverse ← g.kind.inversePhase?
  let k ← c.gate? p.2
  if g.isSingle g.family w && k.isCnot && k.target == w then
    let (closing, last) ← (c.forwardPairs p.2).find? fun q =>
      c.holds (fun g => g.isSingle inverse.family w) q.1 && isHadamardOn c w q.2
    some (.phaseCnot h last p.1 inverse closing g.kind)
  else none

/-- The first rule that applies with the Hadamard gate `h` on wire `w` in front. -/
def matchOn? (c : Circuit) (h : VertexId) (w : Wire) : Option Match :=
  let pairs := c.forwardPairs h
  (pairs.findSome? (flipPhaseAt? c h w)).or
    ((pairs.findSome? (reverseCnotAt? c h w)).or (pairs.findSome? (phaseCnotAt? c h w)))

/-- The first rule that applies at a vertex, if it holds a lone Hadamard gate. -/
def match? (c : Circuit) (v : VertexId) : Option Match :=
  match c.gate? v with
  | some g => if g.isSingle .hadamard g.target then matchOn? c v g.target else none
  | none => none

end Peephole.Hadamard
