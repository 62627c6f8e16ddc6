import Peephole.Netlist.Serial

/-!
# Netlists come back from JSON

Every part of a netlist is written in a shape of its own: a kind without parameters is a string, and
a kind with one is an object, so that no name makes a named gate look like another. What is written
is therefore read back as it was, whatever wires the gates have and whether or not they fit the
netlist. The one exception are angles that are not finite. JSON has no number for them, and reading
does not take anything else for an angle.

* `Kind.kind?_toJson`, `Gate.ofJson?_toJson`, `Netlist.ofJson?_toJson`: kinds, gates and netlists
  are read back exactly if their angles are finite.
* `Json.angleAt?`: what stands for the angle of a gate.
-/

namespace Peephole

/-! ## Angles -/

/-- Not to be finite is to be infinite or no number. -/
theorem Angle.isFinite_eq_false_iff {θ : Angle} :
    θ.isFinite = false ↔ θ.isNaN = true ∨ θ.isInf = true := by
  show θ.toModel.unpack.isFinite = false ↔
    θ.toModel.unpack.isNaN = true ∨ θ.toModel.unpack.isInf = true
  cases θ.toModel.unpack with
  | infinity s => exact ⟨fun _ => Or.inr rfl, fun _ => rfl⟩
  | notANumber => exact ⟨fun _ => Or.inl rfl, fun _ => rfl⟩
  | zero s =>
      exact iff_of_false (show ¬true = false by simp) (show ¬(false = true ∨ false = true) by simp)
  | finite s m e h =>
      exact iff_of_false (show ¬true = false by simp) (show ¬(false = true ∨ false = true) by simp)

/-- Whether the angle of a rotation is finite; other kinds have none. -/
def Kind.isFinite (k : Kind) : Bool := k.angle?.all Float.isFinite

/-! ## Numbers and lists -/

namespace Json

theorem natBelow?_ofNat {bound n : Nat} (h : n < bound) : (ofNat n).natBelow? bound = some n :=
  if_pos h

theorem wire?_ofNat (w : Wire) : (ofNat w.toNat).wire? = some w := by
  rw [wire?, natBelow?_ofNat w.toNat_lt_size, Option.map_some, UInt32.ofNat_toNat]

/-- A list whose members are read back if they satisfy `p` is read back if all of them do. -/
theorem mapM_map {α : Type} (write : α → Json) (read : Json → Option α) (p : α → Bool)
    (h : ∀ a, read (write a) = if p a then some a else none) (l : List α) :
    (l.map write).mapM read = if l.all p then some l else none := by
  induction l with
  | nil => rfl
  | cons a rest ih =>
      rw [List.map_cons, List.mapM_cons, h, ih, List.all_cons]
      cases p a with
      | false => rfl
      | true =>
          cases rest.all p with
          | false => rfl
          | true => rfl

theorem mapM_wire? (ws : List Wire) :
    (ws.map fun w => ofNat w.toNat).mapM wire? = some ws := by
  have h := mapM_map (fun w : Wire => ofNat w.toNat) wire? (fun _ => true) wire?_ofNat ws
  rwa [if_pos (List.all_eq_true.2 fun _ _ => rfl)] at h

end Json

/-! ## Kinds, gates and netlists -/

theorem Kind.kind?_toJson (k : Kind) : k.toJson.kind? = if k.isFinite then some k else none := by
  cases k with
  | rotation θ =>
      cases hθ : θ.isFinite with
      | false => simp [toJson, Json.kind?, Json.angle?, isFinite, angle?, hθ]
      | true => simp [toJson, Json.kind?, Json.angle?, isFinite, angle?, hθ]
  | named name => rfl
  | _ => rfl

theorem Gate.ofJson?_toJson (g : Gate) :
    Gate.ofJson? g.toJson = if g.kind.isFinite then some g else none := by
  have hfields : g.toJson.fields? ["kind", "target", "controls"] = some [g.kind.toJson,
      .ofNat g.target.toNat, .array (g.controls.map fun w => .ofNat w.toNat)] := rfl
  rw [Gate.ofJson?, hfields]
  dsimp only [Json.items?]
  rw [Kind.kind?_toJson, Json.wire?_ofNat, Option.bind_eq_bind]
  cases g.kind.isFinite with
  | false => rfl
  | true =>
      rw [if_pos rfl, if_pos rfl]
      simp only [Option.bind_some, Option.bind_eq_bind, Json.mapM_wire?, Option.pure_def]

namespace Netlist

theorem ofJson?_toJson {n : Netlist} (h : n.width < UInt64.size) :
    ofJson? n.toJson = if n.gates.all (·.kind.isFinite) then some n else none := by
  have hfields : n.toJson.fields? ["num_qubits", "gates"] =
      some [.ofNat n.width, .array (n.gates.map Gate.toJson)] := rfl
  have hgates :=
    Json.mapM_map Gate.toJson Gate.ofJson? (·.kind.isFinite) Gate.ofJson?_toJson n.gates
  rw [ofJson?, hfields]
  dsimp only [Json.items?]
  simp only [Json.natBelow?_ofNat h, Option.bind_eq_bind, Option.bind_some, hgates, Option.pure_def]
  cases n.gates.all (·.kind.isFinite) with
  | false => rfl
  | true => rfl

end Netlist

/-! ## Angles that are not finite -/

/-- What a written netlist has for the angle of the gate at a position. -/
def Json.angleAt? (j : Json) (i : Nat) : Option Json := do
  let gates ← (← j.get? "gates").items?
  let gate ← gates[i]?
  (← gate.get? "kind").get? "Rz"

theorem Netlist.angleAt?_toJson {n : Netlist} {i : Nat} {g : Gate} {θ : Angle}
    (hg : n.gates[i]? = some g) (hθ : g.kind = .rotation θ) :
    n.toJson.angleAt? i = some (if θ.isFinite then .real θ else .null) := by
  have hitems : (n.gates.map Gate.toJson)[i]? = some g.toJson := by
    rw [List.getElem?_map, hg, Option.map_some]
  have hkind : g.toJson.get? "kind" = some (Kind.rotation θ).toJson := by
    rw [← hθ]
    rfl
  show ((n.gates.map Gate.toJson)[i]?.bind fun gate => (gate.get? "kind").bind (·.get? "Rz")) = _
  rw [hitems, Option.bind_some, hkind, Option.bind_some]
  rfl

/-- A netlist whose angles are all finite is read back from its JSON value exactly as it was:
whatever its width below `2 ^ 64`, and whatever kinds, names and wires its gates have. An angle that
is infinite or no number is written as null, and then nothing is read back. -/
theorem netlist_json_roundTrip (n : Netlist) (hwidth : n.width < UInt64.size) :
    ((∀ g ∈ n.gates, ∀ θ, g.kind = .rotation θ → θ.isFinite = true) →
      Netlist.ofJson? n.toJson = some n) ∧
    ∀ i g θ, n.gates[i]? = some g → g.kind = .rotation θ → θ.isNaN = true ∨ θ.isInf = true →
      n.toJson.angleAt? i = some .null ∧ Netlist.ofJson? n.toJson = none := by
  rw [Netlist.ofJson?_toJson hwidth]
  constructor
  · intro hfinite
    refine if_pos (List.all_eq_true.2 fun g hg => ?_)
    have hangle : ∀ θ, g.kind = .rotation θ → θ.isFinite = true := hfinite g hg
    cases hk : g.kind with
    | rotation θ => exact hangle θ hk
    | _ => rfl
  · intro i g θ hg hθ hnot
    have hinfinite : θ.isFinite = false := Angle.isFinite_eq_false_iff.2 hnot
    refine ⟨?_, if_neg fun hall => ?_⟩
    · rw [Netlist.angleAt?_toJson hg hθ, hinfinite]
      rfl
    · have hfinite := List.all_eq_true.1 hall g (List.mem_of_getElem? hg)
      rw [hθ] at hfinite
      exact absurd (hinfinite.symm.trans hfinite) (by decide)

/-- The widest netlist, with a gate marked as removed that has a wire twice, a controlled rotation
by negative zero, and a gate that has the name of another kind; and the same with a rotation by an
angle that is no number. -/
theorem netlist_json_roundTrip_extremes :
    Netlist.ofJson? (Netlist.mk 18446744073709551615 [⟨.removed, 4294967295, [7, 7]⟩,
        ⟨.rotation (-0.0), 0, [3]⟩, ⟨.named "H", 0, []⟩]).toJson =
      some ⟨18446744073709551615, [⟨.removed, 4294967295, [7, 7]⟩, ⟨.rotation (-0.0), 0, [3]⟩,
        ⟨.named "H", 0, []⟩]⟩ ∧
    (Netlist.mk 1 [⟨.named "H", 0, []⟩, ⟨.rotation (0.0 / 0.0), 0, []⟩]).toJson.angleAt? 1 =
      some .null ∧
    Netlist.ofJson? (Netlist.mk 1 [⟨.named "H", 0, []⟩, ⟨.rotation (0.0 / 0.0), 0, []⟩]).toJson =
      none := by
  refine ⟨(netlist_json_roundTrip _ (by decide)).1 ?_,
    (netlist_json_roundTrip _ (by decide)).2 1 _ (0.0 / 0.0) rfl rfl (by decide)⟩
  intro g hg θ hθ
  simp only [List.mem_cons, List.not_mem_nil, or_false] at hg
  rcases hg with rfl | rfl | rfl
  · cases hθ
  · cases hθ
    decide
  · cases hθ

end Peephole
