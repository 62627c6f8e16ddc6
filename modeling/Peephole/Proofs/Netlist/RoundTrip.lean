import Mathlib
import Peephole.Netlist.Text
import Peephole.Proofs.Text

/-!
# Reading what was written

A line is read as the gate it was written for exactly when the gate has a form that some line can
have. A gate with a name of its own can, unless the name would be taken for something else: for
several words, a comment, a declaration, or a gate that the format knows. A rotation can without
controls, and the rotation by no number at all is the one gate that is not even equal to itself.

* `Gate.Legible`: the gates that lines stand for.
* `Gate.Agrees`: the same gate up to the angle of a rotation, and a relation between the angles.
* `Gate.ofWords_toWords`: a legible gate is read back, as well as its angle is.
* `Gate.legible_of_ofWords`, `Netlist.legible_of_read`: nothing else is ever read.
* `Netlist.read_render`: a netlist of legible gates is read back in the same sense.
-/

namespace Peephole

open Text (IsWord)

/-! ## Angles -/

namespace Angle

/-- The text of the angle is read as an angle that is related to it. -/
def ReadsAs (R : Angle → Angle → Prop) (θ : Angle) : Prop :=
  ∃ y, Angle.read? θ.render = some y ∧ R y θ

/-- The text of the angle is read as the same angle. -/
def ReadsBack (θ : Angle) : Prop := θ.ReadsAs fun y θ => (y == θ) = true

theorem isNaN_eq_false_of_beq {y θ : Angle} (h : (y == θ) = true) : θ.isNaN = false := by
  rw [Float.isNaN_eq_decide_eq_nan, decide_eq_false_iff_not]
  exact (Float.beq_iff_ne_nan_and_eq.1 h).2.1

/-- Positional notation has digits, and at most one point. -/
theorem isPlain_of_mem_positional {d : Decimal.Digits} {c : Char}
    (h : c ∈ (positional d).toList) : Text.isPlain c = true := by
  have hdigit : ∀ x ∈ Nat.toDigits 10 d.value, Text.isPlain x = true := fun x hx =>
    Text.isPlain_of_isDigit (Nat.isDigit_of_mem_toDigits (by decide) (by decide) hx)
  have hzero : ∀ k, ∀ x ∈ List.replicate k '0', Text.isPlain x = true := by
    intro k x hx
    rw [List.eq_of_mem_replicate hx]
    rfl
  unfold positional at h
  dsimp only at h
  split at h
  · rw [String.toList_append] at h
    rcases List.mem_append.1 h with h | h
    · have hlead : "0.".toList.all Text.isPlain = true := by decide
      exact List.all_eq_true.1 hlead c h
    · rw [String.toList_ofList] at h
      exact (List.mem_append.1 h).elim (hzero _ c) (hdigit c)
  · split at h
    · rw [String.toList_ofList] at h
      exact (List.mem_append.1 h).elim (hdigit c) (hzero _ c)
    · rw [String.toList_ofList, List.mem_append, List.mem_cons] at h
      rcases h with h | rfl | h
      · exact hdigit c (List.mem_of_mem_take h)
      · rfl
      · exact hdigit c (List.mem_of_mem_drop h)

theorem positional_ne_nil (d : Decimal.Digits) : (positional d).toList ≠ [] := by
  unfold positional
  dsimp only
  split
  · simp
  · split
    · simp
    · simp

/-- An angle is written as one word. -/
theorem isWord_render (θ : Angle) : IsWord θ.render.toList := by
  have hsign : ∀ x ∈ (if isNegative θ then "-" else "").toList, Text.isBlank x = false := by
    intro x hx
    refine Text.isBlank_eq_false_of_isPlain ?_
    split at hx
    · obtain rfl := List.mem_singleton.1 hx
      rfl
    · cases hx
  have happ : ∀ s : String, IsWord s.toList →
      IsWord ((if isNegative θ then "-" else "") ++ s).toList := by
    intro s hs
    rw [String.toList_append]
    refine ⟨fun h => hs.1 (List.append_eq_nil_iff.1 h).2, fun x hx => ?_⟩
    exact (List.mem_append.1 hx).elim (hsign x) (hs.2 x)
  unfold render
  dsimp only
  split
  · exact Text.isWord_of_isPlain (by decide) (by decide)
  · split
    · exact happ "inf" (Text.isWord_of_isPlain (by decide) (by decide))
    · split
      · exact happ "0" (Text.isWord_of_isPlain (by decide) (by decide))
      · exact happ _ (Text.isWord_of_isPlain (positional_ne_nil _)
          (List.all_eq_true.2 fun x hx => isPlain_of_mem_positional hx))

end Angle

/-! ## Equal gates -/

/-- Kinds that compare equal are the same, but for the angles of rotations. -/
theorem Kind.of_beq {k l : Kind} (h : (k == l) = true) :
    (k = l ∧ ∀ θ, l ≠ .rotation θ) ∨
      ∃ y θ, k = .rotation y ∧ l = .rotation θ ∧ (y == θ) = true := by
  cases k <;> cases l <;>
    first
      | exact Or.inl ⟨rfl, by simp⟩
      | cases h
      | skip
  case rotation.rotation y θ => exact Or.inr ⟨y, θ, rfl, rfl, h⟩
  case named.named a b => exact Or.inl ⟨congrArg _ (eq_of_beq (a := a) (b := b) h), by simp⟩

theorem Kind.beq_self {k : Kind} (h : ∀ θ, k ≠ .rotation θ) : (k == k) = true := by
  cases k with
  | rotation θ => exact absurd rfl (h θ)
  | named name => exact beq_self_eq_true name
  | _ => rfl

namespace Gate

theorem beq_iff {g k : Gate} :
    (g == k) = true ↔
      (g.kind == k.kind) = true ∧ g.target = k.target ∧ g.controls = k.controls := by
  show (g.kind == k.kind && (g.target == k.target && g.controls == k.controls)) = true ↔ _
  simp only [Bool.and_eq_true, beq_iff_eq]

/-- The gates are the same, but for the angles of rotations, which are related. -/
inductive Agrees (R : Angle → Angle → Prop) : Gate → Gate → Prop where
  | rotation {y θ : Angle} (target : Wire) (controls : List Wire) (h : R y θ) :
      Agrees R ⟨.rotation y, target, controls⟩ ⟨.rotation θ, target, controls⟩
  | other {g : Gate} (h : ∀ θ, g.kind ≠ .rotation θ) : Agrees R g g

theorem Agrees.beq {k g : Gate} (h : Agrees (fun y θ => (y == θ) = true) k g) :
    (k == g) = true := by
  cases h with
  | rotation target controls h => exact beq_iff.2 ⟨h, rfl, rfl⟩
  | other h => exact beq_iff.2 ⟨Kind.beq_self h, rfl, rfl⟩

theorem Agrees.list_beq {ks gs : List Gate}
    (h : List.Forall₂ (Agrees fun y θ => (y == θ) = true) ks gs) : (ks == gs) = true := by
  induction h with
  | nil => rfl
  | cons hk _ ih => rw [List.cons_beq_cons, hk.beq, ih]; rfl

/-- The rotation by no number. -/
def IsNaN (g : Gate) : Prop := ∃ θ, g.kind = .rotation θ ∧ θ.isNaN = true

/-- A name that no line takes for anything else: one word that is no declaration, no gate of the
format and no comment. -/
structure IsName (name : String) : Prop where
  isWord : IsWord name.toList
  notReserved : name ∉ ["H", "P", "P_dag", "CNOT", "R_z", "INIT"]
  notComment : ¬ ['#'] <+: name.toList ∧ ¬ ['/', '/'] <+: name.toList

/-- The gates that lines stand for. -/
def Legible (g : Gate) : Prop :=
  match g.kind with
  | .rotation _ => g.controls = []
  | .named name => IsName name
  | .removed => False
  | _ => True

theorem Legible.of_beq {g k : Gate} (h : (g == k) = true) (hg : g.Legible) :
    k.Legible ∧ ¬ k.IsNaN := by
  obtain ⟨hkind, -, hcontrols⟩ := beq_iff.1 h
  unfold Legible at hg ⊢
  rcases Kind.of_beq hkind with ⟨hsame, hnot⟩ | ⟨y, θ, hy, hθ, hbeq⟩
  · rw [← hsame, ← hcontrols]
    exact ⟨hg, fun ⟨θ, hθ, _⟩ => hnot θ hθ⟩
  · rw [hy] at hg
    rw [hθ]
    refine ⟨hcontrols ▸ hg, ?_⟩
    rintro ⟨φ, hφ, hnan⟩
    obtain rfl : θ = φ := Kind.rotation.inj (hθ.symm.trans hφ)
    rw [Angle.isNaN_eq_false_of_beq hbeq] at hnan
    cases hnan

theorem legible_of_list_beq {l r : List Gate} (h : (l == r) = true) (hl : ∀ g ∈ l, g.Legible) :
    ∀ k ∈ r, k.Legible ∧ ¬ k.IsNaN := by
  induction l generalizing r with
  | nil =>
      cases r with
      | nil => simp
      | cons k r => simp at h
  | cons g l ih =>
      cases r with
      | nil => simp at h
      | cons k r =>
          rw [List.cons_beq_cons, Bool.and_eq_true] at h
          rw [List.forall_mem_cons] at hl ⊢
          exact ⟨Legible.of_beq h.1 hl.1, ih h.2 hl.2⟩

end Gate

theorem Netlist.beq_iff {m n : Netlist} :
    (m == n) = true ↔ m.width = n.width ∧ (m.gates == n.gates) = true := by
  show (m.width == n.width && m.gates == n.gates) = true ↔ _
  rw [Bool.and_eq_true, beq_iff_eq]

/-! ## Silent lines -/

namespace Netlist

theorem isSilent_eq_true_iff {cs : List Char} :
    isSilent cs = true ↔ cs = [] ∨ ['#'] <+: cs ∨ ['/', '/'] <+: cs := by
  unfold isSilent
  split
  · simp
  · simp
  · simp
  · rename_i h₁ h₂ h₃
    simp only [Bool.false_eq_true, false_iff, not_or]
    refine ⟨h₁, ?_, ?_⟩
    · rintro ⟨r, rfl⟩
      exact h₂ r rfl
    · rintro ⟨r, rfl⟩
      exact h₃ r rfl

/-- Whether a line says something is seen from its first word. -/
theorem isSilent_trimmed (cs : List Char) :
    isSilent (Text.trimmed cs) = isSilent ((Text.wordsOf cs).headD []) := by
  have hmark : IsWord ['#'] := Text.isWord_of_isPlain (by decide) (by decide)
  have hslash : IsWord ['/', '/'] := Text.isWord_of_isPlain (by decide) (by decide)
  rw [Bool.eq_iff_iff, isSilent_eq_true_iff, isSilent_eq_true_iff, Text.trimmed_eq_nil_iff,
    Text.startsWith_trimmed_iff hmark.2, Text.startsWith_trimmed_iff hslash.2,
    Text.startsWith_headD_wordsOf_iff hmark.2, Text.startsWith_headD_wordsOf_iff hslash.2]

end Netlist

/-! ## Gates -/

/-- A name stands for the kind that goes by it: for one of the four that have a name of their own,
or else for that of the unknown gates with this name. -/
theorem Kind.ofName_eq_iff {name : String} {k : Kind} :
    ofName name = k ↔ k.name = name ∧
      (k ∈ [.hadamard, .phase, .phaseDagger, .cnot] ∨
        k = .named name ∧ name ∉ ["H", "P", "P_dag", "CNOT"]) := by
  constructor
  · rintro rfl
    unfold ofName
    split_ifs <;> simp [Kind.name, *]
  · rintro ⟨rfl, hk | ⟨hk, hname⟩⟩
    · simp only [List.mem_cons, List.not_mem_nil, or_false] at hk
      rcases hk with rfl | rfl | rfl | rfl <;> rfl
    · simp only [List.mem_cons, List.not_mem_nil, or_false, not_or] at hname
      rw [ofName, if_neg hname.1, if_neg hname.2.1, if_neg hname.2.2.1, if_neg hname.2.2.2, ← hk]

namespace Gate

/-- A legible gate begins its line with a word that says something and declares nothing. -/
theorem Legible.name {g : Gate} (h : g.Legible) :
    IsWord g.name.toList ∧ Netlist.isSilent g.name.toList = false ∧ g.name ≠ "INIT" := by
  have hword : ∀ w : String, w.toList ≠ [] → w.toList.all Text.isPlain = true →
      Netlist.isSilent w.toList = false → w ≠ "INIT" →
      IsWord w.toList ∧ Netlist.isSilent w.toList = false ∧ w ≠ "INIT" :=
    fun w hne hplain hsilent hinit => ⟨Text.isWord_of_isPlain hne hplain, hsilent, hinit⟩
  unfold Legible at h
  unfold Gate.name Kind.name
  cases hk : g.kind with
  | hadamard => exact hword "H" (by decide) (by decide) (by decide) (by decide)
  | phase => exact hword "P" (by decide) (by decide) (by decide) (by decide)
  | phaseDagger => exact hword "P_dag" (by decide) (by decide) (by decide) (by decide)
  | cnot => exact hword "CNOT" (by decide) (by decide) (by decide) (by decide)
  | rotation θ => exact hword "R_z" (by decide) (by decide) (by decide) (by decide)
  | named name =>
      rw [hk] at h
      have hname : IsName name := h
      refine ⟨hname.isWord, Bool.eq_false_iff.2 fun hsilent => ?_, fun he => ?_⟩
      · rcases Netlist.isSilent_eq_true_iff.1 hsilent with hnil | hmark | hslash
        · exact hname.isWord.1 hnil
        · exact hname.notComment.1 hmark
        · exact hname.notComment.2 hslash
      · exact hname.notReserved (by simp [he])
  | removed =>
      rw [hk] at h
      exact h.elim

theorem isWord_of_mem_toWords {g : Gate} (h : g.Legible) {w : String} (hw : w ∈ g.toWords) :
    IsWord w.toList := by
  simp only [toWords, List.cons_append, List.mem_cons, List.mem_append, Option.mem_toList,
    Option.map_eq_some_iff, List.mem_map] at hw
  rcases hw with rfl | ⟨θ, -, rfl⟩ | ⟨x, -, rfl⟩
  · exact h.name.1
  · exact Angle.isWord_render θ
  · exact Text.isWord_toString x.toNat

theorem readWire_operand (w : Wire) : readWire (operand w) = .ok w := by
  rw [readWire, operand, Text.natural?_toString w.toNat_lt]
  exact congrArg Except.ok UInt32.ofNat_toNat

theorem mapM_readWire_operand (ws : List Wire) : (ws.map operand).mapM readWire = .ok ws := by
  induction ws with
  | nil => rfl
  | cons w ws ih => rw [List.map_cons, List.mapM_cons, readWire_operand, ih]; rfl

/-- A gate other than a rotation is read from its name and wires. -/
theorem ofWords_wires {name : String} (hname : name ≠ "R_z") (controls : List Wire)
    (target : Wire) :
    ofWords (name :: (controls ++ [target]).map operand)
      = .ok ⟨.ofName name, target, controls⟩ := by
  rw [ofWords, if_neg hname, List.map_append, List.map_singleton, List.getLast?_concat]
  simp only [List.dropLast_concat, mapM_readWire_operand, readWire_operand]
  rfl

theorem Legible.ofName_name {g : Gate} (h : g.Legible) (hrot : ∀ θ, g.kind ≠ .rotation θ) :
    g.name ≠ "R_z" ∧ Kind.ofName g.name = g.kind := by
  unfold Legible at h
  unfold Gate.name
  cases hk : g.kind with
  | named name =>
      rw [hk] at h
      have hname := IsName.notReserved h
      simp only [List.mem_cons, List.not_mem_nil, or_false, not_or] at hname
      obtain ⟨hH, hP, hPdag, hCnot, hRz, -⟩ := hname
      refine ⟨hRz, Kind.ofName_eq_iff.2 ⟨rfl, Or.inr ⟨rfl, ?_⟩⟩⟩
      simp [Kind.name, hH, hP, hPdag, hCnot]
  | rotation θ => exact absurd hk (hrot θ)
  | removed =>
      rw [hk] at h
      exact h.elim
  | _ => exact ⟨by decide, rfl⟩

/-- A legible gate is read back, as well as its angle is. -/
theorem ofWords_toWords {R : Angle → Angle → Prop} {g : Gate} (h : g.Legible)
    (hread : ∀ θ, g.kind = .rotation θ → θ.ReadsAs R) :
    ∃ k, ofWords g.toWords = .ok k ∧ Agrees R k g := by
  obtain ⟨kind, target, controls⟩ := g
  by_cases hrot : ∃ θ, kind = .rotation θ
  · obtain ⟨θ, rfl⟩ := hrot
    obtain rfl : controls = [] := h
    obtain ⟨y, hy, hyθ⟩ := hread θ rfl
    refine ⟨⟨.rotation y, target, []⟩, ?_, .rotation target [] hyθ⟩
    show readRotation [θ.render, operand target] = _
    simp only [readRotation, hy, readWire_operand]
    rfl
  · have hrot' : ∀ θ, kind ≠ .rotation θ := fun θ hθ => hrot ⟨θ, hθ⟩
    obtain ⟨hname, hkind⟩ := h.ofName_name hrot'
    have hangle : kind.angle? = none := by
      cases kind with
      | rotation θ => exact absurd rfl (hrot' θ)
      | _ => rfl
    refine ⟨⟨kind, target, controls⟩, ?_, .other hrot'⟩
    rw [toWords, hangle]
    exact (ofWords_wires hname controls target).trans (by rw [hkind])

theorem exists_of_bind_eq_ok {ε α β : Type} {x : Except ε α} {f : α → Except ε β} {b : β}
    (h : (x >>= f) = .ok b) : ∃ a, x = .ok a ∧ f a = .ok b := by
  cases x with
  | error e => cases h
  | ok a => exact ⟨a, rfl, h⟩

/-- A rotation is read without controls. -/
theorem legible_of_readRotation {operands : List String} {g : Gate}
    (h : readRotation operands = .ok g) : g.Legible := by
  unfold readRotation at h
  split at h
  · split at h
    · cases h
    · obtain ⟨t, -, hg⟩ := exists_of_bind_eq_ok h
      cases hg
      exact rfl
  · cases h

theorem kind_of_ofWords {name : String} {operands : List String} {g : Gate} (hname : name ≠ "R_z")
    (h : ofWords (name :: operands) = .ok g) : g.kind = .ofName name := by
  rw [ofWords, if_neg hname] at h
  split at h
  · cases h
  · obtain ⟨cs, -, h⟩ := exists_of_bind_eq_ok h
    obtain ⟨t, -, hg⟩ := exists_of_bind_eq_ok h
    cases hg
    rfl

/-- A word that begins no comment and no declaration is read as a legible gate, if as any. -/
theorem legible_of_ofWords {name : String} {operands : List String} {g : Gate}
    (hword : IsWord name.toList) (hsilent : Netlist.isSilent name.toList = false)
    (hinit : name ≠ "INIT") (h : ofWords (name :: operands) = .ok g) : g.Legible := by
  by_cases hname : name = "R_z"
  · rw [ofWords, if_pos hname] at h
    exact legible_of_readRotation h
  · have hcomment : ¬ ['#'] <+: name.toList ∧ ¬ ['/', '/'] <+: name.toList := by
      rw [← not_or]
      intro hstart
      rw [Netlist.isSilent_eq_true_iff.2 (Or.inr hstart)] at hsilent
      cases hsilent
    unfold Legible
    rw [kind_of_ofWords hname h]
    rcases (Kind.ofName_eq_iff.1 rfl).2 with hknown | ⟨hnamed, hnot⟩
    · simp only [List.mem_cons, List.not_mem_nil, or_false] at hknown
      rcases hknown with hk | hk | hk | hk <;> rw [hk] <;> trivial
    · simp only [List.mem_cons, List.not_mem_nil, or_false, not_or] at hnot
      rw [hnamed]
      exact ⟨hword, by simp [hnot, hname, hinit], hcomment⟩

end Gate

/-! ## Netlists -/

namespace Netlist

/-- A line is a comment if its first word begins one. -/
theorem isSilent_of_words {line name : String} {operands : List String}
    (h : Text.words line = name :: operands) :
    isSilent (Text.trimmed line.toList) = isSilent name.toList := by
  rw [isSilent_trimmed]
  obtain ⟨w, ws, hw, rfl, -⟩ := List.map_eq_cons_iff.1 h
  rw [hw, List.headD_cons, String.toList_ofList]

/-- The line of a legible gate adds this gate, as well as its angle is read back. -/
theorem readLine_render {R : Angle → Angle → Prop} {g : Gate} (h : g.Legible)
    (hread : ∀ θ, g.kind = .rotation θ → θ.ReadsAs R) (n : Netlist) :
    ∃ k, readLine (some n) g.render = .ok (some { n with gates := n.gates ++ [k] }) ∧
      Gate.Agrees R k g := by
  obtain ⟨-, hsilent, hinit⟩ := h.name
  obtain ⟨k, hk, hagrees⟩ := Gate.ofWords_toWords h hread
  have hwords : Text.words g.render = g.toWords :=
    Text.words_unwords fun w hw => Gate.isWord_of_mem_toWords h hw
  refine ⟨k, ?_, hagrees⟩
  unfold readLine
  rw [isSilent_of_words hwords, if_neg (Bool.eq_false_iff.1 hsilent), hwords]
  split
  · rename_i hw _
    exact absurd (List.cons.inj hw).1 hinit
  · rename_i hn
    cases hn
  · rename_i hn _
    cases hn
  · rename_i hn _
    cases hn
    rw [hk]

theorem isWord_of_mem_declaration {width : Nat} {w : String} (hw : w ∈ ["INIT", toString width]) :
    IsWord w.toList := by
  rcases List.mem_pair.1 hw with rfl | rfl
  · exact Text.isWord_of_isPlain (by decide) (by decide)
  · exact Text.isWord_toString width

/-- The declaration is read as the number of wires it was written for. -/
theorem readLine_declaration {width : Nat} (h : width ≤ maxWidth) :
    readLine none (Text.unwords ["INIT", toString width]) = .ok (some ⟨width, []⟩) := by
  have hwords : Text.words (Text.unwords ["INIT", toString width]) = ["INIT", toString width] :=
    Text.words_unwords fun w hw => isWord_of_mem_declaration hw
  have hwidth : readWidth [toString width] = .ok width := by
    rw [readWidth, Text.natural?_toString (h.trans_lt (by decide))]
    exact if_neg (Nat.not_lt.2 h)
  unfold readLine
  rw [isSilent_of_words hwords, if_neg (by decide), hwords]
  show (readWidth [toString width]).map _ = _
  rw [hwidth]
  rfl

theorem readLines_render {R : Angle → Angle → Prop} {gs : List Gate} (h : ∀ g ∈ gs, g.Legible)
    (hread : ∀ g ∈ gs, ∀ θ, g.kind = .rotation θ → θ.ReadsAs R) (line : Nat) (n : Netlist) :
    ∃ ks, readLines line (some n) (gs.map Gate.render) = .ok { n with gates := n.gates ++ ks } ∧
      List.Forall₂ (Gate.Agrees R) ks gs := by
  induction gs generalizing line n with
  | nil => exact ⟨[], by rw [List.append_nil]; rfl, .nil⟩
  | cons g gs ih =>
      obtain ⟨hg, hgs⟩ := List.forall_mem_cons.1 h
      obtain ⟨hreadg, hreadgs⟩ := List.forall_mem_cons.1 hread
      obtain ⟨k, hk, hagrees⟩ := readLine_render hg hreadg n
      obtain ⟨ks, hks, hrest⟩ := ih hgs hreadgs (line + 1) { n with gates := n.gates ++ [k] }
      refine ⟨k :: ks, ?_, .cons hagrees hrest⟩
      rw [List.map_cons, readLines, hk]
      simpa using hks

/-- A netlist of legible gates is read back, as well as its angles are. -/
theorem read_render {R : Angle → Angle → Prop} {n : Netlist} (hwidth : n.width ≤ maxWidth)
    (h : ∀ g ∈ n.gates, g.Legible)
    (hread : ∀ g ∈ n.gates, ∀ θ, g.kind = .rotation θ → θ.ReadsAs R) :
    ∃ ks, read n.render = .ok ⟨n.width, ks⟩ ∧ List.Forall₂ (Gate.Agrees R) ks n.gates := by
  obtain ⟨ks, hks, hagrees⟩ := readLines_render h hread 2 ⟨n.width, []⟩
  refine ⟨ks, ?_, hagrees⟩
  have hlines : Text.lines n.render
      = Text.unwords ["INIT", toString n.width] :: n.gates.map Gate.render := by
    refine Text.lines_unlines fun l hl c hc => ?_
    rcases List.mem_cons.1 hl with rfl | hl
    · exact Text.ne_of_mem_unwords (fun w hw => isWord_of_mem_declaration hw) hc
    · obtain ⟨g, hg, rfl⟩ := List.mem_map.1 hl
      exact Text.ne_of_mem_unwords (fun w hw => Gate.isWord_of_mem_toWords (h g hg) hw) hc
  rw [read, hlines, readLines, readLine_declaration hwidth]
  exact hks

/-- What a text can say: wires that indices tell apart, and legible gates. -/
structure Legible (n : Netlist) : Prop where
  width : n.width ≤ maxWidth
  gates : ∀ g ∈ n.gates, g.Legible

theorem legible_of_readWidth {operands : List String} {width : Nat}
    (h : readWidth operands = .ok width) : Legible ⟨width, []⟩ := by
  refine ⟨?_, by simp⟩
  unfold readWidth at h
  split at h
  · split at h
    · cases h
    · split_ifs at h with hlarge
      cases h
      exact Nat.not_lt.1 hlarge
  · cases h

theorem Legible.concat {n : Netlist} {g : Gate} (h : n.Legible) (hg : g.Legible) :
    Legible { n with gates := n.gates ++ [g] } := by
  refine ⟨h.width, fun k hk => ?_⟩
  rcases List.mem_append.1 hk with hk | hk
  · exact h.gates k hk
  · exact List.mem_singleton.1 hk ▸ hg

/-- The gate of a line that says something and declares nothing is legible. -/
theorem legible_of_words {line : String} {g : Gate}
    (hsilent : isSilent (Text.trimmed line.toList) = false)
    (hinit : ∀ operands, Text.words line ≠ "INIT" :: operands)
    (hg : Gate.ofWords (Text.words line) = .ok g) : g.Legible := by
  cases hwords : Text.words line with
  | nil =>
      rw [hwords] at hg
      cases hg
  | cons name operands =>
      rw [hwords] at hg
      rw [isSilent_of_words hwords] at hsilent
      refine Gate.legible_of_ofWords ?_ hsilent ?_ hg
      · exact Text.isWord_of_mem_words (hwords ▸ List.mem_cons_self)
      · rintro rfl
        exact hinit operands hwords

/-- A line keeps what was read so far legible. -/
theorem legible_of_readLine {sofar next : Option Netlist} {line : String}
    (hsofar : ∀ n ∈ sofar, Legible n) (h : readLine sofar line = .ok next) :
    ∀ n ∈ next, Legible n := by
  unfold readLine at h
  split_ifs at h with hsilent
  · cases h
    exact hsofar
  · rw [Bool.not_eq_true] at hsilent
    -- a second declaration, the first one, a gate in front of it, a gate behind it
    split at h
    · cases h
    · rename_i operands hw
      cases hwidth : readWidth operands with
      | error e =>
          rw [hwidth] at h
          cases h
      | ok width =>
          rw [hwidth] at h
          cases h
          rintro n ⟨⟩
          exact legible_of_readWidth hwidth
    · cases h
    · rename_i words n hinit
      split at h
      · rename_i g hg
        cases h
        rintro m ⟨⟩
        exact (hsofar n rfl).concat (legible_of_words hsilent hinit hg)
      · cases h

theorem legible_of_readLines {line : Nat} {sofar : Option Netlist} {ls : List String} {m : Netlist}
    (hsofar : ∀ n ∈ sofar, Legible n) (h : readLines line sofar ls = .ok m) : Legible m := by
  induction ls generalizing line sofar with
  | nil =>
      cases sofar with
      | none => cases h
      | some n =>
          have hn : n = m := Except.ok.inj h
          exact hn ▸ hsofar n rfl
  | cons l ls ih =>
      rw [readLines] at h
      cases hl : readLine sofar l with
      | error e =>
          rw [hl] at h
          cases h
      | ok next =>
          rw [hl] at h
          exact ih (legible_of_readLine hsofar hl) h

/-- Only legible netlists are ever read. -/
theorem legible_of_read {source : String} {m : Netlist} (h : read source = .ok m) : Legible m := by
  refine legible_of_readLines ?_ h
  intro n hn
  cases hn

/-- A legible netlist without the one angle that differs from itself is read back. -/
theorem Legible.read_render {n : Netlist} (h : n.Legible) (hnan : ∀ g ∈ n.gates, ¬ g.IsNaN)
    (hread : ∀ g ∈ n.gates, ∀ θ, g.kind = .rotation θ → θ.isNaN = false → θ.ReadsBack) :
    ∃ m, read n.render = .ok m ∧ (m == n) = true := by
  obtain ⟨ks, hks, hagrees⟩ := Netlist.read_render h.width h.gates fun g hg θ hθ => by
    refine hread g hg θ hθ ?_
    rw [← Bool.not_eq_true]
    exact fun hθnan => hnan g hg ⟨θ, hθ, hθnan⟩
  exact ⟨_, hks, beq_iff.2 ⟨rfl, Gate.Agrees.list_beq hagrees⟩⟩

/-- Equality carries legibility over, and no angle that differs from itself takes part in it. -/
theorem Legible.of_beq {m n : Netlist} (hm : m.Legible) (h : (m == n) = true) :
    n.Legible ∧ ∀ g ∈ n.gates, ¬ g.IsNaN := by
  obtain ⟨hwidth, hgates⟩ := beq_iff.1 h
  have hgate := Gate.legible_of_list_beq hgates hm.gates
  exact ⟨⟨hwidth ▸ hm.width, fun g hg => (hgate g hg).1⟩, fun g hg => (hgate g hg).2⟩

/-- What is written is read back exactly if the netlist is legible and has no angle that is no
number. Every netlist that was read is legible. -/
theorem read_render_iff (n : Netlist)
    (hread : ∀ g ∈ n.gates, ∀ θ, g.kind = .rotation θ → θ.isNaN = false → θ.ReadsBack) :
    ((∃ m, read n.render = .ok m ∧ (m == n) = true) ↔
      n.width ≤ 2 ^ 32 ∧ ∀ g ∈ n.gates, g.Legible ∧ ¬ g.IsNaN) ∧
    ∀ source, read source = .ok n → (∀ g ∈ n.gates, ¬ g.IsNaN) →
      ∃ m, read n.render = .ok m ∧ (m == n) = true := by
  refine ⟨⟨?_, ?_⟩, ?_⟩
  · rintro ⟨m, hm, hbeq⟩
    obtain ⟨hn, hnan⟩ := (legible_of_read hm).of_beq hbeq
    exact ⟨hn.width, fun g hg => ⟨hn.gates g hg, hnan g hg⟩⟩
  · rintro ⟨hwidth, hgates⟩
    have hn : n.Legible := ⟨hwidth, fun g hg => (hgates g hg).1⟩
    exact hn.read_render (fun g hg => (hgates g hg).2) hread
  · intro source hsource hnan
    exact (legible_of_read hsource).read_render hnan hread

/-- A rotation by a negative angle, a gate with two controls and a name that begins with a slash
are read back. -/
theorem read_render_iff_slash :
    let n : Netlist := ⟨3, [⟨.hadamard, 0, []⟩, ⟨.rotation (-0.5), 1, []⟩, ⟨.cnot, 2, [0, 1]⟩,
      ⟨.named "/x", 2, []⟩]⟩
    ∃ m, read n.render = .ok m ∧ (m == n) = true := by
  intro n
  have hhalf : Angle.ReadsBack (-0.5) := by
    refine ⟨-0.5, ?_, ?_⟩
    · decide +kernel
    · decide +kernel
  refine (read_render_iff n ?_).1.2 ⟨by decide, ?_⟩
  · intro g hg θ hθ _
    simp only [n, List.mem_cons, List.not_mem_nil, or_false] at hg
    rcases hg with rfl | rfl | rfl | rfl
    · cases hθ
    · cases hθ
      exact hhalf
    · cases hθ
    · cases hθ
  · intro g hg
    simp only [n, List.mem_cons, List.not_mem_nil, or_false] at hg
    rcases hg with rfl | rfl | rfl | rfl
    · exact ⟨trivial, by rintro ⟨θ, ⟨⟩, _⟩⟩
    · refine ⟨rfl, ?_⟩
      rintro ⟨θ, ⟨⟩, hnan⟩
      exact absurd hnan (by decide +kernel)
    · exact ⟨trivial, by rintro ⟨θ, ⟨⟩, _⟩⟩
    · refine ⟨⟨Text.isWord_of_isPlain (by decide) (by decide), by decide, by decide⟩, ?_⟩
      rintro ⟨θ, ⟨⟩, _⟩

end Netlist

end Peephole
