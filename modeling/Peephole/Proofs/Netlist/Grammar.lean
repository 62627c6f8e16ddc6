import Peephole.Proofs.Netlist.RoundTrip
import Peephole.Proofs.Numeral

/-!
# The grammar of netlists

A text is read exactly if its lines have the form of a netlist. Lines are read one after another,
and there is always a way to go on from lines that were read, so an error is found in the first
line with which no netlist can begin, and it does not depend on what follows that line.

* `Gate.Instruction`, `Netlist.Describes`: the grammar, with what the words and the lines stand for.
* `Gate.ofWords_eq_ok_iff`, `readLine_none_eq_ok_iff`, `readLine_some_eq_ok_iff`: one line.
* `Reads`, `BreaksAt`: some lines that are read, and the first that is not.
* `reads_none_iff`: the lines of a netlist are read, and no others.
-/

namespace Peephole

open Text (Numeral)

/-! ## Instructions -/

namespace Gate

/-- The gate that words stand for: the rotation by an angle, or the gate of any other name, which
has at least one wire behind it. -/
inductive Instruction : List String → Gate → Prop
  | rotation {angle token : String} {θ : Angle} {target : Wire}
      (hangle : Angle.read? angle = some θ) (htarget : Numeral token target.toNat) :
      Instruction ["R_z", angle, token] ⟨.rotation θ, target, []⟩
  | wires {name token : String} {tokens : List String} {controls : List Wire} {target : Wire}
      (hname : name ≠ "R_z")
      (hcontrols : List.Forall₂ (fun token w => Numeral token w.toNat) tokens controls)
      (htarget : Numeral token target.toNat) :
      Instruction (name :: (tokens ++ [token])) ⟨.ofName name, target, controls⟩

theorem readWire_eq_ok_iff {token : String} {w : Wire} :
    readWire token = .ok w ↔ Numeral token w.toNat := by
  unfold readWire
  constructor
  · intro h
    split at h
    · rename_i n hn
      obtain ⟨hnumeral, hlt⟩ := Text.natural?_eq_some_iff.1 hn
      obtain rfl := Except.ok.inj h
      rwa [UInt32.toNat_ofNat_of_lt' hlt]
    · cases h
  · intro h
    rw [Text.natural?_eq_some_iff.2 ⟨h, w.toNat_lt⟩]
    exact congrArg Except.ok UInt32.ofNat_toNat

theorem mapM_readWire_eq_ok_iff {tokens : List String} {ws : List Wire} :
    tokens.mapM readWire = .ok ws ↔
      List.Forall₂ (fun token w => Numeral token w.toNat) tokens ws := by
  induction tokens generalizing ws with
  | nil =>
      rw [List.mapM_nil, List.forall₂_nil_left_iff]
      exact ⟨fun h => (Except.ok.inj h).symm, fun h => congrArg Except.ok h.symm⟩
  | cons token tokens ih =>
      rw [List.mapM_cons, List.forall₂_cons_left_iff]
      constructor
      · intro h
        obtain ⟨w, hw, h⟩ := exists_of_bind_eq_ok h
        obtain ⟨ws', hws, h⟩ := exists_of_bind_eq_ok h
        exact ⟨w, ws', readWire_eq_ok_iff.1 hw, ih.1 hws, (Except.ok.inj h).symm⟩
      · rintro ⟨w, ws', hw, hws, rfl⟩
        rw [readWire_eq_ok_iff.2 hw, ih.2 hws]
        rfl

theorem readRotation_eq_ok_iff {operands : List String} {g : Gate} :
    readRotation operands = .ok g ↔ Instruction ("R_z" :: operands) g := by
  constructor
  · intro h
    unfold readRotation at h
    split at h
    · rename_i angle token
      split at h
      · cases h
      · rename_i θ hangle
        obtain ⟨target, htarget, hg⟩ := exists_of_bind_eq_ok h
        obtain rfl := Except.ok.inj hg
        exact .rotation hangle (readWire_eq_ok_iff.1 htarget)
    · cases h
  · intro h
    cases h with
    | rotation hangle htarget =>
        simp only [readRotation, hangle, readWire_eq_ok_iff.2 htarget]
        rfl
    | wires hname => exact absurd rfl hname

/-- The words that are read as a gate are its instructions. -/
theorem ofWords_eq_ok_iff {words : List String} {g : Gate} :
    ofWords words = .ok g ↔ Instruction words g := by
  cases words with
  | nil => exact iff_of_false nofun nofun
  | cons name operands =>
      by_cases hname : name = "R_z"
      · rw [ofWords, if_pos hname, hname, readRotation_eq_ok_iff]
      · rw [ofWords, if_neg hname]
        constructor
        · intro h
          split at h
          · cases h
          · rename_i token hlast
            obtain ⟨controls, hcontrols, h⟩ := exists_of_bind_eq_ok h
            obtain ⟨target, htarget, hg⟩ := exists_of_bind_eq_ok h
            obtain rfl := Except.ok.inj hg
            rw [← List.dropLast_append_getLast? token hlast]
            exact .wires hname (mapM_readWire_eq_ok_iff.1 hcontrols) (readWire_eq_ok_iff.1 htarget)
        · intro h
          cases h with
          | rotation => exact absurd rfl hname
          | wires _ hcontrols htarget =>
              simp only [List.getLast?_concat, List.dropLast_concat,
                mapM_readWire_eq_ok_iff.2 hcontrols, readWire_eq_ok_iff.2 htarget]
              rfl

end Gate

namespace Netlist

/-! ## Lines -/

/-- The line says something: it is not blank, and no comment. -/
def Significant (line : String) : Prop :=
  Text.trimmed line.toList ≠ [] ∧
    ¬ ['#'] <+: Text.trimmed line.toList ∧ ¬ ['/', '/'] <+: Text.trimmed line.toList

/-- Whether a line says something can be decided. -/
instance : DecidablePred Significant := fun _ => inferInstanceAs (Decidable (_ ∧ _ ∧ _))

/-- The words declare a number of wires that indices can tell apart. -/
def Declares (words : List String) (width : Nat) : Prop :=
  ∃ token, words = ["INIT", token] ∧ Numeral token width ∧ width ≤ 2 ^ 32

/-- The line is the instruction of the gate, and no declaration. -/
def Adds (line : String) (g : Gate) : Prop :=
  (Text.words line).head? ≠ some "INIT" ∧ Gate.Instruction (Text.words line) g

/-- The lines are those of the netlist. Of those that say something, the first declares the width,
and the others are the instructions of the gates in their order. -/
def Describes (lines : List String) (n : Netlist) : Prop :=
  ∃ first rest, lines.filter Significant = first :: rest ∧
    Declares (Text.words first) n.width ∧ List.Forall₂ Adds rest n.gates

theorem isSilent_eq_false_iff {line : String} :
    isSilent (Text.trimmed line.toList) = false ↔ Significant line := by
  rw [← Bool.not_eq_true, isSilent_eq_true_iff, not_or, not_or]
  rfl

theorem readLine_of_not_significant {line : String} (h : ¬ Significant line)
    (s : Option Netlist) : readLine s line = .ok s := by
  rw [← isSilent_eq_false_iff, Bool.not_eq_false] at h
  unfold readLine
  exact if_pos h

theorem readWidth_eq_ok_iff {operands : List String} {width : Nat} :
    readWidth operands = .ok width ↔ Declares ("INIT" :: operands) width := by
  constructor
  · intro h
    unfold readWidth at h
    split at h
    · rename_i token
      split at h
      · cases h
      · rename_i n hn
        split_ifs at h with hmax
        obtain rfl := Except.ok.inj h
        exact ⟨token, rfl, (Text.natural?_eq_some_iff.1 hn).1, Nat.not_lt.1 hmax⟩
    · cases h
  · rintro ⟨token, hwords, hnumeral, hmax⟩
    obtain rfl := (List.cons.inj hwords).2
    have hlt : width < UInt64.size := hmax.trans_lt (by decide)
    rw [readWidth, Text.natural?_eq_some_iff.2 ⟨hnumeral, hlt⟩]
    exact if_neg (Nat.not_lt.2 hmax)

theorem readLine_of_init {line : String} (h : Significant line) {operands : List String}
    (hwords : Text.words line = "INIT" :: operands) (s : Option Netlist) :
    readLine s line =
      match s with
      | none => (readWidth operands).map fun width => some ⟨width, []⟩
      | some _ => .error .declaredTwice := by
  unfold readLine
  rw [isSilent_eq_false_iff.2 h, if_neg Bool.false_ne_true, hwords]
  cases s <;> rfl

theorem readLine_of_not_init {line : String} (h : Significant line)
    (hinit : (Text.words line).head? ≠ some "INIT") (s : Option Netlist) :
    readLine s line =
      match s with
      | none => .error .undeclared
      | some n =>
          match Gate.ofWords (Text.words line) with
          | .ok g => .ok (some { n with gates := n.gates ++ [g] })
          | .error cause => .error (.gate cause) := by
  unfold readLine
  rw [isSilent_eq_false_iff.2 h, if_neg Bool.false_ne_true]
  split
  · rename_i hwords
    exact absurd (congrArg List.head? hwords) hinit
  · rename_i hwords
    exact absurd (congrArg List.head? hwords) hinit
  · rfl
  · rfl

/-- In front of the declaration, a line that says something has to declare the width. -/
theorem readLine_none_eq_ok_iff {line : String} (h : Significant line) {s : Option Netlist} :
    readLine none line = .ok s ↔
      ∃ width, Declares (Text.words line) width ∧ s = some ⟨width, []⟩ := by
  by_cases hinit : (Text.words line).head? = some "INIT"
  · obtain ⟨operands, hwords⟩ := List.head?_eq_some_iff.1 hinit
    simp only [readLine_of_init h hwords, hwords, ← readWidth_eq_ok_iff]
    cases readWidth operands with
    | error e => exact iff_of_false nofun nofun
    | ok width => simp [Except.map, eq_comm]
  · rw [readLine_of_not_init h hinit]
    refine iff_of_false nofun ?_
    rintro ⟨width, ⟨token, hwords, -⟩, -⟩
    exact hinit (congrArg List.head? hwords)

/-- Behind the declaration, a line that says something has to be an instruction. -/
theorem readLine_some_eq_ok_iff {line : String} (h : Significant line) {n : Netlist}
    {s : Option Netlist} :
    readLine (some n) line = .ok s ↔
      ∃ g, Adds line g ∧ s = some { n with gates := n.gates ++ [g] } := by
  by_cases hinit : (Text.words line).head? = some "INIT"
  · obtain ⟨operands, hwords⟩ := List.head?_eq_some_iff.1 hinit
    rw [readLine_of_init h hwords]
    refine iff_of_false nofun ?_
    rintro ⟨g, ⟨hother, -⟩, -⟩
    exact hother hinit
  · simp only [readLine_of_not_init h hinit, Adds, ← Gate.ofWords_eq_ok_iff]
    cases Gate.ofWords (Text.words line) with
    | error cause => exact iff_of_false nofun nofun
    | ok g => simp [hinit, eq_comm]

/-! ## Texts -/

/-- Reading the lines leads from one state to another, and none of them is wrong. -/
inductive Reads : Option Netlist → List String → Option Netlist → Prop
  | nil {s : Option Netlist} : Reads s [] s
  | cons {s t u : Option Netlist} {l : String} {ls : List String} (hl : readLine s l = .ok t)
      (hls : Reads t ls u) : Reads s (l :: ls) u

/-- The line with this number is the first that is wrong. -/
def BreaksAt (lines : List String) (k : Nat) (cause : LineError) : Prop :=
  ∃ front line rest s, lines = front ++ line :: rest ∧ k = front.length + 1 ∧
    Reads none front s ∧ readLine s line = .error cause

/-- Some text that is accepted begins with the lines. -/
def Extendable (lines : List String) : Prop :=
  ∃ source n, lines <+: Text.lines source ∧ read source = .ok n

namespace Reads

variable {s t u : Option Netlist} {ls : List String}

theorem append (h : Reads s ls t) {rest : List String} (hrest : Reads t rest u) :
    Reads s (ls ++ rest) u := by
  induction h with
  | nil => exact hrest
  | cons hl _ ih => exact .cons hl (ih hrest)

theorem take (h : Reads s ls t) (j : Nat) : ∃ u, Reads s (ls.take j) u := by
  induction h generalizing j with
  | nil => exact ⟨_, by rw [List.take_nil]; exact .nil⟩
  | cons hl _ ih =>
      cases j with
      | zero => exact ⟨_, .nil⟩
      | succ j =>
          obtain ⟨u, hu⟩ := ih j
          exact ⟨u, .cons hl hu⟩

/-- Lines are numbered on behind those that were read. -/
theorem readLines_append (h : Reads s ls t) (k : Nat) (rest : List String) :
    readLines k s (ls ++ rest) = readLines (k + ls.length) t rest := by
  induction h generalizing k with
  | nil => rfl
  | cons hl _ ih =>
      rw [List.cons_append, readLines, hl]
      simp only [ih, List.length_cons]
      congr 1
      omega

theorem readLines_eq (h : Reads s ls t) (k : Nat) : readLines k s ls = readLines k t [] := by
  rw [← List.append_nil ls, h.readLines_append]
  rfl

end Reads

theorem exists_reads_declaration :
    ∃ l : String, '\n' ∉ l.toList ∧ Reads none [l] (some ⟨1, []⟩) :=
  ⟨Text.unwords ["INIT", toString 1], by decide +kernel,
    .cons (readLine_declaration (by decide)) .nil⟩

theorem reads_or_breaksAt (ls : List String) :
    (∃ s, Reads none ls s) ∨ ∃ k cause, BreaksAt ls k cause := by
  -- from the end: what was read so far is read on with one line more
  induction ls using List.reverseRecOn with
  | nil => exact Or.inl ⟨none, .nil⟩
  | append_singleton ls l ih =>
      rcases ih with ⟨s, hs⟩ | ⟨k, cause, front, line, rest, s, rfl, hk, hs, hline⟩
      · cases hl : readLine s l with
        | ok t => exact Or.inl ⟨t, hs.append (.cons hl .nil)⟩
        | error cause => exact Or.inr ⟨_, cause, ls, l, [], s, rfl, rfl, hs, hl⟩
      · exact Or.inr ⟨k, cause, front, line, rest ++ [l], s, by simp, hk, hs, hline⟩

theorem reads_nil_iff {s t : Option Netlist} : Reads s [] t ↔ t = s := by
  constructor
  · rintro ⟨⟩
    rfl
  · rintro rfl
    exact .nil

theorem reads_cons_iff {s u : Option Netlist} {l : String} {ls : List String} :
    Reads s (l :: ls) u ↔ ∃ t, readLine s l = .ok t ∧ Reads t ls u := by
  constructor
  · rintro (_ | ⟨hl, hls⟩)
    exact ⟨_, hl, hls⟩
  · rintro ⟨t, hl, hls⟩
    exact .cons hl hls

theorem reads_cons_of_not_significant {s u : Option Netlist} {l : String} {ls : List String}
    (h : ¬ Significant l) : Reads s (l :: ls) u ↔ Reads s ls u := by
  simp [reads_cons_iff, readLine_of_not_significant h]

/-- Behind the declaration, lines add the gates whose instructions they are. -/
theorem reads_some_iff {n : Netlist} {ls : List String} {s : Option Netlist} :
    Reads (some n) ls s ↔
      ∃ gs, List.Forall₂ Adds (ls.filter Significant) gs ∧
        s = some { n with gates := n.gates ++ gs } := by
  induction ls generalizing n with
  | nil => simp [reads_nil_iff]
  | cons l ls ih =>
      by_cases hl : Significant l
      · rw [List.filter_cons_of_pos (by simpa using hl), reads_cons_iff]
        constructor
        · rintro ⟨t, ht, hls⟩
          obtain ⟨g, hg, rfl⟩ := (readLine_some_eq_ok_iff hl).1 ht
          obtain ⟨gs, hgs, rfl⟩ := ih.1 hls
          exact ⟨g :: gs, .cons hg hgs, by simp⟩
        · rintro ⟨gs, hgs, rfl⟩
          obtain ⟨g, gs, hg, htail, rfl⟩ := List.forall₂_cons_left_iff.1 hgs
          exact ⟨_, (readLine_some_eq_ok_iff hl).2 ⟨g, hg, rfl⟩, ih.2 ⟨gs, htail, by simp⟩⟩
      · rw [List.filter_cons_of_neg (by simpa using hl), reads_cons_of_not_significant hl, ih]

/-- The lines that are read as a netlist are those that describe it. -/
theorem reads_none_iff {ls : List String} {n : Netlist} :
    Reads none ls (some n) ↔ Describes ls n := by
  induction ls with
  | nil => simp [reads_nil_iff, Describes]
  | cons l ls ih =>
      by_cases hl : Significant l
      · rw [Describes, List.filter_cons_of_pos (by simpa using hl), reads_cons_iff]
        constructor
        · rintro ⟨t, ht, hls⟩
          obtain ⟨width, hwidth, rfl⟩ := (readLine_none_eq_ok_iff hl).1 ht
          obtain ⟨gs, hgs, hn⟩ := reads_some_iff.1 hls
          obtain rfl := Option.some.inj hn
          exact ⟨l, _, rfl, hwidth, hgs⟩
        · rintro ⟨first, rest, hfilter, hwidth, hgs⟩
          obtain ⟨rfl, rfl⟩ := List.cons.inj hfilter
          exact ⟨_, (readLine_none_eq_ok_iff hl).2 ⟨_, hwidth, rfl⟩,
            reads_some_iff.2 ⟨_, hgs, rfl⟩⟩
      · rw [reads_cons_of_not_significant hl, ih, Describes, Describes,
          List.filter_cons_of_neg (by simpa using hl)]

theorem reads_none_none_iff {ls : List String} :
    Reads none ls none ↔ ∀ l ∈ ls, ¬ Significant l := by
  induction ls with
  | nil => simp [reads_nil_iff]
  | cons l ls ih =>
      rw [List.forall_mem_cons]
      by_cases hl : Significant l
      · refine iff_of_false (fun h => ?_) fun h => h.1 hl
        obtain ⟨t, ht, hls⟩ := reads_cons_iff.1 h
        obtain ⟨width, -, rfl⟩ := (readLine_none_eq_ok_iff hl).1 ht
        obtain ⟨gs, -, hnone⟩ := reads_some_iff.1 hls
        cases hnone
      · rw [reads_cons_of_not_significant hl, ih, and_iff_right hl]

namespace BreaksAt

variable {lines : List String} {k : Nat} {cause : LineError}

theorem readLines_eq (h : BreaksAt lines k cause) :
    readLines 1 none lines = .error (.atLine k cause) := by
  obtain ⟨front, line, rest, s, rfl, rfl, hs, hline⟩ := h
  rw [hs.readLines_append, Nat.add_comm, readLines, hline]

/-- Only the lines up to the wrong one matter. -/
theorem of_take_prefix (h : BreaksAt lines k cause) {others : List String}
    (hothers : lines.take k <+: others) : BreaksAt others k cause := by
  obtain ⟨front, line, rest, s, rfl, rfl, hs, hline⟩ := h
  obtain ⟨rest', rfl⟩ := hothers
  exact ⟨front, line, rest', s, by simp [List.take_append], rfl, hs, hline⟩

theorem reads_take (h : BreaksAt lines k cause) {j : Nat} (hj : j < k) :
    ∃ s, Reads none (lines.take j) s := by
  obtain ⟨front, line, rest, s, rfl, rfl, hs, hline⟩ := h
  rw [List.take_append_of_le_length (Nat.le_of_lt_succ hj)]
  exact hs.take j

theorem le_length (h : BreaksAt lines k cause) : 1 ≤ k ∧ k ≤ lines.length := by
  obtain ⟨front, line, rest, s, rfl, rfl, hs, hline⟩ := h
  simp

end BreaksAt

theorem read_eq_ok_iff_describes {source : String} {n : Netlist} :
    read source = .ok n ↔ Describes (Text.lines source) n := by
  rw [← reads_none_iff]
  constructor
  · intro h
    rcases reads_or_breaksAt (Text.lines source) with ⟨s, hs⟩ | ⟨k, cause, hbreaks⟩
    · rw [read, hs.readLines_eq] at h
      cases s with
      | none => cases h
      | some m =>
          obtain rfl := Except.ok.inj h
          exact hs
    · rw [read, hbreaks.readLines_eq] at h
      cases h
  · intro h
    rw [read, h.readLines_eq]
    rfl

/-- Lines that were read can be followed by others so that a netlist is read: by none if the width
is declared, and otherwise by the declaration. -/
theorem Reads.extendable {ls : List String} {s : Option Netlist} (h : Reads none ls s)
    (hls : ∀ l ∈ ls, '\n' ∉ l.toList) : Extendable ls := by
  cases s with
  | some n =>
      obtain ⟨source, hsource⟩ := Text.exists_lines_eq hls
      refine ⟨source, n, by rw [hsource], ?_⟩
      rwa [read_eq_ok_iff_describes, hsource, ← reads_none_iff]
  | none =>
      obtain ⟨l, hl, hdeclares⟩ := exists_reads_declaration
      have hall : ∀ k ∈ ls ++ [l], '\n' ∉ k.toList :=
        List.forall_mem_append.2 ⟨hls, List.forall_mem_singleton.2 hl⟩
      obtain ⟨source, hsource⟩ := Text.exists_lines_eq hall
      refine ⟨source, ⟨1, []⟩, by rw [hsource]; exact List.prefix_append _ _, ?_⟩
      rw [read_eq_ok_iff_describes, hsource, ← reads_none_iff]
      exact h.append hdeclares

/-- A text is accepted exactly if its lines describe a netlist, which is what it is read as. A text
in which no line says anything has no declaration. In any other text that is not accepted, there is
a first line with which no accepted text goes on; the error has its number, counted from one over
all lines, and is the same for every text that begins with the lines up to this one.

An angle, in an instruction, is a token of the grammar of angles. -/
theorem read_accepts_grammar (source : String) :
    (∀ n, read source = .ok n ↔ Describes (Text.lines source) n) ∧
      ((∀ l ∈ Text.lines source, ¬ Significant l) → read source = .error .undeclared) ∧
      ((∃ l ∈ Text.lines source, Significant l) → (∀ n, ¬ Describes (Text.lines source) n) →
        ∃ k cause, read source = .error (.atLine k cause) ∧
          1 ≤ k ∧ k ≤ (Text.lines source).length ∧
          ¬ Extendable ((Text.lines source).take k) ∧
          (∀ j < k, Extendable ((Text.lines source).take j)) ∧
          ∀ other, (Text.lines source).take k <+: Text.lines other →
            read other = .error (.atLine k cause)) ∧
      ∀ token, (∃ θ, Angle.read? token = some θ) ↔ Angle.IsToken token := by
  refine ⟨fun n => read_eq_ok_iff_describes, fun hsilent => ?_, fun hsome hnone => ?_,
    fun token => Option.isSome_iff_exists.symm.trans Angle.isSome_read?_iff⟩
  · rw [read, (reads_none_none_iff.2 hsilent).readLines_eq]
    rfl
  · rcases reads_or_breaksAt (Text.lines source) with ⟨s, hs⟩ | ⟨k, cause, hbreaks⟩
    · cases s with
      | none =>
          obtain ⟨l, hl, hsignificant⟩ := hsome
          exact absurd hsignificant (reads_none_none_iff.1 hs l hl)
      | some n => exact absurd (reads_none_iff.1 hs) (hnone n)
    · have hsame : ∀ other, (Text.lines source).take k <+: Text.lines other →
          read other = .error (.atLine k cause) := fun other hother =>
        (hbreaks.of_take_prefix hother).readLines_eq
      refine ⟨k, cause, hbreaks.readLines_eq, hbreaks.le_length.1, hbreaks.le_length.2, ?_,
        fun j hj => ?_, hsame⟩
      · rintro ⟨other, n, hother, hread⟩
        rw [hsame other hother] at hread
        cases hread
      · obtain ⟨s, hs⟩ := hbreaks.reads_take hj
        exact hs.extendable fun l hl => Text.not_mem_of_mem_lines (List.mem_of_mem_take hl)

/-- A text with gates of every kind, blanks around and between the words, and comments, is accepted.
In the other text the fifth line names a wire by a letter. The comment and the blank line count as
lines, and what stands in front of the fifth could have gone on in another way. -/
theorem read_accepts_grammar_texts :
    (∃ source, Text.lines source = ["INIT 3", "", "\t# every kind", "  H +0 ", "P 1", "P_dag 2",
        "CNOT 0 1\t2", "R_z -0.5 1", "T 002 0", "// end"] ∧
      Describes (Text.lines source) ⟨3, [⟨.hadamard, 0, []⟩, ⟨.phase, 1, []⟩, ⟨.phaseDagger, 2, []⟩,
        ⟨.cnot, 2, [0, 1]⟩, ⟨.rotation (-0.5), 1, []⟩, ⟨.named "T", 0, [2]⟩]⟩) ∧
    ∃ source, Text.lines source = ["# two wires", "INIT 2", "H +0", "", "CNOT x 1", "H 1"] ∧
      (∃ l ∈ Text.lines source, Significant l) ∧
      (∀ n, ¬ Describes (Text.lines source) n) ∧
      read source = .error (.atLine 5 (.gate (.badWire "x"))) ∧
      ¬ Extendable ["# two wires", "INIT 2", "H +0", "", "CNOT x 1"] ∧
      Extendable ["# two wires", "INIT 2", "H +0", ""] := by
  constructor
  · have hread : read ("INIT 3\n\n\t# every kind\n  H +0 \nP 1\r\nP_dag 2\n"
          ++ "CNOT 0 1\t2\nR_z -0.5 1\nT 002 0\n// end")
        = .ok ⟨3, [⟨.hadamard, 0, []⟩, ⟨.phase, 1, []⟩, ⟨.phaseDagger, 2, []⟩, ⟨.cnot, 2, [0, 1]⟩,
          ⟨.rotation (-0.5), 1, []⟩, ⟨.named "T", 0, [2]⟩]⟩ := rfl
    exact ⟨_, by decide +kernel, ((read_accepts_grammar _).1 _).1 hread⟩
  · obtain ⟨source, hsource⟩ : ∃ s, s = "# two wires\nINIT 2\r\nH +0\n\nCNOT x 1\nH 1" := ⟨_, rfl⟩
    have hlines : Text.lines source
        = ["# two wires", "INIT 2", "H +0", "", "CNOT x 1", "H 1"] := by
      rw [hsource]
      decide +kernel
    have hread : read source = .error (.atLine 5 (.gate (.badWire "x"))) := by
      rw [hsource]
      rfl
    obtain ⟨hok, -, herror, -⟩ := read_accepts_grammar source
    have hsome : ∃ l ∈ Text.lines source, Significant l :=
      ⟨"INIT 2", by rw [hlines]; decide, by decide +kernel⟩
    have hnone : ∀ n, ¬ Describes (Text.lines source) n := by
      intro n hn
      rw [← hok, hread] at hn
      cases hn
    obtain ⟨k, cause, hk, -, -, hbad, hgood, -⟩ := herror hsome hnone
    rw [hread] at hk
    cases hk
    rw [hlines] at hbad hgood
    exact ⟨source, hlines, hsome, hnone, hread, hbad, hgood 4 (by decide)⟩

end Netlist

end Peephole
