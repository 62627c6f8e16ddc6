import Mathlib.Data.List.TakeWhile
import Mathlib.Data.Option.Basic
import Mathlib.Data.String.Basic
import Peephole.Angle

/-!
# How numbers are written

The numbers in a netlist are wires and counts, which have no sign but perhaps a plus, and angles,
which may also have a fraction and an exponent or be one of three words.

* `Text.Numeral`, `Decimal.IsLiteral`, `Angle.IsToken`: the grammars of the three.
* `natural?_eq_some_iff`, `isSome_read?_iff`: they are what the readers accept.
-/

namespace Peephole

namespace Text

/-- One or more decimal digits, and nothing else. -/
def IsDigits (cs : List Char) : Prop := cs ≠ [] ∧ ∀ c ∈ cs, c.isDigit = true

/-- The token is a numeral of this value: digits, perhaps with a plus in front of them. -/
def Numeral (token : String) (n : Nat) : Prop :=
  ∃ ds, IsDigits ds ∧ (token.toList = ds ∨ token.toList = '+' :: ds) ∧ Nat.ofDigitChars 10 ds 0 = n

/-- What may stand in front of a number. -/
def IsSign (cs : List Char) : Prop := cs = [] ∨ cs = ['-'] ∨ cs = ['+']

theorem IsDigits.isDigit_head {c : Char} {cs : List Char} (h : IsDigits (c :: cs)) :
    c.isDigit = true :=
  h.2 c List.mem_cons_self

theorem ne_sign_of_isDigit {c : Char} (h : c.isDigit = true) : c ≠ '-' ∧ c ≠ '+' := by
  constructor
  · rintro rfl
    exact absurd h (by decide)
  · rintro rfl
    exact absurd h (by decide)

theorem digits?_eq_some_iff {cs : List Char} {n : Nat} :
    digits? cs = some n ↔ IsDigits cs ∧ Nat.ofDigitChars 10 cs 0 = n := by
  have hvalue : digitsValue cs = Nat.ofDigitChars 10 cs 0 := by
    rw [digitsValue, ← Nat.ofDigitChars_eq_foldl]
  simp [digits?, hvalue, IsDigits, and_assoc]

theorem isSome_digits?_iff {cs : List Char} : (digits? cs).isSome ↔ IsDigits cs := by
  simp [Option.isSome_iff_exists, digits?_eq_some_iff]

/-- A numeral is read against a bound. -/
theorem natural?_eq_some_iff {bound n : Nat} {token : String} :
    natural? bound token = some n ↔ Numeral token n ∧ n < bound := by
  unfold natural?
  rw [Option.filter_eq_some_iff, decide_eq_true_eq]
  refine and_congr_left fun _ => ?_
  constructor
  · intro h
    split at h
    · rename_i rest htoken
      obtain ⟨hds, hn⟩ := digits?_eq_some_iff.1 h
      exact ⟨rest, hds, Or.inr htoken, hn⟩
    · obtain ⟨hds, hn⟩ := digits?_eq_some_iff.1 h
      exact ⟨token.toList, hds, Or.inl rfl, hn⟩
  · rintro ⟨ds, hds, htoken | htoken, hn⟩
    · rw [htoken]
      split
      · exact absurd rfl (ne_sign_of_isDigit hds.isDigit_head).2
      · exact digits?_eq_some_iff.2 ⟨hds, hn⟩
    · rw [htoken]
      exact digits?_eq_some_iff.2 ⟨hds, hn⟩

/-- The text behind a sign, if there is one. -/
def unsigned : List Char → List Char
  | '-' :: rest => rest
  | '+' :: rest => rest
  | cs => cs

theorem exists_sign_iff {P : List Char → Prop}
    (hP : ∀ c cs, P (c :: cs) → c ≠ '-' ∧ c ≠ '+') (cs : List Char) :
    (∃ sign body, IsSign sign ∧ P body ∧ cs = sign ++ body) ↔ P (unsigned cs) := by
  constructor
  · rintro ⟨sign, body, rfl | rfl | rfl, hbody, rfl⟩
    · rw [unsigned]
      · exact hbody
      · rintro rest rfl
        exact (hP _ _ hbody).1 rfl
      · rintro rest rfl
        exact (hP _ _ hbody).2 rfl
    · exact hbody
    · exact hbody
  · intro h
    fun_cases unsigned cs with
    | case1 rest => exact ⟨['-'], rest, Or.inr (Or.inl rfl), h, rfl⟩
    | case2 rest => exact ⟨['+'], rest, Or.inr (Or.inr rfl), h, rfl⟩
    | case3 cs hminus hplus =>
        rw [unsigned] at h
        · exact ⟨[], cs, Or.inl rfl, h, rfl⟩
        · exact hminus
        · exact hplus

end Text

open Text (IsDigits IsSign)

/-! ## Literals -/

namespace Decimal

/-- What may stand behind the digits: an exponent of ten. -/
inductive IsScale : List Char → Prop
  | none : IsScale []
  | exponent {e : Char} {sign ds : List Char} (he : e = 'e' ∨ e = 'E') (hsign : IsSign sign)
      (hds : IsDigits ds) : IsScale (e :: (sign ++ ds))

/-- A decimal literal without a sign. The point may stand in front of the digits or behind them. -/
inductive IsLiteral : List Char → Prop
  | whole {ds scale : List Char} (hds : IsDigits ds) (hscale : IsScale scale) :
      IsLiteral (ds ++ scale)
  | point {whole fraction scale : List Char} (hds : IsDigits (whole ++ fraction))
      (hscale : IsScale scale) : IsLiteral (whole ++ '.' :: (fraction ++ scale))

theorem isSome_exponent?_iff {cs : List Char} :
    (exponent? cs).isSome ↔ ∃ sign ds, IsSign sign ∧ IsDigits ds ∧ cs = sign ++ ds := by
  rw [Text.exists_sign_iff fun c cs h => Text.ne_sign_of_isDigit h.isDigit_head,
    ← Text.isSome_digits?_iff]
  have hvalue : ∀ (x : Option Nat) (f : Nat → Int),
      (x.bind fun n => some (f n)).isSome = x.isSome := by
    intro x f
    cases x <;> rfl
  fun_cases exponent? cs <;> simp_all [Text.unsigned]

theorem isSome_scale?_iff {cs : List Char} : (scale? cs).isSome ↔ IsScale cs := by
  cases cs with
  | nil => exact ⟨fun _ => .none, fun _ => rfl⟩
  | cons e rest =>
      rw [scale?]
      constructor
      · intro h
        split at h
        · rename_i he
          obtain ⟨sign, ds, hsign, hds, rfl⟩ := isSome_exponent?_iff.1 h
          exact .exponent he hsign hds
        · cases h
      · rintro (_ | ⟨he, hsign, hds⟩)
        rw [if_pos he]
        exact isSome_exponent?_iff.2 ⟨_, _, hsign, hds, rfl⟩

theorem IsScale.head {scale : List Char} (h : IsScale scale) :
    ∀ c ∈ scale.head?, c.isDigit = false ∧ c ≠ '.' := by
  intro c hc
  cases h with
  | none => cases hc
  | exponent he =>
      obtain rfl := Option.some.inj hc
      rcases he with rfl | rfl <;> decide

theorem takeWhile_digits {ds rest : List Char} (hds : ∀ c ∈ ds, c.isDigit = true)
    (hrest : ∀ c ∈ rest.head?, c.isDigit = false) :
    (ds ++ rest).takeWhile Char.isDigit = ds ∧ (ds ++ rest).dropWhile Char.isDigit = rest := by
  rw [List.takeWhile_append_of_pos hds, List.dropWhile_append_of_pos hds]
  cases rest with
  | nil => simp
  | cons c rest => simp [hrest c rfl]

theorem exists_digits_append (cs : List Char) :
    ∃ ds rest, cs = ds ++ rest ∧ (∀ c ∈ ds, c.isDigit = true) ∧
      ∀ c ∈ rest.head?, c.isDigit = false := by
  refine ⟨cs.takeWhile Char.isDigit, cs.dropWhile Char.isDigit,
    List.takeWhile_append_dropWhile.symm, fun c => List.mem_takeWhile_imp, fun c hc => ?_⟩
  have hhead := List.head?_dropWhile_not Char.isDigit cs
  rw [Option.mem_def.1 hc] at hhead
  exact hhead

theorem isSome_read?_point {ds fs rest : List Char} (hds : ∀ c ∈ ds, c.isDigit = true)
    (hfs : ∀ c ∈ fs, c.isDigit = true) (hrest : ∀ c ∈ rest.head?, c.isDigit = false) :
    (Literal.read? (ds ++ '.' :: (fs ++ rest))).isSome ↔ ds ++ fs ≠ [] ∧ IsScale rest := by
  have hpoint : ∀ c ∈ ('.' :: (fs ++ rest)).head?, c.isDigit = false := by
    rintro c ⟨⟩
    decide
  unfold Literal.read?
  simp only [(takeWhile_digits hds hpoint).1, (takeWhile_digits hds hpoint).2,
    (takeWhile_digits hfs hrest).1, (takeWhile_digits hfs hrest).2]
  by_cases hne : ds ++ fs = []
  · obtain ⟨rfl, rfl⟩ := List.append_eq_nil_iff.1 hne
    simp
  · have hempty : ¬ (ds.isEmpty && fs.isEmpty) = true := by simpa using hne
    rw [if_neg hempty, Option.isSome_map, isSome_scale?_iff]
    exact (and_iff_right hne).symm

theorem isSome_read?_whole {ds rest : List Char} (hds : ∀ c ∈ ds, c.isDigit = true)
    (hrest : ∀ c ∈ rest.head?, c.isDigit = false ∧ c ≠ '.') :
    (Literal.read? (ds ++ rest)).isSome ↔ ds ≠ [] ∧ IsScale rest := by
  have hcut := takeWhile_digits hds fun c hc => (hrest c hc).1
  have hmatch : ∀ r, rest ≠ '.' :: r := by
    rintro r rfl
    exact (hrest '.' rfl).2 rfl
  unfold Literal.read?
  simp only [hcut.1, hcut.2]
  by_cases hne : ds = []
  · simp [hne]
  · simp [hne, isSome_scale?_iff]

/-- A literal is cut where its digits end, and its fraction where those of the fraction end. -/
theorem isSome_literal_iff {cs : List Char} : (Literal.read? cs).isSome ↔ IsLiteral cs := by
  constructor
  · intro h
    obtain ⟨ds, rest, rfl, hds, hrest⟩ := exists_digits_append cs
    by_cases hpoint : ∃ r, rest = '.' :: r
    · obtain ⟨r, rfl⟩ := hpoint
      obtain ⟨fs, scale, rfl, hfs, hscale⟩ := exists_digits_append r
      obtain ⟨hne, hscale⟩ := (isSome_read?_point hds hfs hscale).1 h
      exact .point ⟨hne, List.forall_mem_append.2 ⟨hds, hfs⟩⟩ hscale
    · have hhead : ∀ c ∈ rest.head?, c.isDigit = false ∧ c ≠ '.' := by
        refine fun c hc => ⟨hrest c hc, ?_⟩
        rintro rfl
        exact hpoint (List.head?_eq_some_iff.1 hc)
      obtain ⟨hne, hscale⟩ := (isSome_read?_whole hds hhead).1 h
      exact .whole ⟨hne, hds⟩ hscale
  · intro h
    cases h with
    | whole hds hscale => exact (isSome_read?_whole hds.2 hscale.head).2 ⟨hds.1, hscale⟩
    | point hds hscale =>
        obtain ⟨hwhole, hfraction⟩ := List.forall_mem_append.1 hds.2
        exact (isSome_read?_point hwhole hfraction fun c hc => (hscale.head c hc).1).2
          ⟨hds.1, hscale⟩

theorem IsLiteral.head {c : Char} {cs : List Char} (h : IsLiteral (c :: cs)) :
    c.isDigit = true ∨ c = '.' := by
  generalize htext : c :: cs = text at h
  cases h with
  | @whole ds scale hds hscale =>
      cases ds with
      | nil => exact absurd rfl hds.1
      | cons d ds =>
          obtain rfl := (List.cons.inj htext).1
          exact Or.inl hds.isDigit_head
  | @point ds fs scale hds hscale =>
      cases ds with
      | nil => exact Or.inr (List.cons.inj htext).1
      | cons d ds =>
          obtain rfl := (List.cons.inj htext).1
          exact Or.inl hds.isDigit_head

end Decimal

/-! ## Angles -/

namespace Angle

/-- An angle without its sign: one of three words in any case, or a decimal literal. -/
def IsMagnitude (cs : List Char) : Prop :=
  cs.map Char.toLower ∈ ["inf".toList, "infinity".toList, "nan".toList] ∨ Decimal.IsLiteral cs

/-- The token is an angle: perhaps a sign, and a magnitude. -/
def IsToken (token : String) : Prop :=
  ∃ sign cs, IsSign sign ∧ IsMagnitude cs ∧ token.toList = sign ++ cs

theorem isSome_magnitude?_iff {cs : List Char} : (magnitude? cs).isSome ↔ IsMagnitude cs := by
  rw [IsMagnitude, ← Decimal.isSome_literal_iff, magnitude?]
  simp only [List.mem_cons, List.not_mem_nil, or_false, String.ofList_eq]
  by_cases hinf : cs.map Char.toLower = "inf".toList ∨ cs.map Char.toLower = "infinity".toList
  · rw [if_pos hinf]
    exact iff_of_true rfl (Or.inl (by tauto))
  · rw [if_neg hinf]
    by_cases hnan : cs.map Char.toLower = "nan".toList
    · rw [if_pos hnan]
      exact iff_of_true rfl (Or.inl (by tauto))
    · rw [if_neg hnan, Option.isSome_map]
      tauto

theorem IsMagnitude.head {c : Char} {cs : List Char} (h : IsMagnitude (c :: cs)) :
    c ≠ '-' ∧ c ≠ '+' := by
  rcases h with h | h
  · constructor
    · rintro rfl
      simp at h
    · rintro rfl
      simp at h
  · rcases h.head with hdigit | rfl
    · exact Text.ne_sign_of_isDigit hdigit
    · decide

/-- The tokens that stand for angles are those of the grammar. -/
theorem isSome_read?_iff {token : String} : (read? token).isSome ↔ IsToken token := by
  rw [IsToken, Text.exists_sign_iff fun c cs => IsMagnitude.head]
  rw [← isSome_magnitude?_iff]
  unfold read?
  split <;> simp_all [Text.unsigned]

end Angle

end Peephole
