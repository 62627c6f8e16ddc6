import Mathlib.Data.List.DropRight
import Peephole.Text.Blank
import Peephole.Text.Lines
import Peephole.Text.Natural

/-!
# Words, lines and numerals

What is written with one space between words, a line feed behind lines, and digits for numbers is
found again when it is read.

* `IsWord`: what can stand between two blanks.
* `wordsOf_append`: the first word of a text, and so `words_unwords` and `isWord_of_mem_wordsOf`.
* `startsWith_trimmed_iff`: a trimmed text begins as its first word does.
* `lines_unlines`: lines without line ends in them.
* `exists_lines_eq`: lines without line feeds in them are the lines of a text.
* `natural?_toString`: numbers below the bound.
-/

namespace Peephole.Text

/-- A word: at least one character, and no blank. -/
def IsWord (w : List Char) : Prop := w ≠ [] ∧ ∀ c ∈ w, isBlank c = false

/-- Between the space and the first blank that is not ASCII. -/
def isPlain (c : Char) : Bool := 0x20 < c.toNat && c.toNat < 0x85

theorem isBlank_eq_false_of_isPlain {c : Char} (h : isPlain c = true) : isBlank c = false := by
  rw [isPlain, Bool.and_eq_true, decide_eq_true_eq, decide_eq_true_eq] at h
  simp only [isBlank, Bool.or_eq_false_iff, Bool.and_eq_false_iff, decide_eq_false_iff_not,
    beq_eq_false_iff_ne]
  omega

theorem isPlain_of_isDigit {c : Char} (h : c.isDigit = true) : isPlain c = true := by
  rw [Char.isDigit, Bool.and_eq_true, decide_eq_true_eq, decide_eq_true_eq] at h
  have hlow : 48 ≤ c.toNat := UInt32.le_iff_toNat_le.1 h.1
  have hhigh : c.toNat ≤ 57 := UInt32.le_iff_toNat_le.1 h.2
  rw [isPlain, Bool.and_eq_true, decide_eq_true_eq, decide_eq_true_eq]
  omega

theorem isWord_of_isPlain {w : List Char} (hne : w ≠ []) (h : w.all isPlain = true) : IsWord w :=
  ⟨hne, fun c hc => isBlank_eq_false_of_isPlain (List.all_eq_true.1 h c hc)⟩

/-! ## Words -/

theorem wordsOf_nil : wordsOf [] = [] := rfl

theorem wordsOf_eq (c : Char) (rest : List Char) :
    wordsOf (c :: rest)
      = if isBlank c then wordsOf rest
        else
          match rest, wordsOf rest with
          | d :: _, w :: ws => if isBlank d then [c] :: w :: ws else (c :: w) :: ws
          | _, ws => [c] :: ws := rfl

theorem wordsOf_cons_of_isBlank {c : Char} (h : isBlank c = true) (cs : List Char) :
    wordsOf (c :: cs) = wordsOf cs := by
  rw [wordsOf_eq, if_pos h]

/-- A word that a blank or nothing follows is the first one. -/
theorem wordsOf_append {w r : List Char} (hw : IsWord w) (hr : ∀ c ∈ r.head?, isBlank c = true) :
    wordsOf (w ++ r) = w :: wordsOf r := by
  obtain ⟨hne, hw⟩ := hw
  induction w with
  | nil => exact absurd rfl hne
  | cons c w ih =>
      rw [List.forall_mem_cons] at hw
      have hc : ¬ isBlank c = true := by rw [hw.1]; exact Bool.false_ne_true
      cases w with
      | nil =>
          rw [List.singleton_append, wordsOf_eq, if_neg hc]
          cases r with
          | nil => rfl
          | cons d r =>
              have hd : isBlank d = true := hr d rfl
              cases wordsOf (d :: r) with
              | nil => rfl
              | cons x xs => simp only [hd, if_true]
      | cons d w =>
          have hd : isBlank d = false := hw.2 d (by simp)
          have hrest : wordsOf (d :: (w ++ r)) = (d :: w) :: wordsOf r := ih (by simp) hw.2
          rw [List.cons_append, List.cons_append, wordsOf_eq, if_neg hc, hrest]
          simp only [hd, Bool.false_eq_true, if_false]

theorem wordsOf_dropWhile (cs : List Char) : wordsOf (cs.dropWhile isBlank) = wordsOf cs := by
  induction cs with
  | nil => rfl
  | cons c cs ih =>
      by_cases hc : isBlank c = true
      · rw [List.dropWhile_cons_of_pos hc, ih, wordsOf_cons_of_isBlank hc]
      · rw [List.dropWhile_cons_of_neg hc]

/-- The first word is what stands in front of the next blank. -/
theorem wordsOf_cons {c : Char} (hc : isBlank c = false) (cs : List Char) :
    wordsOf (c :: cs)
      = (c :: cs.takeWhile (!isBlank ·)) :: wordsOf (cs.dropWhile (!isBlank ·)) := by
  have hword : IsWord (c :: cs.takeWhile (!isBlank ·)) := by
    refine ⟨by simp, List.forall_mem_cons.2 ⟨hc, fun d hd => ?_⟩⟩
    simpa using List.mem_takeWhile_imp hd
  have hrest : ∀ d ∈ (cs.dropWhile (!isBlank ·)).head?, isBlank d = true := by
    intro d hd
    have := List.head?_dropWhile_not (!isBlank ·) cs
    rw [Option.mem_def.1 hd] at this
    simpa using this
  rw [← wordsOf_append hword hrest, List.cons_append, List.takeWhile_append_dropWhile]

/-- What is read as a word is one. -/
theorem isWord_of_mem_wordsOf {cs w : List Char} (h : w ∈ wordsOf cs) : IsWord w := by
  -- along the text, one character at a time: it begins a word, or joins the word behind it
  induction cs generalizing w with
  | nil => cases h
  | cons c rest ih =>
      rw [wordsOf_eq] at h
      split at h
      · exact ih h
      · rename_i hc
        have hsingle : IsWord [c] := ⟨by simp, by simpa using hc⟩
        split at h
        · rename_i d more x xs hrest
          rw [hrest] at ih
          split at h
          · rcases List.mem_cons.1 h with rfl | h
            · exact hsingle
            · exact ih h
          · rcases List.mem_cons.1 h with rfl | h
            · refine ⟨by simp, List.forall_mem_cons.2 ⟨by simpa using hc, ?_⟩⟩
              exact (ih (List.mem_cons_self)).2
            · exact ih (List.mem_cons_of_mem _ h)
        · rcases List.mem_cons.1 h with rfl | h
          · exact hsingle
          · exact ih h

theorem isWord_of_mem_words {s w : String} (h : w ∈ words s) : IsWord w.toList := by
  obtain ⟨cs, hcs, rfl⟩ := List.mem_map.1 h
  rw [String.toList_ofList]
  exact isWord_of_mem_wordsOf hcs

theorem isBlank_of_dropWhile_eq_cons {cs ds : List Char} {d : Char}
    (h : cs.dropWhile isBlank = d :: ds) : isBlank d = false := by
  have hhead := List.head?_dropWhile_not isBlank cs
  rwa [h] at hhead

theorem headD_wordsOf (cs : List Char) :
    (wordsOf cs).headD [] = (cs.dropWhile isBlank).takeWhile (!isBlank ·) := by
  rw [← wordsOf_dropWhile]
  cases hds : cs.dropWhile isBlank with
  | nil => rfl
  | cons d ds =>
      have hd := isBlank_of_dropWhile_eq_cons hds
      rw [wordsOf_cons hd, List.headD_cons, List.takeWhile_cons_of_pos (by simp [hd])]

theorem wordsOf_intercalate {ws : List (List Char)} (h : ∀ w ∈ ws, IsWord w) :
    wordsOf (List.intercalate [' '] ws) = ws := by
  induction ws with
  | nil => rfl
  | cons w ws ih =>
      rw [List.forall_mem_cons] at h
      cases ws with
      | nil =>
          have hlast := wordsOf_append h.1 (r := []) (by simp)
          rw [List.append_nil, wordsOf_nil] at hlast
          rw [List.intercalate_singleton, hlast]
      | cons x xs =>
          rw [List.intercalate_cons_cons, List.append_assoc, List.singleton_append,
            wordsOf_append h.1 (by simp; decide), wordsOf_cons_of_isBlank (by decide), ih h.2]

/-- Words put together are found again. -/
theorem words_unwords {ws : List String} (h : ∀ w ∈ ws, IsWord w.toList) :
    words (unwords ws) = ws := by
  rw [words, unwords, String.toList_ofList, wordsOf_intercalate, List.map_map]
  · simp
  · intro w hw
    obtain ⟨x, hx, rfl⟩ := List.mem_map.1 hw
    exact h x hx

/-! ## Trimming -/

/-- A trimmed text begins with the same characters as the text behind its first blanks. -/
theorem startsWith_trimmed_iff {p cs : List Char} (hp : ∀ c ∈ p, isBlank c = false) :
    p <+: trimmed cs ↔ p <+: cs.dropWhile isBlank := by
  have htrim : trimmed cs = (cs.dropWhile isBlank).rdropWhile isBlank := rfl
  have hfront : (cs.dropWhile isBlank).rdropWhile isBlank <+: cs.dropWhile isBlank :=
    List.rdropWhile_prefix _ _
  rw [htrim]
  constructor
  · intro h
    exact h.trans hfront
  · intro h
    rcases List.prefix_or_prefix_of_prefix h hfront with h' | ⟨q, hq⟩
    · exact h'
    · -- what the trimming has dropped is blank, and nothing in `p` is
      have hnil : q = [] := by
        obtain ⟨r, hr⟩ := h
        have happ : (cs.dropWhile isBlank).rdropWhile isBlank ++ (q ++ r)
            = (cs.dropWhile isBlank).rdropWhile isBlank
              ++ (cs.dropWhile isBlank).rtakeWhile isBlank := by
          rw [← List.append_assoc, hq, hr, List.rdropWhile_append_rtakeWhile]
        have hdropped := List.append_cancel_left happ
        refine List.eq_nil_iff_forall_not_mem.2 fun x hx => ?_
        have hblank : isBlank x = true :=
          List.mem_rtakeWhile_imp (hdropped ▸ List.mem_append_left r hx)
        rw [hp x (hq ▸ List.mem_append_right _ hx)] at hblank
        cases hblank
      have hsame : (cs.dropWhile isBlank).rdropWhile isBlank = p := by
        rw [← hq, hnil, List.append_nil]
      exact hsame ▸ List.prefix_rfl

theorem startsWith_headD_wordsOf_iff {p cs : List Char} (hp : ∀ c ∈ p, isBlank c = false) :
    p <+: (wordsOf cs).headD [] ↔ p <+: cs.dropWhile isBlank := by
  rw [headD_wordsOf]
  constructor
  · intro h
    refine h.trans ?_
    exact List.takeWhile_prefix _
  · rintro ⟨r, hr⟩
    rw [← hr, List.takeWhile_append_of_pos (by simpa using hp)]
    exact List.prefix_append _ _

theorem trimmed_eq_nil_iff {cs : List Char} : trimmed cs = [] ↔ (wordsOf cs).headD [] = [] := by
  rw [headD_wordsOf]
  cases hds : cs.dropWhile isBlank with
  | nil =>
      have htrim : trimmed cs = [] := by
        rw [trimmed, hds]
        rfl
      simp [htrim]
  | cons d ds =>
      have hd := isBlank_of_dropWhile_eq_cons hds
      have hstart : [d] <+: trimmed cs := by
        rw [startsWith_trimmed_iff (by simpa using hd), hds]
        exact ⟨ds, rfl⟩
      have hne : trimmed cs ≠ [] := hstart.ne_nil (by simp)
      simp [hne, hd]

/-! ## Lines -/

theorem linesOf_append {l : List Char} (h : ∀ c ∈ l, c ≠ '\n' ∧ c ≠ '\r') (rest : List Char) :
    linesOf (l ++ '\n' :: rest) = l :: linesOf rest := by
  induction l with
  | nil => rfl
  | cons c l ih =>
      rw [List.forall_mem_cons] at h
      obtain ⟨⟨hn, hr⟩, hl⟩ := h
      rw [List.cons_append, linesOf, ih hl]
      · exact hn
      · intro r he
        exact absurd he hr

theorem linesOf_flatMap {ls : List (List Char)} (h : ∀ l ∈ ls, ∀ c ∈ l, c ≠ '\n' ∧ c ≠ '\r') :
    linesOf (ls.flatMap (· ++ ['\n'])) = ls := by
  induction ls with
  | nil => rfl
  | cons l ls ih =>
      rw [List.forall_mem_cons] at h
      rw [List.flatMap_cons, List.append_assoc, List.singleton_append, linesOf_append h.1, ih h.2]

/-- Lines put together are found again, if there is no line end in them. -/
theorem lines_unlines {ls : List String} (h : ∀ l ∈ ls, ∀ c ∈ l.toList, c ≠ '\n' ∧ c ≠ '\r') :
    lines (unlines ls) = ls := by
  have hflat : (ls.flatMap fun l => l.toList ++ ['\n'])
      = (ls.map String.toList).flatMap (· ++ ['\n']) := by rw [List.flatMap_map]
  rw [lines, unlines, String.toList_ofList, hflat, linesOf_flatMap, List.map_map]
  · simp
  · intro l hl
    obtain ⟨x, hx, rfl⟩ := List.mem_map.1 hl
    exact h x hx

/-- With a carriage return of its own in front of the line feed, a line may end in another one. -/
theorem linesOf_append_crlf {l : List Char} (h : '\n' ∉ l) (rest : List Char) :
    linesOf (l ++ '\r' :: '\n' :: rest) = l :: linesOf rest := by
  induction l with
  | nil => rfl
  | cons c l ih =>
      rw [List.mem_cons, not_or] at h
      rw [List.cons_append, linesOf, ih h.2]
      · exact Ne.symm h.1
      · -- what follows a carriage return in the line is no line feed
        rintro r rfl he
        cases l with
        | nil => cases he
        | cons d l =>
            obtain rfl := (List.cons.inj he).1
            exact h.2 List.mem_cons_self

theorem not_mem_of_mem_linesOf {cs l : List Char} (h : l ∈ linesOf cs) : '\n' ∉ l := by
  fun_induction linesOf cs generalizing l with
  | case1 => cases h
  | case2 rest ih | case3 rest ih =>
      rcases List.mem_cons.1 h with rfl | h
      · exact List.not_mem_nil
      · exact ih h
  | case4 c rest hc _ hrest ih =>
      obtain rfl := List.mem_singleton.1 h
      simpa using Ne.symm hc
  | case5 c rest hc _ k ks hrest ih =>
      rw [hrest] at ih
      rcases List.mem_cons.1 h with rfl | h
      · rw [List.mem_cons, not_or]
        exact ⟨Ne.symm hc, ih List.mem_cons_self⟩
      · exact ih (List.mem_cons_of_mem _ h)

theorem not_mem_of_mem_lines {s l : String} (h : l ∈ lines s) : '\n' ∉ l.toList := by
  obtain ⟨cs, hcs, rfl⟩ := List.mem_map.1 h
  rw [String.toList_ofList]
  exact not_mem_of_mem_linesOf hcs

/-- Without line feeds in them, any lines are the lines of a text. -/
theorem exists_lines_eq {ls : List String} (h : ∀ l ∈ ls, '\n' ∉ l.toList) :
    ∃ s, lines s = ls := by
  have hlines : ∃ cs, (linesOf cs).map String.ofList = ls := by
    induction ls with
    | nil => exact ⟨[], rfl⟩
    | cons l ls ih =>
        rw [List.forall_mem_cons] at h
        obtain ⟨cs, hcs⟩ := ih h.2
        refine ⟨l.toList ++ '\r' :: '\n' :: cs, ?_⟩
        rw [linesOf_append_crlf h.1, List.map_cons, hcs, String.ofList_toList]
  obtain ⟨cs, hcs⟩ := hlines
  exact ⟨String.ofList cs, by rw [lines, String.toList_ofList, hcs]⟩

/-- The characters of words that are put together. -/
theorem mem_unwords {ws : List String} {c : Char} (h : c ∈ (unwords ws).toList) :
    c = ' ' ∨ ∃ w ∈ ws, c ∈ w.toList := by
  rw [unwords, String.toList_ofList] at h
  induction ws with
  | nil => simp at h
  | cons w ws ih =>
      cases ws with
      | nil => exact Or.inr ⟨w, by simp, by simpa using h⟩
      | cons x xs =>
          rw [List.map_cons, List.map_cons, List.intercalate_cons_cons, List.mem_append,
            List.mem_append] at h
          rcases h with (h | h) | h
          · exact Or.inr ⟨w, by simp, h⟩
          · exact Or.inl (by simpa using h)
          · exact (ih h).imp_right fun ⟨y, hy, hc⟩ => ⟨y, List.mem_cons_of_mem _ hy, hc⟩

/-- A line of words has no line end in it. -/
theorem ne_of_mem_unwords {ws : List String} (h : ∀ w ∈ ws, IsWord w.toList) {c : Char}
    (hc : c ∈ (unwords ws).toList) : c ≠ '\n' ∧ c ≠ '\r' := by
  rcases mem_unwords hc with rfl | ⟨w, hw, hc⟩
  · decide
  · have hblank := (h w hw).2 c hc
    constructor
    · rintro rfl
      exact absurd hblank (by decide)
    · rintro rfl
      exact absurd hblank (by decide)

/-! ## Numerals -/

theorem isWord_toString (n : Nat) : IsWord (toString n).toList := by
  rw [Nat.toString_eq_repr, Nat.toList_repr]
  refine isWord_of_isPlain Nat.toDigits_ne_nil (List.all_eq_true.2 fun c hc => ?_)
  exact isPlain_of_isDigit (Nat.isDigit_of_mem_toDigits (by decide) (by decide) hc)

theorem digits?_toDigits (n : Nat) : digits? (Nat.toDigits 10 n) = some n := by
  have hdigit : (Nat.toDigits 10 n).all Char.isDigit = true :=
    List.all_eq_true.2 fun c hc => Nat.isDigit_of_mem_toDigits (by decide) (by decide) hc
  have hvalue : digitsValue (Nat.toDigits 10 n) = n := by
    rw [digitsValue, ← Nat.ofDigitChars_eq_foldl]
    exact Nat.ofDigitChars_toDigits (by decide) (by decide)
  rw [digits?, if_neg (by simp), if_pos hdigit, hvalue]

/-- A number below the bound is read from its numeral. -/
theorem natural?_toString {n bound : Nat} (h : n < bound) :
    natural? bound (toString n) = some n := by
  rw [natural?, Nat.toString_eq_repr, Nat.toList_repr]
  split
  · rename_i rest he
    have hplus : ('+' : Char).isDigit = true :=
      Nat.isDigit_of_mem_toDigits (b := 10) (n := n) (by decide) (by decide) (by simp [he])
    exact absurd hplus (by decide)
  · rw [digits?_toDigits]
    simp [h]

end Peephole.Text
