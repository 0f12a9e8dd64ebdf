import BytecodeCompiler.Json
import Mathlib.Data.List.Basic
import Mathlib.Tactic.SplitIfs

-- JSON without blanks. Numbers are natural and written in plain digits, texts are quoted, and the
-- parts of an array or an object stand with nothing but a comma between them. Reading gives back
-- what was written so.

namespace BytecodeCompiler.Json

/-! ## Digits -/

theorem isDigit_of_mem_toDigits {n : Nat} {c : Char} (h : c ∈ Nat.toDigits 10 n) :
    isDigit c = true := Nat.isDigit_of_mem_toDigits (by decide) (by decide) h

theorem exists_toDigits_eq_cons (n : Nat) :
    ∃ d ds, Nat.toDigits 10 n = d :: ds ∧ isDigit d = true := by
  obtain ⟨d, ds, hcons⟩ := List.exists_cons_of_ne_nil (Nat.toDigits_ne_nil (n := n) (b := 10))
  exact ⟨d, ds, hcons, isDigit_of_mem_toDigits (n := n) (by rw [hcons]; exact List.mem_cons_self)⟩

theorem isBlank_of_isDigit {c : Char} (h : isDigit c = true) : isBlank c = false := by
  by_contra hblank
  simp only [isBlank, Bool.not_eq_false, Bool.or_eq_true, beq_iff_eq] at hblank
  rcases hblank with ((rfl | rfl) | rfl) | rfl <;> cases h

theorem natOfDigits_toDigits (n : Nat) : natOfDigits (Nat.toDigits 10 n) = n := by
  unfold natOfDigits
  rw [← Nat.ofDigitChars_eq_foldl, Nat.ofDigitChars_ten_toDigits]

/-- Only zero has a zero in front. -/
theorem head?_toDigits_ne_zero {n : Nat} (h : n ≠ 0) :
    ∀ c ∈ (Nat.toDigits 10 n).head?, c ≠ '0' := by
  induction n using Nat.strongRecOn with
  | ind n ih =>
    by_cases hlt : n < 10
    · have hdigit : ∀ d < 10, d ≠ 0 → Nat.digitChar d ≠ '0' := by decide
      rw [Nat.toDigits_of_lt_base hlt]
      simpa using hdigit n hlt h
    · rw [Nat.toDigits_of_base_le (by decide) (Nat.not_lt.mp hlt),
        List.head?_append_of_ne_nil _ Nat.toDigits_ne_nil]
      exact ih (n / 10) (by omega) (by omega)

theorem toDigits_cases (n : Nat) :
    n = 0 ∧ Nat.toDigits 10 n = ['0'] ∨
      ∃ d ds, Nat.toDigits 10 n = d :: ds ∧ d ≠ '0' ∧ ∀ c ∈ d :: ds, isDigit c = true := by
  by_cases hzero : n = 0
  · exact Or.inl ⟨hzero, by rw [hzero, Nat.toDigits_zero]⟩
  · obtain ⟨d, ds, hcons, -⟩ := exists_toDigits_eq_cons n
    have hhead := head?_toDigits_ne_zero hzero
    rw [hcons] at hhead
    refine Or.inr ⟨d, ds, hcons, hhead d rfl, ?_⟩
    rw [← hcons]
    exact fun c hc => isDigit_of_mem_toDigits hc

theorem plainNat?_toDigits (n : Nat) : plainNat? (Nat.toDigits 10 n) = some n := by
  rcases toDigits_cases n with ⟨rfl, hdigits⟩ | ⟨d, ds, hdigits, hd, hall⟩
  · rw [hdigits]
    rfl
  · have hvalue := natOfDigits_toDigits n
    rw [hdigits] at hvalue ⊢
    unfold plainNat?
    split
    · contradiction
    · rename_i heq
      cases heq
      contradiction
    · rename_i heq
      cases heq
      rw [hvalue, List.all_eq_true.mpr hall]
      simp [hd]

/-- What follows does not go on with a number. -/
def Ends (rest : List Char) : Prop :=
  ∀ c ∈ rest.head?, isDigit c = false ∧ c ≠ '.' ∧ c ≠ 'e' ∧ c ≠ 'E'

theorem ends_cons {c : Char} {cs : List Char}
    (h : isDigit c = false ∧ c ≠ '.' ∧ c ≠ 'e' ∧ c ≠ 'E') : Ends (c :: cs) := by
  intro c' hc'
  cases hc'
  exact h

theorem digits?_append {ds rest : List Char} (hne : ds ≠ []) (hds : ∀ c ∈ ds, isDigit c = true)
    (h : Ends rest) : digits? (ds ++ rest) = some (ds, rest) := by
  have htake : rest.takeWhile isDigit = [] := by
    cases rest with
    | nil => rfl
    | cons c rest => exact List.takeWhile_cons_of_neg (by simp [(h c rfl).1])
  have hdrop : rest.dropWhile isDigit = rest := by
    cases rest with
    | nil => rfl
    | cons c rest => exact List.dropWhile_cons_of_neg (by simp [(h c rfl).1])
  obtain ⟨d, ds, rfl⟩ := List.exists_cons_of_ne_nil hne
  unfold digits?
  rw [List.takeWhile_append_of_pos hds, List.dropWhile_append_of_pos hds, htake, hdrop,
    List.append_nil]

theorem fraction?_of_ends {rest : List Char} (h : Ends rest) :
    fraction? rest = some ([], rest) := by
  unfold fraction?
  split
  · exact absurd rfl (h '.' rfl).2.1
  · rfl

theorem exponent?_of_ends {rest : List Char} (h : Ends rest) :
    exponent? rest = some ([], rest) := by
  cases rest with
  | nil => rfl
  | cons c rest =>
    obtain ⟨-, -, he, hE⟩ := h c rfl
    simp [exponent?, he, hE]

/-- A number in plain digits is read up to its end. -/
theorem number?_toDigits (n : Nat) {rest : List Char} (h : Ends rest) :
    number? (Nat.toDigits 10 n ++ rest) = some (Nat.toDigits 10 n, rest) := by
  have hwhole : wholePart? (Nat.toDigits 10 n ++ rest) = some (Nat.toDigits 10 n, rest) := by
    rcases toDigits_cases n with ⟨-, hdigits⟩ | ⟨d, ds, hdigits, hd, hall⟩
    · rw [hdigits]
      rfl
    · rw [hdigits]
      have hread := digits?_append (List.cons_ne_nil d ds) hall h
      unfold wholePart?
      split
      · rename_i heq
        cases heq
        contradiction
      · exact hread
  have hsign : sign (Nat.toDigits 10 n ++ rest) = ([], Nat.toDigits 10 n ++ rest) := by
    unfold sign
    split
    · rename_i heq
      obtain ⟨d, ds, hcons, hd⟩ := exists_toDigits_eq_cons n
      rw [hcons] at heq
      cases heq
      cases hd
    · rfl
  unfold number?
  simp [hsign, hwhole, fraction?_of_ends h, exponent?_of_ends h]

/-! ## Texts -/

/-- A character is written with a letter, with its number, or as it is. -/
theorem escapeChar_cases (c : Char) :
    (∃ e, escapeChar c = ['\\', e] ∧ e ≠ 'u' ∧ simpleEscape? e = some c) ∨
    (escapeChar c = ['\\', 'u', '0', '0', hexChar (c.toNat / 16), hexChar c.toNat] ∧
      c.toNat < 0x20) ∨
    (escapeChar c = [c] ∧ c ≠ '"' ∧ c ≠ '\\' ∧ ¬ c.toNat < 0x20) := by
  by_cases hletter : c ∈ ['"', '\\', '\x08', '\x0c', '\n', '\r', '\t']
  · refine Or.inl ?_
    simp only [List.mem_cons, List.not_mem_nil, or_false] at hletter
    rcases hletter with rfl | rfl | rfl | rfl | rfl | rfl | rfl
    · exact ⟨'"', rfl, by decide, rfl⟩
    · exact ⟨'\\', rfl, by decide, rfl⟩
    · exact ⟨'b', rfl, by decide, rfl⟩
    · exact ⟨'f', rfl, by decide, rfl⟩
    · exact ⟨'n', rfl, by decide, rfl⟩
    · exact ⟨'r', rfl, by decide, rfl⟩
    · exact ⟨'t', rfl, by decide, rfl⟩
  · refine Or.inr ?_
    simp only [List.mem_cons, List.not_mem_nil, or_false, not_or] at hletter
    obtain ⟨hquote, hslash, hb, hf, hn, hr, ht⟩ := hletter
    by_cases hcontrol : c.toNat < 0x20
    · exact Or.inl ⟨by simp [escapeChar, hquote, hslash, hb, hf, hn, hr, ht, hcontrol], hcontrol⟩
    · exact Or.inr ⟨by simp [escapeChar, hquote, hslash, hb, hf, hn, hr, ht, hcontrol], hquote,
        hslash, hcontrol⟩

theorem escapeChar_of_isDigit {c : Char} (h : isDigit c = true) : escapeChar c = [c] := by
  rcases escapeChar_cases c with ⟨e, -, -, he⟩ | ⟨-, hcontrol⟩ | ⟨hc, -⟩
  · unfold simpleEscape? at he
    split_ifs at he <;> cases he <;> cases h
  · simp only [isDigit, Bool.and_eq_true, decide_eq_true_eq] at h
    exact absurd hcontrol (Nat.not_lt.mpr (Nat.le_trans (by decide) h.1))
  · exact hc

/-- Digits are quoted as they are. -/
theorem escaped_toDigits (n : Nat) :
    (Nat.toDigits 10 n).flatMap escapeChar = Nat.toDigits 10 n := by
  rw [List.flatMap_congr fun c hc => escapeChar_of_isDigit (isDigit_of_mem_toDigits hc)]
  exact List.flatMap_singleton' _

theorem hex4?_control : ∀ n < 0x20,
    hex4? '0' '0' (hexChar (n / 16)) (hexChar n) = some n := by decide

theorem stringRest?_escapeChar (c : Char) (cs : List Char) :
    stringRest? (escapeChar c ++ cs) =
      (stringRest? cs).map fun (s, cs) => (escapeChar c ++ s, cs) := by
  rcases escapeChar_cases c with ⟨e, hc, hu, he⟩ | ⟨hc, hcontrol⟩ | ⟨hc, hquote, hslash, hplain⟩
  · rw [hc]
    simp [stringRest?, he, hu]
  · rw [hc]
    simp [stringRest?, hex4?_control _ hcontrol]
  · rw [hc]
    simp [stringRest?, hslash, hplain]

theorem stringRest?_escaped (s rest : List Char) :
    stringRest? (s.flatMap escapeChar ++ '"' :: rest) = some (s.flatMap escapeChar, rest) := by
  induction s with
  | nil => rfl
  | cons c s ih =>
    rw [List.flatMap_cons, List.append_assoc, stringRest?_escapeChar, ih]
    rfl

theorem unescape?_escapeChar (c : Char) (cs : List Char) :
    unescape? (escapeChar c ++ cs) = (unescape? cs).map (c :: ·) := by
  rcases escapeChar_cases c with ⟨e, hc, hu, he⟩ | ⟨hc, hcontrol⟩ | ⟨hc, hquote, hslash, hplain⟩
  · rw [hc]
    simp [unescape?, he, hu]
  · rw [hc]
    have hhigh : isHighSurrogate c.toNat = false := by simp [isHighSurrogate]; omega
    have hlow : isLowSurrogate c.toNat = false := by simp [isLowSurrogate]; omega
    simp [unescape?, hex4?_control _ hcontrol, hhigh, hlow]
  · rw [hc]
    simp [unescape?, hslash]

/-- The text of a string is what was quoted. -/
theorem unescape?_escaped (s : List Char) : unescape? (s.flatMap escapeChar) = some s := by
  induction s with
  | nil => rfl
  | cons c s ih =>
    rw [List.flatMap_cons, unescape?_escapeChar, ih]
    rfl

/-! ## Values -/

mutual

/-- The characters are the value without blanks. -/
inductive Writes : Json → List Char → Prop where
  | nat (n : Nat) : Writes (.number (Nat.toDigits 10 n)) (Nat.toDigits 10 n)
  | text (s : List Char) : Writes (.string (s.flatMap escapeChar)) (quote s)
  | emptyArray : Writes (.array []) ['[', ']']
  | array {js : List Json} {cs : List Char} (h : WritesItems js cs) :
    Writes (.array js) ('[' :: (cs ++ [']']))
  | emptyObject : Writes (.object []) ['\x7b', '\x7d']
  | object {ms : List (List Char × Json)} {cs : List Char} (h : WritesMembers ms cs) :
    Writes (.object ms) ('\x7b' :: (cs ++ ['\x7d']))

/-- The characters are the items with commas between them. -/
inductive WritesItems : List Json → List Char → Prop where
  | one {j : Json} {cs : List Char} (h : Writes j cs) : WritesItems [j] cs
  | more {j : Json} {js : List Json} {cs others : List Char} (h : Writes j cs)
    (hjs : WritesItems js others) : WritesItems (j :: js) (cs ++ ',' :: others)

/-- The characters are the members with commas between them. -/
inductive WritesMembers : List (List Char × Json) → List Char → Prop where
  | one {j : Json} {cs : List Char} (key : List Char) (h : Writes j cs) :
    WritesMembers [(key.flatMap escapeChar, j)] (quote key ++ ':' :: cs)
  | more {j : Json} {ms : List (List Char × Json)} {cs others : List Char} (key : List Char)
    (h : Writes j cs) (hms : WritesMembers ms others) :
    WritesMembers ((key.flatMap escapeChar, j) :: ms) (quote key ++ ':' :: cs ++ ',' :: others)

end

theorem skipBlanks_cons {c : Char} {cs : List Char} (h : isBlank c = false) :
    skipBlanks (c :: cs) = c :: cs := by
  simp [skipBlanks, h]

theorem value?_digit (steps : Nat) {d : Char} {cs : List Char} (h : isDigit d = true) :
    value? (steps + 1) (d :: cs) = (number? (d :: cs)).map fun (s, cs) => (.number s, cs) := by
  rw [value?, skipBlanks_cons (isBlank_of_isDigit h)]
  split <;> simp_all [isDigit]

theorem quote_append (s rest : List Char) :
    quote s ++ rest = '"' :: (s.flatMap escapeChar ++ '"' :: rest) := by
  simp [quote]

theorem value?_quote (steps : Nat) (s rest : List Char) :
    value? (steps + 1) (quote s ++ rest) = some (.string (s.flatMap escapeChar), rest) := by
  rw [quote_append, value?, skipBlanks_cons rfl]
  simp only [stringRest?_escaped]
  rfl

section Parts

variable {steps : Nat} {cs others : List Char} {j : Json} (key : List Char)

theorem items?_last (h : value? steps cs = some (j, ']' :: others)) :
    items? (steps + 1) cs = some ([j], others) := by
  rw [items?, h]
  rfl

theorem items?_more (h : value? steps cs = some (j, ',' :: others)) :
    items? (steps + 1) cs = (items? steps others).map fun (js, cs) => (j :: js, cs) := by
  rw [items?, h]
  rfl

theorem members?_last (h : value? steps cs = some (j, '\x7d' :: others)) :
    members? (steps + 1) (quote key ++ ':' :: cs) =
      some ([(key.flatMap escapeChar, j)], others) := by
  have hcolon : skipBlanks (':' :: cs) = ':' :: cs := skipBlanks_cons rfl
  rw [quote_append, members?, skipBlanks_cons rfl]
  simp only [stringRest?_escaped, Option.bind_eq_bind, Option.bind_some, hcolon, h]
  rfl

theorem members?_more (h : value? steps cs = some (j, ',' :: others)) :
    members? (steps + 1) (quote key ++ ':' :: cs) =
      (members? steps others).map fun (ms, cs) => ((key.flatMap escapeChar, j) :: ms, cs) := by
  have hcolon : skipBlanks (':' :: cs) = ':' :: cs := skipBlanks_cons rfl
  rw [quote_append, members?, skipBlanks_cons rfl]
  simp only [stringRest?_escaped, Option.bind_eq_bind, Option.bind_some, hcolon, h]
  rfl

end Parts

/-- The characters start with one that is no blank and closes no array. -/
def Starts (cs : List Char) : Prop := ∃ c tail, cs = c :: tail ∧ isBlank c = false ∧ c ≠ ']'

theorem value?_array (steps : Nat) {cs : List Char} (h : Starts cs) :
    value? (steps + 1) ('[' :: cs) = (items? steps cs).map fun (js, cs) => (.array js, cs) := by
  obtain ⟨c, tail, rfl, hblank, hclose⟩ := h
  rw [value?, skipBlanks_cons rfl]
  simp only [skipBlanks_cons hblank]
  split
  · rename_i heq
    cases heq
    contradiction
  · rfl

theorem value?_object (steps : Nat) {cs : List Char} (h : ∃ tail, cs = '"' :: tail) :
    value? (steps + 1) ('\x7b' :: cs) =
      (members? steps cs).map fun (ms, cs) => (.object ms, cs) := by
  obtain ⟨tail, rfl⟩ := h
  rw [value?, skipBlanks_cons rfl]
  rfl

theorem Writes.starts {j : Json} {cs : List Char} (h : Writes j cs) : Starts cs := by
  cases h with
  | nat n =>
    obtain ⟨d, ds, hcons, hd⟩ := exists_toDigits_eq_cons n
    refine ⟨d, ds, hcons, isBlank_of_isDigit hd, ?_⟩
    rintro rfl
    cases hd
  | text s => exact ⟨_, _, rfl, rfl, by decide⟩
  | emptyArray => exact ⟨_, _, rfl, rfl, by decide⟩
  | array h => exact ⟨_, _, rfl, rfl, by decide⟩
  | emptyObject => exact ⟨_, _, rfl, rfl, by decide⟩
  | object h => exact ⟨_, _, rfl, rfl, by decide⟩

theorem Starts.append {cs : List Char} (h : Starts cs) (rest : List Char) :
    Starts (cs ++ rest) := by
  obtain ⟨c, tail, rfl, hc⟩ := h
  exact ⟨c, tail ++ rest, rfl, hc⟩

theorem WritesItems.starts {js : List Json} {cs : List Char} (h : WritesItems js cs) :
    Starts cs := by
  cases h with
  | one h => exact h.starts
  | more h => exact h.starts.append _

theorem WritesMembers.starts {ms : List (List Char × Json)} {cs : List Char}
    (h : WritesMembers ms cs) (rest : List Char) : ∃ tail, cs ++ rest = '"' :: tail := by
  cases h with
  | one key h => exact ⟨_, rfl⟩
  | more key h hms => exact ⟨_, rfl⟩

mutual

/-- A value that was written is read up to its end. By the way it was written: there are two steps
for each character, and a part has fewer characters than the whole. -/
theorem Writes.read {j : Json} {cs : List Char} {steps : Nat} {rest : List Char}
    (hrest : Ends rest) (hsteps : 2 * cs.length ≤ steps + 1) :
    Writes j cs → value? (steps + 1) (cs ++ rest) = some (j, rest)
  | .nat n => by
    obtain ⟨d, ds, hcons, hd⟩ := exists_toDigits_eq_cons n
    have hread := number?_toDigits n hrest
    rw [hcons, List.cons_append] at hread ⊢
    rw [value?_digit steps hd, hread]
    rfl
  | .text s => value?_quote steps s rest
  | .emptyArray => rfl
  | .array h => by
    rw [List.length_cons, List.length_append, List.length_singleton] at hsteps
    obtain ⟨k, rfl⟩ : ∃ k, steps = k + 2 := ⟨steps - 2, by omega⟩
    rw [List.cons_append, List.append_assoc, value?_array _ (h.starts.append _),
      List.singleton_append, h.read (by omega)]
    rfl
  | .emptyObject => rfl
  | .object h => by
    rw [List.length_cons, List.length_append, List.length_singleton] at hsteps
    obtain ⟨k, rfl⟩ : ∃ k, steps = k + 2 := ⟨steps - 2, by omega⟩
    rw [List.cons_append, List.append_assoc, List.singleton_append,
      value?_object _ (h.starts _), h.read (by omega)]
    rfl

theorem WritesItems.read {js : List Json} {cs : List Char} {steps : Nat} {rest : List Char}
    (hsteps : 2 * cs.length ≤ steps + 1) :
    WritesItems js cs → items? (steps + 2) (cs ++ ']' :: rest) = some (js, rest)
  | .one h => items?_last (h.read (ends_cons (by decide)) hsteps)
  | .more h hjs => by
    rw [List.length_append, List.length_cons] at hsteps
    obtain ⟨k, rfl⟩ : ∃ k, steps = k + 1 := ⟨steps - 1, by omega⟩
    rw [List.append_assoc, List.cons_append,
      items?_more (h.read (ends_cons (by decide)) (by omega)), hjs.read (by omega)]
    rfl

theorem WritesMembers.read {ms : List (List Char × Json)} {cs : List Char} {steps : Nat}
    {rest : List Char} (hsteps : 2 * cs.length ≤ steps + 1) :
    WritesMembers ms cs → members? (steps + 2) (cs ++ '\x7d' :: rest) = some (ms, rest)
  | .one key h => by
    rw [List.length_append, List.length_cons] at hsteps
    rw [List.append_assoc, List.cons_append]
    exact members?_last key (h.read (ends_cons (by decide)) (by omega))
  | .more key h hms => by
    rw [List.length_append, List.length_append, List.length_cons, List.length_cons] at hsteps
    obtain ⟨k, rfl⟩ : ∃ k, steps = k + 1 := ⟨steps - 1, by omega⟩
    rw [List.append_assoc, List.append_assoc, List.cons_append, List.cons_append,
      members?_more key (h.read (ends_cons (by decide)) (by omega)), hms.read (by omega)]
    rfl

end

/-- A text that was written as a whole is read as a whole. -/
theorem Writes.parse? {j : Json} {cs : List Char} (h : Writes j cs) : parse? cs = some j := by
  have hends : Ends [] := by simp [Ends]
  have hread : value? (2 * cs.length + 2) (cs ++ []) = some (j, []) :=
    h.read hends (by omega)
  rw [List.append_nil] at hread
  unfold Json.parse?
  rw [hread]
  rfl

end BytecodeCompiler.Json
