import Lucivy.Tokenizer.EqualChunk

/-! # Lowercasing

`char::to_lowercase` and `str::to_lowercase` of the Rust standard library over a table of the
Unicode case data. A character may lowercase to several (`İ` to `i` and a dot), to one of
another byte length (the Kelvin sign to `k`), and a capital sigma at the end of a word has a
form of its own.

* `CaseTable` — the case data, with what the Unicode standard says of it.
* `CaseTable.strToLowercase` — `str::to_lowercase`. -/

namespace Lucivy.Tokenizer

open Lucivy.Foundation List

/-- **The Unicode case data** a lowercasing reads. -/
structure CaseTable where
  /-- `char::to_lowercase`. -/
  lower : Char → Text
  /-- The `Cased` property. -/
  cased : Char → Bool
  /-- The `Case_Ignorable` property. -/
  caseIgnorable : Char → Bool
  /-- No character lowercases to nothing. -/
  lower_ne : ∀ c, lower c ≠ []
  /-- An ASCII character lowercases as `to_ascii_lowercase` says. -/
  lower_ascii : ∀ c : Char, c.toNat ≤ 127 → lower c = [c.toLower]
  /-- Another one never lowercases to an ASCII separator. -/
  lower_content : ∀ c : Char, 127 < c.toNat → ∀ d ∈ lower c, isContentChar d = true
  /-- What is lowercase stays as it is. -/
  lower_lower : ∀ c, ∀ d ∈ lower c, lower d = [d]
  /-- Capital sigma by itself. -/
  lower_sigma : lower 'Σ' = ['σ']

namespace CaseTable

variable (table : CaseTable)

def capitalSigma : Char := 'Σ'

/-- `case_ignorable_then_cased`: behind the case-ignorable characters comes a cased one. -/
def caseIgnorableThenCased (t : Text) : Bool :=
  match t.dropWhile table.caseIgnorable with
  | [] => false
  | c :: _ => table.cased c

/-- The loop of `str::to_lowercase`; `before` is what has been read, last character first. -/
def lowerLoop (before : Text) : Text → Text
  | [] => []
  | c :: rest =>
    (if c = capitalSigma then
      if table.caseIgnorableThenCased before && !table.caseIgnorableThenCased rest then ['ς']
      else ['σ']
    else table.lower c) ++ lowerLoop (c :: before) rest

def strToLowercase (t : Text) : Text := table.lowerLoop [] t

/-- The text lowercased character by character, as the windows are. -/
def lowerChars (t : Text) : Text := t.flatMap table.lower

variable {table}

@[simp] theorem lowerChars_nil : table.lowerChars [] = [] := rfl

@[simp] theorem lowerChars_cons (c : Char) (t : Text) :
    table.lowerChars (c :: t) = table.lower c ++ table.lowerChars t := rfl

theorem lowerChars_eq_nil {t : Text} : table.lowerChars t = [] ↔ t = [] := by
  cases t with
  | nil => simp
  | cons c t => simp [table.lower_ne c]

theorem isContentChar_toLower {c : Char} (h : c.toNat ≤ 127) :
    isContentChar c.toLower = isContentChar c := by
  have hall : ∀ n ≤ 127, isContentChar (Char.ofNat n).toLower = isContentChar (Char.ofNat n) := by
    decide
  rw [← Char.ofNat_toNat c]
  exact hall c.toNat h

/-- **Lowercasing keeps content content** and separators separators. -/
theorem isContentChar_of_mem_lower {c d : Char} (h : d ∈ table.lower c) :
    isContentChar d = isContentChar c := by
  by_cases hc : c.toNat ≤ 127
  · rw [table.lower_ascii c hc, mem_singleton] at h
    rw [h, isContentChar_toLower hc]
  · rw [table.lower_content c (Nat.lt_of_not_le hc) d h, isContentChar]
    simp [Nat.lt_of_not_le hc]

/-- Taking the separators out before or after lowercasing is the same. -/
theorem filter_lowerChars (t : Text) :
    (table.lowerChars t).filter isContentChar = table.lowerChars (t.filter isContentChar) := by
  induction t with
  | nil => rfl
  | cons c t ih =>
    rw [lowerChars_cons, filter_append, ih]
    by_cases hc : isContentChar c = true
    · rw [filter_cons_of_pos hc, lowerChars_cons, filter_eq_self.mpr]
      exact fun d hd => (isContentChar_of_mem_lower hd).trans hc
    · rw [filter_cons_of_neg hc, filter_eq_nil_iff.mpr, nil_append]
      exact fun d hd hcontent => hc ((isContentChar_of_mem_lower hd).symm.trans hcontent)

end CaseTable

/-- The lowercasing of `asciiCase`. -/
def asciiLower (c : Char) : Text :=
  if c.toNat ≤ 127 then [c.toLower] else if c = 'Σ' then ['σ'] else [c]

theorem toLower_of_ascii {c : Char} (h : c.toNat ≤ 127) :
    c.toLower.toNat ≤ 127 ∧ c.toLower.toLower = c.toLower := by
  have hall : ∀ n ≤ 127, (Char.ofNat n).toLower.toNat ≤ 127 ∧
      (Char.ofNat n).toLower.toLower = (Char.ofNat n).toLower := by
    decide
  rw [← Char.ofNat_toNat c]
  exact hall c.toNat h

/-- **The case data of a text that is ASCII but for sigmas**, for examples. -/
def asciiCase : CaseTable where
  lower := asciiLower
  cased c := c.isAlpha || c = 'Σ' || c = 'σ' || c = 'ς'
  caseIgnorable c := c = '.' || c = '\''
  lower_ne c := by
    rw [asciiLower]
    split
    · exact cons_ne_nil _ _
    · split <;> exact cons_ne_nil _ _
  lower_ascii c h := by rw [asciiLower, if_pos h]
  lower_content c h d hd := by
    rw [asciiLower, if_neg (Nat.not_le_of_lt h)] at hd
    split at hd
    · rw [mem_singleton.mp hd]
      decide
    · rw [mem_singleton.mp hd, isContentChar]
      simp [h]
  lower_lower c d hd := by
    rw [asciiLower] at hd
    split at hd
    · next h =>
      obtain ⟨hle, hlower⟩ := toLower_of_ascii h
      rw [mem_singleton.mp hd, asciiLower, if_pos hle, hlower]
    · next h =>
      split at hd
      · rw [mem_singleton.mp hd]
        decide
      · next hsigma => rw [mem_singleton.mp hd, asciiLower, if_neg h, if_neg hsigma]
  lower_sigma := by decide

end Lucivy.Tokenizer
