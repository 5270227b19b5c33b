import Lucivy.Query.ParseSyntax

/-! # How a query is written, and what the tokenizer reads

A query is written as a row of pieces: words, quoted phrases, operators, signs and parentheses.
`Layout` says which texts write a row of pieces; it allows blanks anywhere between two pieces, and
parentheses both attached to a term and standing alone. The tokenizer does not always read the row
back: a closing parenthesis behind a blank, a quote or a word with an opening one is read as text.
It then has fewer closing tokens than the row has closing parentheses (`Layout.reads`), which is
what makes the parser refuse such a query.

* `tokenize_word`, `tokenize_quote`, … — the tokenizer on each kind of piece.
* `Layout` — the texts that write a row of pieces.
* `Reads` — what the tokenizer makes of a row. -/

namespace Lucivy.Query

open Lucivy.Foundation List

/-! ## The tokenizer, piece by piece -/

variable {text : Text}

/-- A bound on the characters is enough if it is one. -/
theorem tokenizeUpTo_eq {n m : Nat} (hn : text.length ≤ n) (hm : text.length ≤ m) :
    tokenizeUpTo n text = tokenizeUpTo m text := by
  induction n generalizing m text with
  | zero =>
    obtain rfl : text = [] := length_eq_zero_iff.mp (by omega)
    cases m <;> simp [tokenizeUpTo]
  | succ n ih =>
    cases text with
    | nil => cases m <;> simp [tokenizeUpTo]
    | cons c rest =>
      obtain ⟨m, rfl⟩ : ∃ k, m = k + 1 := ⟨m - 1, by simp at hm; omega⟩
      simp only [length_cons, Nat.add_le_add_iff_right] at hn hm
      have hquote : ((rest.dropWhile (· != '"')).drop 1).length ≤ rest.length := by
        rw [length_drop]
        have := (rest.dropWhile_suffix (· != '"')).length_le
        omega
      simp only [tokenizeUpTo]
      split
      · exact ih hn hm
      · rename_i hspace
        split
        · rw [ih (hquote.trans hn) (hquote.trans hm)]
        · rename_i hc
          split
          · rw [ih hn hm]
          · split
            · rw [ih hn hm]
            · -- the word has at least its first character
              have hword : inWord c = true := by simp [inWord, hspace, hc]
              have hdrop : (c :: rest).dropWhile inWord = rest.dropWhile inWord :=
                dropWhile_cons_of_pos hword
              have hlen := (rest.dropWhile_suffix inWord).length_le
              rw [hdrop, ih (hlen.trans hn) (hlen.trans hm)]

theorem tokenize_of_le {n : Nat} (hn : text.length ≤ n) :
    tokenizeUpTo n text = tokenize text := tokenizeUpTo_eq hn le_rfl

/-- Blanks are skipped. -/
theorem tokenize_space {c : Char} (hc : isWhitespace c = true) (text : Text) :
    tokenize (c :: text) = tokenize text := by
  simp [tokenize, tokenizeUpTo, hc]

/-- A sign is a token. -/
theorem tokenize_sign {c : Char} (hc : isWhitespace c = false ∧ c ≠ '"')
    (hnext : isSign c text = true) :
    tokenize (c :: text) = (if c = '+' then .plus else .minus) :: tokenize text := by
  simp [tokenize, tokenizeUpTo, hc, hnext]

/-- A phrase is a token. -/
theorem tokenize_quote {phrase : Text} (hphrase : ∀ c ∈ phrase, c ≠ '"') (text : Text) :
    tokenize ('"' :: phrase ++ '"' :: text) = quotedTokens phrase ++ tokenize text := by
  have hspace : isWhitespace '"' = false := by decide
  have hall : ∀ c ∈ phrase, (c != '"') = true := fun c hc => by simpa using hphrase c hc
  have htake : (phrase ++ '"' :: text).takeWhile (· != '"') = phrase := by
    rw [takeWhile_append_of_pos hall]
    simp
  have hdrop : (phrase ++ '"' :: text).dropWhile (· != '"') = '"' :: text := by
    rw [dropWhile_append_of_pos hall]
    simp
  have hlen : text.length ≤ (phrase ++ '"' :: text).length := by simp; omega
  simp only [tokenize, tokenizeUpTo, cons_append, length_cons, hspace, htake, hdrop,
    drop_succ_cons, drop_zero]
  rw [tokenize_of_le hlen]
  simp [tokenize]

/-- A word ends in front of the text. -/
def Stops (text : Text) : Prop := ∀ c ∈ text.head?, inWord c = false

theorem Stops.here (hstops : Stops text) :
    text.takeWhile inWord = [] ∧ text.dropWhile inWord = text := by
  cases text with
  | nil => exact ⟨rfl, rfl⟩
  | cons c text => simp [hstops c rfl]

/-- A row of characters that starts a word and runs to its end. -/
theorem tokenize_word {c : Char} {word text : Text} (hword : ∀ x ∈ c :: word, inWord x = true)
    (hopen : c ≠ '(') (hsign : isSign c (word ++ text) = false) (hstops : Stops text) :
    tokenize (c :: word ++ text) = wordTokens (c :: word) ++ tokenize text := by
  obtain ⟨hspace, hquote⟩ : isWhitespace c = false ∧ c ≠ '"' := by
    simpa [inWord] using hword c mem_cons_self
  have htake : (c :: (word ++ text)).takeWhile inWord = c :: word := by
    rw [← cons_append, takeWhile_append_of_pos hword, hstops.here.1, append_nil]
  have hdrop : (c :: (word ++ text)).dropWhile inWord = text := by
    rw [← cons_append, dropWhile_append_of_pos hword, hstops.here.2]
  have hlen : text.length ≤ (word ++ text).length := by simp
  simp only [tokenize, tokenizeUpTo, cons_append, length_cons, hspace, hquote, hsign,
    hopen, htake, hdrop]
  rw [tokenize_of_le hlen]
  simp [tokenize]

/-! ## Closing parentheses at the end of a word -/

theorem stripClosers_of_ne {c : Char} (hc : c ≠ ')') (word : Text) (n : Nat) :
    stripClosers (c :: word) n = (c :: word, n) := by
  cases word with
  | nil => rfl
  | cons c' word => simp [stripClosers, hc]

/-- Closers are counted. -/
theorem stripClosers_replicate {word : Text} (hword : word ≠ []) (k n : Nat) :
    stripClosers (List.replicate k ')' ++ word) n = stripClosers word (n + k) := by
  induction k generalizing n with
  | zero => rfl
  | succ k ih =>
    have hcons : ∃ c rest, List.replicate k ')' ++ word = c :: rest :=
      exists_cons_of_ne_nil (by simp [hword])
    obtain ⟨c, rest, hrest⟩ := hcons
    rw [replicate_succ, cons_append, hrest, stripClosers, if_pos rfl, ← hrest, ih]
    congr 1
    omega

/-- An open one keeps them. -/
theorem wordTokens_of_open {word : Text} (hopen : '(' ∈ word) :
    wordTokens word = [wordToken word] := by
  simp [wordTokens, hopen]

/-- The parentheses behind a word that has none at its end. -/
theorem wordTokens_closers {word : Text} (hne : word ≠ []) (hopen : '(' ∉ word)
    (hend : word.getLast? ≠ some ')') (k : Nat) :
    wordTokens (word ++ List.replicate k ')') = wordToken word :: List.replicate k .rparen := by
  have hopen' : ¬ '(' ∈ word ++ List.replicate k ')' := by
    intro hmem
    rcases mem_append.mp hmem with hmem | hmem
    · exact hopen hmem
    · exact absurd (eq_of_mem_replicate hmem) (by decide)
  obtain ⟨c, rest, hrev⟩ : ∃ c rest, word.reverse = c :: rest :=
    exists_cons_of_ne_nil (by simpa using hne)
  have hc : c ≠ ')' := by
    rintro rfl
    apply hend
    rw [← head?_reverse, hrev]
    rfl
  have hstrip : stripClosers (word ++ List.replicate k ')').reverse 0 = (word.reverse, k) := by
    rw [reverse_append, reverse_replicate,
      stripClosers_replicate (by simpa using hne), hrev, stripClosers_of_ne hc, zero_add]
  have hcontains : (word ++ List.replicate k ')').contains '(' = false := by simpa using hopen'
  simp only [wordTokens, hcontains, Bool.false_eq_true, if_false, hstrip, reverse_reverse]

/-- Parentheses standing alone: the first is a text. -/
theorem wordTokens_alone (k : Nat) :
    wordTokens (List.replicate (k + 1) ')') = .text [')'] :: List.replicate k .rparen := by
  have hcontains : (List.replicate (k + 1) ')').contains '(' = false := by simp
  have hstrip : stripClosers (List.replicate (k + 1) ')').reverse 0 = ([')'], k) := by
    rw [reverse_replicate, replicate_succ', stripClosers_replicate (by simp),
      stripClosers, zero_add]
  simp only [wordTokens, hcontains, hstrip]
  rfl

/-! ## Pieces and their layouts -/

/-- What a query is written with. -/
inductive Piece where
  | opening
  | closing
  | and
  | or
  | not
  | plus
  | minus
  | word (text : Text)
  | phrase (text : Text)
deriving DecidableEq, Repr

/-- The token a piece stands for. -/
def Piece.token : Piece → ParseTok
  | .opening => .lparen
  | .closing => .rparen
  | .and => .and
  | .or => .or
  | .not => .not
  | .plus => .plus
  | .minus => .minus
  | .word text => .text text
  | .phrase text => .text (trim text)

/-- The operators, which are words in capitals. -/
inductive IsOperator : Piece → Text → Prop where
  | and : IsOperator .and "AND".toList
  | or : IsOperator .or "OR".toList
  | not : IsOperator .not "NOT".toList

/-- A run of characters that is read as a word: no blank and no quote in it, and no sign or opening
parenthesis in front. -/
structure IsRun (run : Text) : Prop where
  /-- It has a character. -/
  ne_nil : run ≠ []
  /-- No blank and no quote. -/
  inside : ∀ c ∈ run, inWord c = true
  /-- Its first character is no parenthesis or sign. -/
  starts : ∀ c ∈ run.head?, c ≠ '(' ∧ c ≠ '+' ∧ c ≠ '-'

/-- A word. Without an opening parenthesis in it, it has no closing one at its end either: that one
groups. -/
structure IsWord (word : Text) : Prop extends IsRun word where
  /-- It is no operator. -/
  plain : word ≠ "AND".toList ∧ word ≠ "OR".toList ∧ word ≠ "NOT".toList
  /-- A closing parenthesis at its end belongs to an opening one. -/
  ends : '(' ∉ word → word.getLast? ≠ some ')'

/-- **The texts that write a row of pieces.** -/
inductive Layout : List Piece → Text → Prop where
  | nil : Layout [] []
  | space {c : Char} {pieces : List Piece} {text : Text} : isWhitespace c = true →
      Layout pieces text → Layout pieces (c :: text)
  | opening {pieces : List Piece} {text : Text} : Layout pieces text →
      Layout (.opening :: pieces) ('(' :: text)
  /-- A sign stands right in front of what it is about. -/
  | plus {pieces : List Piece} {text : Text} : isSign '+' text = true → Layout pieces text →
      Layout (.plus :: pieces) ('+' :: text)
  | minus {pieces : List Piece} {text : Text} : isSign '-' text = true → Layout pieces text →
      Layout (.minus :: pieces) ('-' :: text)
  /-- An operator is a word of its own. -/
  | operator {piece : Piece} {name : Text} {pieces : List Piece} {text : Text} :
      IsOperator piece name → Stops text → Layout pieces text →
      Layout (piece :: pieces) (name ++ text)
  /-- A word, with the closing parentheses attached to it. -/
  | word {word : Text} (closers : Nat) {pieces : List Piece} {text : Text} : IsWord word →
      Stops text → Layout pieces text →
      Layout (.word word :: (List.replicate closers .closing ++ pieces))
        (word ++ List.replicate closers ')' ++ text)
  /-- A quoted phrase, which is not blank. -/
  | phrase {phrase : Text} {pieces : List Piece} {text : Text} : (∀ c ∈ phrase, c ≠ '"') →
      trim phrase ≠ [] → Layout pieces text →
      Layout (.phrase phrase :: pieces) ('"' :: phrase ++ '"' :: text)
  /-- Closing parentheses that stand alone, or behind a phrase. -/
  | closing (closers : Nat) {pieces : List Piece} {text : Text} : Stops text → Layout pieces text →
      Layout (List.replicate (closers + 1) .closing ++ pieces)
        (List.replicate (closers + 1) ')' ++ text)

/-! ## What is read -/

/-- What the tokenizer makes of a row of pieces: every opening parenthesis, and either the whole row
or too few closing ones. -/
structure Reads (toks : List ParseTok) (pieces : List Piece) : Prop where
  /-- The opening parentheses. -/
  openings : toks.count .lparen = pieces.count .opening
  /-- The row, or a closing parenthesis is lost. -/
  row : toks = pieces.map Piece.token ∨ toks.count .rparen < pieces.count .closing

/-- A parenthesis is counted alike in a row and in its tokens. -/
theorem count_map_token (pieces : List Piece) :
    (pieces.map Piece.token).count .lparen = pieces.count .opening ∧
      (pieces.map Piece.token).count .rparen = pieces.count .closing := by
  induction pieces with
  | nil => exact ⟨rfl, rfl⟩
  | cons piece pieces ih =>
    simp only [map_cons, count_cons, ih]
    cases piece <;> simp [Piece.token]

/-- The row itself is read. -/
theorem Reads.exact (pieces : List Piece) : Reads (pieces.map Piece.token) pieces :=
  ⟨(count_map_token pieces).1, .inl rfl⟩

theorem Reads.closings_le {toks : List ParseTok} {pieces : List Piece}
    (hreads : Reads toks pieces) :
    toks.count .rparen ≤ pieces.count .closing := by
  rcases hreads.row with rfl | hlt
  · exact (count_map_token pieces).2.le
  · exact hlt.le

theorem Reads.append {toks toks' : List ParseTok} {pieces pieces' : List Piece}
    (hreads : Reads toks pieces) (hreads' : Reads toks' pieces') :
    Reads (toks ++ toks') (pieces ++ pieces') where
  openings := by rw [count_append, count_append, hreads.openings, hreads'.openings]
  row := by
    have hle := hreads.closings_le
    have hle' := hreads'.closings_le
    simp only [count_append]
    rcases hreads.row with rfl | hlt
    · rcases hreads'.row with rfl | hlt'
      · exact .inl (map_append).symm
      · omega
    · omega

/-- An operator is read. -/
theorem isOperator_token {piece : Piece} {name : Text} (hname : IsOperator piece name) :
    wordTokens name = [piece.token] := by
  cases hname <;> decide

theorem wordToken_of_plain {word : Text} (hword : IsWord word) : wordToken word = .text word := by
  simp only [wordToken, hword.plain.1, hword.plain.2.1, hword.plain.2.2, if_false]

/-- The last character of a word with closing parentheses behind it is one of them. -/
theorem append_closers_ne {word : Text} (closers : Nat) {name : Text}
    (hname : ')' ∉ name) : word ++ List.replicate (closers + 1) ')' ≠ name := by
  rintro rfl
  exact hname (by simp)

/-- A word with closing parentheses: they are read if the word has no opening one. -/
theorem reads_word {word : Text} (hword : IsWord word) (closers : Nat) :
    Reads (wordTokens (word ++ List.replicate closers ')'))
      (.word word :: List.replicate closers .closing) := by
  by_cases hopen : '(' ∈ word
  · -- an opening parenthesis makes all of it a word
    rw [wordTokens_of_open (mem_append_left _ hopen)]
    cases closers with
    | zero =>
      rw [replicate_zero, append_nil, wordToken_of_plain hword]
      exact Reads.exact [.word word]
    | succ closers =>
      have htoken : wordToken (word ++ List.replicate (closers + 1) ')') =
          .text (word ++ List.replicate (closers + 1) ')') := by
        rw [wordToken, if_neg (append_closers_ne closers (by decide)),
          if_neg (append_closers_ne closers (by decide)),
          if_neg (append_closers_ne closers (by decide))]
      rw [htoken]
      refine ⟨by simp [count_replicate], .inr ?_⟩
      simp
  · rw [wordTokens_closers hword.ne_nil hopen (hword.ends hopen), wordToken_of_plain hword]
    have hexact := Reads.exact (.word word :: List.replicate closers .closing)
    simpa [Piece.token] using hexact

/-- Closing parentheses that stand alone lose one. -/
theorem reads_closing (closers : Nat) :
    Reads (wordTokens (List.replicate (closers + 1) ')'))
      (List.replicate (closers + 1) .closing) := by
  rw [wordTokens_alone]
  refine ⟨by simp [count_replicate], .inr ?_⟩
  simp

/-- A run, read off its characters. -/
theorem isRun_cons {c : Char} {run : Text} (hrun : (c :: run).all inWord = true)
    (hc : c ∉ ['(', '+', '-']) : IsRun (c :: run) where
  ne_nil := cons_ne_nil _ _
  inside := all_eq_true.mp hrun
  starts := by
    intro c' hc'
    obtain rfl : c = c' := by simpa using hc'
    simpa using hc

theorem IsOperator.isRun {piece : Piece} {name : Text} (hname : IsOperator piece name) :
    IsRun name := by
  cases hname with
  | and => exact isRun_cons (by decide : ['A', 'N', 'D'].all inWord = true) (by decide)
  | or => exact isRun_cons (by decide : ['O', 'R'].all inWord = true) (by decide)
  | not => exact isRun_cons (by decide : ['N', 'O', 'T'].all inWord = true) (by decide)

theorem isRun_closers (closers : Nat) : IsRun (List.replicate (closers + 1) ')') :=
  isRun_cons (by simp [inWord, isWhitespace]) (by decide)

/-- Closing parentheses behind a run belong to it. -/
theorem IsRun.append_closers {run : Text} (hrun : IsRun run) (closers : Nat) :
    IsRun (run ++ List.replicate closers ')') where
  ne_nil := by simp [hrun.ne_nil]
  inside := by
    refine forall_mem_append.mpr ⟨hrun.inside, fun c hc => ?_⟩
    rw [eq_of_mem_replicate hc]
    decide
  starts := by
    rw [head?_append_of_ne_nil _ hrun.ne_nil]
    exact hrun.starts

/-- **A run of characters.** -/
theorem tokenize_run {run text : Text} (hrun : IsRun run) (hstops : Stops text) :
    tokenize (run ++ text) = wordTokens run ++ tokenize text := by
  obtain ⟨c, rest, rfl⟩ := exists_cons_of_ne_nil hrun.ne_nil
  obtain ⟨hopen, hplus, hminus⟩ := hrun.starts c rfl
  have hsign : isSign c (rest ++ text) = false := by simp [isSign, hplus, hminus]
  exact tokenize_word hrun.inside hopen hsign hstops

/-- **The tokenizer on a layout**: it reads the row, or loses a closing parenthesis. -/
theorem Layout.reads {pieces : List Piece} (hlayout : Layout pieces text) :
    Reads (tokenize text) pieces := by
  induction hlayout with
  | nil => exact Reads.exact []
  | space hc _ ih => rwa [tokenize_space hc]
  | opening _ ih => exact (Reads.exact [.opening]).append ih
  | plus hsign _ ih =>
    rw [tokenize_sign (by decide) hsign]
    exact (Reads.exact [.plus]).append ih
  | minus hsign _ ih =>
    rw [tokenize_sign (by decide) hsign]
    exact (Reads.exact [.minus]).append ih
  | @operator piece name pieces text hname hstops _ ih =>
    rw [tokenize_run hname.isRun hstops, isOperator_token hname]
    exact (Reads.exact [piece]).append ih
  | @word word closers pieces text hword hstops _ ih =>
    rw [tokenize_run (hword.toIsRun.append_closers closers) hstops]
    exact (reads_word hword closers).append ih
  | @phrase phrase pieces text hquote hblank _ ih =>
    have htokens : quotedTokens phrase = [Piece.token (.phrase phrase)] := by
      simp [quotedTokens, hblank, Piece.token]
    rw [tokenize_quote hquote, htokens]
    exact (Reads.exact [.phrase phrase]).append ih
  | @closing closers pieces text hstops _ ih =>
    rw [tokenize_run (isRun_closers closers) hstops]
    exact (reads_closing closers).append ih

end Lucivy.Query
