import Lucivy.Briques.WordSpans

/-! # Intern keys

`intern_key` (`suffix_fst/collector_v3.rs`): the key an entry is interned under is its text with
the numbers of its shape written behind a NUL, and nothing says how long the text is. A text may
hold a NUL, a colon or digits of its own; the key can still be taken apart, from its end.

* `internKey` — the key.
* `append_mark_inj` — a list is cut at a mark that one of the two sides cannot hold.
* `internOrdinals` — the ordinals handed out while tokens are interned.
* `interned_once` — for words whose length the meta holds, a key tells text and shape apart. -/

namespace Lucivy.SuffixFst

open Lucivy.Foundation Lucivy.Tokenizer Lucivy.Briques List
open String (utf8Len utf8Len_append)

/-- A number in decimal. -/
abbrev decimal (n : Nat) : Text := Nat.toDigits 10 n

/-- `intern_key`: a word-stripped entry has a prefix of its own and its content length, a chunk
its full shape. -/
def Token.internKey (t : Token) : Text :=
  if t.info.isWordStripped then
    (['\x00', 'w', 's', ':'] ++ t.text) ++ '\x00' :: decimal (t.info.ownLen - t.info.sepLen)
  else
    t.text ++ '\x00' :: (decimal t.info.ownLen ++
      ':' :: (decimal t.info.sepLen ++ ':' :: decimal t.info.isWordStart.toNat))

/-- A list is cut in one way only at a mark that does not stand again on one side of the cut. -/
theorem append_mark_inj {α : Type} {mark : α} {a b s t : List α} (h₁ : mark ∉ s ∨ mark ∉ b)
    (h₂ : mark ∉ t ∨ mark ∉ a) : a ++ mark :: s = b ++ mark :: t ↔ a = b ∧ s = t := by
  constructor
  · intro h
    -- the longer of the two left sides runs into the other's mark
    rcases append_eq_append_iff.mp h with ⟨c, rfl, hc⟩ | ⟨c, rfl, hc⟩ <;> rcases c with - | ⟨x, c⟩
    · exact ⟨(append_nil a).symm, by simpa using hc⟩
    · obtain ⟨rfl, rfl⟩ := cons.inj hc
      simp at h₁
    · exact ⟨append_nil b, by simpa using hc.symm⟩
    · obtain ⟨rfl, rfl⟩ := cons.inj hc
      simp at h₂
  · rintro ⟨rfl, rfl⟩
    rfl

theorem decimal_inj {m n : Nat} : decimal m = decimal n ↔ m = n := by
  refine ⟨fun h => ?_, congrArg _⟩
  simpa using congrArg (fun ds => Nat.ofDigitChars 10 ds 0) h

theorem not_mem_decimal {c : Char} (hc : c.isDigit = false) (n : Nat) : c ∉ decimal n := by
  intro h
  have hdigit := Nat.isDigit_of_mem_toDigits (by decide) (by decide) h
  exact Bool.false_ne_true (hc.symm.trans hdigit)

/-- **Keys tell text and shape apart**, whatever the text holds. -/
theorem internKey_inj (t u : Token) : t.internKey = u.internKey ↔ t.ordinal = u.ordinal := by
  have hcolon := not_mem_decimal (c := ':') rfl
  have hnul := not_mem_decimal (c := '\x00') rfl
  rw [Token.internKey, Token.internKey, Token.ordinal, Token.ordinal,
    TokenMeta.shape, TokenMeta.shape]
  -- what stands behind the last NUL has no colon for a word and two for a chunk
  cases t.info.isWordStripped <;> cases u.info.isWordStripped <;>
    simp only [if_true, Bool.false_eq_true, if_false] <;>
    rw [append_mark_inj (.inl (by simp [hnul])) (.inl (by simp [hnul]))]
  · rw [append_mark_inj (.inr (hcolon _)) (.inr (hcolon _)),
      append_mark_inj (.inr (hcolon _)) (.inr (hcolon _)), decimal_inj, decimal_inj, decimal_inj]
    have hflag : t.info.isWordStart.toNat = u.info.isWordStart.toNat ↔
        t.info.isWordStart = u.info.isWordStart := by
      cases t.info.isWordStart <;> cases u.info.isWordStart <;> simp
    simp [hflag]
  · refine iff_of_false (fun h => ?_) (by simp)
    exact hcolon _ (h.2.subst (mem_append_right _ mem_cons_self))
  · refine iff_of_false (fun h => ?_) (by simp)
    exact hcolon _ (h.2.symm.subst (mem_append_right _ mem_cons_self))
  · rw [append_right_inj, decimal_inj]
    simp

/-! ## Ordinals -/

/-- The ordinal `intern_extended` returns: that of the entry found, or the number of entries so
far. -/
def internOrdinal (tokens : List Token) (t : Token) : Nat :=
  tokens.findIdx (·.ordinal = t.ordinal)

/-- The ordinals returned while some tokens are interned. -/
def internOrdinals : List Token → List Token → List Nat
  | _, [] => []
  | tokens, t :: rest => internOrdinal tokens t :: internOrdinals (internExtended tokens t) rest

/-- Tokens interned later are put behind. -/
theorem prefix_foldl_internExtended (tokens rest : List Token) :
    tokens <+: rest.foldl internExtended tokens := by
  refine foldlRecOn (motive := (tokens <+: ·)) rest _ prefix_rfl fun l h u _ => h.trans ?_
  rw [internExtended]
  split
  · exact prefix_rfl
  · exact prefix_append ..

/-- The ordinal returned for a token is its place among all that are interned in the end. -/
theorem internOrdinals_eq (tokens new : List Token) :
    internOrdinals tokens new = new.map (internOrdinal (new.foldl internExtended tokens)) := by
  induction new generalizing tokens with
  | nil => rfl
  | cons t rest ih =>
    rw [internOrdinals, ih, map_cons, foldl_cons]
    obtain ⟨later, hlater⟩ := prefix_foldl_internExtended (internExtended tokens t) rest
    rw [← hlater, internOrdinal, internOrdinal, internExtended]
    split
    · next hany => rw [findIdx_append, if_pos (findIdx_lt_length.mpr (any_eq_true.mp hany))]
    · next hnone =>
      have hlen : tokens.findIdx (·.ordinal = t.ordinal) = tokens.length :=
        findIdx_eq_length_of_false (by simpa using hnone)
      rw [append_assoc, findIdx_append, hlen, if_neg (lt_irrefl _), singleton_append,
        findIdx_cons]
      simp

/-- **Two tokens have one ordinal just when text and meta's shape agree.** -/
theorem internOrdinals_getElem?_iff {new : List Token} {i j : Nat} {t u : Token}
    (ht : new[i]? = some t) (hu : new[j]? = some u) :
    (internOrdinals [] new)[i]? = (internOrdinals [] new)[j]? ↔ t.ordinal = u.ordinal := by
  rw [internOrdinals_eq, getElem?_map, getElem?_map, ht, hu, Option.map_some, Option.map_some,
    Option.some_inj]
  refine ⟨fun h => ?_, fun h => by rw [internOrdinal, internOrdinal, h]⟩
  generalize hfinal : new.foldl internExtended [] = final at h
  -- what stands under an ordinal that was returned has the token's text and shape
  have hplace : ∀ {k : Nat} {v}, new[k]? = some v →
      ∃ w, final[internOrdinal final v]? = some w ∧ w.ordinal = v.ordinal := by
    intro k v hv
    have hex : ∃ w ∈ final, w.ordinal = v.ordinal :=
      hfinal ▸ Collector.exists_ordinal_foldl_internExtended.mpr (.inr ⟨v, mem_of_getElem? hv, rfl⟩)
    have hlt : final.findIdx (·.ordinal = v.ordinal) < final.length :=
      findIdx_lt_length.mpr (by simpa using hex)
    exact ⟨_, getElem?_eq_getElem hlt, of_decide_eq_true (findIdx_getElem (w := hlt))⟩
  obtain ⟨v, hv, hvt⟩ := hplace ht
  obtain ⟨w, hw, hwu⟩ := hplace hu
  rw [h, hw] at hv
  cases hv
  exact hvt.symm.trans hwu

/-! ## What the collector produces -/

/-- What is interned for a value: its chunks, then its words. -/
inductive Produced
  | chunk (t : Token)
  | word (w : Word)

namespace Produced

def token : Produced → Token
  | chunk t => t
  | word w => w.token

/-- The shape an entry is keyed by: of a word the length of its content, of a chunk its own
length, its separators and its flag. -/
def shape : Produced → Bool × Nat × Nat × Bool
  | chunk t => (false, t.info.ownLen, t.info.sepLen, t.info.isWordStart)
  | word w => (true, utf8Len w.content, 0, false)

/-- Content and separators of a word fit the sixteen bits of its length. -/
def fits : Produced → Bool
  | chunk _ => true
  | word w => utf8Len w.content + w.token.info.sepLen ≤ 65535

end Produced

def valueProduced (text : Text) : List Produced :=
  (valueTokens text).map .chunk ++ (allWords text).map .word

/-- The tokens of what is produced are those interned. -/
theorem flatMap_valueInterned (values : List Text) :
    values.flatMap valueInterned = (values.flatMap valueProduced).map Produced.token := by
  rw [map_flatMap]
  refine flatMap_congr fun v _ => ?_
  rw [valueProduced, map_append, map_map, map_map, valueInterned]
  exact congrArg (· ++ _) (map_id _).symm

/-- The meta of a word that fits has the length of its content. -/
theorem length_of_fits {v : Text} {w : Word} (h : w ∈ allWords v)
    (hfits : utf8Len w.content + w.token.info.sepLen ≤ 65535) :
    utf8Len w.content = w.token.info.ownLen - w.token.info.sepLen := by
  obtain ⟨before, group, later, -, hw⟩ := mem_valueWords.mp h
  rw [groupWords] at hw
  split at hw
  · cases hw
  · rcases mem_cons.mp hw with rfl | hw
    · simp only [mainWord, wordToken] at hfits ⊢
      omega
    · exact ownLen_tailWord (Option.mem_toList.mp hw)

/-- Where the length fits, the meta's shape is the entry's. -/
theorem shape_of_fits {v : Text} {t : Produced} (h : t ∈ valueProduced v) (hfits : t.fits = true) :
    t.token.info.shape = t.shape := by
  rcases mem_append.mp h with h | h
  · obtain ⟨c, hc, rfl⟩ := mem_map.mp h
    rw [Produced.token, TokenMeta.shape, (isChunkToken_of_mem hc).not_stripped]
    rfl
  · obtain ⟨w, hw, rfl⟩ := mem_map.mp h
    rw [Produced.token, TokenMeta.shape, stripped_of_mem_valueWords hw, if_pos rfl,
      ← length_of_fits hw (of_decide_eq_true hfits)]
    rfl

/-- A separator of one character stands in the last chunk. -/
theorem lastSepLen_segmentChunks {content : Text} {s : Char} (hs : isContentChar s = false)
    (hcontent : ∀ c ∈ content, isContentChar c = true) (wordId : Nat) :
    lastSepLen (segmentChunks defaultMaxToken ⟨content, [s]⟩ wordId) = utf8Len [s] := by
  have htiles : Tiles (equalChunks ⟨content, [s]⟩ defaultMaxToken) content [s] 1 :=
    equalChunks_tiles_of (by decide) (one_le_base (by decide))
  have hsep : ∀ d ∈ [s], isContentChar d = false := by
    intro d hd
    rw [mem_singleton.mp hd, hs]
  have hlast : lastSepLen (segmentChunks defaultMaxToken ⟨content, [s]⟩ wordId) =
      ((equalChunks ⟨content, [s]⟩ defaultMaxToken).getLast?.map RawChunk.sepLen).getD 0 := by
    rw [lastSepLen, segmentChunks, getLast?_map, getLast?_zipIdx]
    cases (equalChunks ⟨content, [s]⟩ defaultMaxToken).getLast? <;> rfl
  rw [hlast]
  generalize equalChunks ⟨content, [s]⟩ defaultMaxToken = raws at htiles
  rcases eq_nil_or_concat raws with rfl | ⟨init, r, rfl⟩
  · have := htiles.text
    simp at this
  · have hr : r ∈ init.concat r := by simp
    obtain ⟨c, d, htext, hc, hd, -, hlen⟩ := content_sep_of_tiles htiles hcontent hsep hr
    have hall := htiles.text
    have hne := (htiles.wellFormed r hr).text_ne
    simp only [concat_eq_append, flatMap_append, flatMap_singleton, htext] at hall
    -- of what stands behind the content of the last chunk only the last character is none
    rcases eq_nil_or_concat d with rfl | ⟨d, s', rfl⟩
    · rw [append_nil] at htext hall
      obtain ⟨c, last, rfl⟩ := (eq_nil_or_concat c).resolve_left (htext ▸ hne)
      rw [concat_eq_append, ← append_assoc] at hall
      obtain ⟨-, hlast⟩ := append_inj' hall rfl
      have := hc last (by simp)
      rw [(cons.inj hlast).1, hs] at this
      cases this
    · rw [concat_eq_append, ← append_assoc, ← append_assoc] at hall
      obtain ⟨hfront, hs'⟩ := append_inj' hall rfl
      have hnil : d = [] := by
        refine eq_nil_iff_forall_not_mem.mpr fun x hx => ?_
        have htrue := hcontent x (hfront ▸ mem_append_right _ hx)
        rw [hd x (by simp [hx])] at htrue
        cases htrue
      rw [concat_eq_append, getLast?_concat, Option.map_some, Option.getD_some, hlen, hnil, ← hs']
      rfl

/-- Two words with a separator between them are two segments. -/
theorem splitIntoSegments_two {s : Char} (hs : isContentChar s = false) {x y : Text} (hx : x ≠ [])
    (hy : y ≠ []) (hxc : ∀ c ∈ x, isContentChar c = true) (hyc : ∀ c ∈ y, isContentChar c = true) :
    splitIntoSegments (x ++ s :: y) = [⟨x, [s]⟩, ⟨y, []⟩] := by
  obtain ⟨c, x, rfl⟩ := exists_cons_of_ne_nil hx
  obtain ⟨d, y, rfl⟩ := exists_cons_of_ne_nil hy
  have hc : isContentChar c = true := hxc c mem_cons_self
  have hd : isContentChar d = true := hyc d mem_cons_self
  have htake : (c :: x ++ s :: d :: y).takeWhile isContentChar = c :: x := by
    rw [takeWhile_append_of_pos hxc, takeWhile_cons_of_neg (by simp [hs]), append_nil]
  have hdrop : (c :: x ++ s :: d :: y).dropWhile isContentChar = s :: d :: y := by
    rw [dropWhile_append_of_pos hxc, dropWhile_cons_of_neg (by simp [hs])]
  have hsep : (s :: d :: y).takeWhile (!isContentChar ·) = [s] ∧
      (s :: d :: y).dropWhile (!isContentChar ·) = d :: y := by
    rw [takeWhile_cons_of_pos (by simp [hs]), dropWhile_cons_of_pos (by simp [hs]),
      takeWhile_cons_of_neg (by simp [hd]), dropWhile_cons_of_neg (by simp [hd])]
    exact ⟨rfl, rfl⟩
  obtain ⟨n, hn⟩ : ∃ n, (c :: x ++ s :: d :: y).length = n + 3 :=
    ⟨x.length + y.length, by simp; omega⟩
  have hlead : (c :: x ++ s :: d :: y).takeWhile (!isContentChar ·) = [] ∧
      (c :: x ++ s :: d :: y).dropWhile (!isContentChar ·) = c :: x ++ s :: d :: y :=
    ⟨takeWhile_cons_of_neg (by simp [hc]), dropWhile_cons_of_neg (by simp [hc])⟩
  have hy : (d :: y).takeWhile isContentChar = d :: y ∧ (d :: y).dropWhile isContentChar = [] :=
    ⟨takeWhile_eq_self_iff.mpr hyc, dropWhile_eq_nil_iff.mpr hyc⟩
  rw [splitIntoSegments, hlead.1, hlead.2, hn, if_pos rfl, splitLoop, htake, hdrop, hsep.1, hsep.2,
    splitLoop, hy.1, hy.2]
  · rfl
  · exact cons_ne_nil _ _
  · exact cons_ne_nil _ _

/-- The first of two words. -/
theorem exists_first_word {x y : Text} (hx : x ≠ []) (hy : y ≠ [])
    (hxc : ∀ c ∈ x, isContentChar c = true) (hyc : ∀ c ∈ y, isContentChar c = true) :
    ∃ w ∈ allWords (x ++ ' ' :: y), w.content = x ∧ w.token =
      wordToken x (contentOverlap [segmentChunks defaultMaxToken ⟨y, []⟩ 1])
        (min (utf8Len x + 1) 65535) 1 w.token.info.isWordStart := by
  have hgroups : wordGroups (valueChunks (x ++ ' ' :: y)) =
      [segmentChunks defaultMaxToken ⟨x, [' ']⟩ 0, segmentChunks defaultMaxToken ⟨y, []⟩ 1] := by
    have hne : ∀ s ∈ [(⟨x, [' ']⟩ : Segment), ⟨y, []⟩], s.text ≠ [] := by
      simp [Segment.text, hx, hy]
    rw [valueChunks, segmentAndChunk, splitIntoSegments_two rfl hx hy hxc hyc]
    exact wordGroups_chunksFrom (by decide) 0 hne
  have hcontent : (segmentChunks defaultMaxToken ⟨x, [' ']⟩ 0).flatMap Chunk.content = x := by
    rw [flatMap_def, segmentChunks_map_content, ← flatMap_def,
      (equalChunks_tiles_of (by decide) (one_le_base (by decide))).content]
  have hsep := lastSepLen_segmentChunks (s := ' ') rfl hxc 0
  refine ⟨mainWord 0 (segmentChunks defaultMaxToken ⟨x, [' ']⟩ 0)
    [segmentChunks defaultMaxToken ⟨y, []⟩ 1], mem_valueWords.mpr ⟨[], _, _, hgroups, ?_⟩,
    hcontent, ?_⟩
  · rw [groupWords, hcontent, if_neg hx]
    exact mem_cons_self
  · rw [mainWord, hcontent, hsep]
    rfl

/-- **Two long words share a key** though one is a byte longer: what is lent to the shorter one
makes up its text, and both lengths are cut to the same. -/
theorem share_key_of_long {p : Text} (hp : ∀ c ∈ p, isContentChar c = true)
    (hlong : 65535 ≤ utf8Len p) :
    ∃ w ∈ allWords (p ++ ['b', ' ', 'c']), ∃ w' ∈ allWords (p ++ [' ', 'b', 'c']),
      utf8Len w.content = utf8Len w'.content + 1 ∧ w.token.ordinal = w'.token.ordinal := by
  have hne : p ≠ [] := by
    rintro rfl
    exact absurd hlong (by decide)
  have hb : ∀ c ∈ p ++ ['b'], isContentChar c = true := by
    refine forall_mem_append.mpr ⟨hp, fun c hc => ?_⟩
    rw [mem_singleton.mp hc]
    rfl
  have hc : ∀ c ∈ ['c'], isContentChar c = true := forall_mem_singleton.mpr rfl
  have hbc : ∀ c ∈ ['b', 'c'], isContentChar c = true := forall_mem_cons.mpr ⟨rfl, hc⟩
  obtain ⟨w, hw, hcontent, htoken⟩ := exists_first_word (by simp) (by simp) hb hc
  obtain ⟨w', hw', hcontent', htoken'⟩ := exists_first_word hne (by simp) hp hbc
  rw [append_assoc] at hw
  refine ⟨w, hw, w', hw', ?_, ?_⟩
  · rw [hcontent, hcontent', utf8Len_append]
    rfl
  · have hlen : utf8Len (p ++ ['b']) = utf8Len p + 1 := utf8Len_append p ['b']
    rw [htoken, htoken', Token.ordinal, Token.ordinal, wordToken, wordToken, hlen,
      min_eq_right (by omega), min_eq_right (by omega)]
    refine congrArg₂ Ordinal.mk ?_ rfl
    rw [append_assoc]
    rfl

/-- 70000 letters and two more, cut by a space between these or before them. -/
def longWords : List Text :=
  [replicate 70000 'a' ++ ['b', ' ', 'c'], replicate 70000 'a' ++ [' ', 'b', 'c']]

end Lucivy.SuffixFst
