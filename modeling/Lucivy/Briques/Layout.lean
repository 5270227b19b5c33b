import Lucivy.Briques.Window

/-! # Where the text of a value stands in a segment

In the segment of a collection the chunks of a value stand at consecutive positions, an empty
slot behind them, and byte offsets are counted from the start of the value.

* `ValueAt` — a value of a collection, with its place.
* `ownTextAt_value`, `byteAt_value` — the text and the offset at a position of the value.
* `rebuildWindowOpts_value` — a window is a part of the value. -/

namespace Lucivy.Briques

open Lucivy.Foundation Lucivy.Tokenizer Lucivy.SuffixFst List Nat
open String (utf8Len utf8Len_append)

/-! ## Slots of a value -/

theorem docSlots_append (vs ws : List Text) : docSlots (vs ++ ws) = docSlots vs ++ docSlots ws := by
  induction vs with
  | nil => rfl
  | cons v vs ih => rw [cons_append, docSlots, docSlots, ih, append_assoc, cons_append]

/-- The slots of some values end with an empty one. -/
theorem docSlots_eq_concat {vs : List Text} (h : vs ≠ []) :
    ∃ slots, docSlots vs = slots ++ [none] := by
  obtain ⟨ws, w, rfl⟩ := (eq_nil_or_concat' vs).resolve_left h
  exact ⟨_, by rw [docSlots_append, docSlots, docSlots, ← append_assoc]⟩

/-- **A value of a collection**, with the document and the values around it. -/
structure ValueAt (docs : List (List Text)) where
  doc : Nat
  before : List Text
  value : Text
  after : List Text
  doc_eq : docs[doc]? = some (before ++ value :: after)

namespace ValueAt

variable {docs : List (List Text)} (x : ValueAt docs)

/-- The position of the value's first chunk. -/
def start : Nat := (docSlots x.before).length

/-- The tokens of its chunks. -/
def tokens : List Token := valueTokens x.value

/-- The texts of its chunks. -/
def texts : List Text := (valueChunks x.value).map Chunk.text

/-- The chunks make up the value. -/
theorem texts_flatten : x.texts.flatten = x.value := segmentAndChunk_flatten (by decide) x.value

theorem length_tokens : x.tokens.length = x.texts.length := by
  rw [tokens, valueTokens, Collector.length_chunkTokens, texts, length_map]

/-- Only the first value starts at 0. -/
theorem start_pos : 0 < x.start ↔ x.before ≠ [] := by
  rw [start, length_pos_iff]
  refine ⟨fun h hnil => h (hnil ▸ rfl), fun h => ?_⟩
  obtain ⟨slots, hslots⟩ := docSlots_eq_concat h
  simp [hslots]

theorem mem_docs : x.before ++ x.value :: x.after ∈ docs := mem_of_getElem? x.doc_eq

theorem value_mem : x.value ∈ docs.flatten :=
  mem_flatten.mpr ⟨_, x.mem_docs, mem_append_right _ mem_cons_self⟩

theorem texts_ne_nil {t : Text} (h : t ∈ x.texts) : t ≠ [] := by
  obtain ⟨c, hc, rfl⟩ := mem_map.mp h
  exact (segmentAndChunk_wellFormed (by decide) hc).text_ne

end ValueAt

/-- The own bytes of a token. -/
def ownText (t : Token) : Text := (cutBefore t.info.ownLen t.text).1

/-- The bytes a token borrows from what follows. -/
def lentText (t : Token) : Text := (cutBefore t.info.ownLen t.text).2

/-- A token's own text and what it borrows. -/
@[simp] theorem ownText_append_lentText (t : Token) : ownText t ++ lentText t = t.text :=
  cutBefore_append _ _

/-- The own bytes of the chunk tokens are the chunks. -/
theorem own_chunkTokens (chunks : List Chunk) :
    (chunkTokens chunks).map ownText = chunks.map Chunk.text := by
  induction chunks with
  | nil => rfl
  | cons c rest ih => rw [chunkTokens, map_cons, ih, map_cons, ownText, cutBefore_utf8Len]

/-- Own lengths are chunk lengths. -/
theorem ownLen_chunkTokens (chunks : List Chunk) :
    (chunkTokens chunks).map (·.info.ownLen) = chunks.map (utf8Len ·.text) := by
  induction chunks with
  | nil => rfl
  | cons c rest ih => rw [chunkTokens, map_cons, ih, map_cons]

/-- What is known of a chunk token: it is no word, and its text is its own bytes, not many, and
the few borrowed ones. -/
structure IsChunkToken (t : Token) : Prop where
  not_stripped : t.info.isWordStripped = false
  /-- The length of its own bytes. -/
  own_len : utf8Len (ownText t) = t.info.ownLen
  /-- The length of the borrowed bytes. -/
  lent_len : utf8Len (lentText t) = t.info.overlapLen
  /-- It borrows no more than the overlap. -/
  lent_le : t.info.overlapLen ≤ defaultOverlap
  own_ne : ownText t ≠ []
  own_le : t.info.ownLen ≤ chunkBound

/-- The length of a token. -/
theorem IsChunkToken.text_len {t : Token} (h : IsChunkToken t) :
    t.info.ownLen + t.info.overlapLen = utf8Len t.text := by
  rw [← h.own_len, ← h.lent_len, ← utf8Len_append, ownText_append_lentText]

/-- What is borrowed is short. -/
theorem utf8Len_nextOverlap_le (chunks : List Chunk) :
    utf8Len (nextOverlap chunks) ≤ defaultOverlap := by
  cases chunks with
  | nil => exact zero_le _
  | cons c rest => exact utf8Len_cutBefore_le ..

/-- Tokens of small chunks. -/
theorem isChunkToken_of_mem_chunkTokens {chunks : List Chunk}
    (hchunks : ∀ c ∈ chunks, c.text ≠ [] ∧ utf8Len c.text ≤ chunkBound) {t : Token}
    (h : t ∈ chunkTokens chunks) : IsChunkToken t := by
  induction chunks with
  | nil => cases h
  | cons c rest ih =>
    rcases mem_cons.mp h with rfl | h
    · obtain ⟨hne, hle⟩ := hchunks c mem_cons_self
      have hcut := cutBefore_utf8Len c.text (nextOverlap rest)
      exact ⟨rfl, congrArg (utf8Len ·.1) hcut, congrArg (utf8Len ·.2) hcut,
        utf8Len_nextOverlap_le rest, by rw [ownText, hcut]; exact hne, hle⟩
    · exact ih (forall_mem_cons.mp hchunks).2 h

/-- Tokens of a value. -/
theorem isChunkToken_of_mem {v : Text} {t : Token} (h : t ∈ valueTokens v) : IsChunkToken t :=
  isChunkToken_of_mem_chunkTokens
    (fun _ hc => ⟨(segmentAndChunk_wellFormed (by decide) hc).text_ne, segmentAndChunk_le hc⟩) h

/-- Words are stripped. -/
theorem stripped_of_mem_valueWords {first : Nat} {groups : List (List Chunk)} {w : Word}
    (h : w ∈ (valueWords first groups).flatMap withTail) : w.token.info.isWordStripped = true := by
  induction groups generalizing first with
  | nil => cases h
  | cons group later ih =>
    rw [valueWords] at h
    split at h
    · exact ih h
    · rw [flatMap_cons, mem_append] at h
      rcases h with h | h
      · rcases mem_cons.mp h with rfl | h
        · rfl
        · rw [tailWord] at h
          split at h
          · rw [mem_singleton.mp h]
            rfl
          · cases h
      · exact ih h

/-- A chunk token is told apart from all interned tokens by its ordinal. -/
theorem eq_of_ordinal_eq {v : Text} {t u : Token} (ht : IsChunkToken t) (hu : u ∈ valueInterned v)
    (h : u.ordinal = t.ordinal) : u = t := by
  obtain ⟨text, own, sep, overlap, start, stripped⟩ := t
  obtain ⟨text', own', sep', overlap', start', stripped'⟩ := u
  have hstripped : stripped = false := ht.not_stripped
  have hlen : own + overlap = utf8Len text := ht.text_len
  subst hstripped
  have htext : text' = text := congrArg Ordinal.text h
  have hshape : TokenMeta.shape ⟨own', sep', overlap', start', stripped'⟩ =
      TokenMeta.shape ⟨own, sep, overlap, start, false⟩ := congrArg Ordinal.shape h
  subst htext
  cases stripped' with
  | true => simp [TokenMeta.shape] at hshape
  | false =>
    simp only [TokenMeta.shape, Bool.false_eq_true, if_false, Prod.mk.injEq, true_and] at hshape
    obtain ⟨rfl, rfl, rfl⟩ := hshape
    rcases mem_append.mp hu with hu | hu
    · have hlen' : own' + overlap' = utf8Len text' := (isChunkToken_of_mem hu).text_len
      have hoverlap : overlap' = overlap := by omega
      rw [hoverlap]
    · obtain ⟨w, hw, hwt⟩ := mem_map.mp hu
      have := stripped_of_mem_valueWords hw
      rw [hwt] at this
      cases this

namespace BriquesContext

variable (table : CaseTable) {docs : List (List Text)} (x : ValueAt docs)

variable {i : Nat}

/-- The position map at a position of the value, or right behind it. -/
theorem ordinalAt_value (hi : i ≤ x.texts.length) :
    (ofCollection table docs).posmap.ordinalAt x.doc (x.start + i) =
      x.tokens[i]?.map Token.ordinal := by
  have hcollect := PosMap.ordinalAt_collect x.doc_eq (x.start + i)
  rw [docSlots_append, getElem?_append_right (show (docSlots x.before).length ≤ x.start + i
    from Nat.le_add_right ..), ValueAt.start, Nat.add_sub_cancel_left, docSlots] at hcollect
  refine hcollect.trans ?_
  have hi : i ≤ x.tokens.length := x.length_tokens.symm ▸ hi
  rcases lt_or_eq_of_le hi with hlt | rfl
  · rw [getElem?_append_left (by rw [length_map]; exact hlt), getElem?_map,
      ← ValueAt.tokens, getElem?_eq_getElem hlt]
    rfl
  · rw [← ValueAt.tokens, getElem?_append_right (by rw [length_map]), length_map,
      Nat.sub_self, getElem?_eq_none (le_refl _)]
    rfl

/-- The slot before a value that is not the first is empty. -/
theorem ordinalAt_before {p : Nat} (hp : x.start = p + 1) :
    (ofCollection table docs).posmap.ordinalAt x.doc p = none := by
  have hcollect := PosMap.ordinalAt_collect x.doc_eq p
  obtain ⟨slots, hslots⟩ := docSlots_eq_concat (x.start_pos.mp (by omega))
  have hlen : slots.length = p := by
    have : x.start = slots.length + 1 := by rw [ValueAt.start, hslots, length_append]; rfl
    omega
  refine hcollect.trans ?_
  rw [docSlots_append, hslots, append_assoc,
    getElem?_append_right (le_of_eq hlen), hlen, Nat.sub_self]
  rfl

/-- What a value is interned as has an entry. -/
theorem entry_interned {t : Token} (h : t ∈ valueInterned x.value) :
    ∃ u ∈ (Collector.collect docs).tokens,
      (ofCollection table docs).entry t.ordinal = some u ∧ u.ordinal = t.ordinal := by
  obtain ⟨u, hu, hut⟩ := Collector.exists_token x.value_mem h
  obtain ⟨w, hw⟩ := Option.isSome_iff_exists.mp
    (find?_isSome (p := (·.ordinal = t.ordinal)) |>.mpr ⟨u, hu, decide_eq_true hut⟩)
  exact ⟨w, mem_of_find?_eq_some hw, hw, by simpa using find?_some hw⟩

/-- Every chunk token is kept, and found again by its ordinal. -/
theorem entry_chunk {t : Token} (h : t ∈ x.tokens) :
    (ofCollection table docs).entry t.ordinal = some t := by
  obtain ⟨u, hu, hentry, hord⟩ := entry_interned table x (mem_append_left _ h)
  rw [Collector.collect_tokens] at hu
  have hu' := (Collector.mem_of_mem_foldl_internExtended hu).resolve_left not_mem_nil
  obtain ⟨v, -, huv⟩ := mem_flatMap.mp hu'
  rw [hentry, eq_of_ordinal_eq (isChunkToken_of_mem h) huv hord]

/-- **The text at a position of a value**; right behind the value there is none. -/
theorem ownTextAt_value (hi : i ≤ x.texts.length) :
    (ofCollection table docs).ownTextAt x.doc (x.start + i) = x.texts[i]? := by
  have htexts : x.tokens.map ownText = x.texts := own_chunkTokens _
  rw [ownTextAt, ordinalAt_value table x hi, ← htexts, getElem?_map]
  cases ht : x.tokens[i]? with
  | none => rfl
  | some t =>
    have hmem : t ∈ x.tokens := mem_of_getElem? ht
    have hlen := (isChunkToken_of_mem hmem).text_len
    rw [Option.map_some, Option.map_some]
    simp only [entry_chunk table x hmem, Option.map_some,
      min_eq_left (show t.info.ownLen ≤ utf8Len t.text by omega)]
    rfl

/-- The length a chunk's ordinal is known to have. -/
theorem ownLen_chunk {t : Token} (h : t ∈ x.tokens) :
    ((ofCollection table docs).info t.ordinal).map TokenMeta.ownLen = some t.info.ownLen := by
  rw [info, entry_chunk table x h]
  rfl

/-- The offset behind some tokens of a value. -/
theorem bytesAfter_tokens {ownLen : Ordinal → Option Nat} {tokens : List Token}
    (h : ∀ t ∈ tokens, ownLen t.ordinal = some t.info.ownLen) (acc : Nat) :
    PosMap.bytesAfter ownLen acc (tokens.map fun t => some t.ordinal) =
      acc + (tokens.map (·.info.ownLen)).sum := by
  induction tokens generalizing acc with
  | nil => rfl
  | cons t tokens ih =>
    have hrest := ih (forall_mem_cons.mp h).2 (acc + t.info.ownLen)
    rw [map_cons, map_cons, sum_cons, ← add_assoc, ← hrest, PosMap.bytesAfter,
      foldl_cons, PosMap.advance, h t mem_cons_self]
    rfl

/-- Every value starts at offset 0. -/
theorem bytesAfter_docSlots (ownLen : Ordinal → Option Nat) (vs : List Text) :
    PosMap.bytesAfter ownLen 0 (docSlots vs) = 0 := by
  by_cases h : vs = []
  · subst h
    rfl
  · obtain ⟨slots, hslots⟩ := docSlots_eq_concat h
    rw [hslots, PosMap.bytesAfter_append]
    rfl

/-- The slots of a document hold known tokens. -/
theorem known_docSlots {values : List Text} (h : ∀ v ∈ values, v ∈ docs.flatten) :
    PosMap.Known (fun ord => ((ofCollection table docs).info ord).map TokenMeta.ownLen)
      (docSlots values) := by
  induction values with
  | nil => exact fun ord hord => (not_mem_nil hord).elim
  | cons v vs ih =>
    intro ord hord
    rw [docSlots, mem_append, mem_cons] at hord
    rcases hord with hord | hord | hord
    · obtain ⟨t, ht, hto⟩ := mem_map.mp hord
      obtain ⟨values, hvalues, hv⟩ := mem_flatten.mp (h v mem_cons_self)
      obtain ⟨doc, hdoc⟩ := mem_iff_getElem?.mp hvalues
      obtain ⟨before, after, rfl⟩ := append_of_mem hv
      have := ownLen_chunk table ⟨doc, before, v, after, hdoc⟩ ht
      rw [Option.some.inj hto] at this
      exact Option.isSome_iff_exists.mpr ⟨_, this⟩
    · cases hord
    · exact ih (forall_mem_cons.mp h).2 ord hord

/-- **Byte offsets are counted from the start of the value.** -/
theorem byteAt_value (hi : i < x.texts.length) :
    (ofCollection table docs).byteAt x.doc (x.start + i) =
      some (utf8Len (x.texts.take i).flatten) := by
  have hlt : i < x.tokens.length := x.length_tokens.symm ▸ hi
  have hord := ordinalAt_value table x hi.le
  rw [getElem?_eq_getElem hlt] at hord
  have htake : ((ofCollection table docs).posmap.slots x.doc).take (x.start + i) =
      (docSlots (x.before ++ x.value :: x.after)).take (x.start + i) :=
    PosMap.take_slots_collect x.doc_eq hord
  have hslots : (docSlots (x.before ++ x.value :: x.after)).take (x.start + i) =
      docSlots x.before ++ (x.tokens.take i).map fun t => some t.ordinal := by
    rw [docSlots_append, ValueAt.start, take_length_add_append, docSlots,
      take_append_of_le_length (by rw [length_map]; exact hlt.le), ← map_take]
    rfl
  have hmem : ∀ v ∈ x.before ++ x.value :: x.after, v ∈ docs.flatten :=
    fun v hv => mem_flatten.mpr ⟨_, x.mem_docs, hv⟩
  have hknown := known_docSlots table hmem
  rw [byteAt, PosMap.byteAt_eq hord]
  · rw [htake, hslots, PosMap.bytesAfter_append,
      bytesAfter_docSlots, bytesAfter_tokens, zero_add, utf8Len_flatten]
    · rw [ValueAt.tokens, ValueAt.texts, ← map_take, map_map, valueTokens,
        map_take, ownLen_chunkTokens, ← map_take]
      rfl
    · exact fun t ht => ownLen_chunk table x (mem_of_mem_take ht)
  · intro ord hmem'
    rw [htake] at hmem'
    exact hknown ord (mem_of_mem_take hmem')

/-- There is no text right before a value. -/
theorem ownTextAt_before {p : Nat} (hp : x.start = p + 1) :
    (ofCollection table docs).ownTextAt x.doc p = none := by
  rw [ownTextAt, ordinalAt_before table x hp]

/-! ## Postings -/

/-- A slot of a document that is not empty is a chunk of one of its values. -/
theorem exists_value_of_slot {values : List Text} {j : Nat} {ord : Ordinal}
    (h : (docSlots values)[j]? = some (some ord)) :
    ∃ before v after i, values = before ++ v :: after ∧ j = (docSlots before).length + i ∧
      ∃ t, (valueTokens v)[i]? = some t ∧ t.ordinal = ord := by
  induction values generalizing j with
  | nil => cases h
  | cons v vs ih =>
    rw [docSlots] at h
    by_cases hj : j < (valueTokens v).length
    · rw [getElem?_append_left (by rw [length_map]; exact hj), getElem?_map,
        getElem?_eq_getElem hj, Option.map_some, Option.some.injEq, Option.some.injEq] at h
      exact ⟨[], v, vs, j, rfl, (zero_add j).symm, _, getElem?_eq_getElem hj, h⟩
    · rw [getElem?_append_right (by rw [length_map]; omega), length_map] at h
      obtain ⟨k, hk⟩ : ∃ k, j - (valueTokens v).length = k := ⟨_, rfl⟩
      rw [hk] at h
      cases k with
      | zero => cases h
      | succ k =>
        obtain ⟨before, w, after, i, rfl, rfl, ht⟩ := ih h
        refine ⟨v :: before, w, after, i, rfl, ?_, ht⟩
        rw [docSlots, length_append, length_map, length_cons]
        omega

/-! ## Windows -/

/-- The texts from a position of the value on. -/
theorem textsFrom_value (hi : i ≤ x.texts.length) (n : Nat) :
    (ofCollection table docs).textsFrom x.doc n (x.start + i) = (x.texts.drop i).take n := by
  induction n generalizing i with
  | zero => rfl
  | succ n ih =>
    rw [textsFrom, ownTextAt_value table x hi]
    rcases lt_or_eq_of_le hi with hlt | rfl
    · rw [getElem?_eq_getElem hlt, drop_eq_getElem_cons hlt, take_succ_cons, ← ih hlt, add_assoc]
    · rw [getElem?_eq_none (le_refl _), drop_length, take_nil]

/-- Bytes of two texts. -/
theorem marginBytes_append (strip : Bool) (t u : Text) :
    marginBytes strip (t ++ u) = marginBytes strip t + marginBytes strip u := by
  simp only [marginBytes, filter_append, utf8Len_append]
  split <;> rfl

/-- The loop to the right takes chunks of the value until it ends, the margin is reached or the
turns are used up. -/
theorem extendRight_value (strip : Bool) (hi : i ≤ x.texts.length) (fuel margin : Nat) :
    ∃ k, i + k ≤ x.texts.length ∧
      (ofCollection table docs).extendRight x.doc strip fuel (x.start + i) margin =
        (x.start + (i + k), (x.texts.drop i).take k) ∧
      (i + k = x.texts.length ∨ k = fuel ∨
        margin ≤ marginBytes strip ((x.texts.drop i).take k).flatten) := by
  induction fuel generalizing i margin with
  | zero => exact ⟨0, hi, rfl, .inr (.inl rfl)⟩
  | succ fuel ih =>
    rw [extendRight]
    by_cases hmargin : margin = 0
    · rw [if_pos hmargin]
      exact ⟨0, hi, rfl, .inr (.inr (by rw [hmargin]; exact zero_le _))⟩
    · rw [if_neg hmargin, ownTextAt_value table x hi]
      rcases lt_or_eq_of_le hi with hlt | hend
      · obtain ⟨k, hk, heq, hstop⟩ := ih (i := i + 1) hlt (margin - marginBytes strip x.texts[i])
        have htake : (x.texts.drop i).take (k + 1) =
            x.texts[i] :: (x.texts.drop (i + 1)).take k := by
          rw [drop_eq_getElem_cons hlt, take_succ_cons]
        refine ⟨k + 1, by omega, ?_, ?_⟩
        · simp only [getElem?_eq_getElem hlt, add_assoc, heq, htake]
          rw [add_comm 1 k]
        · rw [htake, flatten_cons, marginBytes_append]
          omega
      · rw [hend, getElem?_eq_none (le_refl _)]
        exact ⟨0, le_refl _, rfl, .inl rfl⟩

/-- The loop to the left. -/
theorem extendLeft_value (strip : Bool) (hi : i ≤ x.texts.length) (fuel margin : Nat)
    (acc : List Text) :
    ∃ l ≤ i, (ofCollection table docs).extendLeft x.doc strip fuel (x.start + i) margin acc =
        (x.start + l, (x.texts.take i).drop l ++ acc) ∧
      (l = 0 ∨ i = l + fuel ∨ margin ≤ marginBytes strip ((x.texts.take i).drop l).flatten) := by
  have hnone : (x.texts.take i).drop i = [] := drop_eq_nil_of_le (length_take_le _ _)
  induction fuel generalizing i margin acc with
  | zero => exact ⟨i, le_refl _, by rw [hnone]; rfl, .inr (.inl rfl)⟩
  | succ fuel ih =>
    cases i with
    | zero =>
      refine ⟨0, le_refl _, ?_, .inl rfl⟩
      cases hstart : x.start with
      | zero => rfl
      | succ p =>
        rw [extendLeft, ownTextAt_before table x hstart]
        split <;> rfl
    | succ i =>
      rw [← add_assoc, extendLeft]
      by_cases hmargin : margin = 0
      · rw [if_pos hmargin]
        exact ⟨i + 1, le_refl _, by rw [hnone]; rfl, .inr (.inr (hmargin ▸ zero_le _))⟩
      · rw [if_neg hmargin, ownTextAt_value table x (le_of_succ_le hi), getElem?_eq_getElem hi]
        obtain ⟨l, hl, heq, hstop⟩ := ih (le_of_succ_le hi)
          (margin - marginBytes strip x.texts[i]) (x.texts[i] :: acc)
          (drop_eq_nil_of_le (length_take_le _ _))
        have htake : (x.texts.take (i + 1)).drop l = (x.texts.take i).drop l ++ [x.texts[i]] := by
          rw [take_succ_eq_append_getElem hi, drop_append_of_le_length]
          rw [length_take]
          omega
        refine ⟨l, by omega, ?_, ?_⟩
        · rw [htake, append_assoc, singleton_append]
          exact heq
        · rw [htake, flatten_append, marginBytes_append, flatten_singleton]
          omega

theorem take_append_slice {α : Type*} (l : List α) {b c : Nat} (h : b ≤ c) :
    l.take b ++ (l.take c).drop b = l.take c := by
  have := take_append_drop b (l.take c)
  rwa [take_take, min_eq_left h] at this

/-- Two neighbouring slices of a list. -/
theorem slice_append {α : Type*} (l : List α) {a b c : Nat} (hab : a ≤ b) (hbc : b ≤ c)
    (hb : b ≤ l.length) : (l.take b).drop a ++ (l.take c).drop b = (l.take c).drop a := by
  conv_rhs => rw [← take_append_slice l hbc, drop_append_of_le_length (by rw [length_take]; omega)]

/-- **A window is a part of the value**: the chunks from number `l` up to number `r`, around
those of the match. It is cut at the end just when the value goes on. -/
theorem rebuildWindowOpts_value {i n lastPos : Nat} (hi : i < x.texts.length) (hn : 0 < n)
    (hlast : lastPos + 1 = x.start + i + n) (margin : Nat) (strip lowercase : Bool)
    (maxExtra : Nat) :
    ∃ l r, l ≤ i ∧ min (i + n) x.texts.length ≤ r ∧ r ≤ x.texts.length ∧
      (ofCollection table docs).rebuildWindowOpts x.doc (x.start + i) lastPos margin strip lowercase
          maxExtra =
        (let chars := (ofCollection table docs).windowChars strip lowercase
            (utf8Len (x.texts.take l).flatten) ((x.texts.take r).drop l).flatten
        if chars = [] then none
        else some ⟨chars, 0 < x.start + l, r < x.texts.length⟩) ∧
      (l = 0 ∨ i = l + maxExtra ∨ margin ≤ marginBytes strip ((x.texts.take i).drop l).flatten) ∧
      (r = x.texts.length ∨ r = min (i + n) x.texts.length + maxExtra ∨ margin ≤
        marginBytes strip ((x.texts.take r).drop (min (i + n) x.texts.length)).flatten) := by
  obtain ⟨stop, hstop⟩ : ∃ stop, stop = min (i + n) x.texts.length := ⟨_, rfl⟩
  have hstop_le : stop ≤ x.texts.length := by omega
  have hown : (ofCollection table docs).textsFrom x.doc (lastPos + 1 - (x.start + i))
      (x.start + i) = (x.texts.take stop).drop i := by
    rw [hlast, Nat.add_sub_cancel_left, textsFrom_value table x hi.le, hstop, drop_take]
    exact take_eq_take_iff.mpr (by rw [length_drop]; omega)
  have hlen : ((x.texts.take stop).drop i).length = stop - i := by
    rw [length_drop, length_take, min_eq_left hstop_le]
  have hne : (x.texts.take stop).drop i ≠ [] := by
    intro hnil
    rw [hnil, length_nil] at hlen
    omega
  obtain ⟨l, hl, hleft, hleft_stop⟩ := extendLeft_value table x strip hi.le maxExtra margin []
  obtain ⟨k, hk, hright, hright_stop⟩ := extendRight_value table x strip hstop_le maxExtra margin
  have hslice : (x.texts.drop stop).take k = (x.texts.take (stop + k)).drop stop := by
    rw [drop_take, Nat.add_sub_cancel_left]
  have hpos : x.start + i + (stop - i) = x.start + stop := by omega
  have hwin : (x.texts.take i).drop l ++ [] ++ (x.texts.take stop).drop i ++
      (x.texts.take (stop + k)).drop stop = (x.texts.take (stop + k)).drop l := by
    rw [append_nil, slice_append x.texts hl (by omega) hi.le,
      slice_append x.texts (by omega) (Nat.le_add_right ..) hstop_le]
  have hcut : ((ofCollection table docs).posmap.ordinalAt x.doc (x.start + (stop + k))).isSome =
      decide (stop + k < x.texts.length) := by
    rw [ordinalAt_value table x hk, Option.isSome_map, ← x.length_tokens, Bool.eq_iff_iff]
    simp
  refine ⟨l, stop + k, hl, by omega, hk, ?_, hleft_stop, ?_⟩
  · simp only [rebuildWindowOpts, hown, if_neg hne, hlen, hpos, hleft, hright, hslice, hwin, hcut,
      byteAt_value table x (lt_of_le_of_lt hl hi)]
  · rw [← hstop, ← hslice]
    omega

end BriquesContext

end Lucivy.Briques
