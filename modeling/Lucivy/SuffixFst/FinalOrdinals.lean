import Lucivy.Briques.Layout
import Lucivy.SuffixFst.CollectorData

/-! # Final ordinals

What the order of the final ordinals keeps of the interned tokens, whichever order it is: every
chunk and every word of a value has its own ordinal, and the ordinal tells chunks from words.

* `nodup_finalOrder` — no ordinal stands for two tokens.
* `chunk_mem_finalOrder`, `word_mem_finalOrder` — nothing of a value is missing.
* `internToFinal_lt` — ordinals as indices.
* `finalOrder_eq_nil_iff` — there is none just when all values are empty. -/

namespace Lucivy.SuffixFst

open Lucivy.Foundation Lucivy.Tokenizer Lucivy.Briques List Token
open Collector (collect)

variable {docs : List (List Text)} {dictionary : Option (Ordinal → Nat)}

/-- The shape tells words from chunks. -/
@[simp] theorem Token.ordinal_shape_fst (t : Token) :
    t.ordinal.shape.1 = t.info.isWordStripped := by
  unfold ordinal TokenMeta.shape
  split
  · next h => exact h.symm
  · next h => exact (Bool.eq_false_iff.mpr h).symm

/-- The tokens that get a final ordinal. -/
def counted (c : Collector) : List Token :=
  c.tokens.filter fun t => !t.info.isWordStripped || c.wordStripped.any (·.ordinal = t.ordinal)

theorem finalOrder_perm (c : Collector) (dictionary : Option (Ordinal → Nat)) :
    (finalOrder c dictionary).Perm (counted c) := by
  cases dictionary with
  | none => exact perm_insertionSort _ _
  | some globalId => exact perm_insertionSort _ _

/-! ## One ordinal for each token -/

theorem nodup_foldl_internExtended {tokens : List Token} (h : (tokens.map ordinal).Nodup)
    (new : List Token) : ((new.foldl internExtended tokens).map ordinal).Nodup := by
  refine foldlRecOn (motive := fun l => (map ordinal l).Nodup) new _ h fun l hl t _ => ?_
  rw [internExtended]
  split
  · exact hl
  · next hnew =>
    rw [map_append, map_singleton, ← concat_eq_append]
    refine List.Nodup.concat (fun hmem => hnew ?_) hl
    obtain ⟨u, hu, heq⟩ := mem_map.mp hmem
    exact any_eq_true.mpr ⟨u, hu, decide_eq_true heq⟩

/-- **No two tokens have one ordinal.** -/
theorem nodup_finalOrder (docs : List (List Text)) (dictionary : Option (Ordinal → Nat)) :
    ((finalOrder (collect docs) dictionary).map ordinal).Nodup := by
  have htokens : ((collect docs).tokens.map ordinal).Nodup := by
    have hnil : (([] : List Token).map ordinal).Nodup := nodup_nil
    rw [Collector.collect_tokens]
    exact nodup_foldl_internExtended hnil _
  have hcounted : ((counted (collect docs)).map ordinal).Nodup :=
    htokens.sublist (filter_sublist.map _)
  exact ((finalOrder_perm _ dictionary).map _).nodup_iff.mpr hcounted

/-! ## Nothing is missing -/

theorem mem_finalOrder_of_counted {t : Token} (ht : t ∈ (collect docs).tokens)
    (hcount : t.info.isWordStripped = false ∨
      ∃ e ∈ (collect docs).wordStripped, e.ordinal = t.ordinal) :
    t ∈ finalOrder (collect docs) dictionary := by
  refine (finalOrder_perm _ dictionary).mem_iff.mpr (mem_filter.mpr ⟨ht, ?_⟩)
  rcases hcount with hchunk | ⟨e, he, heq⟩
  · rw [hchunk]
    rfl
  · rw [any_eq_true.mpr ⟨e, he, decide_eq_true heq⟩, Bool.or_true]

/-- **Every chunk of a value has a final ordinal.** -/
theorem chunk_mem_finalOrder (dictionary : Option (Ordinal → Nat)) {v : Text}
    (hv : v ∈ docs.flatten) {t : Token} (ht : t ∈ valueTokens v) :
    ∃ u ∈ finalOrder (collect docs) dictionary, u.ordinal = t.ordinal := by
  obtain ⟨u, hu, hut⟩ := Collector.exists_token hv (mem_append_left _ ht)
  refine ⟨u, mem_finalOrder_of_counted hu (.inl ?_), hut⟩
  rw [← u.ordinal_shape_fst, hut, t.ordinal_shape_fst]
  exact (isChunkToken_of_mem ht).not_stripped

/-- **Every word of a value has a final ordinal.** -/
theorem word_mem_finalOrder (dictionary : Option (Ordinal → Nat)) {v : Text}
    (hv : v ∈ docs.flatten) {w : Word} (hw : w ∈ allWords v) :
    ∃ u ∈ finalOrder (collect docs) dictionary, u.ordinal = w.token.ordinal := by
  obtain ⟨u, hu, hut⟩ := Collector.exists_token hv (mem_append_right _ (mem_map_of_mem hw))
  have hentry : ∃ e ∈ (collect docs).wordStripped, e.ordinal = w.token.ordinal := by
    rw [Collector.collect_wordStripped]
    exact (Collector.exists_ordinal_foldl _ Word.strippedEntry).mpr
      (.inr ⟨w, mem_flatMap.mpr ⟨v, hv, hw⟩, rfl⟩)
  exact ⟨u, mem_finalOrder_of_counted hu (.inr (hut ▸ hentry)), hut⟩

/-- **There is no ordinal just when all values are empty.** -/
theorem finalOrder_eq_nil_iff :
    finalOrder (collect docs) dictionary = [] ↔ ∀ v ∈ docs.flatten, v = [] := by
  constructor
  · intro hnil v hv
    have htokens : valueTokens v = [] := by
      refine eq_nil_iff_forall_not_mem.mpr fun t ht => ?_
      obtain ⟨u, hu, -⟩ := chunk_mem_finalOrder dictionary hv ht
      rw [hnil] at hu
      cases hu
    have hchunks : valueChunks v = [] := by
      rw [← length_eq_zero_iff, ← Collector.length_chunkTokens]
      exact length_eq_zero_iff.mpr htokens
    rw [← segmentAndChunk_flatten (by decide : 0 < defaultMaxToken) v]
    exact congrArg (fun cs : List Chunk => (cs.map Chunk.text).flatten) hchunks
  · intro hempty
    have hinterned : docs.flatten.flatMap valueInterned = [] := by
      refine flatMap_eq_nil_iff.mpr fun v hv => ?_
      rw [hempty v hv]
      rfl
    have htokens : (collect docs).tokens = [] := by
      rw [Collector.collect_tokens, hinterned]
      rfl
    refine eq_nil_iff_forall_not_mem.mpr fun t ht => ?_
    have hmem := mem_of_mem_filter ((finalOrder_perm _ dictionary).mem_iff.mp ht)
    rw [htokens] at hmem
    cases hmem

/-! ## Ordinals as indices -/

section Indices

variable {order : List Token}

theorem internToFinal_lt {o : Ordinal} (h : ∃ t ∈ order, t.ordinal = o) :
    internToFinal order o < order.length := by
  rw [internToFinal, ← length_map ordinal]
  obtain ⟨t, ht, rfl⟩ := h
  exact idxOf_lt_length_of_mem (mem_map_of_mem ht)

/-- The ordinal of the token at an index is that index. -/
theorem internToFinal_getElem? (hnodup : (order.map ordinal).Nodup) {i : Nat} {t : Token}
    (h : order[i]? = some t) : internToFinal order t.ordinal = i := by
  obtain ⟨hi, rfl⟩ := List.getElem?_eq_some_iff.mp h
  have hlen : i < (order.map ordinal).length := by rwa [length_map]
  have hidx := hnodup.idxOf_getElem i hlen
  rwa [getElem_map] at hidx

/-- At its index the token stands. -/
theorem getElem?_internToFinal {o : Ordinal} (h : ∃ t ∈ order, t.ordinal = o) :
    ∃ t, order[internToFinal order o]? = some t ∧ t.ordinal = o := by
  have hlt := internToFinal_lt h
  refine ⟨order[internToFinal order o], getElem?_eq_getElem hlt, ?_⟩
  have hlen : (order.map ordinal).idxOf o < (order.map ordinal).length := by
    rwa [length_map]
  have hget := getElem_idxOf hlen
  rwa [getElem_map] at hget

end Indices

end Lucivy.SuffixFst
