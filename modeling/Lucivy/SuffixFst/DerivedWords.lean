import Lucivy.SuffixFst.DerivedPosmap
import Lucivy.SuffixFst.WordOrder
import Lucivy.SuffixFst.WordPostings

/-! # The words, rebuilt

The word postings of a collection are read back ordinal by ordinal. They are the words of the
text in another order, so that the word map comes out the same, and sorting them gives the order
of the text again.

* `Earlier` — the order of the words of a text, by document and first position.
* `wordAdds_perm` — what is written to the word postings are the words of the text.
* `rebuildWords_spec` — the word map and the words that are rebuilt. -/

namespace Lucivy.SuffixFst

open Lucivy.Foundation Lucivy.Tokenizer Lucivy.Briques WordSfxPost RebuiltWord List UInt32
open Collector (collect)

variable {docs : List (List Text)} {dictionary : Option (Ordinal → Nat)}

/-! ## The words of the text -/

/-- A word of a value, placed. -/
def PlacedValue.posting (x : PlacedValue) (w : Word) : WordPosting :=
  ⟨w.token.ordinal, x.doc, x.start + w.first, x.start + w.last, w.tailOff⟩

/-- A word as it is rebuilt. -/
def rebuiltWord (order : List Token) (p : WordPosting) : RebuiltWord :=
  ⟨ofNat p.docId, ofNat p.firstPosition, ofNat p.lastPosition,
    ofNat (internToFinal order p.ordinal)⟩

/-- The posting of a word, with its final ordinal. -/
def wordAdd (order : List Token) (p : WordPosting) : Nat × WordPostingEntry :=
  (internToFinal order p.ordinal, wordEntry p)

/-- What is kept of an entry. -/
def wordOf (a : Nat × WordPostingEntry) : RebuiltWord :=
  ⟨a.2.docId, a.2.firstPosition, a.2.lastPosition, ofNat a.1⟩

/-- A word posting is that of a word of a value. -/
theorem exists_word_of_mem {p : WordPosting} (h : p ∈ (collect docs).wordPostings) :
    ∃ x ∈ placedValues docs, ∃ w ∈ allWords x.value, p = x.posting w := by
  rw [collect_wordPostings_placed] at h
  obtain ⟨x, hx, hp⟩ := mem_flatMap.mp h
  obtain ⟨w, hw, rfl⟩ := mem_map.mp hp
  exact ⟨x, hx, w, hw, rfl⟩

theorem value_mem_of_placed {x : PlacedValue} (h : x ∈ placedValues docs) :
    x.value ∈ docs.flatten := by
  rw [← map_value_placedValues]
  exact mem_map_of_mem h

/-- The positions of a value, and the empty one behind it, are counted. -/
theorem CountersFit.placed_lt (hfits : CountersFit docs) {x : PlacedValue}
    (h : x ∈ placedValues docs) :
    x.doc < 2 ^ 31 ∧ x.start + (valueTokens x.value).length < 2 ^ 31 := by
  obtain ⟨y, hdoc, hstart, hvalue⟩ := exists_valueAt h
  have hlt := (List.getElem?_eq_some_iff.mp y.doc_eq).1
  have hdocs := hfits.docs_lt
  have hslots := hfits.positions_lt _ y.mem_docs
  rw [docSlots_append, docSlots, length_append, length_append, length_map] at hslots
  rw [← hdoc, ← hstart, ← hvalue, ValueAt.start]
  omega

/-- The counters of a word fit. -/
theorem CountersFit.word_lt (hfits : CountersFit docs) {p : WordPosting}
    (h : p ∈ (collect docs).wordPostings) :
    p.docId < 2 ^ 31 ∧ p.firstPosition ≤ p.lastPosition ∧ p.lastPosition < 2 ^ 31 := by
  obtain ⟨x, hx, w, hw, rfl⟩ := exists_word_of_mem h
  have hplace := hfits.placed_lt hx
  have hbounds := (wordsOrdered_mainWords x.value).bounds w hw
  dsimp only [PlacedValue.posting]
  omega

/-- **The order of the words of a text.** -/
def Earlier (a b : RebuiltWord) : Prop :=
  a.docId.toNat < b.docId.toNat ∨ a.docId = b.docId ∧ a.first.toNat < b.first.toNat

theorem Earlier.sortKey_lt {a b : RebuiltWord} (h : Earlier a b) :
    RebuiltWord.sortKey a < RebuiltWord.sortKey b := by
  simp only [RebuiltWord.sortKey, cons_lt_cons_iff]
  rcases h with hdoc | ⟨hdoc, hfirst⟩
  · exact .inl hdoc
  · exact .inr ⟨congrArg _ hdoc, .inl hfirst⟩

theorem Earlier.apart {a b : RebuiltWord} (h : Earlier a b) :
    a.docId = b.docId → a.first ≠ b.first := by
  intro hdoc hfirst
  rcases h with hlt | ⟨-, hlt⟩
  · exact absurd (congrArg toNat hdoc) hlt.ne
  · exact absurd (congrArg toNat hfirst) hlt.ne

/-- **The words of the text are in order.** -/
theorem words_pairwise (hfits : CountersFit docs) (order : List Token) :
    ((collect docs).wordPostings.map (rebuiltWord order)).Pairwise Earlier := by
  have hplaces : (collect docs).wordPostings.Pairwise fun a b =>
      a.docId < b.docId ∨ a.docId = b.docId ∧ a.firstPosition < b.firstPosition := by
    rw [collect_wordPostings_placed]
    refine pairwise_flatMap.mpr ⟨fun x _ => ?_, ?_⟩
    · refine pairwise_map.mpr ((wordsOrdered_mainWords x.value).sorted.imp fun {a b} hab => ?_)
      exact .inr ⟨rfl, Nat.add_lt_add_left hab _⟩
    · refine (placedValues_pairwise docs).imp fun {x y} hxy a ha b hb => ?_
      obtain ⟨w, hw, rfl⟩ := mem_map.mp ha
      obtain ⟨w', -, rfl⟩ := mem_map.mp hb
      have hbounds := (wordsOrdered_mainWords x.value).bounds w hw
      refine hxy.imp_right fun ⟨hdoc, hstart⟩ => ⟨hdoc, ?_⟩
      dsimp only
      omega
  refine pairwise_map.mpr (hplaces.imp_of_mem fun {a b} ha hb hab => ?_)
  have hla := hfits.word_lt ha
  have hlb := hfits.word_lt hb
  simp only [Earlier, rebuiltWord, toNat_ofNat_of_lt hla.1, toNat_ofNat_of_lt hlb.1,
    toNat_ofNat_of_lt (lt_of_le_of_lt hla.2.1 hla.2.2),
    toNat_ofNat_of_lt (lt_of_le_of_lt hlb.2.1 hlb.2.2)]
  exact hab.imp_right fun ⟨hdoc, hfirst⟩ => ⟨congrArg _ hdoc, hfirst⟩

/-! ## What is written to the word postings -/

/-- **What is written are the words of the text**, grouped by their final ordinal. -/
theorem wordAdds_perm (docs : List (List Text)) (dictionary : Option (Ordinal → Nat)) :
    (wordAdds (collect docs) (finalOrder (collect docs) dictionary)).Perm
      ((collect docs).wordPostings.map (wordAdd (finalOrder (collect docs) dictionary))) := by
  obtain ⟨order, horder⟩ : ∃ order, order = finalOrder (collect docs) dictionary := ⟨_, rfl⟩
  have hnodup : (order.map Token.ordinal).Nodup := horder ▸ nodup_finalOrder docs dictionary
  rw [← horder]
  have hgroups : wordAdds (collect docs) order =
      ((((order.zipIdx.filter (·.1.info.isWordStripped)).map (·.1.ordinal)).flatMap fun k =>
        (collect docs).wordPostings.filter (·.ordinal = k))).map (wordAdd order) := by
    rw [wordAdds, flatMap_map, map_flatMap]
    refine flatMap_congr fun p hp => map_congr_left fun q hq => ?_
    have hget := mem_zipIdx_iff_getElem?.mp (mem_of_mem_filter hp)
    have hord : q.ordinal = p.1.ordinal := of_decide_eq_true (mem_filter.mp hq).2
    rw [wordAdd, hord, internToFinal_getElem? hnodup hget]
  rw [hgroups]
  refine (flatMap_filter_perm WordPosting.ordinal ?_ fun p hp => ?_).map _
  · -- the keys are some of the ordinals
    have hall : order.zipIdx.map (·.1.ordinal) = order.map Token.ordinal := by
      conv_rhs => rw [← zipIdx_map_fst 0 order, map_map]
      rfl
    exact (hall ▸ hnodup).sublist (filter_sublist.map _)
  · -- a word has its own ordinal among them
    obtain ⟨x, hx, w, hw, rfl⟩ := exists_word_of_mem hp
    obtain ⟨t, ht, hord⟩ := word_mem_finalOrder dictionary (value_mem_of_placed hx) hw
    obtain ⟨i, hi⟩ := mem_iff_getElem?.mp (horder ▸ ht)
    refine mem_map.mpr ⟨(t, i), mem_filter.mpr ⟨mem_zipIdx_iff_getElem?.mpr hi, ?_⟩, hord⟩
    rw [← t.ordinal_shape_fst, hord, Token.ordinal_shape_fst]
    exact stripped_of_mem_valueWords hw

theorem nodup_wordAdds (hfits : CountersFit docs) (dictionary : Option (Ordinal → Nat)) :
    (wordAdds (collect docs) (finalOrder (collect docs) dictionary)).Nodup := by
  have hwords := words_pairwise hfits (finalOrder (collect docs) dictionary)
  refine (wordAdds_perm docs dictionary).nodup_iff.mpr (pairwise_map.mpr ?_)
  refine (pairwise_map.mp hwords).imp fun {a b} hab heq => ?_
  have hword : rebuiltWord _ a = rebuiltWord _ b := congrArg wordOf heq
  exact hab.apart (congrArg RebuiltWord.docId hword) (congrArg RebuiltWord.first hword)

/-- Of two entries that start at one place there is but one word. -/
theorem wordOf_eq_of_start (hfits : CountersFit docs) {a b : Nat × WordPostingEntry}
    (ha : a ∈ wordAdds (collect docs) (finalOrder (collect docs) dictionary))
    (hb : b ∈ wordAdds (collect docs) (finalOrder (collect docs) dictionary))
    (hdoc : (wordOf a).docId = (wordOf b).docId) (hfirst : (wordOf a).first = (wordOf b).first) :
    wordOf a = wordOf b := by
  have hwords := words_pairwise hfits (finalOrder (collect docs) dictionary)
  have hmem : ∀ {a}, a ∈ wordAdds (collect docs) (finalOrder (collect docs) dictionary) →
      wordOf a ∈ (collect docs).wordPostings.map
        (rebuiltWord (finalOrder (collect docs) dictionary)) := by
    intro a ha
    obtain ⟨p, hp, rfl⟩ := mem_map.mp ((wordAdds_perm docs dictionary).mem_iff.mp ha)
    exact mem_map.mpr ⟨p, hp, rfl⟩
  have hstarts : (((collect docs).wordPostings.map
      (rebuiltWord (finalOrder (collect docs) dictionary))).map
        fun w => (w.docId, w.first)).Nodup := by
    refine pairwise_map.mpr (hwords.imp fun {a b} hab heq => ?_)
    exact hab.apart (Prod.mk.inj heq).1 (Prod.mk.inj heq).2
  exact inj_on_of_nodup_map hstarts (hmem ha) (hmem hb) (Prod.ext hdoc hfirst)

/-! ## What is read from them -/

theorem foldl_takeWord (entries : Nat → List WordPostingEntry) (ords : List Nat) (s : WordsSoFar) :
    ords.foldl (fun s ord => (entries ord).foldl (takeWord ord) s) s =
      ⟨(ords.flatMap fun ord => (entries ord).map (Prod.mk ord)).foldl feedWord s.wordPosMap,
        s.words ++ (ords.flatMap fun ord => (entries ord).map (Prod.mk ord)).map wordOf⟩ := by
  have hall : ∀ (l : List (Nat × WordPostingEntry)) (s : WordsSoFar),
      l.foldl (fun s a => takeWord a.1 s a.2) s =
        ⟨l.foldl feedWord s.wordPosMap, s.words ++ l.map wordOf⟩ := by
    intro l
    induction l with
    | nil => exact fun s => by rw [map_nil, append_nil]; rfl
    | cons a l ih =>
      intro s
      rw [foldl_cons, ih, map_cons, foldl_cons, takeWord, append_assoc]
      rfl
  rw [← hall, foldl_flatMap]
  simp only [foldl_map]

section

variable (hfits : CountersFit docs) {order : List Token} {file : Bytes}
  (horder : order = finalOrder (collect docs) dictionary) (hlt : order.length < 2 ^ 31)
  (hfile : wordSfxpostFile (collect docs) order = some file)
include hfits horder hlt hfile

/-- The entries of the word postings, ordinal by ordinal. -/
theorem openBytes_wordSfxpostFile :
    ∃ (wr : WordSfxPostReader) (entries : Nat → List WordPostingEntry),
      WordSfxPostReader.openBytes file = some wr ∧ wr.numOrdinals = order.length ∧
      (∀ (ord : Nat) (f : WordsSoFar → WordPostingEntry → WordsSoFar) (s : WordsSoFar),
        wr.forEachEntry ord f s = (entries ord).foldl f s) ∧
      ((List.range order.length).flatMap fun ord => (entries ord).map (Prod.mk ord)).Perm
        (wordAdds (collect docs) order) := by
  have hentry : ∀ a ∈ wordAdds (collect docs) order,
      ∃ p ∈ (collect docs).wordPostings, a = wordAdd order p := by
    intro a ha
    rw [horder] at ha ⊢
    obtain ⟨p, hp, rfl⟩ := mem_map.mp ((wordAdds_perm docs dictionary).mem_iff.mp ha)
    exact ⟨p, hp, rfl⟩
  have hnarrow : ∀ a ∈ wordAdds (collect docs) order,
      Narrow (PostingLayout.positions = .spans) a.2 := by
    intro a ha _
    obtain ⟨p, hp, rfl⟩ := hentry a ha
    obtain ⟨-, hle, hlast⟩ := hfits.word_lt hp
    have hfirst := toNat_ofNat_of_lt (lt_of_le_of_lt hle hlast)
    simp only [wordAdd, wordEntry]
    rw [UInt32.toNat_sub_of_le, toNat_ofNat_of_lt hlast]
    · omega
    · rw [le_iff_toNat_le, hfirst, toNat_ofNat_of_lt hlast]
      exact hle
  obtain ⟨wr, hopen, hnum, hread⟩ :=
    WordSfxPostReader.readsBack_finish (by decide) hlt hnarrow hfile
  choose entries hlisted hback using hread
  -- without spans nothing of an entry is lost
  have hstored : ∀ ord, (entries ord).map (stored (PostingLayout.positions = .spans)) =
      entries ord := by
    intro ord
    refine (map_congr_left fun e he => ?_).trans (map_id _)
    obtain ⟨p, -, hp⟩ := hentry _ (((hlisted ord).mem_iff e).mp he).1
    have heq : e = wordEntry p := congrArg Prod.snd hp
    rw [heq]
    rfl
  refine ⟨wr, entries, hopen, hnum, fun ord f s => ?_, ?_⟩
  · have := (hback ord).forEachEntry_eq WordsSoFar f s
    rwa [hstored] at this
  · refine (perm_ext_iff_of_nodup ?_ ?_).mpr fun a => ?_
    · refine nodup_flatMap.mpr ⟨fun ord _ => ?_, ?_⟩
      · have hnodup : (entries ord).Nodup :=
          (hlisted ord).sorted.imp fun {a b} hab heq => absurd (heq ▸ hab) (lt_irrefl _)
        exact hnodup.map (Prod.mk_right_injective ord)
      · refine nodup_range.imp fun {i j} hij a hi hj => hij ?_
        obtain ⟨e, -, rfl⟩ := mem_map.mp hi
        obtain ⟨e', -, heq⟩ := mem_map.mp hj
        exact (Prod.mk.inj heq).1.symm
    · rw [horder]
      exact nodup_wordAdds hfits dictionary
    · constructor
      · intro ha
        obtain ⟨ord, -, ha⟩ := mem_flatMap.mp ha
        obtain ⟨e, he, rfl⟩ := mem_map.mp ha
        exact (((hlisted ord).mem_iff e).mp he).1
      · intro ha
        obtain ⟨p, hp, rfl⟩ := hentry a ha
        obtain ⟨x, hx, w, hw, rfl⟩ := exists_word_of_mem hp
        have hord : internToFinal order w.token.ordinal < order.length :=
          internToFinal_lt (horder ▸ word_mem_finalOrder dictionary (value_mem_of_placed hx) hw)
        exact mem_flatMap.mpr ⟨_, mem_range.mpr hord,
          mem_map_of_mem (((hlisted _).mem_iff _).mpr ⟨ha, hord⟩)⟩

/-- **The word map and the words that are rebuilt**: the map that was written, and the words of
the text once they are sorted. -/
theorem rebuildWords_spec :
    ∃ wr, WordSfxPostReader.openBytes file = some wr ∧
      (rebuildWords order.length (some wr)).wordPosMap.serialize =
        wordPosMapFile (collect docs) order ∧
      sortWords (rebuildWords order.length (some wr)).words =
        (collect docs).wordPostings.map (rebuiltWord order) := by
  obtain ⟨wr, entries, hopen, hnum, heach, hperm⟩ :=
    openBytes_wordSfxpostFile hfits horder hlt hfile
  have hrebuilt : rebuildWords order.length (some wr) =
      ⟨((List.range order.length).flatMap fun ord => (entries ord).map (Prod.mk ord)).foldl
          feedWord .new,
        ((List.range order.length).flatMap fun ord => (entries ord).map (Prod.mk ord)).map
          wordOf⟩ := by
    unfold rebuildWords
    simp only [heach, hnum, Nat.min_self]
    exact foldl_takeWord entries _ _
  refine ⟨wr, hopen, ?_, ?_⟩
  · -- words at different places commute, and no two are at one place
    rw [hrebuilt, wordPosMapFile]
    refine congrArg _ (hperm.foldl_eq' (fun a ha b hb w => ?_) _)
    rw [hperm.mem_iff] at ha hb
    rw [horder] at ha hb
    by_cases hstart : (wordOf a).docId = (wordOf b).docId ∧ (wordOf a).first = (wordOf b).first
    · have hsame := wordOf_eq_of_start hfits ha hb hstart.1 hstart.2
      have hfeed : ∀ w (a : Nat × WordPostingEntry), feedWord w a =
          w.addWord (wordOf a).docId (wordOf a).first (wordOf a).last (wordOf a).ordinal :=
        fun _ _ => rfl
      rw [hfeed, hfeed, hfeed, hfeed, hsame]
    · exact WordPosMapWriter.addWord_comm w fun hdoc hfirst => hstart ⟨hdoc, hfirst⟩
  · rw [hrebuilt]
    have hwords := words_pairwise hfits order
    have hsame : (((List.range order.length).flatMap fun ord =>
        (entries ord).map (Prod.mk ord)).map wordOf).Perm
          ((collect docs).wordPostings.map (rebuiltWord order)) := by
      have htext := ((hperm.trans (horder ▸ wordAdds_perm docs dictionary)).map wordOf)
      rwa [map_map] at htext
    exact insertionSort_eq_of_perm (hwords.imp fun {a b} hab => hab.sortKey_lt) hsame

end

end Lucivy.SuffixFst
