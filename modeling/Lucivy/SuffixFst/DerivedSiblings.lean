import Lucivy.SuffixFst.DerivedWords

/-! # The sibling table, rebuilt

The links of the sibling table are found again from the position map and the sorted words: two
chunks are linked where both positions are filled, two words where no position between them is
empty. Since an empty position stands behind every value, these are the neighbours within the
values, which is what the collector linked.

* `foldl_mainStep` — the words without their tails.
* `wordLinks_eq` — the links of the words are those of the values.
* `mem_chunkLinks` — and so are those of the chunks. -/

namespace Lucivy.SuffixFst

open Lucivy.Foundation Lucivy.Tokenizer Lucivy.Briques RebuiltWord List
open Collector (collect)

variable {docs : List (List Text)}

/-! ## The words without their tails -/

/-- A word and its tail, if it has one. -/
def mainAndTail (p : RebuiltWord × Option RebuiltWord) : List RebuiltWord := p.1 :: p.2.toList

/-- One word is taken, its tail is not. -/
theorem foldl_mainStep_mainAndTail {main : List RebuiltWord} {p : RebuiltWord × Option RebuiltWord}
    (htail : ∀ t ∈ p.2, isTailOf p.1 t = true)
    (hmain : ∀ m ∈ main.getLast?, isTailOf m p.1 = false) :
    (mainAndTail p).foldl mainStep main = main ++ [p.1] := by
  have hfirst : mainStep main p.1 = main ++ [p.1] := by
    unfold mainStep
    cases hlast : main.getLast? with
    | none => rfl
    | some m => simp [hmain m hlast]
  rw [mainAndTail, foldl_cons, hfirst]
  cases htaileq : p.2 with
  | none => rfl
  | some t =>
    have hskip := htail t htaileq
    simp [mainStep, hskip]

/-- **The words without their tails.** Every tail is that of the word before it, and no word is
the tail of the one before. -/
theorem foldl_mainStep {parts : List (RebuiltWord × Option RebuiltWord)} {main : List RebuiltWord}
    (htails : ∀ p ∈ parts, ∀ t ∈ p.2, isTailOf p.1 t = true)
    (hmains : (main ++ parts.map Prod.fst).Pairwise fun a b => isTailOf a b = false) :
    (parts.flatMap mainAndTail).foldl mainStep main = main ++ parts.map Prod.fst := by
  induction parts generalizing main with
  | nil => exact (append_nil main).symm
  | cons p parts ih =>
    have hlast : ∀ m ∈ main.getLast?, isTailOf m p.1 = false := fun m hm =>
      (pairwise_append.mp hmains).2.2 m (mem_of_getLast? hm) p.1 mem_cons_self
    rw [flatMap_cons, foldl_append, foldl_mainStep_mainAndTail (htails p mem_cons_self) hlast,
      ih (forall_mem_cons.mp htails).2]
    · rw [append_assoc, map_cons, singleton_append]
    · rwa [append_assoc]

/-! ## The words of the values -/

/-- The words of a value with their tails, as they are rebuilt. -/
def PlacedValue.parts (x : PlacedValue) (order : List Token) :
    List (RebuiltWord × Option RebuiltWord) :=
  (mainWords x.value).map fun p =>
    (rebuiltWord order (x.posting p.1), p.2.map fun t => rebuiltWord order (x.posting t))

/-- The words of a value without their tails. -/
def PlacedValue.mains (x : PlacedValue) (order : List Token) : List RebuiltWord :=
  (mainWords x.value).map fun p => rebuiltWord order (x.posting p.1)

theorem map_fst_parts (x : PlacedValue) (order : List Token) :
    (x.parts order).map Prod.fst = x.mains order := by
  rw [PlacedValue.parts, map_map]
  rfl

theorem words_eq_parts (docs : List (List Text)) (order : List Token) :
    (collect docs).wordPostings.map (rebuiltWord order) =
      ((placedValues docs).flatMap fun x => x.parts order).flatMap mainAndTail := by
  rw [collect_wordPostings_placed, map_flatMap, flatMap_assoc]
  refine flatMap_congr fun x _ => ?_
  rw [valueWordPostings, allWords, PlacedValue.parts, flatMap_map, map_map, map_flatMap]
  refine flatMap_congr fun p _ => ?_
  cases p with
  | mk w tail => cases tail <;> rfl

/-- Where a word of a value stands, as it is rebuilt, and that it is inside the value. -/
theorem rebuiltWord_toNat (hfits : CountersFit docs) {x : PlacedValue} (hx : x ∈ placedValues docs)
    (order : List Token) {w : Word} (hw : w ∈ allWords x.value) :
    (rebuiltWord order (x.posting w)).docId.toNat = x.doc ∧
      (rebuiltWord order (x.posting w)).first.toNat = x.start + w.first ∧
      (rebuiltWord order (x.posting w)).last.toNat = x.start + w.last ∧
      w.first ≤ w.last ∧ w.last < (valueTokens x.value).length := by
  have hplace := hfits.placed_lt hx
  obtain ⟨-, hbounds⟩ := (wordsOrdered_mainWords x.value).bounds w hw
  exact ⟨toNat_ofNat_of_lt hplace.1, toNat_ofNat_of_lt (by dsimp only [PlacedValue.posting]; omega),
    toNat_ofNat_of_lt (by dsimp only [PlacedValue.posting]; omega), hbounds⟩

theorem mem_allWords_fst {v : Text} {p : Word × Option Word} (h : p ∈ mainWords v) :
    p.1 ∈ allWords v := mem_flatMap.mpr ⟨p, h, mem_cons_self⟩

theorem mem_allWords_snd {v : Text} {p : Word × Option Word} (h : p ∈ mainWords v) {t : Word}
    (ht : t ∈ p.2) : t ∈ allWords v :=
  mem_flatMap.mpr ⟨p, h, mem_cons_of_mem _ (Option.mem_toList.mpr ht)⟩

/-- A word of another place is no tail. -/
theorem isTailOf_eq_false {a b : RebuiltWord}
    (h : a.docId = b.docId → a.last.toNat < b.last.toNat) : isTailOf a b = false := by
  refine Bool.eq_false_iff.mpr fun htail => ?_
  simp only [isTailOf, Bool.and_eq_true, decide_eq_true_eq] at htail
  have hlt := h htail.1.1
  rw [htail.1.2] at hlt
  exact absurd hlt (lt_irrefl _)

/-- The words of the text end one behind the other. -/
theorem mains_pairwise (hfits : CountersFit docs) (order : List Token) :
    ((placedValues docs).flatMap fun x => x.mains order).Pairwise fun a b =>
      a.docId = b.docId → a.last.toNat < b.last.toNat := by
  refine pairwise_flatMap.mpr ⟨fun x hx => ?_, ?_⟩
  · have hapart := pairwise_map.mp (wordsOrdered_mainWords x.value).apart
    refine pairwise_map.mpr (hapart.imp_of_mem fun {p q} hp hq hpq _ => ?_)
    obtain ⟨-, -, hlast, -⟩ := rebuiltWord_toNat hfits hx order (mem_allWords_fst hp)
    obtain ⟨-, -, hlast', hbounds⟩ := rebuiltWord_toNat hfits hx order (mem_allWords_fst hq)
    omega
  · refine (placedValues_pairwise docs).imp_of_mem fun {x y} hx hy hxy a ha b hb hdoc => ?_
    obtain ⟨p, hp, rfl⟩ := mem_map.mp ha
    obtain ⟨q, hq, rfl⟩ := mem_map.mp hb
    obtain ⟨hxdoc, -, hxlast, hbounds⟩ := rebuiltWord_toNat hfits hx order (mem_allWords_fst hp)
    obtain ⟨hydoc, -, hylast, -⟩ := rebuiltWord_toNat hfits hy order (mem_allWords_fst hq)
    have hdocs := congrArg UInt32.toNat hdoc
    rcases hxy with hlt | ⟨-, hlt⟩
    · omega
    · omega

/-- **The words of the text without their tails.** -/
theorem foldl_mainStep_words (hfits : CountersFit docs) (order : List Token) :
    ((collect docs).wordPostings.map (rebuiltWord order)).foldl mainStep [] =
      (placedValues docs).flatMap fun x => x.mains order := by
  have hmains : ((placedValues docs).flatMap fun x => x.parts order).map Prod.fst =
      (placedValues docs).flatMap fun x => x.mains order := by
    rw [map_flatMap]
    exact flatMap_congr fun x _ => map_fst_parts x order
  rw [words_eq_parts, ← hmains]
  refine foldl_mainStep (fun p hp t ht => ?_) ?_
  · obtain ⟨x, hx, hp⟩ := mem_flatMap.mp hp
    obtain ⟨q, hq, rfl⟩ := mem_map.mp hp
    obtain ⟨u, hu, rfl⟩ := Option.mem_map.mp ht
    obtain ⟨hfirst, hlast⟩ := (wordsOrdered_mainWords x.value).tails q hq u hu
    obtain ⟨hdoc₁, hfirst₁, hlast₁, -⟩ := rebuiltWord_toNat hfits hx order (mem_allWords_fst hq)
    obtain ⟨hdoc₂, hfirst₂, hlast₂, -⟩ := rebuiltWord_toNat hfits hx order (mem_allWords_snd hq hu)
    simp only [isTailOf, Bool.and_eq_true, decide_eq_true_eq, ← UInt32.toNat_inj,
      UInt32.le_iff_toNat_le]
    omega
  · rw [nil_append, hmains]
    exact (mains_pairwise hfits order).imp fun {a b} hab => isTailOf_eq_false hab

/-! ## The links of the words -/

/-- What stands at a position of a value, and behind its last one. -/
theorem slotIn_placed {x : PlacedValue} (hx : x ∈ placedValues docs) {i : Nat}
    (hi : i ≤ (valueTokens x.value).length) :
    slotIn docs x.doc (x.start + i) = (valueTokens x.value)[i]?.map Token.ordinal := by
  obtain ⟨y, hdoc, hstart, hvalue⟩ := exists_valueAt hx
  rw [← hdoc, ← hstart, ← hvalue]
  refine BriquesContext.ordinalAt_value asciiCase y ?_
  rw [← y.length_tokens, ValueAt.tokens, hvalue]
  exact hi

/-- The condition for a link of two words. -/
def linked (pm : PosMapReader) (p : RebuiltWord × RebuiltWord) : Bool :=
  p.1.docId = p.2.docId && sameValue pm p.1 p.2

section Links

variable {pm : PosMapReader}
  (hpm : ∀ doc pos, (pm.ordinalAt doc pos).isSome = (slotIn docs doc pos).isSome)

include hpm

/-- Neighbours in a value are linked: every position of a value is filled. -/
theorem linked_of_value (hfits : CountersFit docs) (order : List Token) {x : PlacedValue}
    (hx : x ∈ placedValues docs) {p q : Word × Option Word} (hp : p ∈ mainWords x.value)
    (hq : q ∈ mainWords x.value) :
    linked pm (rebuiltWord order (x.posting p.1), rebuiltWord order (x.posting q.1)) = true := by
  obtain ⟨hdoc, -, hlast, -⟩ := rebuiltWord_toNat hfits hx order (mem_allWords_fst hp)
  obtain ⟨hdoc', hfirst, -, hbounds⟩ := rebuiltWord_toNat hfits hx order (mem_allWords_fst hq)
  simp only [linked, Bool.and_eq_true, decide_eq_true_eq, sameValue, all_eq_true,
    mem_range'_1, hdoc, hpm]
  refine ⟨rfl, fun pos hpos => ?_⟩
  obtain ⟨i, rfl⟩ : ∃ i, pos = x.start + i := ⟨pos - x.start, by omega⟩
  have hi : i < (valueTokens x.value).length := by omega
  rw [slotIn_placed hx hi.le, getElem?_eq_getElem hi]
  rfl

/-- Words of two values are not linked: the position behind the first value is empty. -/
theorem not_linked_of_before (hfits : CountersFit docs) (order : List Token) {x y : PlacedValue}
    (hx : x ∈ placedValues docs) (hy : y ∈ placedValues docs) (hxy : x.Before y)
    {p q : Word × Option Word} (hp : p ∈ mainWords x.value) (hq : q ∈ mainWords y.value) :
    linked pm (rebuiltWord order (x.posting p.1), rebuiltWord order (y.posting q.1)) = false := by
  obtain ⟨hdoc, -, hlast, hbounds⟩ := rebuiltWord_toNat hfits hx order (mem_allWords_fst hp)
  obtain ⟨hdoc', hfirst, -⟩ := rebuiltWord_toNat hfits hy order (mem_allWords_fst hq)
  refine Bool.eq_false_iff.mpr fun hlinked => ?_
  simp only [linked, Bool.and_eq_true, decide_eq_true_eq, sameValue, all_eq_true,
    mem_range'_1, hdoc, hpm] at hlinked
  have hsame := congrArg UInt32.toNat hlinked.1
  rcases hxy with hlt | ⟨-, hstart⟩
  · omega
  · have hgap := hlinked.2 (x.start + (valueTokens x.value).length) (by omega)
    rw [slotIn_placed hx (le_refl _), getElem?_eq_none (le_refl _)] at hgap
    cases hgap

/-- **The links of the words are those of the values.** -/
theorem wordLinks_eq (hfits : CountersFit docs) {order : List Token} {words : List RebuiltWord}
    (hwords : sortWords words = (collect docs).wordPostings.map (rebuiltWord order)) :
    wordLinks pm words = docs.flatten.flatMap fun v =>
      (pairs ((mainWords v).map (·.1.token.ordinal))).map fun p =>
        (UInt32.ofNat (internToFinal order p.1), UInt32.ofNat (internToFinal order p.2)) := by
  have hacross : ((placedValues docs).map fun x => x.mains order).Pairwise fun l₁ l₂ =>
      ∀ a ∈ l₁, ∀ b ∈ l₂, linked pm (a, b) = false := by
    refine pairwise_map.mpr ((placedValues_pairwise docs).imp_of_mem
      fun {x y} hx hy hxy a ha b hb => ?_)
    obtain ⟨p, hp, rfl⟩ := mem_map.mp ha
    obtain ⟨q, hq, rfl⟩ := mem_map.mp hb
    exact not_linked_of_before hpm hfits order hx hy hxy hp hq
  have hwithin : ∀ x ∈ placedValues docs,
      ((x.mains order).zip (x.mains order).tail).filter (linked pm) =
        (x.mains order).zip (x.mains order).tail := by
    intro x hx
    refine filter_eq_self.mpr fun ab hab => ?_
    obtain ⟨ha, hb⟩ := of_mem_zip hab
    obtain ⟨p, hp, hpa⟩ := mem_map.mp ha
    obtain ⟨q, hq, hqb⟩ := mem_map.mp (mem_of_mem_tail hb)
    have hlinked := linked_of_value hpm hfits order hx hp hq
    rwa [hpa, hqb] at hlinked
  rw [wordLinks, hwords, foldl_mainStep_words hfits order]
  refine (congrArg (List.map _) (filter_zip_tail_flatten hacross)).trans ?_
  rw [flatMap_map, map_flatMap, ← map_value_placedValues, flatMap_map]
  refine flatMap_congr fun x hx => ?_
  rw [hwithin x hx, pairs, ← map_tail, zip_map, map_map, PlacedValue.mains,
    ← map_tail, zip_map, map_map]
  rfl

end Links

/-! ## The links of the chunks -/

variable {pm : PosMapReader}

/-- The reader answers within its documents and their positions only. -/
theorem PosMapReader.lt_of_ordinalAt {doc pos a : Nat} (h : pm.ordinalAt doc pos = some a) :
    doc < pm.numDocs ∧ pos < pm.numTokens doc := by
  rw [PosMapReader.ordinalAt] at h
  split at h
  · cases h
  · next hdoc =>
    dsimp only at h
    split at h
    · cases h
    · rw [PosMapReader.numTokens, if_neg hdoc]
      omega

/-- The slots of a document, as they are read. -/
theorem getElem?_map_range {f : Nat → Option Nat} {n i a : Nat} :
    ((List.range n).map f)[i]? = some (some a) ↔ i < n ∧ f i = some a := by
  by_cases hi : i < n
  · simp [hi]
  · simp [hi]

theorem mem_chunkLinks_iff {a b : Nat} :
    (a, b) ∈ chunkLinks pm ↔
      ∃ doc pos, pm.ordinalAt doc pos = some a ∧ pm.ordinalAt doc (pos + 1) = some b := by
  simp only [chunkLinks, mem_flatMap, mem_range, mem_neighbours_none, getElem?_map_range]
  constructor
  · rintro ⟨doc, -, pos, ⟨-, ha⟩, -, hb⟩
    exact ⟨doc, pos, ha, hb⟩
  · rintro ⟨doc, pos, ha, hb⟩
    have hlt := PosMapReader.lt_of_ordinalAt ha
    have hlt' := PosMapReader.lt_of_ordinalAt hb
    exact ⟨doc, hlt.1, pos, ⟨hlt.2, ha⟩, hlt'.2, hb⟩

theorem docSlots_eq_parts (values : List Text) :
    docSlots values = (values.map fun v => (valueTokens v).map Token.ordinal).flatMap fun part =>
      part.map some ++ [none] := by
  induction values with
  | nil => rfl
  | cons v vs ih =>
    rw [docSlots, ih, map_cons, flatMap_cons, map_map, append_assoc]
    rfl

theorem slotIn_eq_some_iff {doc pos : Nat} {o : Ordinal} :
    slotIn docs doc pos = some o ↔
      ∃ values, docs[doc]? = some values ∧ (docSlots values)[pos]? = some (some o) := by
  rw [PosMap.ordinalAt_eq_some, Collector.mem_collect_postings]

/-- **Chunks at neighbouring positions are neighbours in a value.** -/
theorem neighbours_iff {o o' : Ordinal} :
    (∃ doc pos, slotIn docs doc pos = some o ∧ slotIn docs doc (pos + 1) = some o') ↔
      ∃ v ∈ docs.flatten, (o, o') ∈ pairs ((valueTokens v).map Token.ordinal) := by
  have hdoc : ∀ values, (o, o') ∈ neighbours none (docSlots values) ↔
      ∃ v ∈ values, (o, o') ∈ pairs ((valueTokens v).map Token.ordinal) := by
    intro values
    rw [docSlots_eq_parts, neighbours_parts, flatMap_map, mem_flatMap]
    rfl
  constructor
  · rintro ⟨doc, pos, ho, ho'⟩
    obtain ⟨values, hvalues, hslot⟩ := slotIn_eq_some_iff.mp ho
    obtain ⟨values', hvalues', hslot'⟩ := slotIn_eq_some_iff.mp ho'
    obtain rfl := Option.some.inj (hvalues.symm.trans hvalues')
    obtain ⟨v, hv, hpair⟩ := (hdoc values).mp (mem_neighbours_none.mpr ⟨pos, hslot, hslot'⟩)
    exact ⟨v, mem_flatten.mpr ⟨values, mem_of_getElem? hvalues, hv⟩, hpair⟩
  · rintro ⟨v, hv, hpair⟩
    obtain ⟨values, hvalues, hv⟩ := mem_flatten.mp hv
    obtain ⟨doc, hdocs⟩ := mem_iff_getElem?.mp hvalues
    obtain ⟨pos, ho, ho'⟩ := mem_neighbours_none.mp ((hdoc values).mpr ⟨v, hv, hpair⟩)
    exact ⟨doc, pos, slotIn_eq_some_iff.mpr ⟨values, hdocs, ho⟩,
      slotIn_eq_some_iff.mpr ⟨values, hdocs, ho'⟩⟩

/-- **The links of the chunks are those of the values.** -/
theorem mem_chunkLinks {order : List Token}
    (hat : ∀ doc pos, pm.ordinalAt doc pos = (slotIn docs doc pos).map (internToFinal order))
    {a b : Nat} :
    (a, b) ∈ chunkLinks pm ↔ ∃ v ∈ docs.flatten,
      ∃ p ∈ pairs ((valueTokens v).map Token.ordinal),
        internToFinal order p.1 = a ∧ internToFinal order p.2 = b := by
  simp only [mem_chunkLinks_iff, hat, Option.map_eq_some_iff]
  constructor
  · rintro ⟨doc, pos, ⟨o, ho, ha⟩, o', ho', hb⟩
    obtain ⟨v, hv, hpair⟩ := neighbours_iff.mp ⟨doc, pos, ho, ho'⟩
    exact ⟨v, hv, (o, o'), hpair, ha, hb⟩
  · rintro ⟨v, hv, ⟨o, o'⟩, hpair, ha, hb⟩
    obtain ⟨doc, pos, ho, ho'⟩ := neighbours_iff.mpr ⟨v, hv, hpair⟩
    exact ⟨doc, pos, ⟨o, ho, ha⟩, o', ho', hb⟩

/-! ## The table -/

theorem foldl_add {β : Type} (f g : β → UInt32) (l : List β) (w : SiblingTableWriter) :
    l.foldl (fun w p => w.add (f p) (g p) 0) w =
      ⟨w.pairs ++ l.map fun p => ⟨f p, g p, 0⟩, w.numOrdinals⟩ := by
  induction l generalizing w with
  | nil => rw [map_nil, append_nil]; rfl
  | cons p l ih =>
    rw [foldl_cons, ih, SiblingTableWriter.add, append_assoc]
    rfl

/-- **The sibling table that is rebuilt is the one that was written.** -/
theorem rebuildSiblings_eq (hfits : CountersFit docs) {order : List Token} {posmap : Bytes}
    (hopen : PosMapReader.openBytes posmap = some pm)
    (hat : ∀ doc pos, pm.ordinalAt doc pos = (slotIn docs doc pos).map (internToFinal order))
    {words : List RebuiltWord}
    (hwords : sortWords words = (collect docs).wordPostings.map (rebuiltWord order)) :
    (rebuildSiblings order.length posmap words).serialize = siblingFile (collect docs) order := by
  have hpm : ∀ doc pos, (pm.ordinalAt doc pos).isSome = (slotIn docs doc pos).isSome := by
    intro doc pos
    rw [hat, Option.isSome_map]
  rw [siblingFile, rebuildSiblings, hopen]
  simp only [foldl_add]
  refine SiblingTableWriter.serialize_congr rfl fun l => ?_
  rw [wordLinks_eq hpm hfits hwords, Collector.collect_siblingPairs]
  simp only [SiblingTableWriter.new, nil_append, mem_append, mem_map,
    mem_flatMap, Collector.valuePairs]
  constructor
  · rintro (⟨⟨a, b⟩, hab, rfl⟩ | ⟨-, ⟨v, hv, p, hp, rfl⟩, rfl⟩)
    · obtain ⟨v, hv, p, hp, rfl, rfl⟩ := (mem_chunkLinks hat).mp hab
      exact ⟨p, ⟨v, hv, .inl hp⟩, rfl⟩
    · exact ⟨p, ⟨v, hv, .inr hp⟩, rfl⟩
  · rintro ⟨p, ⟨v, hv, hp | hp⟩, rfl⟩
    · exact .inl ⟨_, (mem_chunkLinks hat).mpr ⟨v, hv, p, hp, rfl, rfl⟩, rfl⟩
    · exact .inr ⟨_, ⟨v, hv, p, hp, rfl⟩, rfl⟩

end Lucivy.SuffixFst
