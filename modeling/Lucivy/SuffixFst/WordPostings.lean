import Lucivy.SuffixFst.WordSfxPost

/-! # Reading word postings back

What the reader of `.word_sfxpost` finds in a file the writer made: a block from its start, a
block from one of its checkpoints, the file.

* `encodeBlock_eq` — a block: its entries, and a checkpoint for each run of 32.
* `walkLoop_body`, `scanRun_body` — the reader's loops on the entries of a block.
* `BlockRead` — what the reader finds at the start of a block.
* `wordPostings_read_back` — the three ways to read give the sorted list of what was added. -/

namespace Lucivy.SuffixFst

open Lucivy.Foundation List WordSfxPostWriter WordSfxPostReader Option

namespace WordSfxPost

/-! ## The entries of a block -/

/-- The entries from a state on. -/
abbrev bodyFrom (spans : Bool) : DeltaState → List WordPostingEntry → Bytes :=
  codeFrom (encodeEntry spans) fun _ e => stateOf e

theorem bodyFrom_cons (spans : Bool) (st : DeltaState) (e : WordPostingEntry)
    (l : List WordPostingEntry) :
    bodyFrom spans st (e :: l) = encodeEntry spans st e ++ bodyFrom spans (stateOf e) l := rfl

/-- Checkpoint `k` of a block. -/
abbrev blockCheckpoint (spans : Bool) (l : List WordPostingEntry) (k : Nat) : DeltaState × Nat :=
  checkpointAt (encodeEntry spans) (fun _ e => stateOf e) checkpointEvery .zero l k

abbrev blockCheckpoints (spans : Bool) (l : List WordPostingEntry) : List (DeltaState × Nat) :=
  checkpointsBefore (encodeEntry spans) (fun _ e => stateOf e) checkpointEvery .zero l l.length

/-- An entry takes a byte. -/
theorem encodeEntry_ne_nil (spans : Bool) (st : DeltaState) (e : WordPostingEntry) :
    encodeEntry spans st e ≠ [] := by
  exact append_ne_nil_of_left_ne_nil (writeVarint_ne_nil _) _

variable {l : List WordPostingEntry}

/-- **The parts of a block.** -/
theorem encodeBlock_eq {spans : Bool} (hne : l ≠ []) :
    encodeBlock spans l = writeVarint l.length ++
      ((blockCheckpoints spans l).flatMap (checkpointBytes spans) ++ bodyFrom spans .zero l) := by
  rw [encodeBlock, if_neg hne, codeLoop_eq]

/-! ## The reader's loops -/

/-- **A walk over the entries of a block** hands each of them over as it is stored. -/
theorem walkLoop_body {σ : Type} {data : Bytes} {spans : Bool} {stop pos : Nat}
    {st st' : DeltaState} (f : σ → WordPostingEntry → σ) (s : σ)
    (h : BytesAt data pos (bodyFrom spans st l)) (hst : Agrees spans st st')
    (hnarrow : ∀ e ∈ l, Narrow spans e) (hstop : pos + (bodyFrom spans st l).length ≤ stop) :
    walkLoop data spans stop (fun s e => (f s e, true)) l.length pos st' s =
      (l.map (stored spans)).foldl f s := by
  induction l generalizing pos st st' s with
  | nil => rfl
  | cons e l ih =>
    rw [bodyFrom_cons] at h hstop
    obtain ⟨st'', hread, hst''⟩ := decodeEntry_encodeEntry h.left hst (hnarrow e mem_cons_self)
    have hpos := length_pos_iff.mpr (encodeEntry_ne_nil spans st e)
    rw [length_append] at hstop
    rw [length_cons, walkLoop, if_neg (by omega), hread]
    exact ih (f s (stored spans e)) h.right hst'' (forall_mem_cons.mp hnarrow).2
      (by rwa [add_assoc])

/-- Keys as numbers: the document, then the position. -/
def rank (k : UInt32 × UInt32) : Nat := k.1.toNat * 2 ^ 32 + k.2.toNat

/-- Keys compare as numbers. -/
theorem keyLt_iff (a b : UInt32 × UInt32) : keyLt a b = true ↔ rank a < rank b := by
  have ha := a.2.toNat_lt
  have hb := b.2.toNat_lt
  simp only [keyLt, rank, Bool.or_eq_true, Bool.and_eq_true, decide_eq_true_eq, beq_iff_eq,
    UInt32.lt_iff_toNat_lt, ← UInt32.toNat_inj]
  omega

theorem rank_inj {a b : UInt32 × UInt32} : rank a = rank b ↔ a = b := by
  have ha := a.2.toNat_lt
  have hb := b.2.toNat_lt
  rw [Prod.ext_iff, ← UInt32.toNat_inj, ← UInt32.toNat_inj]
  simp only [rank]
  omega

/-- The entries in the order of their keys. -/
def KeysSorted (l : List WordPostingEntry) : Prop :=
  l.Pairwise fun a b => rank (key a) ≤ rank (key b)

/-- **A scan from the start of a run** finds the first of at most `n` entries that has the key. -/
theorem scanRun_body {data : Bytes} {spans : Bool} {stop pos n : Nat} {st st' : DeltaState}
    {target : UInt32 × UInt32} (h : BytesAt data pos (bodyFrom spans st l))
    (hst : Agrees spans st st') (hnarrow : ∀ e ∈ l, Narrow spans e)
    (hstop : pos + (bodyFrom spans st l).length ≤ stop) (hsorted : KeysSorted l) (hn : n ≤ l.length)
    :
    scanRun data spans stop target n pos st' =
      ((l.take n).find? fun e => rank (key e) = rank target).map (stored spans) := by
  induction n generalizing pos st st' l with
  | zero => rfl
  | succ n ih =>
    cases l with
    | nil => exact absurd hn (Nat.not_succ_le_zero n)
    | cons e l =>
      rw [bodyFrom_cons] at h hstop
      obtain ⟨st'', hread, hst''⟩ := decodeEntry_encodeEntry h.left hst (hnarrow e mem_cons_self)
      have hpos := length_pos_iff.mpr (encodeEntry_ne_nil spans st e)
      obtain ⟨hle, hsorted⟩ := pairwise_cons.mp hsorted
      rw [length_append] at hstop
      rw [scanRun, if_neg (by omega), hread, take_succ_cons]
      rw [find?_cons_eq_ite (fun e => rank (key e)) _ fun x hx => hle x (mem_of_mem_take hx)]
      simp only [key_stored, keyLt_iff, ← rank_inj]
      split_ifs
      · exact ih h.right hst'' (forall_mem_cons.mp hnarrow).2
          (by rwa [add_assoc]) hsorted (Nat.le_of_succ_le_succ hn)
      · rfl
      · rfl

end WordSfxPost

open WordSfxPost

namespace WordSfxPostReader

variable {r : WordSfxPostReader}

/-! ## A block -/

theorem length_checkpointBytes (c : DeltaState × Nat) :
    (checkpointBytes r.hasByteSpans c).length = r.checkpointSize := by
  cases h : r.hasByteSpans <;> simp [checkpointBytes, checkpointSize, h]

/-- One checkpoint is read back. -/
theorem checkpoint_eq {checkpoints k : Nat} {c : DeltaState × Nat}
    (h : BytesAt r.data (checkpoints + (k - 1) * r.checkpointSize)
      (checkpointBytes r.hasByteSpans c))
    (hoff : c.2 < 2 ^ 32) :
    ∃ st, r.checkpoint checkpoints k = some (st, c.2) ∧ Agrees r.hasByteSpans c.1 st := by
  have hdoc : ∀ {p : Nat} {v : UInt32}, BytesAt r.data p (leBytes 4 v.toNat) →
      readLe 4 r.data p = some v.toNat := by
    intro p v hv
    have := hv.le_length (cons_ne_nil _ _)
    exact readLe_leBytes hv v.toNat_lt (by omega)
  have hrest := h.right.right
  simp only [length_leBytes] at hrest
  simp only [checkpoint, hdoc h.left, bind_eq_bind, bind_some]
  rw [hdoc (by simpa using h.right.left), bind_some]
  cases hs : r.hasByteSpans with
  | true =>
    rw [hs, if_pos rfl] at hrest
    have hlast := hrest.right
    rw [length_leBytes] at hlast
    have hle := hlast.le_length (cons_ne_nil _ _)
    rw [if_pos rfl, hdoc (by simpa [add_assoc] using hrest.left), bind_some,
      readLe_leBytes (by simpa [add_assoc] using hlast) hoff (by omega), bind_some]
    simp only [UInt32.ofNat_toNat]
    exact ⟨_, rfl, .refl _ _⟩
  | false =>
    rw [hs, if_neg Bool.false_ne_true, nil_append] at hrest
    have hle := hrest.le_length (cons_ne_nil _ _)
    rw [if_neg Bool.false_ne_true, readLe_leBytes (by simpa [add_assoc] using hrest) hoff
      (by omega),
      bind_some]
    simp only [UInt32.ofNat_toNat]
    exact ⟨_, rfl, rfl, rfl, fun h => by cases h⟩

/-- **What the reader finds at the start of a block.** -/
structure BlockRead (r : WordSfxPostReader) (l : List WordPostingEntry)
    (start stop checkpoints entries : Nat) : Prop where
  /-- The header: how many entries, and where the two parts start. -/
  header : r.blockHeader start = some (l.length, checkpoints, entries)
  body : BytesAt r.data entries (bodyFrom r.hasByteSpans .zero l)
  /-- They end with the block. -/
  stop_eq : entries + (bodyFrom r.hasByteSpans .zero l).length = stop
  checkpoint : ∀ k, 0 < k → k ≤ checkpointsFor l.length → ∃ st,
    r.checkpoint checkpoints k = some (st, (blockCheckpoint r.hasByteSpans l k).2) ∧
      Agrees r.hasByteSpans (blockCheckpoint r.hasByteSpans l k).1 st

/-- A block is read back. -/
theorem blockRead_of_encodeBlock {l : List WordPostingEntry} (hne : l ≠ []) {start : Nat}
    (h : BytesAt r.data start (encodeBlock r.hasByteSpans l))
    (hlt : (encodeBlock r.hasByteSpans l).length < 2 ^ 32) :
    ∃ checkpoints entries, BlockRead r l start
      (start + (encodeBlock r.hasByteSpans l).length) checkpoints entries := by
  rw [encodeBlock_eq hne] at h hlt ⊢
  have hcounts : ∀ c ∈ blockCheckpoints r.hasByteSpans l,
      (checkpointBytes r.hasByteSpans c).length = r.checkpointSize :=
    fun c _ => length_checkpointBytes c
  have hsize : ((blockCheckpoints r.hasByteSpans l).flatMap
      (checkpointBytes r.hasByteSpans)).length = checkpointsFor l.length * r.checkpointSize := by
    rw [length_flatMap_const hcounts, length_checkpointsBefore]
  have hlen : l.length ≤ (bodyFrom r.hasByteSpans .zero l).length :=
    length_le_codeFrom _ _ (encodeEntry_ne_nil _) .zero l
  have hpos := length_pos_iff.mpr hne
  have hbody := h.right.right
  rw [hsize] at hbody
  simp only [length_append] at hlt ⊢
  have hend := hbody.le_length fun h0 => by rw [h0, length_nil] at hlen; omega
  have hnat : (UInt32.ofNat l.length).toNat = l.length := by exact Nat.mod_eq_of_lt (by omega)
  refine ⟨start + (writeVarint l.length).length, start + (writeVarint l.length).length +
    checkpointsFor l.length * r.checkpointSize, ?_, hbody, by omega, ?_⟩
  · rw [blockHeader, readVarintU32_write (by omega) h.left]
    simp only [bind_eq_bind, bind_some, hnat]
    rw [if_neg (by omega)]
  · intro k hk hk'
    have hget := getElem?_checkpointsBefore (encodeEntry r.hasByteSpans) (fun _ e => stateOf e)
      (s := DeltaState.zero) (l := l) hk hk'
    have hoff : (blockCheckpoint r.hasByteSpans l k).2 ≤ (bodyFrom r.hasByteSpans .zero l).length :=
      checkpointAt_le ..
    exact checkpoint_eq (h.right.left.trans (bytesAt_flatMap hcounts hget)) (by omega)

variable {l : List WordPostingEntry} {start stop checkpoints entries : Nat}

/-- So is its walk. -/
theorem BlockRead.walk {σ : Type} (h : BlockRead r l start stop checkpoints entries)
    (hnarrow : ∀ e ∈ l, Narrow r.hasByteSpans e) (f : σ → WordPostingEntry → σ) (s : σ) :
    r.walk start stop (fun s e => (f s e, true)) s = (l.map (stored r.hasByteSpans)).foldl f s := by
  rw [WordSfxPostReader.walk, h.header]
  exact walkLoop_body f s h.body (.refl _ _) hnarrow (le_of_eq h.stop_eq)

/-- **A lookup in a block** finds the first entry with the key. -/
theorem BlockRead.entryAtBlock (h : BlockRead r l start stop checkpoints entries)
    (hnarrow : ∀ e ∈ l, Narrow r.hasByteSpans e) (hsorted : KeysSorted l)
    (target : UInt32 × UInt32) :
    r.entryAtBlock start stop target =
      (l.find? fun e => rank (key e) = rank target).map (stored r.hasByteSpans) := by
  have hprobe : ∀ k e, 0 < k → k ≤ (l.length - 1) / checkpointEvery →
      l[k * checkpointEvery - 1]? = some e →
      ((r.checkpoint checkpoints k).map fun c => keyLt (c.1.doc, c.1.first) target) =
        some (decide (rank (key e) < rank target)) := by
    intro k e hk hk' he
    obtain ⟨st, hst, hagrees⟩ := h.checkpoint k hk hk'
    rw [blockCheckpoint, checkpointAt_last _ _ (by decide) hk he] at hagrees
    have hkey : (st.doc, st.first) = key e := by rw [hagrees.doc, hagrees.first]; rfl
    rw [hst, map_some, hkey, Option.some.injEq, Bool.eq_iff_iff, keyLt_iff, decide_eq_true_eq]
  rw [WordSfxPostReader.entryAtBlock, h.header]
  dsimp only
  obtain ⟨k, hk, hle, hfind⟩ := find?_lastBelow (by decide) hsorted hprobe
  rw [checkpointsFor, checkpointCount, hk, hfind]
  have hdrop : ∀ e ∈ l.drop (k * checkpointEvery), Narrow r.hasByteSpans e :=
    fun e he => hnarrow e (mem_of_mem_drop he)
  have hrest : min (l.length - k * checkpointEvery) checkpointEvery ≤
      (l.drop (k * checkpointEvery)).length := by
    rw [length_drop]
    exact min_le_left ..
  by_cases hzero : k = 0
  · rw [if_pos hzero, hzero, Nat.zero_mul, drop_zero, Nat.sub_zero]
    exact scanRun_body h.body (.refl _ _) hnarrow (le_of_eq h.stop_eq) hsorted (min_le_left ..)
  · obtain ⟨st, hst, hagrees⟩ := h.checkpoint k (Nat.pos_of_ne_zero hzero) hle
    have hsplit : bodyFrom r.hasByteSpans .zero l =
        bodyFrom r.hasByteSpans .zero (l.take (k * checkpointEvery)) ++
          bodyFrom r.hasByteSpans (blockCheckpoint r.hasByteSpans l k).1
            (l.drop (k * checkpointEvery)) :=
      codeFrom_drop ..
    have hbody := h.body
    have hstop := h.stop_eq
    rw [hsplit] at hbody hstop
    rw [length_append, ← add_assoc] at hstop
    rw [if_neg hzero, hst]
    exact scanRun_body hbody.right hagrees hdrop (le_of_eq hstop)
      (hsorted.sublist (drop_sublist _ _)) hrest

/-! ## The file -/

end WordSfxPostReader

namespace WordSfxPostWriter

section

variable (layout : PostingLayout) (n : Nat) (adds : List (Nat × WordPostingEntry))

theorem added_eq : added layout n adds =
    ⟨adds.foldl (fun ls a => ls.modify a.1 (· ++ [a.2])) (replicate n []), layout⟩ :=
  foldl_hom (fun ls => (⟨ls, layout⟩ : WordSfxPostWriter)) fun _ _ => rfl

theorem length_added : (added layout n adds).entries.length = n := by
  rw [added_eq]
  exact length_foldl_modify id ..

theorem layout_added : (added layout n adds).layout = layout := by
  rw [added_eq]

end

/-- What the writer has. -/
theorem mem_added {layout : PostingLayout} {n : Nat} {adds : List (Nat × WordPostingEntry)}
    {ordinal : Nat} {e : WordPostingEntry} :
    e ∈ (added layout n adds).entries.getD ordinal [] ↔ (ordinal, e) ∈ adds ∧ ordinal < n := by
  have hget := getElem?_foldl_modify id adds n ordinal
  simp only [id] at hget
  rw [added_eq, getD_eq_getElem?_getD, hget]
  split <;> simp [*]

end WordSfxPostWriter

/-- **The sorted list of an ordinal's entries**: field by field, each entry once. -/
structure WordsListed (adds : List (Nat × WordPostingEntry)) (numOrdinals ordinal : Nat)
    (l : List WordPostingEntry) : Prop where
  sorted : l.Pairwise fun a b => sortKey a < sortKey b
  /-- It has what was added to the ordinal; what was added past the last one is ignored. -/
  mem_iff : ∀ e, e ∈ l ↔ (ordinal, e) ∈ adds ∧ ordinal < numOrdinals

theorem sortKey_injective : Function.Injective sortKey := by
  intro a b h
  simp only [sortKey, List.cons.injEq, UInt32.toNat_inj, UInt16.toNat_inj] at h
  cases a
  simp_all

theorem WordsListed.keysSorted {adds : List (Nat × WordPostingEntry)} {n ordinal : Nat}
    {l : List WordPostingEntry} (h : WordsListed adds n ordinal l) : KeysSorted l := by
  refine h.sorted.imp fun {a b} hab => ?_
  have ha := a.firstPosition.toNat_lt
  simp only [sortKey, cons_lt_cons_iff] at hab
  simp only [rank, key]
  omega

namespace WordSfxPostReader

/-- What the reader of a file is: the file's header read back, and for each ordinal its block. -/
theorem openBytes_finish {layout : PostingLayout} {n : Nat} {adds : List (Nat × WordPostingEntry)}
    {file : Bytes} (hnum : n < 2 ^ 31) (hfile : (added layout n adds).finish = some file) :
    ∃ r, openBytes file = some r ∧ r.data = file ∧ r.layout = layout ∧ r.numOrdinals = n ∧
      ∀ ordinal, ∃ l, sortEntries ((added layout n adds).entries.getD ordinal []) = l ∧
        (r.blockRange ordinal = none ∧ (l = [] ∨ encodeOrdinal layout l = []) ∨
        encodeOrdinal layout l ≠ [] ∧ ∃ start,
          r.blockRange ordinal = some (start, start + (encodeOrdinal layout l).length) ∧
          BytesAt file start (encodeOrdinal layout l) ∧
          (encodeOrdinal layout l).length < 2 ^ 32) := by
  have hmagic : PostingFile.NamesLayouts magic :=
    ⟨fun layout => by cases layout <;> rfl, fun layout => by cases layout <;> rfl⟩
  have hlen : (added layout n adds).blocks.length = n := by
    rw [blocks, length_map, length_added]
  obtain ⟨f, hopen, hdata, hlayout, hcount, hblock⟩ :=
    PostingFile.openWith_finishFile hmagic (by rwa [hlen]) hfile
  refine ⟨⟨f⟩, ?_, hdata, hlayout.trans (layout_added ..), hcount.trans hlen, fun ordinal =>
    ⟨_, rfl, ?_⟩⟩
  · rw [openBytes, hopen]
    rfl
  rw [getD_eq_getElem?_getD]
  cases hget : (added layout n adds).entries[ordinal]? with
  | none =>
    rw [getElem?_eq_none_iff, length_added] at hget
    exact .inl ⟨if_pos (by rwa [hcount, hlen]), .inl rfl⟩
  | some entries =>
    have hb : (added layout n adds).blocks[ordinal]? =
        some (encodeOrdinal layout (sortEntries entries)) := by
      rw [blocks, List.getElem?_map, hget, layout_added]
      rfl
    obtain ⟨start, hstart, hstop, hat, hle, hsmall⟩ := hblock ordinal _ hb
    have hlt := (List.getElem?_eq_some_iff.mp hb).1
    have hroom : ¬ f.numOrdinals ≤ ordinal := by omega
    simp only [blockRange, hstart, hstop, bind_eq_bind, bind_some, if_neg hroom, getD_some]
    by_cases hnil : encodeOrdinal layout (sortEntries entries) = []
    · rw [hnil, length_nil, add_zero]
      exact .inl ⟨if_pos (by simp), .inr rfl⟩
    · have hpos := length_pos_iff.mpr hnil
      refine .inr ⟨hnil, f.entriesStart + start, ?_, hat, hsmall⟩
      rw [← add_assoc, if_neg]
      simp only [Bool.or_eq_true, decide_eq_true_eq, hdata]
      omega

/-- An ordinal's list, as it was written. -/
theorem wordsListed_sortEntries (layout : PostingLayout) (n ordinal : Nat)
    (adds : List (Nat × WordPostingEntry)) :
    WordsListed adds n ordinal (sortEntries ((added layout n adds).entries.getD ordinal [])) where
  sorted := pairwise_lt_sortDedup sortKey_injective _
  mem_iff := fun _ => mem_sortDedup_beq.trans mem_added

/-- **Every way to read an ordinal gives its sorted list.** -/
structure ReadsBack (r : WordSfxPostReader) (ordinal : Nat) (l : List WordPostingEntry) : Prop where
  entries_eq : r.entries ordinal = l
  /-- `for_each_entry`: one call for each, in order. -/
  forEachEntry_eq : ∀ (σ : Type) (f : σ → WordPostingEntry → σ) (s : σ),
    r.forEachEntry ordinal f s = l.foldl f s
  /-- `entry_at`: the first entry with the document and the position, if there is one. -/
  entryAt_eq : ∀ docId firstPosition, r.entryAt ordinal docId firstPosition =
    l.find? fun e => e.docId = docId && e.firstPosition = firstPosition

/-- An ordinal without entries. -/
theorem readsBack_nil {r : WordSfxPostReader} {ordinal : Nat} (h : r.blockRange ordinal = none) :
    r.ReadsBack ordinal [] where
  entries_eq := by
    rw [entries, h]
    split <;> rfl
  forEachEntry_eq := fun σ f s => by
    rw [forEachEntry, h]
    split <;> rfl
  entryAt_eq := fun doc pos => by
    rw [entryAt, h]
    split <;> rfl

/-- One with a block. -/
theorem readsBack_block {r : WordSfxPostReader} {ordinal start : Nat} {l : List WordPostingEntry}
    (hlayout : r.layout ≠ .docsOnly) (hne : l ≠ [])
    (hrange : r.blockRange ordinal = some (start, start + (encodeBlock r.hasByteSpans l).length))
    (hat : BytesAt r.data start (encodeBlock r.hasByteSpans l))
    (hlt : (encodeBlock r.hasByteSpans l).length < 2 ^ 32)
    (hnarrow : ∀ e ∈ l, Narrow r.hasByteSpans e) (hsorted : KeysSorted l) :
    r.ReadsBack ordinal (l.map (stored r.hasByteSpans)) := by
  obtain ⟨checkpoints, entries, hread⟩ := blockRead_of_encodeBlock hne hat hlt
  refine ⟨?_, fun σ f s => ?_, fun doc pos => ?_⟩
  · rw [WordSfxPostReader.entries, if_neg hlayout, hrange]
    refine (hread.walk hnarrow (fun out e => out ++ [e]) []).trans ?_
    rw [foldl_append_eq_append, nil_append, ← flatMap_def, flatMap_singleton']
  · rw [forEachEntry, if_neg hlayout, hrange]
    exact hread.walk hnarrow f s
  · rw [entryAt, if_neg hlayout, hrange]
    refine (hread.entryAtBlock hnarrow hsorted (doc, pos)).trans ?_
    rw [find?_map]
    congr 2
    funext e
    have hkey := key_stored r.hasByteSpans e
    simp only [key, Prod.mk.injEq] at hkey
    simp only [Function.comp_apply, hkey.1, hkey.2, rank_inj, key, Prod.mk.injEq]
    exact Bool.decide_and ..

/-- The file of a writer, read back ordinal by ordinal. -/
theorem readsBack_finish {layout : PostingLayout} {numOrdinals : Nat}
    {adds : List (Nat × WordPostingEntry)} {file : Bytes} (hlayout : layout ≠ .docsOnly)
    (hnum : numOrdinals < 2 ^ 31) (hnarrow : ∀ a ∈ adds, Narrow (layout = .spans) a.2)
    (hfile : (added layout numOrdinals adds).finish = some file) :
    ∃ r, openBytes file = some r ∧ r.numOrdinals = numOrdinals ∧
      ∀ ordinal, ∃ l, WordsListed adds numOrdinals ordinal l ∧
        r.ReadsBack ordinal (l.map (stored (layout = .spans))) := by
  obtain ⟨r, hopen, hdata, hrlayout, hrnum, hblocks⟩ := openBytes_finish hnum hfile
  refine ⟨r, hopen, hrnum, fun ordinal => ?_⟩
  have hlisted := wordsListed_sortEntries layout numOrdinals ordinal adds
  refine ⟨_, hlisted, ?_⟩
  obtain ⟨l, hl, hblock⟩ := hblocks ordinal
  rw [hl] at hlisted ⊢
  have hspans : r.hasByteSpans = decide (layout = .spans) := by
    rw [hasByteSpans, hrlayout]
  have hencode : encodeOrdinal layout l = encodeBlock r.hasByteSpans l := by
    rw [hspans]
    cases layout with
    | spans => rfl
    | positions => rfl
    | docsOnly => exact absurd rfl hlayout
  rw [hencode] at hblock
  rcases hblock with ⟨hnone, hnil⟩ | ⟨hblock, start, hrange, hat, hlt⟩
  · have hempty : l = [] := by
      by_contra hne
      refine hnil.elim hne ?_
      rw [encodeBlock_eq hne]
      exact append_ne_nil_of_left_ne_nil (writeVarint_ne_nil _) _
    rw [hempty]
    exact readsBack_nil hnone
  · have hne : l ≠ [] := fun hnil => hblock (by rw [hnil]; rfl)
    rw [← hspans]
    refine readsBack_block (hrlayout ▸ hlayout) hne hrange (hdata ▸ hat) hlt (fun e he => ?_)
      hlisted.keysSorted
    rw [hspans]
    exact hnarrow _ ((hlisted.mem_iff e).mp he).1

end WordSfxPostReader

/-- **Word postings are read back.** For a layout with positions, whose last positions fit
beside their flag and whose ordinals have 31 bits: every way to read an ordinal gives the sorted
list of what was added to it, as far as the layout stores it. -/
theorem wordPostings_read_back {layout : PostingLayout} {numOrdinals : Nat}
    {adds : List (Nat × WordPostingEntry)} {file : Bytes} (hlayout : layout ≠ .docsOnly)
    (hnum : numOrdinals < 2 ^ 31) (hnarrow : ∀ a ∈ adds, Narrow (layout = .spans) a.2)
    (hfile : (added layout numOrdinals adds).finish = some file) :
    ∃ r, openBytes file = some r ∧
      ∀ ordinal, ∃ l, WordsListed adds numOrdinals ordinal l ∧
        r.ReadsBack ordinal (l.map (stored (layout = .spans))) := by
  obtain ⟨r, hopen, -, hread⟩ := readsBack_finish hlayout hnum hnarrow hfile
  exact ⟨r, hopen, hread⟩

/-- Two words of one document, one of them added twice, and none of the third ordinal. -/
theorem wordPostings_read_back_three :
    ∃ file, (added .positions 3
        [(1, ⟨7, 4, 5, 29, 43, 0⟩), (0, ⟨7, 0, 2, 0, 21, 3⟩),
          (1, ⟨7, 4, 5, 29, 43, 0⟩)]).finish = some file ∧
      ∃ r, openBytes file = some r ∧
        ∀ ordinal, ∃ l, WordsListed
            [(1, ⟨7, 4, 5, 29, 43, 0⟩), (0, ⟨7, 0, 2, 0, 21, 3⟩),
              (1, ⟨7, 4, 5, 29, 43, 0⟩)] 3 ordinal l ∧
          r.ReadsBack ordinal (l.map (stored false)) := by
  obtain ⟨file, hfile⟩ : ∃ file, (added .positions 3
      [(1, ⟨7, 4, 5, 29, 43, 0⟩), (0, ⟨7, 0, 2, 0, 21, 3⟩), (1, ⟨7, 4, 5, 29, 43, 0⟩)]).finish =
        some file := isSome_iff_exists.mp (by decide +kernel)
  refine ⟨file, hfile, wordPostings_read_back (by decide) (by decide) (fun a ha _ => ?_) hfile⟩
  revert a
  decide

/-- The layout with spans does not store where a word's tail starts. -/
theorem spans_layout_drops_tailOff :
    ((added .spans 1 [(0, ⟨7, 4, 5, 29, 43, 3⟩)]).finish.bind
      openBytes).map (fun r => r.entries 0) = some [⟨7, 4, 5, 29, 43, 0⟩] := by
  decide +kernel

end Lucivy.SuffixFst
