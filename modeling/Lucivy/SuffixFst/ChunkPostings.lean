import Lucivy.SuffixFst.SfxPostV2

/-! # Reading one block of chunk postings

What the view of a block (`OrdinalHeader`) shows of the entries the writer put there.

* `walkPositions_payload`, `walkSpans_payload` — the walk over one document's entries.
* `slotsFrom` — the documents of a block with the places of their payloads.
* `headerDocs_eq`, `docAtLoop_eq`, `findRun_eq` — the three loops over headers.
* `readPositionsHeader_encodeBlock` — the view of a written block.
* `Shows` — the view shows these documents, whichever way it is asked. -/

namespace Lucivy.SuffixFst

open Lucivy.Foundation List SfxPostReaderV2

namespace SfxPost

/-! ## The walk over a payload -/

/-- A fold that stops when it is told to. -/
def foldUntil {σ α : Type} (f : σ → α → σ × Bool) : σ → List α → σ
  | s, [] => s
  | s, a :: l => if (f s a).2 then foldUntil f (f s a).1 l else (f s a).1

/-- A fold that is never told to stop. -/
theorem foldUntil_true {σ α : Type} (f : σ → α → σ) (s : σ) (l : List α) :
    foldUntil (fun s a => (f s a, true)) s l = l.foldl f s := by
  induction l generalizing s with
  | nil => rfl
  | cons a l ih => exact ih (f s a)

/-- An entry takes a byte. -/
theorem length_le_payloadFrom (spans : Bool) (ti bf : UInt32) (es : List SfxPostingEntry) :
    es.length ≤ (payloadFrom spans ti bf es).length := by
  induction es generalizing ti bf with
  | nil => exact Nat.zero_le _
  | cons e es ih =>
    have hpos := writeVarint_pos (e.tokenIndex - ti).toNat
    have hrest := ih e.tokenIndex e.byteFrom
    rw [payloadFrom, length_cons, length_append, length_append]
    omega

open OrdinalHeader

variable {data : Bytes} {spans : Bool} {pairs : List (UInt32 × Nat)}

/-- A payload of positions is read back. -/
theorem walkPositions_payload {σ : Type} {pos : Nat} {prevTi prevBf : UInt32}
    {es : List SfxPostingEntry} (h : BytesAt data pos (payloadFrom false prevTi prevBf es))
    (f : σ → UInt32 → UInt32 → UInt32 → σ × Bool) (s : σ) :
    walkPositions data f es.length prevTi pos s =
      foldUntil (fun s e => f s e.tokenIndex 0 0) s es := by
  induction es generalizing pos prevTi prevBf s with
  | nil => rfl
  | cons e es ih =>
    have hroom := h.left.le_length (writeVarint_ne_nil _)
    have hpos := writeVarint_pos (e.tokenIndex - prevTi).toNat
    rw [length_cons, walkPositions, if_neg (by omega), decodeVint_toNat h.left]
    dsimp only
    rw [wrapping_add_sub, ih h.right, foldUntil]

/-- A payload with spans is read back. -/
theorem walkSpans_payload {σ : Type} {pos : Nat} {prevTi prevBf : UInt32}
    {es : List SfxPostingEntry} (h : BytesAt data pos (payloadFrom true prevTi prevBf es))
    (f : σ → UInt32 → UInt32 → UInt32 → σ × Bool) (s : σ) :
    walkSpans data f es.length prevTi prevBf pos s =
      foldUntil (fun s e => f s e.tokenIndex e.byteFrom e.byteTo) s es := by
  induction es generalizing pos prevTi prevBf s with
  | nil => rfl
  | cons e es ih =>
    rw [payloadFrom, if_pos rfl, append_assoc] at h
    have hfrom := h.right.left
    have hto := h.right.right.left
    have hroom' := hfrom.le_length (writeVarint_ne_nil _)
    have hpos' := writeVarint_pos (e.byteFrom - prevBf).toNat
    rw [length_cons, walkSpans, if_neg (by omega), decodeVint_toNat h.left]
    dsimp only
    rw [if_neg (by omega), decodeVint_toNat hfrom]
    rw [if_neg (by omega), decodeVint_toNat hto]
    rw [wrapping_add_sub, wrapping_add_sub, wrapping_add_sub, ih h.right.right.right, foldUntil]

/-! ## The documents of a block -/

/-- The slots of some documents, from a state on. -/
def slotsFrom (spans : Bool) : DocState → List DocRun → List DocSlot
  | _, [] => []
  | st, run :: runs =>
    ⟨run.docId, UInt32.ofNat st.cumulative, UInt32.ofNat run.entries.length⟩ ::
      slotsFrom spans (nextState spans st run) runs

/-- A slot for each run. -/
@[simp] theorem length_slotsFrom (spans : Bool) (st : DocState) (runs : List DocRun) :
    (slotsFrom spans st runs).length = runs.length := by
  induction runs generalizing st with
  | nil => rfl
  | cons run runs ih => rw [slotsFrom, length_cons, length_cons, ih]

/-- The slots of a row in two parts. -/
theorem slotsFrom_append (spans : Bool) (st : DocState) (l m : List DocRun) :
    slotsFrom spans st (l ++ m) =
      slotsFrom spans st l ++ slotsFrom spans (stateAfter (nextState spans) st l) m := by
  induction l generalizing st with
  | nil => rfl
  | cons run l ih =>
    rw [cons_append, slotsFrom, slotsFrom, ih, cons_append]
    rfl

/-- Their documents. -/
theorem map_docId_slotsFrom (spans : Bool) (st : DocState) (runs : List DocRun) :
    (slotsFrom spans st runs).map DocSlot.docId = runs.map DocRun.docId := by
  induction runs generalizing st with
  | nil => rfl
  | cons run runs ih => rw [slotsFrom, map_cons, map_cons, ih]

/-- **A document fits**: its payload's length and the number of its entries have 32 bits. -/
def RunFits (spans : Bool) (run : DocRun) : Prop := (payloadOf spans run).length < 2 ^ 32

/-- The count fits 32 bits. -/
theorem RunFits.length_lt {run : DocRun} (h : RunFits spans run) : run.entries.length < 2 ^ 32 :=
  lt_of_le_of_lt (length_le_payloadFrom spans 0 0 run.entries) h

/-- One header is read back. -/
theorem readHeader_encodeHeader {headers : Bytes} {pos : Nat} {st : DocState} {run : DocRun}
    (h : BytesAt headers pos (encodeHeader spans st run)) (hfit : RunFits spans run) :
    readHeader headers pos =
      some ((run.docId - st.doc, UInt32.ofNat (payloadOf spans run).length,
        UInt32.ofNat run.entries.length), pos + (encodeHeader spans st run).length) := by
  rw [encodeHeader, Nat.mod_eq_of_lt hfit.length_lt] at h ⊢
  simp only [readHeader, readVarintU32_toNat h.left, Option.bind_eq_bind, Option.bind_some,
    readVarintU32_write hfit h.right.left, readVarintU32_write hfit.length_lt h.right.right]
  rw [length_append, length_append, ← add_assoc, ← add_assoc]
  rfl

/-- The headers from a state on. -/
abbrev headersFrom (spans : Bool) : DocState → List DocRun → Bytes :=
  codeFrom (encodeHeader spans) (nextState spans)

theorem headersFrom_cons (spans : Bool) (st : DocState) (run : DocRun) (runs : List DocRun) :
    headersFrom spans st (run :: runs) =
      encodeHeader spans st run ++ headersFrom spans (nextState spans st run) runs := rfl

/-- The place of the next payload. -/
theorem offset_next (spans : Bool) (st : DocState) (run : DocRun) :
    UInt32.ofNat st.cumulative + UInt32.ofNat (payloadOf spans run).length =
      UInt32.ofNat (nextState spans st run).cumulative := (UInt32.ofNat_add ..).symm

section Loops

variable {spans : Bool} {headers : Bytes} {runs : List DocRun}

/-- **All headers, one after the other.** -/
theorem headerDocs_eq {st : DocState} {pos : Nat}
    (h : BytesAt headers pos (headersFrom spans st runs))
    (hfit : ∀ run ∈ runs, RunFits spans run) :
    headerDocs headers runs.length st.doc (UInt32.ofNat st.cumulative) pos =
      slotsFrom spans st runs := by
  induction runs generalizing st pos with
  | nil => rfl
  | cons run runs ih =>
    have hread := readHeader_encodeHeader h.left (hfit run mem_cons_self)
    rw [length_cons, headerDocs, hread]
    dsimp only
    rw [wrapping_add_sub, offset_next, slotsFrom]
    have hrest := ih h.right (forall_mem_cons.mp hfit).2
    rw [← hrest]
    rfl

/-- **Over `m` headers to the next one.** -/
theorem docAtLoop_eq {st : DocState} {pos m : Nat} (count : UInt32)
    (h : BytesAt headers pos (headersFrom spans st runs)) (hfit : ∀ run ∈ runs, RunFits spans run)
    (hm : m < runs.length) :
    some (docAtLoop headers m st.doc (UInt32.ofNat st.cumulative) count pos) =
      (slotsFrom spans st runs)[m]? := by
  induction runs generalizing st pos m count with
  | nil => exact absurd hm (Nat.not_lt_zero _)
  | cons run runs ih =>
    have hread := readHeader_encodeHeader h.left (hfit run mem_cons_self)
    cases m with
    | zero =>
      rw [docAtLoop, hread, slotsFrom]
      dsimp only
      rw [wrapping_add_sub]
      rfl
    | succ m =>
      rw [docAtLoop, hread, slotsFrom, getElem?_cons_succ]
      dsimp only
      rw [wrapping_add_sub, offset_next]
      exact ih _ h.right (forall_mem_cons.mp hfit).2 (Nat.lt_of_succ_lt_succ hm)

/-- The documents in order. -/
def DocsSorted (docs : List UInt32) : Prop := docs.Pairwise fun a b => a.toNat < b.toNat

/-- What a lookup answers: the index and the slot. -/
def answer (p : DocSlot × Nat) : Nat × DocSlot := (p.2, p.1)

/-- **A scan for a document** over at most `n` headers from index `i`. -/
theorem findRun_eq {st : DocState} {pos n : Nat} (i : Nat) (target : UInt32)
    (h : BytesAt headers pos (headersFrom spans st runs)) (hfit : ∀ run ∈ runs, RunFits spans run)
    (hsorted : DocsSorted (runs.map DocRun.docId)) (hn : n ≤ runs.length) :
    findRun headers target n i st.doc (UInt32.ofNat st.cumulative) pos =
      (((slotsFrom spans st runs).zipIdx i).take n |>.find?
        fun p => p.1.docId.toNat = target.toNat).map answer := by
  induction n generalizing st pos runs i with
  | zero => rfl
  | succ n ih =>
    cases runs with
    | nil => exact absurd hn (Nat.not_succ_le_zero n)
    | cons run runs =>
      have hread := readHeader_encodeHeader h.left (hfit run mem_cons_self)
      obtain ⟨hlt, hsorted⟩ := pairwise_cons.mp hsorted
      rw [findRun, hread, slotsFrom, zipIdx_cons, take_succ_cons]
      dsimp only
      rw [wrapping_add_sub, offset_next]
      have hle : ∀ p ∈ ((slotsFrom spans (nextState spans st run) runs).zipIdx (i + 1)).take n,
          run.docId.toNat ≤ p.1.docId.toNat := by
        intro p hp
        refine le_of_lt (hlt _ ?_)
        rw [← map_docId_slotsFrom spans (nextState spans st run)]
        exact mem_map_of_mem (fst_mem_of_mem_zipIdx (mem_of_mem_take hp))
      rw [find?_cons_eq_ite (fun p : DocSlot × Nat => p.1.docId.toNat) target.toNat hle]
      simp only [UInt32.lt_iff_toNat_lt, ← UInt32.toNat_inj]
      split_ifs with hbelow heq
      · exact ih (i + 1) h.right (forall_mem_cons.mp hfit).2 hsorted (Nat.le_of_succ_le_succ hn)
      · rw [← UInt32.toNat_inj.mp heq]
        rfl
      · rfl

end Loops

/-! ## The view of a block -/

abbrev blockCheckpoints (spans : Bool) (runs : List DocRun) : List (DocState × Nat) :=
  checkpointsBefore (encodeHeader spans) (nextState spans) checkpointEvery ⟨0, 0⟩ runs runs.length

/-- Checkpoint `k` of a block. -/
abbrev blockCheckpoint (spans : Bool) (runs : List DocRun) (k : Nat) : DocState × Nat :=
  checkpointAt (encodeHeader spans) (nextState spans) checkpointEvery ⟨0, 0⟩ runs k

/-- The view of a block. -/
def blockHeader (spans : Bool) (runs : List DocRun) : OrdinalHeader :=
  ⟨runs.length, .v3 ((blockCheckpoints spans runs).flatMap checkpointBytes)
    (headersFrom spans ⟨0, 0⟩ runs),
    runs.flatMap (payloadOf spans), spans⟩

/-- **The parts of a block.** -/
theorem encodeBlock_eq (spans : Bool) (entries : List SfxPostingEntry) :
    encodeBlock spans entries = writeVarint (entryRuns entries).length ++
      (writeVarint (headersFrom spans ⟨0, 0⟩ (entryRuns entries)).length ++
        ((blockCheckpoints spans (entryRuns entries)).flatMap checkpointBytes ++
          (headersFrom spans ⟨0, 0⟩ (entryRuns entries) ++
            (entryRuns entries).flatMap (payloadOf spans)))) := by
  rw [encodeBlock, codeLoop_eq]

/-- A header takes three bytes. -/
theorem encodeHeader_length (spans : Bool) (st : DocState) (run : DocRun) :
    3 ≤ (encodeHeader spans st run).length := by
  have h1 := writeVarint_pos (run.docId - st.doc).toNat
  have h2 := writeVarint_pos (payloadOf spans run).length
  have h3 := writeVarint_pos (run.entries.length % 2 ^ 32)
  rw [encodeHeader, length_append, length_append]
  omega

/-- So there are no more runs than bytes. -/
theorem length_le_headersFrom (spans : Bool) (st : DocState) (runs : List DocRun) :
    runs.length ≤ (headersFrom spans st runs).length :=
  length_le_codeFrom _ _ (fun st run hnil => by
    have := encodeHeader_length spans st run
    rw [hnil, length_nil] at this
    omega) st runs

/-- A checkpoint's size. -/
theorem length_checkpointBytes (c : DocState × Nat) :
    (checkpointBytes c).length = checkpointSize := by
  simp [checkpointBytes]

/-- The size of all of them. -/
theorem length_checkpoints (spans : Bool) (runs : List DocRun) :
    ((blockCheckpoints spans runs).flatMap checkpointBytes).length =
      checkpointsFor runs.length * checkpointSize := by
  rw [length_flatMap_const fun c _ => length_checkpointBytes c, length_checkpointsBefore]

/-- **The view of a written block.** -/
theorem readPositionsHeader_encodeBlock {entries : List SfxPostingEntry}
    (hne : entryRuns entries ≠ []) (hlt : (encodeBlock spans entries).length < 2 ^ 32) :
    readPositionsHeader spans (encodeBlock spans entries) =
      some (blockHeader spans (entryRuns entries)) := by
  have heq := encodeBlock_eq spans entries
  generalize encodeBlock spans entries = data at hlt heq ⊢
  generalize entryRuns entries = runs at hne heq ⊢
  have hlen := congrArg List.length heq
  have hcps := length_checkpoints spans runs
  have hhead := length_le_headersFrom spans ⟨0, 0⟩ runs
  have h1 := writeVarint_pos runs.length
  simp only [length_append] at hlen
  -- a document takes three bytes, so the block passes the minimum
  have hmin : 3 ≤ (headersFrom spans ⟨0, 0⟩ runs).length := by
    obtain ⟨run, rest, rfl⟩ := exists_cons_of_ne_nil hne
    have := encodeHeader_length spans ⟨0, 0⟩ run
    rw [headersFrom_cons, length_append]
    omega
  have hat := BytesAt.refl data
  conv at hat =>
    arg 3
    rw [heq]
  have hnat : (UInt32.ofNat runs.length).toNat = runs.length := by exact Nat.mod_eq_of_lt (by omega)
  have hnat' : (UInt32.ofNat (headersFrom spans ⟨0, 0⟩ runs).length).toNat =
      (headersFrom spans ⟨0, 0⟩ runs).length := by
    exact Nat.mod_eq_of_lt (by omega)
  have hn := readVarintU32_write (by omega) hat.left
  have hl := readVarintU32_write (by omega) hat.right.left
  have hcp := hat.right.right.left.take_drop
  have hhd := hat.right.right.right.left.take_drop
  have hpay := hat.right.right.right.right.take_drop
  rw [hcps] at hcp hhd hpay
  rw [take_of_length_le (by rw [length_drop]; omega)] at hpay
  rw [readPositionsHeader, if_neg (by omega), hn]
  simp only [Option.bind_eq_bind, Option.bind_some, hnat]
  rw [if_neg (by omega), hl]
  simp only [Option.bind_some, hnat']
  rw [if_neg (by omega), hcp, hhd, hpay, blockHeader]

/-- The documents of a block fit. -/
structure RunsFit (spans : Bool) (runs : List DocRun) : Prop where
  payload_lt : (runs.flatMap (payloadOf spans)).length < 2 ^ 32
  headers_lt : (headersFrom spans ⟨0, 0⟩ runs).length < 2 ^ 32

/-- A block below 4 GiB fits. -/
theorem RunsFit.of_encodeBlock {entries : List SfxPostingEntry}
    (hlt : (encodeBlock spans entries).length < 2 ^ 32) : RunsFit spans (entryRuns entries) := by
  rw [encodeBlock_eq] at hlt
  simp only [length_append] at hlt
  exact ⟨by omega, by omega⟩

/-- Every run fits. -/
theorem RunsFit.runFits {runs : List DocRun} (h : RunsFit spans runs) :
    ∀ run ∈ runs, RunFits spans run := by
  intro run hrun
  have hle : (payloadOf spans run).length ≤ (runs.flatMap (payloadOf spans)).length := by
    exact (sublist_flatten_of_mem (mem_map_of_mem hrun)).length_le
  exact lt_of_le_of_lt hle h.payload_lt

/-- The bytes of payload so far. -/
theorem cumulative_stateAfter (spans : Bool) (st : DocState) (runs : List DocRun) :
    (stateAfter (nextState spans) st runs).cumulative =
      st.cumulative + (runs.flatMap (payloadOf spans)).length := by
  induction runs generalizing st with
  | nil => rfl
  | cons run runs ih =>
    rw [stateAfter, foldl_cons, ← stateAfter, ih, flatMap_cons, length_append, nextState, add_assoc]

/-- **A run starts where its checkpoint says.** -/
theorem runStart_eq {runs : List DocRun} (hfit : RunsFit spans runs) {k : Nat}
    (hk : k ≤ checkpointsFor runs.length) :
    runStart ((blockCheckpoints spans runs).flatMap checkpointBytes) k =
      some ((blockCheckpoint spans runs k).1.doc,
        UInt32.ofNat (blockCheckpoint spans runs k).1.cumulative,
          (blockCheckpoint spans runs k).2) := by
  rw [runStart]
  by_cases hzero : k = 0
  · rw [if_pos hzero, hzero, blockCheckpoint, checkpointAt, zero_mul]
    rfl
  · have hpos := Nat.pos_of_ne_zero hzero
    have hat := bytesAt_flatMap (fun c _ => length_checkpointBytes c)
      (getElem?_checkpointsBefore (encodeHeader spans) (nextState spans) (s := ⟨0, 0⟩) (l := runs)
        hpos hk)
    have hcum : (blockCheckpoint spans runs k).1.cumulative < 2 ^ 32 := by
      refine lt_of_le_of_lt ?_ hfit.payload_lt
      rw [blockCheckpoint, checkpointAt, cumulative_stateAfter, zero_add]
      exact ((take_sublist _ runs).map (payloadOf spans)).flatten.length_le
    have hoff : (blockCheckpoint spans runs k).2 < 2 ^ 32 :=
      lt_of_le_of_lt (checkpointAt_le ..) hfit.headers_lt
    have hroom := hat.right.right.le_length (cons_ne_nil _ _)
    simp only [length_leBytes] at hroom
    have hdoc := readLe_leBytes hat.left (UInt32.toNat_lt _) (by omega)
    have hcumread := readLe_leBytes hat.right.left hcum (by rw [length_leBytes]; omega)
    have hoffread := readLe_leBytes hat.right.right hoff (by simp only [length_leBytes]; omega)
    simp only [length_leBytes] at hcumread hoffread
    rw [if_neg hzero]
    simp only [hdoc, hcumread, hoffread, Option.bind_eq_bind, Option.bind_some, UInt32.ofNat_toNat]
    rfl

/-! ## What a view shows -/

/-- **The view shows these slots**, whichever way it is asked for a document. -/
structure Shows (header : OrdinalHeader) (slots : List DocSlot) : Prop where
  numDocs_eq : header.numDocs = slots.length
  /-- One after the other. -/
  docs_eq : header.docs = slots
  /-- By rank. -/
  docAt_eq : ∀ i, i < slots.length → header.docAt i = slots[i]?
  /-- By document. -/
  findDocFull_eq : ∀ d, header.findDocFull d =
    (slots.zipIdx.find? fun p => p.1.docId.toNat = d.toNat).map answer
  /-- In order. -/
  sorted : DocsSorted (slots.map DocSlot.docId)

section Block

variable {spans : Bool} {runs : List DocRun}

/-- Behind checkpoint `k`: the slots, and their headers. -/
theorem slots_drop (k : Nat) :
    (slotsFrom spans ⟨0, 0⟩ runs).drop (k * checkpointEvery) =
      slotsFrom spans (blockCheckpoint spans runs k).1 (runs.drop (k * checkpointEvery)) := by
  by_cases hle : k * checkpointEvery ≤ runs.length
  · have hlen : (slotsFrom spans ⟨0, 0⟩ (runs.take (k * checkpointEvery))).length =
        k * checkpointEvery := by
      rw [length_slotsFrom, length_take, min_eq_left hle]
    conv =>
      lhs
      rw [← take_append_drop (k * checkpointEvery) runs, slotsFrom_append]
      arg 1
      rw [← hlen]
    rw [drop_left]
    rfl
  · have hlen := Nat.le_of_not_le hle
    rw [drop_eq_nil_of_le (by rwa [length_slotsFrom]), drop_eq_nil_of_le hlen, slotsFrom]

/-- The headers behind a checkpoint. -/
theorem headers_drop (k : Nat) :
    BytesAt (headersFrom spans ⟨0, 0⟩ runs) (blockCheckpoint spans runs k).2
      (headersFrom spans (blockCheckpoint spans runs k).1 (runs.drop (k * checkpointEvery))) := by
  have hat := BytesAt.refl (headersFrom spans ⟨0, 0⟩ runs)
  conv at hat =>
    arg 3
    rw [headersFrom, codeFrom_drop _ _ checkpointEvery _ _ k]
  have hright := hat.right
  rwa [zero_add] at hright

/-- `doc_at` reads the slot. -/
theorem docAt_blockHeader (hfit : RunsFit spans runs) {i : Nat} (hi : i < runs.length) :
    (blockHeader spans runs).docAt i = (slotsFrom spans ⟨0, 0⟩ runs)[i]? := by
  have hk : i / checkpointEvery ≤ checkpointsFor runs.length := by
    simp only [checkpointCount, checkpointEvery]
    omega
  have hrest :
    i % checkpointEvery < (runs.drop (i / checkpointEvery * checkpointEvery)).length := by
    rw [length_drop]
    simp only [checkpointEvery]
    omega
  have hloop := docAtLoop_eq 0 (headers_drop (i / checkpointEvery))
    (fun run hrun => hfit.runFits run (mem_of_mem_drop hrun)) hrest
  rw [← slots_drop, getElem?_drop, Nat.div_add_mod'] at hloop
  rw [OrdinalHeader.docAt, blockHeader]
  dsimp only
  rw [runStart_eq hfit hk, Option.map_some]
  exact hloop

/-- `find_doc_full` finds the document. -/
theorem findDocFull_blockHeader (hfit : RunsFit spans runs)
    (hsorted : DocsSorted (runs.map DocRun.docId)) (target : UInt32) :
    (blockHeader spans runs).findDocFull target =
      ((slotsFrom spans ⟨0, 0⟩ runs).zipIdx.find? fun p => p.1.docId.toNat = target.toNat).map
        answer := by
  obtain ⟨slots, hslots⟩ : ∃ slots, slots = slotsFrom spans ⟨0, 0⟩ runs := ⟨_, rfl⟩
  have hlen : slots.zipIdx.length = runs.length := by
    rw [length_zipIdx, hslots, length_slotsFrom]
  have hdocs : slots.map DocSlot.docId = runs.map DocRun.docId := by
    rw [hslots, map_docId_slotsFrom]
  have hrank : slots.zipIdx.Pairwise fun p q => p.1.docId.toNat ≤ q.1.docId.toNat := by
    have hfst : ((slots.zipIdx.map Prod.fst).map DocSlot.docId).Pairwise
        fun a b => a.toNat < b.toNat := by
      rw [zipIdx_map_fst, hdocs]
      exact hsorted
    exact (pairwise_map.mp (pairwise_map.mp hfst)).imp le_of_lt
  -- a probe reads the document of the last slot in front of its checkpoint
  have hprobe : ∀ k p, 0 < k → k ≤ (slots.zipIdx.length - 1) / checkpointEvery →
      slots.zipIdx[k * checkpointEvery - 1]? = some p →
      ((readLe 4 ((blockCheckpoints spans runs).flatMap checkpointBytes)
        ((k - 1) * checkpointSize)).map fun d => decide (UInt32.ofNat d < target)) =
        some (decide (p.1.docId.toNat < target.toNat)) := by
    intro k p hk hk' hp
    rw [hlen] at hk'
    have hstart := runStart_eq hfit hk'
    rw [runStart, if_neg (ne_of_gt hk)] at hstart
    simp only [Option.bind_eq_bind, Option.bind_eq_some_iff] at hstart
    obtain ⟨d, hd, o, -, q, -, heq⟩ := hstart
    have hdoc : UInt32.ofNat d = (blockCheckpoint spans runs k).1.doc := by
      simp only [Option.pure_def, Option.some.injEq, Prod.mk.injEq] at heq
      exact heq.1
    have hrun : (runs.map DocRun.docId)[k * checkpointEvery - 1]? = some p.1.docId := by
      rw [getElem?_zipIdx, Option.map_eq_some_iff] at hp
      obtain ⟨slot, hslot, rfl⟩ := hp
      rw [← hdocs, getElem?_map, hslot, Option.map_some]
    have hlast : (blockCheckpoint spans runs k).1.doc = p.1.docId := by
      rw [getElem?_map, Option.map_eq_some_iff] at hrun
      obtain ⟨run, hrun, hid⟩ := hrun
      rw [blockCheckpoint, checkpointAt_last _ _ (by decide) hk hrun, ← hid]
      rfl
    rw [hd, Option.map_some, hdoc, hlast]
    simp only [UInt32.lt_iff_toNat_lt]
  obtain ⟨k, hk, hle, hfind⟩ := find?_lastBelow (by decide) hrank hprobe
  rw [hlen] at hk hle hfind
  rw [← hslots, hfind, OrdinalHeader.findDocFull, blockHeader]
  dsimp only
  rw [checkpointsFor, checkpointCount, hk, runStart_eq hfit hle]
  -- the run ends at its last header, or with the block
  have hrun : min (k * checkpointEvery + checkpointEvery) runs.length - k * checkpointEvery =
      min (runs.length - k * checkpointEvery) checkpointEvery := by omega
  have hcount : min (runs.length - k * checkpointEvery) checkpointEvery ≤
      (runs.drop (k * checkpointEvery)).length := by
    rw [length_drop]
    exact min_le_left ..
  have hdropped : DocsSorted ((runs.drop (k * checkpointEvery)).map DocRun.docId) := by
    rw [map_drop]
    exact hsorted.sublist (drop_sublist _ _)
  have hscan := findRun_eq (k * checkpointEvery) target (headers_drop k)
    (fun run hrun => hfit.runFits run (mem_of_mem_drop hrun)) hdropped hcount
  have hzip : slots.zipIdx.drop (k * checkpointEvery) =
      (slots.drop (k * checkpointEvery)).zipIdx (k * checkpointEvery) := by
    refine ext_getElem? fun i => ?_
    simp [getElem?_drop]
  rw [hzip, hslots, slots_drop]
  dsimp only
  rw [hrun]
  exact hscan

/-- **The view of a block shows its documents.** -/
theorem shows_blockHeader (hfit : RunsFit spans runs)
    (hsorted : DocsSorted (runs.map DocRun.docId)) :
    Shows (blockHeader spans runs) (slotsFrom spans ⟨0, 0⟩ runs) where
  numDocs_eq := (length_slotsFrom ..).symm
  docs_eq := headerDocs_eq (BytesAt.refl _) hfit.runFits
  docAt_eq := fun i hi => docAt_blockHeader hfit (by rwa [length_slotsFrom] at hi)
  findDocFull_eq := findDocFull_blockHeader hfit hsorted
  sorted := by
    rw [map_docId_slotsFrom]
    exact hsorted

end Block

/-! ## A block without positions -/

/-- The slot of a document with its frequency. -/
def pairSlot (p : UInt32 × Nat) : DocSlot := ⟨p.1, 0, UInt32.ofNat (p.2 % 2 ^ 32)⟩

/-- The view of a block without positions. -/
def docsHeader (pairs : List (UInt32 × Nat)) : OrdinalHeader :=
  ⟨pairs.length, .docs (docPairs 0 pairs), [], false⟩

/-- One pair is read back. -/
theorem read_docPair {pos : Nat} {prev : UInt32} {p : UInt32 × Nat}
    (h : BytesAt data pos (docPairs prev (p :: pairs))) :
    ∃ mid stop, readVarintU32 data pos = some (p.1 - prev, mid) ∧
      readVarintU32 data mid = some (UInt32.ofNat (p.2 % 2 ^ 32), stop) ∧
      BytesAt data stop (docPairs p.1 pairs) := by
  exact ⟨_, _, readVarintU32_toNat h.left,
    readVarintU32_write (Nat.mod_lt _ (by decide)) h.right.left, h.right.right⟩

/-- A pair by its index. -/
theorem pairAtLoop_eq {pos m : Nat} {prev tf : UInt32} (h : BytesAt data pos (docPairs prev pairs))
    (hm : m < pairs.length) :
    some (pairAtLoop data (m + 1) prev tf pos) = (pairs.map pairSlot)[m]? := by
  induction pairs generalizing pos prev tf m with
  | nil => exact absurd hm (Nat.not_lt_zero _)
  | cons p pairs ih =>
    obtain ⟨mid, stop, hdoc, hcount, hrest⟩ := read_docPair h
    rw [pairAtLoop, hdoc]
    dsimp only
    rw [hcount]
    dsimp only
    rw [wrapping_add_sub]
    cases m with
    | zero => rfl
    | succ m =>
      rw [map_cons, getElem?_cons_succ]
      exact ih hrest (Nat.lt_of_succ_lt_succ hm)

/-- A pair by its document. -/
theorem findPair_eq {pos i : Nat} {prev target : UInt32}
    (h : BytesAt data pos (docPairs prev pairs)) (hsorted : DocsSorted (pairs.map Prod.fst)) :
    findPair data target pairs.length i prev pos =
      (((pairs.map pairSlot).zipIdx i).find? fun p => p.1.docId.toNat = target.toNat).map
        answer := by
  induction pairs generalizing pos prev i with
  | nil => rfl
  | cons p pairs ih =>
    obtain ⟨mid, stop, hdoc, hcount, hrest⟩ := read_docPair h
    obtain ⟨hlt, hsorted⟩ := pairwise_cons.mp hsorted
    rw [length_cons, findPair, hdoc]
    dsimp only
    rw [hcount]
    dsimp only
    rw [wrapping_add_sub, map_cons, zipIdx_cons]
    have hle : ∀ q ∈ (pairs.map pairSlot).zipIdx (i + 1), p.1.toNat ≤ q.1.docId.toNat := by
      intro q hq
      obtain ⟨p', hp', hslot⟩ := mem_map.mp (fst_mem_of_mem_zipIdx hq)
      exact hslot ▸ le_of_lt (hlt p'.1 (mem_map_of_mem hp'))
    rw [find?_cons_eq_ite (fun p : DocSlot × Nat => p.1.docId.toNat) target.toNat hle]
    show (if (pairSlot p).docId < target then _ else
      if (pairSlot p).docId = target then _ else _) = _
    simp only [UInt32.lt_iff_toNat_lt, ← UInt32.toNat_inj]
    split_ifs with hbelow heq
    · exact ih hrest hsorted
    · rw [← UInt32.toNat_inj.mp heq]
      rfl
    · rfl

/-- **The view of a block without positions shows its documents.** -/
theorem shows_docsHeader (hsorted : DocsSorted (pairs.map Prod.fst)) :
    Shows (docsHeader pairs) (pairs.map pairSlot) where
  numDocs_eq := (length_map ..).symm
  docs_eq := by
    rw [OrdinalHeader.docs, docsHeader]
    dsimp only
    rw [readDocPairs_write (BytesAt.refl _), map_map]
    rfl
  docAt_eq := fun i hi => pairAtLoop_eq (BytesAt.refl _) (by rwa [length_map] at hi)
  findDocFull_eq := fun d => findPair_eq (BytesAt.refl _) hsorted
  sorted := by
    rw [map_map]
    exact hsorted

/-- **The view of a written block without positions.** -/
theorem readDocsHeader_encodeDocs {docs : List UInt32} (hne : docs ≠ [])
    (hlt : (encodeDocs docs).length < 2 ^ 32) :
    readDocsHeader (encodeDocs docs) = some (docsHeader (docRuns docs)) := by
  rw [encodeDocs, if_neg hne] at hlt ⊢
  have hat := BytesAt.refl (writeVarint (docRuns docs).length ++ docPairs 0 (docRuns docs))
  have hcount : (docRuns docs).length ≤ (docPairs 0 (docRuns docs)).length := length_le_docPairs ..
  rw [length_append] at hlt
  have hnat : (UInt32.ofNat (docRuns docs).length).toNat = (docRuns docs).length := by
    exact Nat.mod_eq_of_lt (by omega)
  rw [readDocsHeader, readVarintU32_write (by omega) hat.left]
  simp only [Option.bind_eq_bind, Option.bind_some, hnat, zero_add, drop_left]
  rw [if_neg (by rw [length_append]; omega), docsHeader]

end SfxPost

end Lucivy.SuffixFst
