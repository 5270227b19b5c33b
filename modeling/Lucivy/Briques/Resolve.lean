import Lucivy.Briques.FstWalk

/-! # Resolving tokens and chains to places

`briques/resolve.rs`: where the tokens the FST walk found stand in the documents. A chunk is
looked up in `.sfxpost`, a word in `.word_sfxpost`; a chain is followed from the places of its
head, position by position through `.posmap`, or from word to word through the word map.

The cap on the number of matches is not modelled. -/

namespace Lucivy.Briques

open Lucivy.Foundation Lucivy.Tokenizer Lucivy.SuffixFst

structure MatchV3 where
  docId : Nat
  position : Nat
  span : Nat
  /-- Where it starts in its first token. -/
  sti : Nat
  ordinal : Ordinal
  lastOrdinal : Ordinal
  /-- Bytes from the start of the chunk at `position` to the match. -/
  firstOff : Nat
  /-- The chunk where the last token's text starts. -/
  lastStartPos : Nat
  /-- Bytes from the start of that chunk to the last token's text. -/
  lastOff : Nat
  /-- Bytes from the start of the last token's text to the end of the match. -/
  lastConsumed : Nat
  /-- First byte of the match in its value, once placed. -/
  byteFrom : Nat
  /-- Bytes of the match that lie in the next word. -/
  overlapOverflow : Nat
  /-- The byte behind the match, once placed. -/
  byteTo : Nat
  /-- The end of the last token's content, once placed. -/
  tokenEnd : Nat
deriving DecidableEq, Repr

def MatchV3.unplaced (docId position span sti : Nat) (ordinal lastOrdinal : Ordinal)
    (firstOff lastStartPos lastOff lastConsumed : Nat) : MatchV3 :=
  ⟨docId, position, span, sti, ordinal, lastOrdinal, firstOff, lastStartPos, lastOff, lastConsumed,
    0, 0, 0, 0⟩

namespace BriquesContext

variable (ctx : BriquesContext)

/-- `resolver.positions`. -/
def positions (ord : Ordinal) : List ChunkPosting := ctx.sfxpost.filter (·.ordinal = ord)

/-- `resolver.has_position`. -/
def hasPosition (ord : Ordinal) (doc pos : Nat) : Bool :=
  ctx.sfxpost.any fun p => p.ordinal = ord && p.docId = doc && p.position = pos

/-- `word_sfxpost.entries`. -/
def wordEntries (ord : Ordinal) : List WordPosting := ctx.wordSfxpost.filter (·.ordinal = ord)

/-- `has_content`: the chunk is not all separators. -/
def hasContent (ord : Ordinal) : Bool :=
  match ctx.info ord with
  | none => true
  | some m => m.sepLen < m.ownLen

/-- The head starts inside its own token's content. -/
def headInContent (ord : Ordinal) (sti : Nat) : Bool :=
  match ctx.info ord with
  | none => true
  | some m => sti < m.ownLen - m.sepLen

/-! ## Single tokens -/

/-- `resolve_single_v3`. -/
def resolveSingle (candidates : List FstCandidate) (queryLen : Nat) : List MatchV3 :=
  (candidates.filter (·.partition ≠ .stripped)).flatMap fun c =>
    (ctx.positions c.ordinal).map fun e =>
      .unplaced e.docId e.position 1 c.sti c.ordinal c.ordinal c.sti e.position 0 (c.sti + queryLen)

/-- How many positions a word covers. -/
def wordSpan (e : WordPosting) : Nat :=
  if e.firstPosition < e.lastPosition then e.lastPosition - e.firstPosition + 1 else 1

/-- `resolve_single_word_v3`. -/
def resolveSingleWord (candidates : List FstCandidate) (queryLen : Nat) : List MatchV3 :=
  (candidates.filter fun c => c.partition = .stripped && ctx.headInContent c.ordinal c.sti).flatMap
    fun c => (ctx.wordEntries c.ordinal).map fun e =>
      .unplaced e.docId e.firstPosition (wordSpan e) c.sti c.ordinal c.ordinal (e.tailOff + c.sti)
        e.firstPosition e.tailOff (c.sti + queryLen)

/-! ## Chains of chunks -/

/-- A chain followed so far: document, last position, last token, first position. -/
structure ChunkActive where
  docId : Nat
  lastPos : Nat
  lastOrd : Ordinal
  /-- Where the chain starts. -/
  firstPos : Nat
deriving DecidableEq, Repr

/-- One position further: the chunk there is one of the alternatives. -/
def chunkStep (a : ChunkActive) (wanted : List Ordinal) : Option ChunkActive :=
  match ctx.posmap.ordinalAt a.docId (a.lastPos + 1) with
  | none => none
  | some ord => if ord ∈ wanted then some ⟨a.docId, a.lastPos + 1, ord, a.firstPos⟩ else none

/-- The matches of a chain from one place of its head. -/
def followChunks (chain : TokenChain) (head : Ordinal) (e : ChunkPosting) : Option MatchV3 :=
  if chain.ordinals.length = 1 then
    some (.unplaced e.docId e.position 1 chain.firstSti head head chain.firstSti e.position 0
      (chain.firstSti + chain.totalQueryConsumed))
  else
    match chain.ordinals.tail.foldlM ctx.chunkStep ⟨e.docId, e.position, head, e.position⟩ with
    | none => none
    | some a =>
      if ctx.hasPosition a.lastOrd a.docId a.lastPos then
        some (.unplaced a.docId a.firstPos (a.lastPos - a.firstPos + 1) chain.firstSti head
          a.lastOrd chain.firstSti a.lastPos 0 chain.lastConsumed)
      else none

/-- `chain.head()`: the first alternative of the first position. -/
def chainHead (chain : TokenChain) : Option Ordinal := chain.ordinals.head?.bind List.head?

/-- `resolve_chains_v3_posmap`. -/
def resolveChains (chains : List TokenChain) : List MatchV3 :=
  chains.flatMap fun chain =>
    match chainHead chain with
    | none => []
    | some head =>
      ((chain.ordinals.headD []).flatMap ctx.positions).filterMap (ctx.followChunks chain head)

/-! ## Chains of words -/

/-- What the forward scan from a word stops at. -/
structure WordStop where
  first : Nat
  last : Nat
  ord : Ordinal
  /-- A word of the word map. -/
  isWord : Bool
deriving DecidableEq, Repr

/-- `word_start_at`, with the word's last position. -/
def wordStartAt (doc pos : Nat) : Option WordPosting :=
  ctx.wordSfxpost.find? fun e => e.docId = doc && e.firstPosition = pos

/-- The loop of `step`: the next word or content chunk at or after `p`, over chunks of
separators. -/
def scanWord (doc : Nat) : Nat → Nat → Option WordStop
  | 0, _ => none
  | fuel + 1, p =>
    match ctx.wordStartAt doc p with
    | some e => some ⟨p, e.lastPosition, e.ordinal, true⟩
    | none =>
      match ctx.posmap.ordinalAt doc p with
      | none => none
      | some ord => if ctx.hasContent ord then some ⟨p, p, ord, false⟩
          else scanWord doc fuel (p + 1)

/-- A word chain followed so far. -/
structure WordActive where
  docId : Nat
  /-- What the chain last stopped at. -/
  stop : WordStop
deriving DecidableEq, Repr

/-- One word further; a scan never outruns the document's positions. -/
def wordStep (a : WordActive) (wanted : List Ordinal) : Option WordActive :=
  match ctx.scanWord a.docId ((ctx.posmap.slots a.docId).length + 1) (a.stop.last + 1) with
  | none => none
  | some stop => if stop.ord ∈ wanted then some ⟨a.docId, stop⟩ else none

/-- The places of a head: as a word, or as a chunk. -/
def headEntries (ord : Ordinal) : List WordPosting :=
  if ctx.wordEntries ord = [] then
    (ctx.positions ord).map fun e => ⟨ord, e.docId, e.position, e.position, 0⟩
  else ctx.wordEntries ord

/-- Where the last token's text starts in its chunk, if its posting is there. -/
def lastOffset (a : WordActive) : Option Nat :=
  if a.stop.isWord then
    (ctx.wordSfxpost.find? fun e =>
      e.ordinal = a.stop.ord && e.docId = a.docId && e.firstPosition = a.stop.first).map
      WordPosting.tailOff
  else if ctx.hasPosition a.stop.ord a.docId a.stop.last then some 0
  else none

/-- The match of a word chain from one place of its head. -/
def followWords (chain : TokenChain) (head : Ordinal) (e : WordPosting) : Option MatchV3 :=
  if chain.ordinals.length = 1 then
    some (.unplaced e.docId e.firstPosition (wordSpan e) chain.firstSti head head
      (e.tailOff + chain.firstSti) e.firstPosition e.tailOff
      (chain.firstSti + chain.totalQueryConsumed))
  else
    match chain.ordinals.tail.foldlM ctx.wordStep
        ⟨e.docId, e.firstPosition, e.lastPosition, head, true⟩ with
    | none => none
    | some a =>
      (ctx.lastOffset a).map fun off =>
        .unplaced a.docId e.firstPosition (a.stop.last - e.firstPosition + 1) chain.firstSti head
          a.stop.ord (e.tailOff + chain.firstSti) a.stop.first off chain.lastConsumed

/-- `resolve_word_chains_v3_wordmap_grouped`. -/
def resolveWordChains (chains : List TokenChain) : List MatchV3 :=
  chains.flatMap fun chain =>
    match chainHead chain with
    | none => []
    | some head =>
      if ctx.headInContent head chain.firstSti then
        ((chain.ordinals.headD []).flatMap ctx.headEntries).filterMap (ctx.followWords chain head)
      else []

end BriquesContext

end Lucivy.Briques
