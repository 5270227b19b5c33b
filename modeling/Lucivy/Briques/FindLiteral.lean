import Lucivy.Briques.Resolve

/-! # Finding a literal

`find_literal_v3` (`briques/composite.rs`): every place where a literal may stand. It is looked
up as part of one token, as a chain of chunks and, with separators relaxed, as a chain of words.
In strict mode a chain whose head takes at most half of the query is found from its second
token instead, the head being checked backwards. -/

namespace Lucivy.Briques

open Lucivy.Foundation Lucivy.Tokenizer Lucivy.SuffixFst
open String (utf8Len)

namespace BriquesContext

variable (ctx : BriquesContext)

/-- `may_have_long_words`: some word has suffixes that are not indexed. -/
def mayHaveLongWords : Bool :=
  ctx.termtexts.any fun t => t.info.isWordStripped && maxChunkBytes < t.info.ownLen - t.info.sepLen

/-- The chains of `second_token_anchored_v3` for what is left behind a head: the second token
holds all of it, or it is split at the end of the second token. -/
def secondTokenChains (rest : Text) : List TokenChain :=
  let ords := ((ctx.fstCandidates rest true true).filter fun c =>
    c.partition ≠ .stripped && c.sti = 0).map (·.ordinal)
  let splits := (ctx.fallingWalkChunks rest).filter (·.parent.sti = 0)
  (if ords = [] then [] else [⟨[ords], 0, utf8Len rest, utf8Len rest⟩]) ++
    ctx.buildChainsFromSplits ctx.chunkPipeline splits rest

/-- The step backwards: the chunk before the match ends with the head. -/
def checkHead (head : Text) (m : MatchV3) : Option MatchV3 :=
  if m.position = 0 then none
  else
    match ctx.posmap.ordinalAt m.docId (m.position - 1) with
    | none => none
    | some ord =>
      match ctx.entry ord with
      | none => none
      | some t =>
        let own := (cutBefore (min t.info.ownLen (utf8Len t.text)) t.text).1
        let sti := utf8Len own - utf8Len head
        if head.isSuffixOf (ctx.table.strToLowercase own) &&
            ctx.hasPosition ord m.docId (m.position - 1) then
          some (.unplaced m.docId (m.position - 1) (m.span + 1) sti ord m.lastOrdinal sti
            m.lastStartPos m.lastOff m.lastConsumed)
        else none

/-- `second_token_anchored_v3`: for every head of at most `half` bytes. -/
def secondTokenAnchored (query : Text) (half : Nat) : List MatchV3 :=
  let q := ctx.table.strToLowercase query
  (List.range' 1 half).flatMap fun h =>
    let cut := cutBefore h q
    if utf8Len cut.1 ≠ h || cut.2 = [] then []
    else (ctx.resolveChains (ctx.secondTokenChains cut.2)).filterMap (ctx.checkHead cut.1)

/-- The head splits of the chunk chains: with a `half`, only those that take more. -/
def chunkHeads (query : Text) (half : Nat) : List SplitCandidate :=
  if 0 < half then (ctx.fallingWalkChunks query).filter (half < ·.queryConsumed)
  else ctx.fallingWalkChunks query

/-- The head splits the sibling walk adds, from the candidates among the chunks. -/
def chunkExtraHeads (candidates : List FstCandidate) (query : Text) (half : Nat) :
    List SplitCandidate :=
  (splitsFromFstCandidates (candidates.filter (·.partition ≠ .stripped))
    (utf8Len (ctx.table.strToLowercase query))).filter fun s =>
      s.parent.isWordStart && s.parent.sepLen ≠ 0 && !(0 < half && s.queryConsumed ≤ half)

def chunkChains (query : Text) (candidates : List FstCandidate) (half : Nat)
    (strictSeparators : Bool) : List TokenChain :=
  ctx.buildChainsFromSplits ctx.chunkPipeline (ctx.chunkHeads query half) query ++
    ctx.siblingChainDfs (ctx.chunkHeads query half ++ ctx.chunkExtraHeads candidates query half)
      query strictSeparators

def wordChains (query : Text) (candidates : List FstCandidate) : List TokenChain :=
  let extra := (splitsFromFstCandidates candidates
    (utf8Len (ctx.table.strToLowercase query))).filter (·.parent.sepLen ≠ 0)
  ctx.buildChainsFromSplits ctx.wordPipeline (ctx.fallingWalkWords query) query ++
    ctx.siblingChainDfs (sortAndDedupSplits (ctx.fallingWalkWords query ++ extra)) query false

/-- An anchored chain starts its first token. -/
def anchored (anchorStart : Bool) (chains : List TokenChain) : List TokenChain :=
  if anchorStart then chains.filter (·.firstSti = 0) else chains

/-- With separators relaxed, a head that starts behind its content is left out. -/
def headsInContent (strictSeparators : Bool) (chains : List TokenChain) : List TokenChain :=
  if strictSeparators then chains
  else chains.filter fun chain =>
    match chainHead chain with
    | none => true
    | some head => ctx.headInContent head chain.firstSti

/-- The order of matches: by document, then by position. -/
def matchLe (a b : MatchV3) : Bool := lexLe [a.docId, a.position] [b.docId, b.position]

/-- `find_literal_v3`. -/
def findLiteral (query : Text) (anchorStart strictSeparators : Bool) : List MatchV3 :=
  let candidates := ctx.fstCandidates query anchorStart strictSeparators
  let half := if strictSeparators then utf8Len query / 2 else 0
  let singles := ctx.resolveSingle candidates (utf8Len query) ++
    ctx.resolveSingleWord candidates (utf8Len query)
  let chunks := if !strictSeparators && !ctx.mayHaveLongWords then []
    else ctx.resolveChains (ctx.headsInContent strictSeparators
      (anchored anchorStart (ctx.chunkChains query candidates half strictSeparators)))
  let second := if 0 < half then ctx.secondTokenAnchored query half else []
  let words := if strictSeparators then []
    else ctx.resolveWordChains (anchored anchorStart (ctx.wordChains query candidates))
  (singles ++ chunks ++ second ++ words).insertionSort fun a b => matchLe a b

end BriquesContext

end Lucivy.Briques
