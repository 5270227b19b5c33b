import Lucivy.Briques.Context
import Lucivy.Foundation.SortDedup

/-! # Walking the suffix FST

`briques/fst_walk.rs`: a query is looked up in the FST as a whole (`fst_candidates_v3`), it is
split where a token ends inside it (`falling_walk_*`), and what is left behind a split is looked
up again from the start of the next token (`build_chains_from_splits`) or followed along the
sibling table (`sibling_chain_dfs`). A chain lists, position by position, the tokens that could
stand there.

Byte offsets into the query are those of the source; a remainder is what is left of the query
behind one. Alternatives at a position are a list read as a set. -/

namespace Lucivy.Briques

open Lucivy.Foundation Lucivy.Tokenizer Lucivy.SuffixFst
open String (utf8Len)

def maxChainDepth : Nat := 8

/-- `FstCandidateV3`. -/
structure FstCandidate extends ParentEntry where
  partition : Partition
deriving DecidableEq, Repr

/-- `SplitCandidateV3`: the query reaches the end of a token. -/
structure SplitCandidate where
  /-- Bytes of the query the token takes. -/
  queryConsumed : Nat
  parent : ParentEntry
  /-- Where the next token starts in the query. -/
  remainderStart : Nat
  /-- Bytes of the overlap that agreed. -/
  overlapValidated : Nat
deriving DecidableEq, Repr

/-- `TokenChainV3`. -/
structure TokenChain where
  /-- The tokens that may stand at each position. -/
  ordinals : List (List Ordinal)
  /-- Where the query starts in the first token. -/
  firstSti : Nat
  /-- Bytes of the query the chain takes. -/
  totalQueryConsumed : Nat
  /-- Bytes of the query its last position takes. -/
  lastConsumed : Nat
deriving DecidableEq, Repr

namespace BriquesContext

variable (ctx : BriquesContext)

/-! ## Candidates -/

def candidatePartitions (anchorStart strictSeparators : Bool) : List Partition :=
  match anchorStart, strictSeparators with
  | true, true => [.si0]
  | true, false => [.si0, .stripped]
  | false, true => [.si0, .siRest]
  | false, false => [.si0, .siRest, .stripped]

/-- The key is a proper beginning of the query, and the rest of the query begins the bytes the
token borrows from the next. -/
def overlapHolds (q : Text) (e : FstEntry) : Bool :=
  let tail := q.drop e.key.length
  e.key ≠ [] && e.key.isPrefixOf q && tail ≠ [] && utf8Len tail ≤ maxOverlapBytes &&
    tail.isPrefixOf e.parent.overlap

/-- `fst_candidates_in_partition`: the keys that begin with the query, then those the query
runs past into the overlap. -/
def fstCandidatesInPartition (query : Text) (p : Partition) : List FstCandidate :=
  let q := ctx.table.strToLowercase query
  let mine := ctx.fst.filter (·.partition = p)
  ((mine.filter fun e => q.isPrefixOf e.key) ++ mine.filter (overlapHolds q)).map fun e =>
    ⟨e.parent, p⟩

/-- `fst_candidates_v3`; anchored, a word-stripped candidate starts its word. -/
def fstCandidates (query : Text) (anchorStart strictSeparators : Bool) : List FstCandidate :=
  let found := (candidatePartitions anchorStart strictSeparators).flatMap
    (ctx.fstCandidatesInPartition query)
  if anchorStart then found.filter fun c => c.partition ≠ .stripped || c.sti = 0 else found

/-! ## Splits -/

/-- `split_at_boundary`: the key ends where the token does, and the query goes on past the
borrowed bytes. -/
def splitAtBoundary (parent : ParentEntry) (prefixLen splitByte : Nat) (remainder : Text) :
    Option SplitCandidate :=
  if prefixLen ≠ splitByte then none
  else if utf8Len remainder ≤ utf8Len parent.overlap || !parent.overlap.isPrefixOf remainder then
    none
  else some ⟨splitByte, parent, splitByte, utf8Len parent.overlap⟩

/-- `walk_partition`: `check` at every key the query begins with. -/
def walkPartition (q : Text) (p : Partition)
    (check : ParentEntry → Nat → Text → Option SplitCandidate) : List SplitCandidate :=
  ctx.fst.filterMap fun e =>
    if e.partition = p && e.key ≠ [] && e.key.isPrefixOf q then
      check e.parent (utf8Len e.key) (q.drop e.key.length)
    else none

/-- What a chunk splits. -/
def chunkSplit (parent : ParentEntry) (prefixLen : Nat) (remainder : Text) :
    Option SplitCandidate :=
  if parent.ownLen ≤ parent.sti then none
  else if remainder = [] then none
  else splitAtBoundary parent prefixLen (parent.ownLen - parent.sti) remainder

/-- What a word splits: the query goes on behind its content. -/
def wordSplit (parent : ParentEntry) (prefixLen : Nat) (remainder : Text) :
    Option SplitCandidate :=
  if parent.sepLen = 0 then none
  else if remainder = [] then none
  else if parent.contentLen - parent.sti = 0 then none
  else splitAtBoundary parent prefixLen (parent.contentLen - parent.sti) remainder

/-- The order of splits: by bytes taken, then by bytes agreed, the most first. -/
def splitLe (a b : SplitCandidate) : Bool :=
  lexLe [b.queryConsumed, b.overlapValidated] [a.queryConsumed, a.overlapValidated]

/-- Two splits that count as one. -/
def sameSplit (a b : SplitCandidate) : Bool :=
  a.parent.ordinal = b.parent.ordinal && a.parent.sti = b.parent.sti &&
    a.queryConsumed = b.queryConsumed

def sortAndDedupSplits (splits : List SplitCandidate) : List SplitCandidate :=
  sortDedup splitLe sameSplit splits

def fallingWalkChunks (query : Text) : List SplitCandidate :=
  let q := ctx.table.strToLowercase query
  sortAndDedupSplits (ctx.walkPartition q .si0 chunkSplit ++ ctx.walkPartition q .siRest chunkSplit)

def fallingWalkWords (query : Text) : List SplitCandidate :=
  let q := ctx.table.strToLowercase query
  sortAndDedupSplits (ctx.walkPartition q .stripped wordSplit)

/-- `splits_from_fst_candidates`: a candidate whose content ends inside the query. -/
def splitsFromFstCandidates (candidates : List FstCandidate) (queryLen : Nat) :
    List SplitCandidate :=
  candidates.filterMap fun c =>
    let splitByte := c.contentLen - c.sti
    if splitByte = 0 || queryLen ≤ splitByte then none
    else some ⟨splitByte, c.toParentEntry, splitByte, queryLen - splitByte⟩

/-! ## Chains from splits -/

/-- A group of alternatives for the next position: the tokens, what they take, where the rest
starts. -/
structure Group where
  ordinals : List Ordinal
  consumed : Nat
  remStart : Nat
deriving DecidableEq, Repr

/-- The groups the chain builder makes of the splits of a remainder: one for each number of
bytes taken on the chunk pipeline, a single one with the most bytes taken on the word pipeline. -/
def splitGroups (filterBestConsumed : Bool) (splits : List SplitCandidate) : List Group :=
  if filterBestConsumed then
    (splits.splitBy fun a b => a.queryConsumed == b.queryConsumed).filterMap fun run =>
      run.head?.map fun s => ⟨run.map (·.parent.ordinal), s.queryConsumed, s.remainderStart⟩
  else
    splits.head?.toList.map fun best =>
      ⟨splits.map (·.parent.ordinal), best.queryConsumed, best.remainderStart⟩

/-- Which pipeline a chain is built on. -/
structure Pipeline where
  /-- The falling walk over its partitions. -/
  walk : Text → List SplitCandidate
  /-- The candidates of a remainder keep to the chunks. -/
  strictSepForCandidates : Bool
  /-- One branch for each number of bytes taken. -/
  filterBestConsumed : Bool

def chunkPipeline : Pipeline := ⟨ctx.fallingWalkChunks, true, true⟩

def wordPipeline : Pipeline := ⟨ctx.fallingWalkWords, false, false⟩

/-- The loop of `build_chains_from_splits` over one head: `positions` so far, `rem` left of the
query, at most `fuel` positions more. A remainder some token begins with ends a chain, and
splits of it that start their token go on. -/
def chainsFrom (pipe : Pipeline) (firstSti total : Nat) :
    Nat → List (List Ordinal) → Text → Nat → List TokenChain
  | 0, positions, rem, last => if rem = [] then [⟨positions, firstSti, total, last⟩] else []
  | fuel + 1, positions, rem, last =>
    if rem = [] then [⟨positions, firstSti, total, last⟩]
    else
      let hits := (ctx.fstCandidates rem true pipe.strictSepForCandidates).map (·.ordinal)
      let groups := splitGroups pipe.filterBestConsumed ((pipe.walk rem).filter (·.parent.sti = 0))
      (if hits = [] then [] else [⟨positions ++ [hits], firstSti, total, utf8Len rem⟩]) ++
        groups.flatMap fun g =>
          chainsFrom pipe firstSti total fuel (positions ++ [g.ordinals])
            (cutAfter g.remStart rem).2 g.consumed

def buildChainsFromSplits (pipe : Pipeline) (splits : List SplitCandidate) (query : Text) :
    List TokenChain :=
  splits.flatMap fun s =>
    let rest := (cutAfter s.remainderStart (ctx.table.strToLowercase query)).2
    if rest = [] then [⟨[[s.parent.ordinal]], s.parent.sti, s.queryConsumed, s.queryConsumed⟩]
    else ctx.chainsFrom pipe s.parent.sti (utf8Len query) maxChainDepth [[s.parent.ordinal]] rest
      s.queryConsumed

/-! ## Chains along the sibling table -/

/-- `siblings`: what follows a token somewhere. -/
def siblings (ord : Ordinal) : List Ordinal :=
  ctx.sibling.filterMap fun p => if p.1 = ord then some p.2 else none

/-- How much of the next token the query must cover to step onto it: all its own bytes in
strict mode, its content otherwise. -/
def nextContent (strictSeparators : Bool) (next : Ordinal) : Option Text :=
  (ctx.entry next).map fun t =>
    let lower := ctx.table.strToLowercase t.text
    let stepLen := if strictSeparators then t.info.ownLen else t.info.ownLen - t.info.sepLen
    if 0 < stepLen && stepLen < utf8Len lower then (cutAfter stepLen lower).1 else lower

/-- The loop of `sibling_chain_dfs` over one head. -/
def siblingChainsFrom (strictSeparators : Bool) (firstSti total : Nat) :
    Nat → Ordinal → Text → List (List Ordinal) → List TokenChain
  | 0, _, _, _ => []
  | fuel + 1, cur, rem, chain =>
    (ctx.siblings cur).flatMap fun next =>
      match ctx.nextContent strictSeparators next with
      | none => []
      | some content =>
        if rem.isPrefixOf content then
          [⟨chain ++ [[next]], firstSti, total, utf8Len rem⟩]
        else if content.isPrefixOf rem then
          siblingChainsFrom strictSeparators firstSti total fuel next
            (rem.drop content.length) (chain ++ [[next]])
        else []

def siblingChainDfs (splits : List SplitCandidate) (query : Text) (strictSeparators : Bool) :
    List TokenChain :=
  let q := ctx.table.strToLowercase query
  splits.flatMap fun s =>
    let rest := (cutAfter s.remainderStart q).2
    if rest = [] then [⟨[[s.parent.ordinal]], s.parent.sti, s.queryConsumed, s.queryConsumed⟩]
    else ctx.siblingChainsFrom strictSeparators s.parent.sti (utf8Len q) maxChainDepth
      s.parent.ordinal rest [[s.parent.ordinal]]

end BriquesContext

end Lucivy.Briques
