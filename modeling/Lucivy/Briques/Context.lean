import Lucivy.SuffixFst.BuilderV3
import Lucivy.SuffixFst.PosMap

/-! # The files of a segment

`BriquesContext` (`briques/context.rs`): what a query reads of a segment the collector and the
builder have written.

* `BriquesContext.ofCollection` — the segment of a collection. -/

namespace Lucivy.Briques

open Lucivy.Foundation Lucivy.Tokenizer Lucivy.SuffixFst

/-- `BriquesContext`, every file present. -/
structure BriquesContext where
  /-- How the process lowercases. -/
  table : CaseTable
  /-- `.sfx`: the suffix FST. -/
  fst : List FstEntry
  /-- `.sfxpost`: where the chunks stand. -/
  sfxpost : List ChunkPosting
  /-- `.posmap`: the chunk at a position. -/
  posmap : PosMap
  /-- `.word_sfxpost`: where the words stand. -/
  wordSfxpost : List WordPosting
  /-- `.sibling_v3`: what follows what. -/
  sibling : List (Ordinal × Ordinal)
  /-- `.termtexts`: text and meta of every ordinal. -/
  termtexts : List Token

namespace BriquesContext

/-- The segment written for a collection of documents. -/
def ofCollection (table : CaseTable) (docs : List (List Text)) : BriquesContext :=
  let c := Collector.collect docs
  { table := table
    fst := buildFst table c
    sfxpost := c.postings
    posmap := .ofPostings c.postings
    wordSfxpost := c.wordPostings
    sibling := c.siblingPairs
    termtexts := c.tokens }

variable (ctx : BriquesContext)

/-- The `.termtexts` entry of an ordinal. -/
def entry (ord : Ordinal) : Option Token := ctx.termtexts.find? (·.ordinal = ord)

/-- `termtexts.meta`. -/
def info (ord : Ordinal) : Option TokenMeta := (ctx.entry ord).map Token.info

def byteAt (doc pos : Nat) : Option Nat :=
  ctx.posmap.byteAt (fun ord => (ctx.info ord).map TokenMeta.ownLen) doc pos

end BriquesContext

end Lucivy.Briques
