import Lucivy.Briques.FindLiteral
import Lucivy.Briques.Window

/-! # Substring search

`contains_v3` (`briques/orchestrator.rs`): the literal is found, every match is given its byte
span, one match is kept for each occurrence, and what is kept is checked on the rebuilt text —
that it holds the query, and in the anchored and exact modes that it stands between word
boundaries. -/

namespace Lucivy.Briques

open Lucivy.Foundation Lucivy.Tokenizer Lucivy.SuffixFst
open String (utf8Len)

def maxQueryLen : Nat := 2048

/-- `effective_query`: what is searched, if anything. -/
def effectiveQuery (query : Text) (strictSeparators : Bool) : Option Text :=
  if query = [] || maxQueryLen < utf8Len query then none
  else if strictSeparators then some query
  else
    let stripped := query.filter isContentChar
    if stripped = [] then none else some stripped

namespace BriquesContext

variable (ctx : BriquesContext)

/-! ## Byte spans -/

/-- `place_spans` on one match; one that cannot be placed keeps its zeros. -/
def placeSpan (m : MatchV3) : MatchV3 :=
  match ctx.byteAt m.docId m.position,
      (if m.lastStartPos = m.position then ctx.byteAt m.docId m.position
        else ctx.byteAt m.docId m.lastStartPos), ctx.info m.lastOrdinal with
  | some first, some lastChunk, some info =>
    let byteFrom := first + m.firstOff
    let lastStart := lastChunk + m.lastOff
    let tokenEnd := lastStart + (info.ownLen - info.sepLen)
    let stop := lastStart + m.lastConsumed
    if info.isWordStripped then
      { m with
        byteFrom := byteFrom
        tokenEnd := tokenEnd
        byteTo := max (min stop tokenEnd) byteFrom
        overlapOverflow := min (stop - tokenEnd) 255 }
    else
      { m with
        byteFrom := byteFrom
        tokenEnd := tokenEnd
        byteTo := max stop byteFrom
        overlapOverflow := 0 }
  | _, _, _ => m

/-- The first position at or after `p` whose chunk has content, up to an empty slot. -/
def nextContentPos (doc : Nat) : Nat → Nat → Option Nat
  | 0, _ => none
  | fuel + 1, p =>
    match ctx.posmap.ordinalAt doc p with
    | none => none
    | some ord => if ctx.hasContent ord then some p else nextContentPos doc fuel (p + 1)

/-- `place_overlap_overflow` on one match: what runs past a word ends in the next one. -/
def placeOverflow (m : MatchV3) : MatchV3 :=
  if m.overlapOverflow = 0 then m
  else
    match (ctx.nextContentPos m.docId ((ctx.posmap.slots m.docId).length + 1)
        (m.position + m.span)).bind (ctx.byteAt m.docId) with
    | none => m
    | some start => { m with byteTo := start + m.overlapOverflow, overlapOverflow := 0 }

/-! ## One match for each occurrence -/

/-- What tells two occurrences apart; a match without bytes keeps its position. -/
def occurrenceKey (m : MatchV3) : List Nat :=
  [m.docId, m.byteFrom, m.byteTo, if m.byteFrom < m.byteTo then 0 else m.position + 1]

def dedupOccurrences (found : List MatchV3) : List MatchV3 :=
  (sortDedup (fun a b => lexLe (occurrenceKey a ++ [a.position]) (occurrenceKey b ++ [b.position]))
    (fun a b => occurrenceKey a == occurrenceKey b) found).insertionSort fun a b =>
      lexLe [a.docId, a.position, a.byteFrom] [b.docId, b.position, b.byteFrom]

/-! ## The check on the text -/

/-- What is looked for in the windows. -/
def needleOf (query : Text) (strictSeparators : Bool) : Text :=
  ctx.table.lowerChars (if strictSeparators then query else query.filter isContentChar)

/-- The last position of a match. -/
def lastPosition (m : MatchV3) : Nat := m.position + (m.span - 1)

/-- The ends of a list that begin with the needle, each an occurrence. -/
def occurrencesIn {α : Type} (charOf : α → Char) (needle : Text) (w : List α) : List (List α) :=
  w.tails.filter fun s => needle.isPrefixOf (s.map charOf)

/-- Bytes of the source characters of a window; characters with one source count once. -/
def sourceLen : Option Nat → List WinChar → Nat
  | _, [] => 0
  | seen, c :: w => (if some c.src = seen then 0 else c.len) + sourceLen (some c.src) w

/-- The span of an occurrence in the source. -/
def occurrenceSpan (needle : Text) (s : List WinChar) : Option (Nat × Nat) :=
  match s.head?, s[needle.length - 1]? with
  | some first, some last => some (first.src, last.src + last.len)
  | _, _ => none

/-- How far two numbers are apart. -/
def apart (a b : Nat) : Nat := (a - b) + (b - a)

/-- The span nearest to a byte, the first of equals. -/
def nearest (byteFrom : Nat) (spans : List (Nat × Nat)) : Option (Nat × Nat) :=
  spans.foldl (fun best s =>
    match best with
    | none => some s
    | some b => if apart s.1 byteFrom < apart b.1 byteFrom then some s else some b) none

/-- The match moved to the occurrence of the needle nearest to it. -/
def replaceSpan (needle : Text) (w : List WinChar) (m : MatchV3) : MatchV3 :=
  match nearest m.byteFrom
      ((occurrencesIn WinChar.char needle w).filterMap (occurrenceSpan needle)) with
  | none => m
  | some s => { m with byteFrom := s.1, byteTo := s.2 }

/-- `verify_literal` on one match: dropped if its window lacks the needle; moved if the window
changed its length when lowercased. -/
def verifyOne (needle : Text) (strip : Bool) (m : MatchV3) : Option MatchV3 :=
  match ctx.rebuildWindowSrc m.docId m.position (lastPosition m) 1 strip with
  | none => some m
  | some (window, ascii) =>
    if occurrencesIn id needle window = [] then none
    else if ascii then some m
    else
      match ctx.rebuildWindowOpts m.docId m.position (lastPosition m) 1 strip true 64 with
      | none => some m
      | some w =>
        if sourceLen none w.chars = utf8Len (winText w.chars) then some m
        else some (replaceSpan needle w.chars m)

/-- `verify_literal`: matches that were moved are deduplicated again. -/
def verifyLiteral (query : Text) (strictSeparators : Bool) (found : List MatchV3) :
    List MatchV3 :=
  let needle := ctx.needleOf query strictSeparators
  if needle = [] then found
  else
    let checked := found.filterMap (ctx.verifyOne needle (!strictSeparators))
    let refolded := found.any fun m =>
      (ctx.verifyOne needle (!strictSeparators) m).any fun m' =>
        m'.byteFrom ≠ m.byteFrom || m'.byteTo ≠ m.byteTo
    if refolded then dedupOccurrences checked else checked

/-! ## Word boundaries -/

/-- Where an occurrence stands in a window: its first character and the one behind it. -/
structure Place where
  /-- Index of its first character. -/
  first : Nat
  /-- Index behind its last character. -/
  stop : Nat
deriving DecidableEq, Repr

/-- The characters of a window that count, with their indices. -/
def view (strip : Bool) (w : List WinChar) : List (WinChar × Nat) :=
  w.zipIdx.filter fun p => !strip || isContentChar p.1.char

/-- The place of an occurrence in the view. -/
def placeOf (needle : Text) (s : List (WinChar × Nat)) : Option Place :=
  match s.head?, s[needle.length - 1]? with
  | some first, some last => some ⟨first.2, last.2 + 1⟩
  | _, _ => none

/-- The occurrence a match reports: the one at its first byte, or else the first. -/
def reported (needle : Text) (strip : Bool) (byteFrom : Nat) (w : List WinChar) : Option Place :=
  let occs := occurrencesIn (·.1.char) needle (view strip w)
  ((occs.find? fun s => s.head?.map (·.1.src) = some byteFrom).or occs.head?).bind (placeOf needle)

/-- No content character stands there; at the edge of the window, the text ends there. -/
def isBoundary (c : Option WinChar) (cut : Bool) : Bool :=
  match c with
  | none => !cut
  | some c => !isContentChar c.char

/-- `verify_boundaries` on one match. -/
def keepsBoundaries (needle : Text) (strip anchorStart exactMatch : Bool) (m : MatchV3) : Bool :=
  match ctx.rebuildWindowOpts m.docId m.position (lastPosition m) 1 false true 64 with
  | none => true
  | some w =>
    match reported needle strip m.byteFrom w.chars with
    | none => false
    | some place =>
      let startsWord := isBoundary (w.chars.take place.first).getLast? w.cutStart
      let endsWord := isBoundary w.chars[place.stop]? w.cutEnd
      (!anchorStart || startsWord) && (!exactMatch || startsWord && endsWord)

def verifyBoundaries (query : Text) (strictSeparators anchorStart exactMatch : Bool)
    (found : List MatchV3) : List MatchV3 :=
  let needle := ctx.needleOf query strictSeparators
  if needle = [] then found
  else found.filter (ctx.keepsBoundaries needle (!strictSeparators) anchorStart exactMatch)

/-! ## The search -/

/-- The occurrences a search finds, before their boundaries are looked at. -/
def occurrencesFound (query : Text) (anchorStart strictSeparators : Bool) : List MatchV3 :=
  let found := (ctx.findLiteral query anchorStart strictSeparators).map fun m =>
    ctx.placeOverflow (ctx.placeSpan m)
  ctx.verifyLiteral query strictSeparators (dedupOccurrences found)

def containsV3 (query : Text) (anchorStart exactMatch strictSeparators : Bool) : List MatchV3 :=
  match effectiveQuery query strictSeparators with
  | none => []
  | some q =>
    let found := ctx.occurrencesFound q anchorStart strictSeparators
    if anchorStart || exactMatch then
      ctx.verifyBoundaries q strictSeparators anchorStart exactMatch found
    else found

end BriquesContext

end Lucivy.Briques
