import Lucivy.Briques.Resolve

/-! # Text rebuilt from positions

`rebuild_window_src` and `rebuild_window_opts` (`briques/composite.rs`): the text around a match,
put together from the chunks at its positions. A window carries, for every character, the source
offset and length of the character it was lowercased from, and says whether it was cut at
either end. -/

namespace Lucivy.Briques

open Lucivy.Foundation Lucivy.Tokenizer Lucivy.SuffixFst
open String (utf8Len)

/-- A character of a window: itself, and the character of the source it comes from. -/
structure WinChar where
  char : Char
  /-- Byte offset of its source character. -/
  src : Nat
  /-- Byte length of its source character. -/
  len : Nat
deriving DecidableEq, Repr

/-- The text of a window. -/
def winText (w : List WinChar) : Text := w.map WinChar.char

/-- A window of `rebuild_window_opts`: its characters, and whether it was cut. -/
structure Window where
  chars : List WinChar
  /-- There is text before it. -/
  cutStart : Bool
  /-- There is text behind it. -/
  cutEnd : Bool
deriving DecidableEq, Repr

namespace BriquesContext

variable (ctx : BriquesContext)

/-- The own bytes of the token at a position. -/
def ownTextAt (doc pos : Nat) : Option Text :=
  match ctx.posmap.ordinalAt doc pos with
  | none => none
  | some ord =>
      (ctx.entry ord).map fun t => (cutBefore (min t.info.ownLen (utf8Len t.text)) t.text).1

/-- The tokens from a position on, up to the first empty slot, at most `n`. -/
def textsFrom (doc : Nat) : Nat → Nat → List Text
  | 0, _ => []
  | n + 1, pos =>
    match ctx.ownTextAt doc pos with
    | none => []
    | some t => t :: textsFrom doc n (pos + 1)

/-- `rebuild_window_src`: the lowercased text from `margin` positions before a match to as many
behind it, and whether its source is ASCII; the walk ends at the first empty slot. -/
def rebuildWindowSrc (doc firstPos lastPos margin : Nat) (stripSeparators : Bool) :
    Option (Text × Bool) :=
  let start := firstPos - margin
  let texts := ctx.textsFrom doc (lastPos + margin + 1 - start) start
  let kept := if stripSeparators then texts.flatten.filter isContentChar else texts.flatten
  if kept = [] then none
  else some (ctx.table.lowerChars kept, texts.flatten.all (·.toNat ≤ 127))

/-- The bytes of a token that count towards a margin. -/
def marginBytes (stripSeparators : Bool) (t : Text) : Nat :=
  if stripSeparators then utf8Len (t.filter isContentChar) else utf8Len t

/-- The loop to the left: tokens before position `pos`, until there are `margin` bytes, `fuel`
positions are used up or a slot is empty. Gives the first position and the tokens, in order. -/
def extendLeft (doc : Nat) (stripSeparators : Bool) :
    Nat → Nat → Nat → List Text → Nat × List Text
  | 0, pos, _, acc => (pos, acc)
  | _ + 1, 0, _, acc => (0, acc)
  | fuel + 1, pos + 1, margin, acc =>
    if margin = 0 then (pos + 1, acc)
    else
      match ctx.ownTextAt doc pos with
      | none => (pos + 1, acc)
      | some t => extendLeft doc stripSeparators fuel pos
          (margin - marginBytes stripSeparators t) (t :: acc)

/-- The loop to the right: tokens from position `pos` on. Gives the position behind the last and
the tokens. -/
def extendRight (doc : Nat) (stripSeparators : Bool) :
    Nat → Nat → Nat → Nat × List Text
  | 0, pos, _ => (pos, [])
  | fuel + 1, pos, margin =>
    if margin = 0 then (pos, [])
    else
      match ctx.ownTextAt doc pos with
      | none => (pos, [])
      | some t =>
        let rest := extendRight doc stripSeparators fuel (pos + 1)
          (margin - marginBytes stripSeparators t)
        (rest.1, t :: rest.2)

/-- The characters of a window: each source character at its offset, as it is or lowercased. -/
def windowChars (stripSeparators lowercase : Bool) (base : Nat) (t : Text) : List WinChar :=
  ((offsets base t).filter fun p => !stripSeparators || isContentChar p.2).flatMap fun p =>
    (if lowercase then ctx.table.lower p.2 else [p.2]).map fun c => ⟨c, p.1, p.2.utf8Size⟩

/-- `rebuild_window_opts`: the tokens of a match, extended on both sides to at least `margin`
bytes over at most `maxExtra` positions. -/
def rebuildWindowOpts (doc firstPos lastPos margin : Nat) (stripSeparators lowercase : Bool)
    (maxExtra : Nat) : Option Window :=
  let own := ctx.textsFrom doc (lastPos + 1 - firstPos) firstPos
  if own = [] then none
  else
    let left := ctx.extendLeft doc stripSeparators maxExtra firstPos margin []
    let right := ctx.extendRight doc stripSeparators maxExtra (firstPos + own.length) margin
    match ctx.byteAt doc left.1 with
    | none => none
    | some base =>
      let chars := ctx.windowChars stripSeparators lowercase base (left.2 ++ own ++ right.2).flatten
      if chars = [] then none
      else some ⟨chars, 0 < left.1, (ctx.posmap.ordinalAt doc right.1).isSome⟩

end BriquesContext

end Lucivy.Briques
