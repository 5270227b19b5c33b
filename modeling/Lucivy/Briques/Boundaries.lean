import Lucivy.Briques.Layout
import Lucivy.Briques.Orchestrator

/-! # Word boundaries of an occurrence

`verify_boundaries` reads the characters around an occurrence on a window rebuilt from
positions. At the end of the window it asks whether the value goes on; at the start it asks
whether the position is the document's first.

* `Occurrence` — a query in a value, with the text around it.
* `Reports` — a match stands for an occurrence.
* `keepsBoundaries_eq` — what the check answers for such a match.
* `kept_iff_at_boundaries` — it answers rightly but for an occurrence that begins a value other
  than the document's first. -/

namespace Lucivy.Briques

open Lucivy.Foundation Lucivy.Tokenizer Lucivy.SuffixFst List
open String (utf8Len utf8Len_nil utf8Len_append)

namespace BriquesContext

/-! ## The characters of a window -/

section WindowChars

variable (ctx : BriquesContext) (strip lowercase : Bool)

theorem windowChars_append (base : Nat) (t u : Text) :
    ctx.windowChars strip lowercase base (t ++ u) =
      ctx.windowChars strip lowercase base t ++
        ctx.windowChars strip lowercase (base + utf8Len t) u := by
  rw [windowChars, offsets_append, filter_append, flatMap_append]
  rfl

theorem src_of_mem_windowChars {base : Nat} {t : Text} {w : WinChar}
    (h : w ∈ ctx.windowChars strip lowercase base t) :
    base ≤ w.src ∧ w.src < base + utf8Len t := by
  obtain ⟨p, hp, hw⟩ := mem_flatMap.mp h
  obtain ⟨c, -, rfl⟩ := mem_map.mp hw
  exact lt_of_mem_offsets (mem_of_mem_filter hp)

/-- One character, kept whole. -/
theorem windowChars_singleton (base : Nat) (c : Char) :
    ctx.windowChars false true base [c] =
      (ctx.table.lower c).map fun d => ⟨d, base, c.utf8Size⟩ := by
  simp [windowChars, offsets]

/-- The text of a window is the source lowercased. -/
theorem winText_windowChars (base : Nat) (t : Text) :
    winText (ctx.windowChars false true base t) = ctx.table.lowerChars t := by
  induction t generalizing base with
  | nil => rfl
  | cons c t ih =>
    rw [← singleton_append, windowChars_append, winText, map_append, ← winText,
      ← winText, ih, windowChars_singleton, winText]
    simp [Function.comp_def]

/-- The first character of a window is content as its source is. -/
theorem windowChars_cons (base : Nat) (c : Char) (t : Text) : ∃ d ds,
    ctx.windowChars false true base (c :: t) = d :: ds ∧ d.src = base ∧
      isContentChar d.char = isContentChar c := by
  obtain ⟨d, ds, hd⟩ := exists_cons_of_ne_nil (ctx.table.lower_ne c)
  rw [← singleton_append, windowChars_append, windowChars_singleton, hd]
  exact ⟨_, _, rfl, rfl, CaseTable.isContentChar_of_mem_lower (hd ▸ mem_cons_self ..)⟩

/-- So is the last one. -/
theorem windowChars_concat (base : Nat) (t : Text) (c : Char) : ∃ ds d,
    ctx.windowChars false true base (t ++ [c]) = ds ++ [d] ∧
      isContentChar d.char = isContentChar c := by
  obtain ⟨ds, d, hd⟩ := (eq_nil_or_concat' _).resolve_left (ctx.table.lower_ne c)
  rw [windowChars_append, windowChars_singleton, hd, map_append, ← append_assoc]
  exact ⟨_, _, rfl, CaseTable.isContentChar_of_mem_lower (hd ▸ mem_append_right _ mem_cons_self)⟩

/-- The first character behind a place in the source, and its content. -/
theorem isBoundary_head? (base : Nat) (t : Text) (cut : Bool) :
    isBoundary (ctx.windowChars false true base t).head? cut = match t.head? with
      | none => !cut
      | some c => !isContentChar c := by
  cases t with
  | nil => rfl
  | cons c t =>
    obtain ⟨d, ds, hd, -, hcontent⟩ := windowChars_cons ctx base c t
    simp [isBoundary, hd, hcontent]

/-- The last character before a place in the source, and its content. -/
theorem isBoundary_getLast? (base : Nat) (t : Text) (cut : Bool) :
    isBoundary (ctx.windowChars false true base t).getLast? cut = match t.getLast? with
      | none => !cut
      | some c => !isContentChar c := by
  rcases eq_nil_or_concat' t with rfl | ⟨t, c, rfl⟩
  · rfl
  · obtain ⟨ds, d, hd, hcontent⟩ := windowChars_concat ctx base t c
    simp [isBoundary, hd, hcontent]

end WindowChars

/-! ## Finding the occurrence in a window -/

theorem find?_tails_append {α : Type*} {p : List α → Bool} {front : List α} (rest : List α)
    (h : ∀ a ∈ front, ∀ l, p (a :: l) = false) :
    (front ++ rest).tails.find? p = rest.tails.find? p := by
  induction front with
  | nil => rfl
  | cons a front ih =>
    rw [cons_append, tails_cons, find?_cons_of_neg
      (by rw [h a mem_cons_self]; exact Bool.false_ne_true)]
    exact ih (forall_mem_cons.mp h).2

/-- The characters of a window that count, part by part. -/
theorem view_append (strip : Bool) (w w' : List WinChar) :
    view strip (w ++ w') = view strip w ++
      (w'.zipIdx w.length).filter fun p => !strip || isContentChar p.1.char := by
  rw [view, zipIdx_append, filter_append, zero_add]
  rfl

/-- The characters of the view are those of the window that count. -/
theorem map_char_view (strip : Bool) (w : List WinChar) (n : Nat) :
    ((w.zipIdx n).filter fun p => !strip || isContentChar p.1.char).map (·.1.char) =
      (winText w).filter fun c => !strip || isContentChar c := by
  conv_rhs => rw [winText, ← zipIdx_map_fst n w, map_map, filter_map]
  rfl

/-- A text that is not empty and, with the separators taken out, begins and ends with content. -/
structure Spans (strip : Bool) (occ : Text) : Prop where
  ne_nil : occ ≠ []
  /-- It begins with content. -/
  head : strip = true → ∀ c ∈ occ.head?, isContentChar c = true
  /-- It ends with content. -/
  last : strip = true → ∀ c ∈ occ.getLast?, isContentChar c = true

variable {ctx : BriquesContext} {strip : Bool} {occ : Text}

/-- What is looked for when a text is an occurrence. -/
def needleIn (ctx : BriquesContext) (strip : Bool) (occ : Text) : Text :=
  ctx.table.lowerChars (if strip then occ.filter isContentChar else occ)

theorem needleIn_eq_filter :
    needleIn ctx strip occ =
      (ctx.table.lowerChars occ).filter fun c => !strip || isContentChar c := by
  cases strip with
  | true => simp [needleIn, ← CaseTable.filter_lowerChars]
  | false => simp [needleIn]

/-- The first character an occurrence shows in the view. -/
theorem Spans.view_head (h : Spans strip occ) (ctx : BriquesContext) (base n : Nat) :
    ∃ first rest, ((ctx.windowChars false true base occ).zipIdx n).filter
        (fun p => !strip || isContentChar p.1.char) = (first, n) :: rest ∧ first.src = base := by
  obtain ⟨c, t, rfl⟩ := exists_cons_of_ne_nil h.ne_nil
  obtain ⟨d, ds, hd, hsrc, hcontent⟩ := windowChars_cons ctx base c t
  rw [hd, zipIdx_cons, filter_cons_of_pos]
  · exact ⟨_, _, rfl, hsrc⟩
  · cases strip with
    | true => simpa [hcontent] using h.head rfl c rfl
    | false => rfl

/-- The last character an occurrence shows in the view. -/
theorem Spans.view_last (h : Spans strip occ) (ctx : BriquesContext) (base n : Nat) :
    ∃ last front, ((ctx.windowChars false true base occ).zipIdx n).filter
        (fun p => !strip || isContentChar p.1.char) = front ++ [last] ∧
      last.2 + 1 = n + (ctx.windowChars false true base occ).length := by
  obtain ⟨t, c, rfl⟩ := (eq_nil_or_concat' occ).resolve_left h.ne_nil
  obtain ⟨ds, d, hd, hcontent⟩ := windowChars_concat ctx base t c
  rw [hd, zipIdx_append, filter_append, zipIdx_singleton, filter_cons_of_pos]
  · refine ⟨_, _, rfl, ?_⟩
    simp only [length_append, length_singleton]
    omega
  · cases strip with
    | true => simpa [hcontent] using h.last rfl c (by simp)
    | false => rfl

/-- **The occurrence a match reports** is the one at its first byte. -/
theorem reported_eq (h : Spans strip occ) (base : Nat) (before behind : Text) :
    reported (needleIn ctx strip occ) strip (base + utf8Len before)
        (ctx.windowChars false true base (before ++ occ ++ behind)) =
      some ⟨(ctx.windowChars false true base before).length,
        (ctx.windowChars false true base (before ++ occ)).length⟩ := by
  have hbefore (c) (hc : c ∈ ctx.windowChars false true base before) :=
    (src_of_mem_windowChars ctx false true hc).2
  rw [windowChars_append, windowChars_append]
  generalize ctx.windowChars false true base before = w at hbefore ⊢
  obtain ⟨first, rest, hfirst, hsrc⟩ := h.view_head ctx (base + utf8Len before) w.length
  obtain ⟨last, front, hlast, hstop⟩ := h.view_last ctx (base + utf8Len before) w.length
  have hchars := map_char_view strip (ctx.windowChars false true (base + utf8Len before) occ)
    w.length
  rw [winText_windowChars, ← needleIn_eq_filter] at hchars
  rw [hlast] at hchars hfirst
  have hlen : (needleIn ctx strip occ).length - 1 = front.length := by
    rw [← hchars, length_map, length_append]
    rfl
  rw [reported, view_append, view_append, hlast, append_assoc, occurrencesIn, find?_filter,
    find?_tails_append]
  · -- the tail that begins with the occurrence is the first one that fits
    generalize List.filter _ ((ctx.windowChars false true _ behind).zipIdx _) = behind'
    have htails : (front ++ [last] ++ behind').tails.find? (fun s =>
        decide ((needleIn ctx strip occ).isPrefixOf (s.map (·.1.char)) = true ∧
          decide (s.head?.map (·.1.src) = some (base + utf8Len before)) = true)) =
        some (front ++ [last] ++ behind') := by
      rw [hfirst, cons_append, tails_cons, find?_cons_of_pos]
      rw [← cons_append, ← hfirst, map_append, hchars, decide_eq_true_eq]
      refine ⟨ isPrefixOf_iff_prefix.mpr (prefix_append _ _), ?_⟩
      rw [hfirst, cons_append, head?_cons, Option.map_some, hsrc]
      exact decide_eq_true rfl
    rw [htails, Option.some_or, Option.bind_some, placeOf, hlen]
    have hget : (front ++ [last] ++ behind')[front.length]? = some last := by simp
    have hhead : (front ++ [last] ++ behind').head? = some (first, w.length) := by
      rw [hfirst, cons_append, head?_cons]
    rw [hget, hhead, length_append, ← hstop]
  · intro a ha l
    simp [(hbefore a.1 (fst_mem_of_mem_zipIdx (mem_of_mem_filter ha))).ne]

end BriquesContext

/-! ## Occurrences -/

/-- **An occurrence**: a part of a value, with the text around it. -/
structure Occurrence (docs : List (List Text)) extends ValueAt docs where
  pre : Text
  occ : Text
  post : Text
  value_eq : value = pre ++ occ ++ post

open Occurrence

namespace Occurrence

variable {docs : List (List Text)} (o : Occurrence docs)

/-- It begins at the start of its value, or right behind a separator. -/
def startsAtBoundary : Bool := o.pre.getLast?.all (!isContentChar ·)

/-- It ends at the end of its value, or right before a separator. -/
def endsAtBoundary : Bool := o.post.head?.all (!isContentChar ·)

/-- It begins a value that is not the first of its document. -/
def beginsLaterValue : Bool := o.pre = [] && o.before ≠ []

/-- **A match stands for an occurrence**: it has its first byte, it starts in the chunk at its
position or behind it, and it ends in its last position, or in the bytes that one borrows from
the next. -/
structure Reports (m : MatchV3) : Prop where
  doc : m.docId = o.doc
  byteFrom : m.byteFrom = utf8Len o.pre
  covered : ∃ i < o.texts.length, m.position = o.start + i ∧
    utf8Len (o.texts.take i).flatten ≤ utf8Len o.pre ∧
    utf8Len (o.pre ++ o.occ) ≤ utf8Len (o.texts.take (i + m.span)).flatten +
      min defaultOverlap (utf8Len (o.texts[i + m.span]?.getD []))

end Occurrence

namespace BriquesContext

variable (table : CaseTable) {docs : List (List Text)} {o : Occurrence docs} {m : MatchV3}
  {strip : Bool}

section

variable (o : Occurrence docs)

/-- A value in three parts, cut between chunks. -/
theorem texts_split {l r : Nat} (h : l ≤ r) :
    (o.texts.take l).flatten ++ (((o.texts.take r).drop l).flatten ++ (o.texts.drop r).flatten) =
      o.value := by
  rw [← o.texts_flatten, ← append_assoc, ← flatten_append, take_append_slice _ h,
    ← flatten_append, take_append_drop]

theorem utf8Len_take {l r : Nat} (hl : l ≤ r) : utf8Len (o.texts.take r).flatten =
    utf8Len (o.texts.take l).flatten + utf8Len ((o.texts.take r).drop l).flatten := by
  rw [← utf8Len_append, ← flatten_append, take_append_slice _ hl]

theorem utf8Len_take_succ {l : Nat} (hl : l < o.texts.length) :
    utf8Len (o.texts.take (l + 1)).flatten =
      utf8Len (o.texts.take l).flatten + utf8Len o.texts[l] := by
  rw [take_succ_eq_append_getElem hl, flatten_append, utf8Len_append, flatten_singleton]

/-- More chunks have more bytes. -/
theorem utf8Len_take_lt {l r : Nat} (hl : l < r) (hr : r ≤ o.texts.length) :
    utf8Len (o.texts.take l).flatten < utf8Len (o.texts.take r).flatten := by
  have hlt := hl.trans_le hr
  have hpos := utf8Len_pos (o.texts_ne_nil (getElem_mem hlt))
  rw [utf8Len_take o (show l + 1 ≤ r from hl), utf8Len_take_succ o hlt]
  omega

/-- The bytes up to a chunk and those it lends fit in the chunks up to the next. -/
theorem utf8Len_borrowed_le {s r : Nat} (hs : s < r) (hr : r ≤ o.texts.length) :
    utf8Len (o.texts.take s).flatten + min defaultOverlap (utf8Len (o.texts[s]?.getD [])) ≤
      utf8Len (o.texts.take r).flatten := by
  have hlt : s < o.texts.length := by omega
  have hsucc := utf8Len_take_succ o hlt
  have hle := utf8Len_take o (show s + 1 ≤ r from hs)
  rw [getElem?_eq_getElem hlt, Option.getD_some]
  omega

/-- Behind a chunk of one or two bytes the value goes on with content. -/
theorem startsContent_drop {r : Nat} (hr : r < o.texts.length) (hpos : 0 < r)
    (hshort : utf8Len (o.texts.take r).flatten ≤ utf8Len (o.texts.take (r - 1)).flatten + 2) :
    ∃ c rest, (o.texts.drop r).flatten = c :: rest ∧ isContentChar c = true := by
  have hlt : r - 1 < o.texts.length := by omega
  have hchunk : o.texts.drop (r - 1) = o.texts[r - 1] :: o.texts.drop r := by
    rw [drop_eq_getElem_cons hlt, Nat.sub_add_cancel hpos]
  have hnext := drop_eq_getElem_cons hr
  have hlen : utf8Len o.texts[r - 1] ≤ 2 := by
    have hsucc := utf8Len_take_succ o hlt
    rw [Nat.sub_add_cancel hpos] at hsucc
    omega
  have hchain := (content_after_short_chunk o.value).drop (r - 1)
  rw [show List.map Chunk.text (segmentAndChunk o.value defaultMaxToken) = o.texts from rfl, hchunk,
    hnext] at hchain
  have hstarts := (isChain_cons_cons.mp hchain).1 hlen
  obtain ⟨c, t, ht⟩ := exists_cons_of_ne_nil (o.texts_ne_nil (getElem_mem hr))
  rw [ht] at hstarts
  exact ⟨c, t ++ (o.texts.drop (r + 1)).flatten, by rw [hnext, ht]; rfl, hstarts⟩

end

/-- **The window of a match that stands for an occurrence**: the occurrence with some of the text
around it. Where nothing of it is left before the occurrence, the value begins there; where
nothing is left behind, the window is cut just when content follows. -/
theorem window_of_reports (hspan : Spans strip o.occ) (hm : o.Reports m) :
    ∃ base front back cutStart cutEnd,
      (ofCollection table docs).rebuildWindowOpts m.docId m.position (lastPosition m) 1 false true
          64 = some ⟨(ofCollection table docs).windowChars false true base (front ++ o.occ ++ back),
            cutStart, cutEnd⟩ ∧
      m.byteFrom = base + utf8Len front ∧
      (front = [] → o.pre = [] ∧ cutStart = decide (0 < o.start)) ∧
      (front ≠ [] → front.getLast? = o.pre.getLast?) ∧
      (back = [] → cutEnd = !o.endsAtBoundary) ∧ (back ≠ [] → back.head? = o.post.head?) := by
  obtain ⟨i, hi, hpos, hfirst, hlast⟩ := hm.covered
  obtain ⟨l, r, hl, hr, hrlen, hwindow, hleft, hright⟩ :=
    rebuildWindowOpts_value table o.toValueAt hi
    (show 0 < m.span - 1 + 1 by omega) (show lastPosition m + 1 = _ by rw [lastPosition]; omega)
    1 false true 64
  have hsplit := texts_split o (show l ≤ r by omega)
  rw [o.value_eq, append_assoc] at hsplit
  have hbase : utf8Len (o.texts.take l).flatten ≤ utf8Len o.pre :=
    le_trans (utf8Len_take o hl ▸ Nat.le_add_right ..) hfirst
  -- to the right the window holds a chunk more than the match, or all that is left
  have hmore : r < o.texts.length → i + m.span < r := by
    by_contra hle
    have hstop : min (i + (m.span - 1 + 1)) o.texts.length = r := by omega
    rw [hstop, drop_eq_nil_of_le (length_take_le _ _)] at hright
    simp only [flatten_nil, marginBytes, utf8Len_nil, Bool.false_eq_true, if_false] at hright
    omega
  have htotal := utf8Len_take o (show l ≤ r by omega)
  have hend : utf8Len (o.pre ++ o.occ) ≤ utf8Len (o.texts.take r).flatten := by
    rcases lt_or_eq_of_le hrlen with hlt | rfl
    · exact hlast.trans (utf8Len_borrowed_le o (hmore hlt) hrlen)
    · have hval : utf8Len (o.texts.take o.texts.length).flatten =
        utf8Len (o.pre ++ o.occ ++ o.post) := by
        rw [take_length, o.texts_flatten, o.value_eq]
      rw [hval, utf8Len_append (o.pre ++ o.occ)]
      omega
  obtain ⟨front, hpre, hrest⟩ := exists_append_of_utf8Len_le hsplit hbase
  have hwin : utf8Len (front ++ o.occ) ≤ utf8Len ((o.texts.take r).drop l).flatten := by
    rw [hpre, append_assoc, utf8Len_append] at hend
    omega
  rw [← append_assoc] at hrest
  obtain ⟨back, hback, hpost⟩ := exists_append_of_utf8Len_le hrest.symm hwin
  have hchars : (ofCollection table docs).windowChars false true
      (utf8Len (o.texts.take l).flatten) (front ++ o.occ ++ back) ≠ [] := by
    intro hnil
    have htext := congrArg winText hnil
    rw [winText_windowChars] at htext
    have := CaseTable.lowerChars_eq_nil.mp htext
    simp [hspan.ne_nil] at this
  refine ⟨utf8Len (o.texts.take l).flatten, front, back, decide (0 < o.start + l),
    decide (r < o.texts.length), ?_, ?_, ?_, ?_, ?_, ?_⟩
  · rw [hm.doc, hpos, hwindow, hback]
    exact if_neg hchars
  · rw [hm.byteFrom, hpre, utf8Len_append]
  · intro hfront
    -- nothing before the occurrence: the walk to the left reached the start of the value
    have hl0 : l = 0 := by
      have hle : utf8Len (o.texts.take i).flatten ≤ utf8Len (o.texts.take l).flatten := by
        rw [hpre, hfront, append_nil] at hfirst
        exact hfirst
      have hil : i = l := by
        by_contra hil
        exact absurd hle (Nat.not_le_of_lt (utf8Len_take_lt o (by omega) hi.le))
      rw [hil, drop_eq_nil_of_le (length_take_le _ _)] at hleft
      simp only [flatten_nil, marginBytes, utf8Len_nil, Bool.false_eq_true, if_false] at hleft
      omega
    subst hl0
    exact ⟨by rw [hpre, hfront]; rfl, by rw [add_zero]⟩
  · intro hfront
    rw [hpre, getLast?_append_of_ne_nil _ hfront]
  · intro hnil
    rw [hnil, nil_append] at hpost
    rcases lt_or_eq_of_le hrlen with hlt | rfl
    · -- the occurrence ends with a short chunk, and what follows is content
      have hshort : utf8Len (o.texts.take r).flatten ≤
        utf8Len (o.texts.take (r - 1)).flatten + 2 := by
        have hlen : utf8Len (o.pre ++ o.occ) = utf8Len (o.texts.take r).flatten := by
          rw [htotal, hback, hnil, append_nil, hpre, append_assoc, utf8Len_append]
        have hle := utf8Len_take o (show i + m.span ≤ r - 1 by have := hmore hlt; omega)
        simp only [defaultOverlap] at hlast
        omega
      obtain ⟨c, rest, hc, hcontent⟩ :=
        startsContent_drop o hlt (by have := hmore hlt; omega) hshort
      rw [endsAtBoundary, hpost, hc]
      simp [hcontent, hlt]
    · rw [endsAtBoundary, hpost, drop_length]
      simp
  · intro hne
    rw [hpost, head?_append_of_ne_nil _ hne]

/-- **What the check answers** for a match that stands for an occurrence: the boundaries of the
text, but for an occurrence at the start of a later value, whose start it takes for no
boundary. -/
theorem keepsBoundaries_eq (hspan : Spans strip o.occ) (hm : o.Reports m)
    (anchorStart exactMatch : Bool) :
    (ofCollection table docs).keepsBoundaries (needleIn (ofCollection table docs) strip o.occ) strip
        anchorStart exactMatch m =
      ((!anchorStart || (o.startsAtBoundary && !o.beginsLaterValue)) &&
        (!exactMatch || (o.startsAtBoundary && !o.beginsLaterValue) && o.endsAtBoundary)) := by
  obtain ⟨base, front, back, cutStart, cutEnd, hwindow, hfrom, hstart, hfront, hend, hback⟩ :=
    window_of_reports table hspan hm
  set ctx := ofCollection table docs
  have hstarts : isBoundary (ctx.windowChars false true base front).getLast? cutStart =
      (o.startsAtBoundary && !o.beginsLaterValue) := by
    rw [isBoundary_getLast?]
    by_cases hnil : front = []
    · obtain ⟨hpre, rfl⟩ := hstart hnil
      simp [hnil, startsAtBoundary, beginsLaterValue, hpre, o.start_pos]
    · obtain ⟨t, c, rfl⟩ := (eq_nil_or_concat' front).resolve_left hnil
      have hlast := hfront hnil
      have hpre : o.pre ≠ [] := by
        intro h
        rw [h] at hlast
        simp at hlast
      simp [startsAtBoundary, beginsLaterValue, ← hlast, hpre]
  have hends : isBoundary (ctx.windowChars false true (base + utf8Len (front ++ o.occ)) back).head?
      cutEnd = o.endsAtBoundary := by
    rw [isBoundary_head?]
    by_cases hnil : back = []
    · simp [hnil, hend hnil]
    · obtain ⟨c, t, rfl⟩ := exists_cons_of_ne_nil hnil
      have hhead := hback hnil
      simp [endsAtBoundary, ← hhead]
  rw [keepsBoundaries, hwindow]
  simp only [hfrom, reported_eq hspan]
  have hbefore : (ctx.windowChars false true base (front ++ o.occ ++ back)).take
      (ctx.windowChars false true base front).length = ctx.windowChars false true base front := by
    rw [windowChars_append, windowChars_append, append_assoc, take_left]
  have hafter : (ctx.windowChars false true base (front ++ o.occ ++ back))[
      (ctx.windowChars false true base (front ++ o.occ)).length]? =
      (ctx.windowChars false true (base + utf8Len (front ++ o.occ)) back).head? := by
    rw [windowChars_append, getElem?_append_right (le_refl _), Nat.sub_self, head?_eq_getElem?]
  rw [hbefore, hafter, hstarts, hends]

end BriquesContext

/-! ## The search -/

namespace Occurrence

variable {docs : List (List Text)} (o : Occurrence docs)

/-- What the anchored mode and the exact mode are to keep. -/
def atBoundaries (exactMatch : Bool) : Bool :=
  o.startsAtBoundary && (!exactMatch || o.endsAtBoundary)

/-- It is an occurrence of a query: both sides lowercased and, unless separators are strict,
without their separators. -/
structure Of (table : CaseTable) (query : Text) (strictSeparators : Bool) : Prop where
  /-- The texts agree. -/
  lower_eq : table.lowerChars (if strictSeparators then o.occ else o.occ.filter isContentChar) =
    table.lowerChars (if strictSeparators then query else query.filter isContentChar)
  /-- It reaches from its first to its last content. -/
  spans : BriquesContext.Spans (!strictSeparators) o.occ

end Occurrence

open BriquesContext

/-- What an occurrence shows of itself is not nothing. -/
theorem BriquesContext.Spans.needleIn_ne_nil {strip : Bool} {occ : Text} (h : Spans strip occ)
    (ctx : BriquesContext) : needleIn ctx strip occ ≠ [] := by
  intro hnil
  have hnone := CaseTable.lowerChars_eq_nil.mp hnil
  cases strip with
  | false => exact h.ne_nil hnone
  | true =>
    obtain ⟨c, t, hocc⟩ := exists_cons_of_ne_nil h.ne_nil
    have hc : isContentChar c = true := h.head rfl c (by rw [hocc]; rfl)
    simp [hocc, hc] at hnone

/-- **The boundary modes keep the occurrences at word boundaries**, exactly as far as an
occurrence found does not begin a value other than its document's first, or in the exact mode
does not end at a boundary. -/
theorem kept_iff_at_boundaries (table : CaseTable) {docs : List (List Text)} (o : Occurrence docs)
    {query q : Text} {anchorStart exactMatch strictSeparators : Bool}
    (hmode : (anchorStart || exactMatch) = true)
    (hquery : effectiveQuery query strictSeparators = some q) (ho : o.Of table q strictSeparators)
    {m : MatchV3}
    (hfound : m ∈ (ofCollection table docs).occurrencesFound q anchorStart strictSeparators)
    (hm : o.Reports m) :
    (m ∈ (ofCollection table docs).containsV3 query anchorStart exactMatch strictSeparators ↔
        o.atBoundaries exactMatch = true) ↔
      (o.beginsLaterValue = false ∨ exactMatch = true ∧ o.endsAtBoundary = false) := by
  set ctx := ofCollection table docs
  have hneedle : ctx.needleOf q strictSeparators = needleIn ctx (!strictSeparators) o.occ := by
    rw [needleOf, needleIn, show ctx.table = table from rfl, ← ho.lower_eq]
    cases strictSeparators <;> rfl
  have hkept : m ∈ ctx.containsV3 query anchorStart exactMatch strictSeparators ↔
      ctx.keepsBoundaries (needleIn ctx (!strictSeparators) o.occ) (!strictSeparators) anchorStart
        exactMatch m = true := by
    simp only [containsV3, hquery, hmode, if_true, verifyBoundaries, hneedle,
      if_neg (ho.spans.needleIn_ne_nil _), mem_filter, hfound, true_and]
  rw [hkept, keepsBoundaries_eq table ho.spans hm, atBoundaries]
  -- a start of a later value is a boundary
  have hlater : o.beginsLaterValue = true → o.startsAtBoundary = true := by
    intro h
    rw [beginsLaterValue, Bool.and_eq_true] at h
    rw [startsAtBoundary, of_decide_eq_true h.1]
    rfl
  generalize o.startsAtBoundary = s at hlater ⊢
  generalize o.endsAtBoundary = e
  generalize o.beginsLaterValue = b at hlater ⊢
  revert hmode hlater
  cases anchorStart <;> cases exactMatch <;> cases s <;> cases e <;> cases b <;> decide

/-- The second word of `ab cd`. -/
def secondWord : Occurrence [["ab cd".toList]] :=
  ⟨⟨0, [], "ab cd".toList, [], rfl⟩, "ab ".toList, "cd".toList, [], rfl⟩

/-- The match an anchored search for it reports. -/
def secondWordMatch : MatchV3 :=
  let ord : Ordinal := ⟨"cd".toList, (false, 2, 0, true)⟩
  ⟨0, 1, 1, 0, ord, ord, 0, 1, 0, 2, 3, 0, 5, 5⟩

theorem secondWordMatch_reports : secondWord.Reports secondWordMatch :=
  ⟨rfl, by decide, 1, by decide, by decide, by decide, by decide⟩

theorem secondWord_of : secondWord.Of asciiCase "cd".toList true :=
  ⟨by decide, cons_ne_nil _ _, fun h => (Bool.false_ne_true h).elim,
    fun h => (Bool.false_ne_true h).elim⟩

/-- An anchored search keeps the second word of a value. -/
theorem second_word_kept :
    secondWordMatch ∈ (ofCollection asciiCase [["ab cd".toList]]).occurrencesFound "cd".toList true
        true ∧
      ((secondWordMatch ∈ (ofCollection asciiCase [["ab cd".toList]]).containsV3 "cd".toList true
          false true ↔ secondWord.atBoundaries false = true) ↔
        (secondWord.beginsLaterValue = false ∨ false = true ∧ secondWord.endsAtBoundary = false)) :=
  ⟨by decide +kernel,
    kept_iff_at_boundaries asciiCase secondWord rfl (by decide) secondWord_of (by decide +kernel)
      secondWordMatch_reports⟩

/-- The whole second value of a document. -/
def secondValue : Occurrence [["a".toList, "b".toList]] :=
  ⟨⟨0, ["a".toList], "b".toList, [], rfl⟩, [], "b".toList, [], rfl⟩

/-- The match an anchored search for it finds. -/
def secondValueMatch : MatchV3 :=
  let ord : Ordinal := ⟨"b".toList, (false, 1, 0, true)⟩
  ⟨0, 2, 1, 0, ord, ord, 0, 2, 0, 1, 0, 0, 1, 1⟩

/-- **The start of a later value is lost**: an anchored search finds the second value of a
document, which stands at boundaries, and drops it. -/
theorem second_value_dropped :
    secondValueMatch ∈ (ofCollection asciiCase [["a".toList, "b".toList]]).occurrencesFound
        "b".toList true true ∧
      secondValue.Reports secondValueMatch ∧ secondValue.Of asciiCase "b".toList true ∧
      secondValue.atBoundaries false = true ∧
      secondValueMatch ∉ (ofCollection asciiCase [["a".toList, "b".toList]]).containsV3 "b".toList
        true false true :=
  ⟨by decide +kernel, ⟨rfl, by decide, 0, by decide, by decide, by decide, by decide⟩,
    ⟨by decide, cons_ne_nil _ _, fun h => (Bool.false_ne_true h).elim,
      fun h => (Bool.false_ne_true h).elim⟩, by decide, by decide +kernel⟩

end Lucivy.Briques
