import Lucivy.SuffixFst.DerivedSiblings

/-! # The derived files are the same

`derived::rebuild` on the posting files the collector wrote, against the files it writes itself.

* `rebuild_eq_written_iff` — the three files agree byte for byte, unless there is no token at
  all: the position map of a segment without tokens is written as `PMP3`, and rebuilt as
  `PMP4`. -/

namespace Lucivy.SuffixFst

open Lucivy.Foundation Lucivy.Tokenizer Lucivy.Briques PosMapFile
open Collector (collect)

variable {docs : List (List Text)} {dictionary : Option (Ordinal → Nat)}

/-- An empty map is written in another layout when the lengths are known. -/
theorem serialize_new_ne (ownLen : UInt32 → Option UInt16) :
    PosMapWriter.new.serializeWithLens (some ownLen) ≠ PosMapWriter.new.serialize := by
  intro heq
  have hmagic : Layout.checkpoints.magic = Layout.narrow.magic := congrArg (List.take 4) heq
  exact absurd hmagic (by decide)

/-- **The derived files, rebuilt from the postings**, are byte for byte those that are written,
just when some value is not empty. The final ordinals may follow the texts or a dictionary. -/
theorem rebuild_eq_written_iff (hfits : CountersFit docs) (dictionary : Option (Ordinal → Nat))
    {sfxpost wordSfxpost : Bytes}
    (hsfxpost : sfxpostFile (collect docs) (finalOrder (collect docs) dictionary) = some sfxpost)
    (hword : wordSfxpostFile (collect docs) (finalOrder (collect docs) dictionary) =
      some wordSfxpost) :
    ∃ r wr, SfxPostReaderV2.openOwned sfxpost = some r ∧
      WordSfxPostReader.openBytes wordSfxpost = some wr ∧
      (rebuild r (some wr) (ownLenOf (finalOrder (collect docs) dictionary)) =
          writtenFiles (collect docs) (finalOrder (collect docs) dictionary) sfxpost ↔
        ∃ v ∈ docs.flatten, v ≠ []) := by
  obtain ⟨order, horder⟩ : ∃ order, order = finalOrder (collect docs) dictionary := ⟨_, rfl⟩
  rw [← horder] at hsfxpost hword ⊢
  obtain ⟨hlt, -⟩ := openOwned_sfxpostFile hsfxpost
  obtain ⟨r, hopen, hnum, hdocs, hposmap⟩ := rebuildPosmap_eq hsfxpost
  obtain ⟨wr, hwopen, hwordMap, hwords⟩ := rebuildWords_spec hfits horder hlt hword
  obtain ⟨pm, hpm, hat⟩ : ∃ pm, PosMapReader.openBytes
      ((rebuildPosmap r).serializeWithLens (some (ownLenOf order))) = some pm ∧
        ∀ doc pos, pm.ordinalAt doc pos = (slotIn docs doc pos).map (internToFinal order) := by
    rw [horder] at hlt hdocs ⊢
    exact ordinalAt_rebuilt hfits hlt hdocs
  have hsiblings := rebuildSiblings_eq hfits hpm hat hwords
  have hempty : order = [] ↔ ∀ v ∈ docs.flatten, v = [] := by
    rw [horder]
    exact finalOrder_eq_nil_iff
  refine ⟨r, wr, hopen, hwopen, ?_⟩
  rw [rebuild, writtenFiles, hnum, hposmap, hwordMap, hsiblings]
  by_cases hnil : order = []
  · -- without a token the two position maps differ in their first bytes
    have hnew : rebuildPosmap r = .new := by
      cases hr : rebuildPosmap r with
      | mk table =>
        rw [hr, hnil] at hdocs
        exact congrArg PosMapWriter.mk hdocs
    have hlens : ownLens order = [] := by rw [hnil]; rfl
    rw [if_pos hlens, hnew]
    constructor
    · intro heq
      exact absurd (congrArg DerivedFiles.posmap heq) (serialize_new_ne _)
    · rintro ⟨v, hv, hne⟩
      exact absurd (hempty.mp hnil v hv) hne
  · have hlens : ownLens order ≠ [] := fun h => hnil (List.map_eq_nil_iff.mp h)
    rw [if_neg hlens]
    refine ⟨fun _ => ?_, fun _ => rfl⟩
    by_contra hall
    refine hnil (hempty.mpr fun v hv => ?_)
    by_contra hne
    exact hall ⟨v, hv, hne⟩

/-- Two documents; the first has two values, of one and of two words. -/
def twoDocs : List (List Text) :=
  [[['o', 'n', 'e'], ['t', 'w', 'o', ' ', 'o', 'n', 'e']], [['o', 'n', 'e']]]

theorem countersFit_twoDocs : CountersFit twoDocs := ⟨by decide, by decide +kernel⟩

/-- The files of two documents are rebuilt. -/
theorem rebuild_eq_written_twoDocs : ∃ sfxpost r wr,
    sfxpostFile (collect twoDocs) (finalOrder (collect twoDocs) none) = some sfxpost ∧
    SfxPostReaderV2.openOwned sfxpost = some r ∧
    rebuild r (some wr) (ownLenOf (finalOrder (collect twoDocs) none)) =
      writtenFiles (collect twoDocs) (finalOrder (collect twoDocs) none) sfxpost := by
  obtain ⟨sfxpost, hs⟩ := Option.isSome_iff_exists.mp (show (sfxpostFile (collect twoDocs)
    (finalOrder (collect twoDocs) none)).isSome = true by decide +kernel)
  obtain ⟨wordSfxpost, hw⟩ := Option.isSome_iff_exists.mp (show (wordSfxpostFile (collect twoDocs)
    (finalOrder (collect twoDocs) none)).isSome = true by decide +kernel)
  obtain ⟨r, wr, hr, -, hiff⟩ := rebuild_eq_written_iff countersFit_twoDocs none hs hw
  exact ⟨sfxpost, r, wr, hs, hr, hiff.mpr ⟨['o', 'n', 'e'], by decide, by decide⟩⟩

/-- **The files of a document with an empty value are not rebuilt**: the position map differs. -/
theorem empty_value_posmap_differs : ∃ sfxpost wordSfxpost r wr,
    sfxpostFile (collect [[[]]]) (finalOrder (collect [[[]]]) none) = some sfxpost ∧
    wordSfxpostFile (collect [[[]]]) (finalOrder (collect [[[]]]) none) = some wordSfxpost ∧
    SfxPostReaderV2.openOwned sfxpost = some r ∧
    WordSfxPostReader.openBytes wordSfxpost = some wr ∧
    (rebuild r (some wr) (ownLenOf (finalOrder (collect [[[]]]) none))).posmap ≠
      (writtenFiles (collect [[[]]]) (finalOrder (collect [[[]]]) none) sfxpost).posmap :=
  ⟨_, _, _, _, rfl, rfl, rfl, rfl, by decide +kernel⟩

end Lucivy.SuffixFst
