import Lucivy.Query.StringFilter

/-! # Tokens from the pipeline

What the segment writer (`index_document` in `src/indexer/segment_writer.rs`) records for the text
fields of a document, with the tokens that the reader stage (`tokenize_for_pipeline` in
`lucivy_core/src/sharded_handle.rs`) made of its plain values, and without them. Both stages take a
field's tokenizer from the same manager, so it is one function here.

* `tokenizeForPipeline`, `indexValues` — the two stages.
* `pipeline_exact_iff` — **the pipeline indexes a document as the direct path does, whatever the
  tokenizers**, exactly if no field has a pre-tokenized value before a plain one. -/

namespace Lucivy.Indexer.PipelineTokens

open Lucivy.Foundation Lucivy.Query.StringFilter List
open String (utf8Len)

structure Token where
  offsetFrom : Nat
  offsetTo : Nat
  position : Nat
  text : Text
  positionLength : Nat
deriving DecidableEq

structure PreTokenizedString where
  text : Text
  tokens : List Token
deriving DecidableEq

inductive FieldValue where
  | str (text : Text)
  | preTokenized (value : PreTokenizedString)

def FieldValue.isPlain : FieldValue → Bool
  | .str _ => true
  | .preTokenized _ => false

inductive SfxCollectorSlot where
  | v2
  | v3

/-- What is recorded for a field of the document. -/
structure FieldIndex where
  endPosition : Nat := 0
  /-- The terms, with position and offsets. -/
  postings : List (Text × Nat × Nat × Nat) := []
  /-- The values of the suffix index; a v2 collector takes their tokens too. -/
  sfxValues : List (Text × List (Text × Nat × Nat)) := []
deriving DecidableEq

/-- `index_text`, which drops tokens that are too long. -/
def indexText (index : FieldIndex) (tokens : List Token) : FieldIndex :=
  let kept := tokens.filter fun token => utf8Len token.text ≤ maxTokenLen
  let start := index.endPosition
  { index with
    endPosition := 1 + kept.foldl (fun stop token =>
      max stop (start + token.position + token.positionLength)) start
    postings := index.postings ++ kept.map fun token =>
      (token.text, start + token.position, token.offsetFrom, token.offsetTo) }

/-- A text and its tokens, as a v2 collector takes them. -/
def captured (text : PreTokenizedString) : Text × List (Text × Nat × Nat) :=
  (text.text, text.tokens.map fun token => (token.text, token.offsetFrom, token.offsetTo))

/-- One text with its tokens goes to the postings and to the suffix collector, if there is one. -/
def addText (slot : Option SfxCollectorSlot) (index : FieldIndex) (text : PreTokenizedString) :
    FieldIndex :=
  let index := indexText index text.tokens
  match slot with
  | none => index
  | some .v2 => { index with sfxValues := index.sfxValues ++ [captured text] }
  | some .v3 => { index with sfxValues := index.sfxValues ++ [(text.text, [])] }

theorem sfxValues_foldl_v2 (texts : List PreTokenizedString) (index : FieldIndex) :
    (texts.foldl (addText (some .v2)) index).sfxValues = index.sfxValues ++ texts.map captured := by
  induction texts generalizing index with
  | nil => simp
  | cons text texts ih => simp [ih, addText, indexText]

variable {φ : Type} (tokenize : φ → Text → List Token) (slot : φ → Option SfxCollectorSlot)

/-- A value's own text and tokens. -/
def ownText (field : φ) : FieldValue → PreTokenizedString
  | .str text => ⟨text, tokenize field text⟩
  | .preTokenized value => value

/-- The values of a `Str` field in `index_document`: each takes one text of the pipeline, while
there are any. -/
def indexValues (field : φ) : List FieldValue → List PreTokenizedString → FieldIndex → FieldIndex
  | [], _, index => index
  | _ :: values, preTok :: drain, index =>
    indexValues field values drain (addText (slot field) index preTok)
  | value :: values, [], index =>
    indexValues field values [] (addText (slot field) index (ownText tokenize field value))

/-- The loop is a fold over the texts of the pipeline and those of the values behind them. -/
theorem indexValues_eq (field : φ) (values : List FieldValue) (drain : List PreTokenizedString)
    (index : FieldIndex) : indexValues tokenize slot field values drain index =
      (drain.take values.length ++ (values.drop drain.length).map (ownText tokenize field)).foldl
        (addText (slot field)) index := by
  induction values generalizing drain index with
  | nil => simp [indexValues]
  | cons value values ih => cases drain <;> simp [indexValues, ih]

variable [DecidableEq φ] {doc : List (φ × FieldValue)} {textFields : List φ}

/-- The values of one field, in the document's order. -/
def valuesOf (doc : List (φ × FieldValue)) (field : φ) : List FieldValue :=
  (doc.filter (·.1 = field)).map Prod.snd

/-- The map of `tokenize_for_pipeline`, which passes over values that are no plain text. -/
def tokenizeForPipeline (textFields : List φ) (doc : List (φ × FieldValue)) (field : φ) :
    List PreTokenizedString :=
  if textFields.contains field then
    ((valuesOf doc field).filter FieldValue.isPlain).map (ownText tokenize field)
  else []

/-- `index_document`, for the text fields. -/
def indexDocument (doc : List (φ × FieldValue))
    (preTokenized : Option (φ → List PreTokenizedString)) (field : φ) : FieldIndex :=
  indexValues tokenize slot field (valuesOf doc field) (preTokenized.elim [] (· field)) {}

/-- **The plain values come first**: as many as there are stand at the front. -/
def PlainFirst (values : List FieldValue) : Prop :=
  ∀ value ∈ values.take (values.countP FieldValue.isPlain), value.isPlain = true

theorem filter_of_plainFirst {values : List FieldValue} (h : PlainFirst values) :
    values.filter FieldValue.isPlain = values.take (values.countP FieldValue.isPlain) := by
  have hsub := (take_sublist (values.countP FieldValue.isPlain) values).filter FieldValue.isPlain
  rw [filter_eq_self.mpr h] at hsub
  refine (hsub.eq_of_length ?_).symm
  rw [length_take, ← countP_eq_length_filter, min_eq_left (countP_le_length ..)]

theorem indexDocument_pipeline {field : φ} (hfield : field ∈ textFields) :
    indexDocument tokenize slot doc (some (tokenizeForPipeline tokenize textFields doc)) field =
      (((valuesOf doc field).filter FieldValue.isPlain ++
        (valuesOf doc field).drop ((valuesOf doc field).countP FieldValue.isPlain)).map
          (ownText tokenize field)).foldl (addText (slot field)) {} := by
  simp [indexDocument, indexValues_eq, tokenizeForPipeline, hfield, take_of_length_le,
    length_filter_le, countP_eq_length_filter]

theorem indexDocument_direct (field : φ) : indexDocument tokenize slot doc none field =
    ((valuesOf doc field).map (ownText tokenize field)).foldl (addText (slot field)) {} := by
  simp [indexDocument, indexValues_eq]

/-- **When the pipeline indexes as the direct path does**, whatever the tokenizers and the suffix
collectors. -/
theorem pipeline_exact_iff (textFields : List φ) (doc : List (φ × FieldValue)) :
    (∀ tokenize slot, indexDocument tokenize slot doc
        (some (tokenizeForPipeline tokenize textFields doc)) =
          indexDocument tokenize slot doc none) ↔
      ∀ field ∈ textFields, PlainFirst (valuesOf doc field) := by
  constructor
  · intro h field hfield value hvalue
    cases value with
    | str _ => rfl
    | preTokenized own =>
      -- the tokenizer makes one token more than this value brings
      let tokenize (_ : φ) (_ : Text) : List Token :=
        replicate (own.tokens.length + 1) ⟨0, 0, 0, [], 0⟩
      have hvalues := congrArg FieldIndex.sfxValues (congrFun (h tokenize fun _ => some .v2) field)
      rw [indexDocument_pipeline _ _ hfield, indexDocument_direct, sfxValues_foldl_v2,
        sfxValues_foldl_v2, map_append, map_append] at hvalues
      generalize valuesOf doc field = values at hvalue hvalues
      have hfront := congrArg (take (values.countP FieldValue.isPlain)) hvalues
      rw [nil_append, nil_append, take_left' (by simp [countP_eq_length_filter]), ← map_take,
        ← map_take] at hfront
      have hmem := mem_map_of_mem (f := ownText tokenize field) hvalue
      replace hmem := mem_map_of_mem (f := captured) hmem
      rw [← hfront, map_map] at hmem
      obtain ⟨plain, hplain, heq⟩ := mem_map.mp hmem
      cases plain with
      | str text => simpa [captured, ownText, tokenize] using congrArg (·.2.length) heq
      | preTokenized _ => exact (mem_filter.mp hplain).2
  · intro h tokenize slot
    funext field
    by_cases hfield : field ∈ textFields
    · rw [indexDocument_pipeline _ _ hfield, indexDocument_direct,
        filter_of_plainFirst (h field hfield), take_append_drop]
    · simp [indexDocument, tokenizeForPipeline, hfield]

/-- **A pre-tokenized value before a plain one**: it is indexed with the tokens of the plain one. -/
theorem pipeline_mixes_values :
    let word := fun text : Text => [Token.mk 0 text.length 0 text 1]
    let doc := [((), .preTokenized ⟨['a', 'b'], word ['a', 'b']⟩), ((), .str ['c'])]
    (indexDocument (fun _ => word) (fun _ => some .v3) doc
        (some (tokenizeForPipeline (fun _ => word) [()] doc)) ()).sfxValues =
          [(['c'], []), (['c'], [])] ∧
      (indexDocument (fun _ => word) (fun _ => some .v3) doc none ()).sfxValues =
        [(['a', 'b'], []), (['c'], [])] := by
  decide

end Lucivy.Indexer.PipelineTokens
