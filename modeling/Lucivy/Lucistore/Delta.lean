import Lucivy.Foundation.Bytes
import Lucivy.Foundation.Utf8

/-! # Reading deltas

`lucistore/src/binary.rs`, `delta.rs` and `delta_sharded.rs`: the decoders of an incremental delta
of one shard (LUCID) and of several (LUCIDS). Numbers are 32 bits wide, strings and files carry
their length, and a decoder refuses bytes that end early.

* `readU32`, `readString`, `takeBytes`, `readMany` — the readers, each with the position behind.
* `IndexDelta`, `deserializeDelta` — a delta of one shard.
* `ShardedDelta`, `deserializeShardedDelta` — the deltas of several. -/

namespace Lucivy.Lucistore

open Lucivy.Foundation

/-! ## Readers -/

/-- A continuation byte. -/
def isContinuation (b : UInt8) : Bool := 0x80 ≤ b && b ≤ 0xBF

/-- The low bits of a continuation byte. -/
def contBits (b : UInt8) : Nat := b.toNat - 0x80

/-- `str::from_utf8`: the well-formed sequences, no overlong form and no surrogate. -/
def decodeUtf8 : Bytes → Option Text
  | [] => some []
  | a :: rest =>
    if a < 0x80 then (decodeUtf8 rest).map (Char.ofNat a.toNat :: ·)
    else
      match rest with
      | [] => none
      | b :: rest =>
        if 0xC2 ≤ a && a ≤ 0xDF then
          if isContinuation b then
            (decodeUtf8 rest).map (Char.ofNat ((a.toNat - 0xC0) * 64 + contBits b) :: ·)
          else none
        else
          match rest with
          | [] => none
          | c :: rest =>
            if 0xE0 ≤ a && a ≤ 0xEF then
              if isContinuation b && isContinuation c && (a != 0xE0 || 0xA0 ≤ b) &&
                  (a != 0xED || b ≤ 0x9F) then
                (decodeUtf8 rest).map
                  (Char.ofNat (((a.toNat - 0xE0) * 64 + contBits b) * 64 + contBits c) :: ·)
              else none
            else
              match rest with
              | [] => none
              | d :: rest =>
                if 0xF0 ≤ a && a ≤ 0xF4 && isContinuation b && isContinuation c &&
                    isContinuation d && (a != 0xF0 || 0x90 ≤ b) && (a != 0xF4 || b ≤ 0x8F)
                then
                  (decodeUtf8 rest).map
                    (Char.ofNat ((((a.toNat - 0xF0) * 64 + contBits b) * 64 + contBits c) * 64 +
                      contBits d) :: ·)
                else none

def readU32 (data : Bytes) (pos : Nat) : Except String (Nat × Nat) :=
  match readLe 4 data pos with
  | none => .error s!"truncated at offset {pos}"
  | some v => .ok (v, pos + 4)

/-- So many bytes, or an error. -/
def takeBytes (data : Bytes) (pos len : Nat) (error : String) : Except String (Bytes × Nat) :=
  if data.length < pos + len then .error error else .ok ((data.drop pos).take len, pos + len)

/-- `read_string`; what the error says about the invalid bytes is left out. -/
def readString (data : Bytes) (pos : Nat) : Except String (Text × Nat) := do
  let len ← readU32 data pos
  let n := len.1
  let offset := len.2
  let bytes ← takeBytes data offset n s!"truncated: expected {n} bytes string at offset {offset}"
  match decodeUtf8 bytes.1 with
  | none => .error "invalid UTF-8"
  | some text => .ok (text, bytes.2)

/-- A loop that reads so many items. -/
def readMany {α : Type} (read : Nat → Except String (α × Nat)) :
    Nat → Nat → Except String (List α × Nat)
  | 0, pos => .ok ([], pos)
  | n + 1, pos => do
      let item ← read pos
      let items ← readMany read n item.2
      .ok (item.1 :: items.1, items.2)

/-! ## One shard -/

structure SegmentBundle where
  segmentId : Text
  /-- Its files, by name. -/
  files : List (Text × Bytes)
deriving DecidableEq, Repr

structure IndexDelta where
  /-- The version the client has. -/
  fromVersion : Text
  /-- The version it has afterwards. -/
  toVersion : Text
  addedSegments : List SegmentBundle
  removedSegmentIds : List Text
  metaJson : Bytes
  /-- The new `_config.json`, if any. -/
  config : Option Bytes
deriving DecidableEq, Repr

/-- The magic of a delta, `LUCID`. -/
def deltaMagic : Bytes := [0x4C, 0x55, 0x43, 0x49, 0x44]

/-- The version of the format. -/
def deltaVersion : Nat := 1

/-- One file of the bundle of this id. -/
def readFile (data : Bytes) (segmentId : Text) (pos : Nat) :
    Except String ((Text × Bytes) × Nat) := do
  let name ← readString data pos
  let len ← readU32 data name.2
  let nameText := String.ofList name.1
  let idText := String.ofList segmentId
  let n := len.1
  let bytes ← takeBytes data len.2 n
    s!"delta truncated: expected {n} bytes for file '{nameText}' in segment '{idText}'"
  .ok ((name.1, bytes.1), bytes.2)

def readBundle (data : Bytes) (pos : Nat) : Except String (SegmentBundle × Nat) := do
  let segmentId ← readString data pos
  let numFiles ← readU32 data segmentId.2
  let files ← readMany (readFile data segmentId.1) numFiles.1 numFiles.2
  .ok (⟨segmentId.1, files.1⟩, files.2)

/-- The optional config behind its `has_config` byte. -/
def readConfig (data : Bytes) (pos : Nat) (missing truncated : String) :
    Except String (Option Bytes × Nat) :=
  match data[pos]? with
  | none => .error missing
  | some hasConfig =>
    if hasConfig = 1 then do
      let len ← readU32 data (pos + 1)
      let config ← takeBytes data len.2 len.1 truncated
      .ok (some config.1, config.2)
    else .ok (none, pos + 1)

def deserializeDelta (data : Bytes) : Except String IndexDelta :=
  if data.length < 9 then .error "delta too small: missing header"
  else if data.take 5 ≠ deltaMagic then .error "invalid delta: bad magic (expected LUCID)"
  else do
    let version ← readU32 data 5
    if version.1 ≠ deltaVersion then
      let v := version.1
      .error s!"unsupported delta version: {v} (expected {deltaVersion})"
    else
      let fromVersion ← readString data version.2
      let toVersion ← readString data fromVersion.2
      let numAdded ← readU32 data toVersion.2
      let added ← readMany (readBundle data) numAdded.1 numAdded.2
      let numRemoved ← readU32 data added.2
      let removed ← readMany (readString data) numRemoved.1 numRemoved.2
      let metaLen ← readU32 data removed.2
      let metaBytes ← takeBytes data metaLen.2 metaLen.1 "delta truncated: meta data"
      let config ← readConfig data metaBytes.2 "delta truncated: missing has_config byte"
        "delta truncated: config data"
      .ok ⟨fromVersion.1, toVersion.1, added.1, removed.1, metaBytes.1, config.1⟩

/-! ## Several shards -/

structure ShardedDelta where
  /-- The deltas of the shards that changed. -/
  shardDeltas : List (Nat × IndexDelta)
  /-- The new `_shard_config.json`, if any. -/
  shardConfig : Option Bytes
  numShards : Nat
deriving DecidableEq, Repr

/-- The magic of a sharded delta, `LUCIDS`. -/
def shardedDeltaMagic : Bytes := deltaMagic ++ [0x53]

/-- The delta of one shard, a blob of its own. -/
def readShardDelta (data : Bytes) (pos : Nat) : Except String ((Nat × IndexDelta) × Nat) := do
  let shardId ← readU32 data pos
  let blobLen ← readU32 data shardId.2
  let shard := shardId.1
  let blob ← takeBytes data blobLen.2 blobLen.1 s!"sharded delta truncated: shard {shard} data"
  let delta ← deserializeDelta blob.1
  .ok ((shardId.1, delta), blob.2)

def deserializeShardedDelta (data : Bytes) : Except String ShardedDelta :=
  if data.length < 14 then .error "sharded delta too small"
  else if data.take 6 ≠ shardedDeltaMagic then
    .error "invalid sharded delta: bad magic (expected LUCIDS)"
  else do
    let version ← readU32 data 6
    if version.1 ≠ 1 then
      let v := version.1
      .error s!"unsupported sharded delta version: {v}"
    else
      let numShards ← readU32 data version.2
      let shardConfig ← readConfig data numShards.2 "sharded delta truncated: missing has_config"
        "sharded delta truncated: config data"
      let numDeltas ← readU32 data shardConfig.2
      let shardDeltas ← readMany (readShardDelta data) numDeltas.1 numDeltas.2
      .ok ⟨shardDeltas.1, shardConfig.1, numShards.1⟩

end Lucivy.Lucistore
