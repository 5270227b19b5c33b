import Mathlib.Data.List.Basic

/-! # The writer of a shard

What `IndexWriter` does with the documents and deletes of one shard. Every operation takes a
stamp from one counter; a delete waits in the delete queue and removes, when the segments are
committed, the documents whose stamp is below its own. The indexer threads and the segments they
cut are not modelled: whatever segment a document goes to, only its stamp decides.

* `ShardWriter` — the writer, whose stamps are all behind its counter.
* `ShardWriter.contents` — what a commit would publish now.
* `contents_addDocument`, `contents_deleteTerm`, `committed_commit` — in these terms the
  operations act one after the other, as they were given. -/

namespace Lucivy.Sharded

open List hiding beq_eq_decide

variable {α : Type}

/-- A document, as far as its node id tells it apart from the others. -/
structure Document (α : Type) where
  /-- The `_node_id` field, stamped by `stamp_node_id`. -/
  nodeId : Nat
  /-- Everything else. -/
  content : α
deriving DecidableEq, Repr

structure AddOperation (α : Type) where
  opstamp : Nat
  document : Document α

/-- `DeleteOperation`, its target being the term of a node id. -/
structure DeleteOperation where
  opstamp : Nat
  nodeId : Nat

/-- **The writer of a shard.** -/
structure ShardWriter (α : Type) where
  /-- The next stamp of the `Stamper`. -/
  stamp : Nat
  /-- `index_writer_status`: no indexer has given up. -/
  alive : Bool
  /-- Every indexer's mailbox takes messages. -/
  reachable : Bool
  /-- Documents given to the indexers since the last commit. -/
  adds : List (AddOperation α)
  /-- Deletes since the last commit; the cursors of the committed segments stand before them. -/
  deleteQueue : List DeleteOperation
  committed : List (Document α)
  /-- Stamps are given out in order. -/
  adds_lt : ∀ op ∈ adds, op.opstamp < stamp
  /-- Stamps are given out in order. -/
  deletes_lt : ∀ op ∈ deleteQueue, op.opstamp < stamp

namespace ShardWriter

/-- The writer of an empty shard. -/
def create : ShardWriter α :=
  ⟨0, true, true, [], [], [], fun _ h => absurd h not_mem_nil, fun _ h => absurd h not_mem_nil⟩

/-- `advance_deletes` on a committed document: every delete behind the cursor counts. -/
def keepsCommitted (w : ShardWriter α) (doc : Document α) : Bool :=
  w.deleteQueue.all fun op => op.nodeId != doc.nodeId

/-- `apply_deletes` on a new document: a delete counts if the document was there before it
(`DocToOpstampMapping::is_deleted`). -/
def keepsAdded (w : ShardWriter α) (add : AddOperation α) : Bool :=
  w.deleteQueue.all fun op => op.nodeId != add.document.nodeId || !decide (add.opstamp < op.opstamp)

/-- What a commit would publish now. -/
def contents (w : ShardWriter α) : List (Document α) :=
  w.committed.filter w.keepsCommitted ++ (w.adds.filter w.keepsAdded).map AddOperation.document

/-- `send_add_documents_batch` takes a document: the status is checked, then it is sent. -/
def takesDocuments (w : ShardWriter α) : Bool := w.alive && w.reachable

def addDocument (w : ShardWriter α) (doc : Document α) : ShardWriter α where
  stamp := w.stamp + 1
  alive := w.alive
  reachable := w.reachable
  adds := w.adds ++ [⟨w.stamp, doc⟩]
  deleteQueue := w.deleteQueue
  committed := w.committed
  adds_lt op hop := by
    rcases mem_append.mp hop with h | h
    · exact Nat.lt_succ_of_lt (w.adds_lt op h)
    · rw [mem_singleton.mp h]
      exact Nat.lt_succ_self _
  deletes_lt op hop := Nat.lt_succ_of_lt (w.deletes_lt op hop)

/-- `delete_term` on the term of a node id. -/
def deleteTerm (w : ShardWriter α) (nodeId : Nat) : ShardWriter α where
  stamp := w.stamp + 1
  alive := w.alive
  reachable := w.reachable
  adds := w.adds
  deleteQueue := w.deleteQueue ++ [⟨w.stamp, nodeId⟩]
  committed := w.committed
  adds_lt op hop := Nat.lt_succ_of_lt (w.adds_lt op hop)
  deletes_lt op hop := by
    rcases mem_append.mp hop with h | h
    · exact Nat.lt_succ_of_lt (w.deletes_lt op h)
    · rw [mem_singleton.mp h]
      exact Nat.lt_succ_self _

/-- `finalize_flush_and_prepare`, then the commit: the new segments are published and every
delete is applied. -/
def commit (w : ShardWriter α) : ShardWriter α where
  stamp := w.stamp + 1
  alive := w.alive
  reachable := w.reachable
  adds := []
  deleteQueue := []
  committed := w.contents
  adds_lt _ h := absurd h not_mem_nil
  deletes_lt _ h := absurd h not_mem_nil

/-- A document is added behind the others: the deletes in the queue have smaller stamps. -/
theorem contents_addDocument (w : ShardWriter α) (doc : Document α) :
    (w.addDocument doc).contents = w.contents ++ [doc] := by
  have hnew : (w.addDocument doc).keepsAdded ⟨w.stamp, doc⟩ = true := by
    simp only [keepsAdded, all_eq_true]
    intro op hop
    have := w.deletes_lt op hop
    simp [Nat.le_of_lt this]
  have hold : (w.addDocument doc).keepsAdded = w.keepsAdded := rfl
  rw [contents, show (w.addDocument doc).adds = w.adds ++ [⟨w.stamp, doc⟩] from rfl,
    filter_append, filter_cons_of_pos hnew, map_append,
    ← append_assoc]
  rfl

/-- A delete removes the documents of its node id: all of them have smaller stamps. -/
theorem contents_deleteTerm (w : ShardWriter α) (nodeId : Nat) :
    (w.deleteTerm nodeId).contents = w.contents.filter (·.nodeId ≠ nodeId) := by
  have hcommitted : ∀ doc ∈ w.committed, (w.deleteTerm nodeId).keepsCommitted doc =
      (decide (doc.nodeId ≠ nodeId) && w.keepsCommitted doc) := by
    simp [keepsCommitted, deleteTerm, Bool.and_comm, eq_comm, bne, beq_eq_decide]
  have hadded : ∀ add ∈ w.adds, (w.deleteTerm nodeId).keepsAdded add =
      (decide (add.document.nodeId ≠ nodeId) && w.keepsAdded add) := by
    intro add hadd
    have := w.adds_lt add hadd
    simp [keepsAdded, deleteTerm, Bool.and_comm, eq_comm, bne, beq_eq_decide, this]
  rw [contents, contents, filter_append, filter_map, filter_filter, filter_filter]
  exact congrArg₂ _ (filter_congr hcommitted) (congrArg _ (filter_congr hadded))

/-- A commit publishes what there is and changes nothing else. -/
@[simp] theorem contents_commit (w : ShardWriter α) : w.commit.contents = w.contents := by
  rw [contents, show w.commit.adds = [] from rfl, filter_nil, map_nil, append_nil]
  exact filter_eq_self.mpr fun _ _ => rfl

end ShardWriter

end Lucivy.Sharded
