import Mathlib.Data.List.Basic

/-! # Prescans that stop at the match cap

`note_truncated` and `take_truncated_here` (`briques/resolve.rs`) under the prescans of the leaves
(`prescan_one` in `contains_query_v3.rs` and in the regex and fuzzy queries), and
`prescan_truncated` over a query tree. A thread has one flag for all prescans that it runs, and
while it waits for a shared result (`MemoCell::wait_done`) it runs other tasks inside the prescan.

* `Work.run` — what one thread does. Threads share the leaves' flags only, which nobody takes back.
* `Work.orderly` — no prescan loses its note to another, or takes one that is not its own.
* `report_exact_iff` — **when a query reports that an answer is cut**: on orderly threads a leaf
  always does, and a composite query is right only if no leaf was cut. -/

namespace Lucivy.Query.TruncatedPrescan

open List

/-- What a thread does, in order. -/
inductive Work where
  | done
  /-- A resolution stops at the cap, of the prescan that runs or of another task inside it. -/
  | notes (own : Bool) (rest : Work)
  /-- A prescan of a leaf, with all that the thread does in it. A regex leaf that `failed` does not
  take the flag. -/
  | prescan (leaf : Nat) (failed : Bool) (inner rest : Work)

/-- The thread's flag in the end, and the leaves whose flag is stored. -/
def Work.run : Work → Bool → Bool × List Nat
  | .done, flag => (flag, [])
  | .notes _ rest, _ => rest.run true
  | .prescan leaf failed inner rest, _ =>
    let (flag, stored) := inner.run false
    let (last, more) := rest.run (failed && flag)
    (last, (if !failed && flag then [leaf] else []) ++ stored ++ more)

/-- A resolution of the prescan itself stops at the cap. -/
def Work.isCut : Work → Bool
  | .done => false
  | .notes own rest => own || rest.isCut
  | .prescan _ _ _ rest => rest.isCut

/-- The leaves with a prescan that was cut. -/
def Work.cuts : Work → List Nat
  | .done => []
  | .notes _ rest => rest.cuts
  | .prescan leaf _ inner rest => (if inner.isCut then [leaf] else []) ++ inner.cuts ++ rest.cuts

/-- Inside a prescan: only its own resolutions stop at the cap, and once one has (`noted`) no other
prescan begins before the flag is taken. -/
def Work.undisturbed : Work → Bool → Bool
  | .done, _ => true
  | .notes own rest, _ => own && rest.undisturbed true
  | .prescan _ failed inner rest, noted =>
    !noted && !failed && inner.undisturbed false && rest.undisturbed false

/-- All prescans of a thread are undisturbed, and none fails. -/
def Work.orderly : Work → Bool
  | .done => true
  | .notes _ rest => rest.orderly
  | .prescan _ failed inner rest => !failed && inner.undisturbed false && rest.orderly

/-- **The flag behind an undisturbed prescan says whether it was cut**, and so for those inside. -/
theorem Work.run_of_undisturbed {work : Work} {noted : Bool} (h : work.undisturbed noted = true) :
    work.run noted = (noted || work.isCut, work.cuts) := by
  induction work generalizing noted with
  | done => simp [run, isCut, cuts]
  | notes own rest ih =>
    obtain ⟨rfl, hrest⟩ : own = true ∧ rest.undisturbed true = true := by
      simpa [undisturbed] using h
    simp [run, ih hrest, isCut, cuts]
  | prescan leaf failed inner rest hinner hrest =>
    obtain ⟨⟨⟨rfl, rfl⟩, hin⟩, hre⟩ : ((noted = false ∧ failed = false) ∧
        inner.undisturbed false = true) ∧ rest.undisturbed false = true := by
      simpa [undisturbed] using h
    simp [run, hinner hin, hrest hre, isCut, cuts]

/-- An orderly thread stores the flags of the leaves that were cut. -/
theorem Work.stored_of_orderly {work : Work} (h : work.orderly = true) (flag : Bool) :
    (work.run flag).2 = work.cuts := by
  induction work generalizing flag with
  | done => rfl
  | notes own rest ih => exact ih h true
  | prescan leaf failed inner rest _ hrest =>
    obtain ⟨⟨rfl, hin⟩, hre⟩ : (failed = false ∧ inner.undisturbed false = true) ∧
        rest.orderly = true := by
      simpa [orderly] using h
    simp [run, run_of_undisturbed hin, hrest hre, cuts]

inductive QueryTree where
  | leaf (id : Nat)
  | boolean (subqueries : List QueryTree)
  | disjunctionMax (disjuncts : List QueryTree)

mutual

def QueryTree.leaves : QueryTree → List Nat
  | .leaf id => [id]
  | .boolean subqueries => leavesOf subqueries
  | .disjunctionMax disjuncts => leavesOf disjuncts

def leavesOf : List QueryTree → List Nat
  | [] => []
  | query :: queries => query.leaves ++ leavesOf queries

end

/-- `prescan_truncated` of a `Box<dyn Query>`, which does not pass the call on: it is the default
of the trait. -/
def boxPrescanTruncated (_ : QueryTree) : Bool := false

/-- `prescan_truncated`; a Boolean query asks the boxes of its subqueries, `DisjunctionMaxQuery` has
the default of the trait itself. -/
def QueryTree.prescanTruncated (stored : List Nat) : QueryTree → Bool
  | .leaf id => stored.contains id
  | .boolean subqueries => subqueries.any boxPrescanTruncated
  | .disjunctionMax _ => false

def QueryTree.isLeaf : QueryTree → Bool
  | .leaf _ => true
  | .boolean _ => false
  | .disjunctionMax _ => false

/-- The leaves whose flag is stored, over all threads. -/
def storedLeaves (threads : List (Bool × Work)) : List Nat :=
  threads.flatMap fun thread => (thread.2.run thread.1).2

/-- The leaves that were cut on some thread. -/
def cutLeaves (threads : List (Bool × Work)) : List Nat :=
  threads.flatMap fun thread => thread.2.cuts

/-- **When the report is right**, however the threads run prescans inside each other as long as they
are orderly: for a leaf always, for a composite query only if none of its leaves was cut. -/
theorem report_exact_iff (threads : List (Bool × Work)) (query : QueryTree)
    (h : ∀ thread ∈ threads, thread.2.orderly = true) :
    (query.prescanTruncated (storedLeaves threads) = true ↔
        ∃ leaf ∈ query.leaves, leaf ∈ cutLeaves threads) ↔
      query.isLeaf = true ∨ ∀ leaf ∈ query.leaves, leaf ∉ cutLeaves threads := by
  have hstored : storedLeaves threads = cutLeaves threads :=
    flatMap_congr fun thread hthread => Work.stored_of_orderly (h thread hthread) thread.1
  rw [hstored]
  cases query with
  | leaf id => simp [QueryTree.prescanTruncated, QueryTree.leaves, QueryTree.isLeaf]
  | boolean subqueries =>
    simp [QueryTree.prescanTruncated, boxPrescanTruncated, QueryTree.isLeaf]
  | disjunctionMax disjuncts => simp [QueryTree.prescanTruncated, QueryTree.isLeaf]

/-- Leaf 0 waits and runs a prescan of leaf 1 before it is cut. -/
theorem report_exact_waiting_leaf :
    let threads := [(true, Work.prescan 0 false
      (.prescan 1 false .done (.notes true .done)) (.prescan 1 false .done .done))]
    (∀ thread ∈ threads, thread.2.orderly = true) ∧ 0 ∈ cutLeaves threads ∧
      QueryTree.prescanTruncated (storedLeaves threads) (.leaf 0) = true :=
  ⟨by decide, by decide,
    ((report_exact_iff _ (.leaf 0) (by decide)).mpr (.inl rfl)).mpr ⟨0, by decide, by decide⟩⟩

/-- **A Boolean query reports nothing**: its leaf was cut. -/
theorem boolean_reports_nothing :
    let threads := [(false, Work.prescan 0 false (.notes true .done) .done)]
    QueryTree.prescanTruncated (storedLeaves threads) (.boolean [.leaf 0]) = false ∧
      0 ∈ cutLeaves threads := by
  decide

-- a prescan inside another takes its note: leaf 0 is cut before its thread waits
example :
    let threads :=
      [(false, Work.prescan 0 false (.notes true (.prescan 1 false .done .done)) .done)]
    QueryTree.prescanTruncated (storedLeaves threads) (.leaf 0) = false ∧
      0 ∈ cutLeaves threads := by
  decide

end Lucivy.Query.TruncatedPrescan
