import Lucivy.Luciole.Dag

/-! # The runners of a graph

`runtime.rs` runs a graph in five ways: `execute_sequential`, `execute_dag` with its levels
inline or as tasks, `execute_dag_with_checkpoint` and the actor of `execute_dag_async`. They
share how a node gets its inputs and leaves its outputs, and differ in which nodes they skip
and in when they collect.

* `collectInputs`, `triggerUnsatisfied`, `executeSingleNode` — one node.
* `executeInline`, `executeTasks`, `executeUnlessSkipped` — a level, or a node of it.
* `Runner.execute` — a whole graph.
* `executeTasks_spec` — when collecting all inputs of a level first changes nothing.
* `runners_agree` — when the five runners do the same.
* `runners_differ` — where they do not. -/

namespace Lucivy.Luciole

open List

variable {V : Type}

/-- The state of a run. -/
structure RunState (V : Type) where
  portData : PortKey → Option V
  /-- How many edges have still to read a port. -/
  consumerCounts : PortKey → Nat
  /-- The nodes executed so far, with their inputs. -/
  executed : List (String × Ports V)

/-- What a run comes to; if it fails, its error and the state it leaves. -/
abbrev Outcome (V : Type) := Except (String × RunState V)

/-! ## One node -/

/-- Whether an edge leads to the port. -/
def hasEdge (edges : List DagEdge) (node port : String) : Bool :=
  edges.any fun e => e.toNode == node && e.toPort == port

/-- The second loop of `collect_inputs`: an edge into the node copies the value of its source
port, and the last edge that reads the port takes it. -/
def takeEdge (node : String) (c : Ports V × RunState V) (e : DagEdge) : Ports V × RunState V :=
  if e.toNode = node then
    let key := (e.fromNode, e.fromPort)
    let count := c.2.consumerCounts key - 1
    (fun p => if p = e.toPort then (c.2.portData key).or (c.1 p) else c.1 p,
      { c.2 with
        portData := fun k => if count = 0 ∧ k = key then none else c.2.portData k
        consumerCounts := Function.update c.2.consumerCounts key count })
  else c

/-- `collect_inputs`: first the values put on ports no edge leads to, then the edges. -/
def collectInputs (edges : List DagEdge) (node : String) (s : RunState V) :
    Ports V × RunState V :=
  edges.foldl (takeEdge node)
    (fun p => if hasEdge edges node p then none else s.portData (node, p),
      { s with
        portData := fun k =>
          if k.1 = node ∧ hasEdge edges node k.2 = false then none else s.portData k })

/-- Some required trigger of the node was not fired. -/
def triggerUnsatisfied (edges : List DagEdge) (n : Node V) (s : RunState V) : Bool :=
  n.inputs.any fun port => port.required && port.portType == .trigger &&
    !edges.any fun e => e.toNode == n.name && e.toPort == port.name &&
      (s.portData (e.fromNode, e.fromPort)).isSome

/-- A node leaves its outputs on its ports. -/
def RunState.store (s : RunState V) (node : String) (outputs : Ports V) : RunState V :=
  { s with
    portData := fun k => if k.1 = node then (outputs k.2).or (s.portData k) else s.portData k }

/-- A node takes its inputs, to be executed with them. -/
def takeInputs (edges : List DagEdge) (n : Node V) (s : RunState V) : Ports V × RunState V :=
  let c := collectInputs edges n.name s
  (c.1, { c.2 with executed := c.2.executed ++ [(n.name, c.1)] })

/-- What an execution comes to. -/
def finish (s : RunState V) (t : Node V × Ports V) : Outcome V (RunState V) :=
  match t.1.execute t.2 with
  | .ok outputs => .ok (s.store t.1.name outputs)
  | .error e => .error ("node '" ++ t.1.name ++ "' failed: " ++ e, s)

/-- `execute_single_node`. It does not look at the triggers. -/
def executeSingleNode (edges : List DagEdge) (s : RunState V) (n : Node V) :
    Outcome V (RunState V) :=
  let c := takeInputs edges n s
  finish c.2 (n, c.1)

/-! ## One level -/

/-- A level inline. -/
def executeInline (edges : List DagEdge) (level : List (Node V)) (s : RunState V) :
    Outcome V (RunState V) :=
  level.foldlM (executeSingleNode edges) s

/-- The first loop of `execute_level_parallel` and of `schedule_level`: the inputs of the nodes
that are not skipped. -/
def takeLevel (edges : List DagEdge) :
    List (Node V) → RunState V → List (Node V × Ports V) × RunState V
  | [], s => ([], s)
  | n :: level, s =>
    if triggerUnsatisfied edges n s then takeLevel edges level s
    else
      let c := takeInputs edges n s
      let r := takeLevel edges level c.2
      ((n, c.1) :: r.1, r.2)

/-- A level as tasks, in `execute_level_parallel` and in the actor of `execute_dag_async`: all
nodes taken are executed, and their outputs are stored up to the first failure. -/
def executeTasks (edges : List DagEdge) (level : List (Node V)) (s : RunState V) :
    Outcome V (RunState V) :=
  let r := takeLevel edges level s
  r.1.foldlM finish r.2

/-- A node of `execute_dag_with_checkpoint`. -/
def executeUnlessSkipped (edges : List DagEdge) (s : RunState V) (n : Node V) :
    Outcome V (RunState V) :=
  if triggerUnsatisfied edges n s then .ok s else executeSingleNode edges s n

/-! ## A graph -/

/-- The runners. -/
inductive Runner
  /-- `execute_dag`; `here` if it is called on a scheduler thread, in a handler or in a wait. -/
  | dag (here : Bool)
  /-- `execute_sequential`. -/
  | sequential
  /-- `execute_dag_with_checkpoint`, nothing being checkpointed. -/
  | checkpoint
  /-- `execute_dag_async`. -/
  | async

/-- How each runs a level. -/
def Runner.runLevel (edges : List DagEdge) (r : Runner) (s : RunState V)
    (level : List (Node V)) : Outcome V (RunState V) :=
  match r with
  | .dag here =>
    if here || level.length == 1 then executeInline edges level s
    else executeTasks edges level s
  | .sequential => executeInline edges level s
  | .checkpoint => level.foldlM (executeUnlessSkipped edges) s
  | .async => executeTasks edges level s

/-- The state each begins with. `execute_dag_with_checkpoint` leaves the initial inputs. -/
def Runner.start (d : Dag V) (r : Runner) : RunState V where
  portData := match r with
    | .checkpoint => fun _ => none
    | _ => d.initialInputs
  consumerCounts key := d.edges.countP fun e => (e.fromNode, e.fromPort) = key
  executed := []

/-- A run of the graph. -/
def Runner.execute (d : Dag V) (r : Runner) : Outcome V (RunState V) :=
  match d.topologicalLevels with
  | .error e => .error (e, r.start d)
  | .ok levels => (levels.map d.level).foldlM (r.runLevel d.edges) (r.start d)

/-! ## Outputs of a level are not read in it -/

section Store

variable {edges : List DagEdge} {a : Node V}

theorem takeEdge_store {node : String} {c : Ports V × RunState V} {e : DagEdge}
    (he : e.toNode = node → e.fromNode ≠ a.name) (outputs : Ports V) :
    takeEdge node (c.1, c.2.store a.name outputs) e =
      ((takeEdge node c e).1, (takeEdge node c e).2.store a.name outputs) := by
  unfold takeEdge
  by_cases hto : e.toNode = node
  · rw [if_pos hto, if_pos hto]
    have hfrom := he hto
    refine Prod.ext (funext fun p => ?_) ?_
    · simp [RunState.store, hfrom]
    · simp only [RunState.store]
      congr 1
      funext k
      -- the port read is not one of `a`
      by_cases hk : k.1 = a.name
      · have hne : k ≠ (e.fromNode, e.fromPort) := by
          rintro rfl
          exact hfrom hk
        simp [hne]
      · simp [hk]
  · rw [if_neg hto, if_neg hto]

section

variable {b : Node V} (h : Independent edges a b) (s : RunState V) (outputs : Ports V)
include h

theorem collectInputs_store :
    collectInputs edges b.name (s.store a.name outputs) =
      ((collectInputs edges b.name s).1,
        (collectInputs edges b.name s).2.store a.name outputs) := by
  have hfold : ∀ (es : List DagEdge) (c : Ports V × RunState V), (∀ e ∈ es, e ∈ edges) →
      es.foldl (takeEdge b.name) (c.1, c.2.store a.name outputs) =
        ((es.foldl (takeEdge b.name) c).1,
          (es.foldl (takeEdge b.name) c).2.store a.name outputs) := by
    intro es
    induction es with
    | nil => exact fun _ _ => rfl
    | cons e es ih =>
      intro c hes
      rw [foldl_cons, foldl_cons, takeEdge_store (h.2 e (hes e mem_cons_self))]
      exact ih _ fun e' he' => hes e' (mem_cons_of_mem _ he')
  unfold collectInputs
  rw [← hfold edges _ fun _ => id]
  congr 1
  refine Prod.ext (funext fun p => ?_) ?_
  · simp [RunState.store, h.1.symm]
  · simp only [RunState.store]
    congr 1
    funext k
    by_cases hk : k.1 = b.name
    · have hne : k.1 ≠ a.name := fun hka => h.1 (hka ▸ hk)
      simp [hne]
    · simp [hk]

theorem takeInputs_store :
    takeInputs edges b (s.store a.name outputs) =
      ((takeInputs edges b s).1, (takeInputs edges b s).2.store a.name outputs) := by
  rw [takeInputs, collectInputs_store h]
  rfl

theorem triggerUnsatisfied_store :
    triggerUnsatisfied edges b (s.store a.name outputs) = triggerUnsatisfied edges b s := by
  unfold triggerUnsatisfied
  congr 1
  funext port
  congr 2
  rw [Bool.eq_iff_iff, any_eq_true, any_eq_true]
  refine exists_congr fun e => and_congr_right fun he => ?_
  by_cases hto : e.toNode = b.name
  · simp [RunState.store, h.2 e he hto]
  · simp [hto]

end

/-- Taking the inputs of a level, before or after `a` has left its outputs. -/
theorem takeLevel_store {level : List (Node V)} (h : ∀ b ∈ level, Independent edges a b)
    (s : RunState V) (outputs : Ports V) :
    takeLevel edges level (s.store a.name outputs) =
      ((takeLevel edges level s).1, (takeLevel edges level s).2.store a.name outputs) := by
  induction level generalizing s with
  | nil => rfl
  | cons b level ih =>
    have hb := h b mem_cons_self
    have hlevel := ih fun b' hb' => h b' (mem_cons_of_mem _ hb')
    rw [takeLevel, takeLevel, triggerUnsatisfied_store hb, takeInputs_store hb]
    split
    · exact hlevel s
    · dsimp only
      rw [hlevel]

end Store

/-! ## Agreement -/

/-- In an inline run, every node finds its required triggers fired. -/
def FiredInTurn (edges : List DagEdge) (nodes : List (Node V)) (s : RunState V) : Prop :=
  ∀ done n rest, nodes = done ++ n :: rest → ∀ t, executeInline edges done s = .ok t →
    triggerUnsatisfied edges n t = false

variable {s : RunState V} {level : List (Node V)}

theorem FiredInTurn.head {edges : List DagEdge} {n : Node V} {nodes : List (Node V)}
    (h : FiredInTurn edges (n :: nodes) s) : triggerUnsatisfied edges n s = false :=
  h [] n nodes rfl s rfl

theorem FiredInTurn.of_append {edges : List DagEdge} (first : List (Node V))
    {rest : List (Node V)} {s t : RunState V} (h : FiredInTurn edges (first ++ rest) s)
    (ht : executeInline edges first s = .ok t) : FiredInTurn edges rest t := by
  rintro done n more rfl u hu
  refine h (first ++ done) n more (append_assoc ..).symm u ?_
  rw [executeInline, foldlM_append, ← executeInline, ht]
  exact hu

theorem FiredInTurn.append_left {edges : List DagEdge} {first rest : List (Node V)}
    (h : FiredInTurn edges (first ++ rest) s) : FiredInTurn edges first s := by
  rintro done n more rfl
  exact h done n (more ++ rest) (by rw [append_assoc, cons_append])

/-- **In an inline run of a level, a node that fails is the last that would run**: it succeeds on
the inputs it takes in its turn, or no node behind it finds its triggers fired. -/
def SucceedInTurn (edges : List DagEdge) (level : List (Node V)) (s : RunState V) : Prop :=
  ∀ done n rest, level = done ++ n :: rest → ∀ t, executeInline edges done s = .ok t →
    (∃ outputs, n.execute (takeInputs edges n t).1 = .ok outputs) ∨
      (takeLevel edges rest (takeInputs edges n t).2).1 = []

variable {edges : List DagEdge}

/-- A node that takes its inputs is noted. -/
theorem takeInputs_executed (n : Node V) (s : RunState V) :
    (takeInputs edges n s).2.executed = s.executed ++ [(n.name, (takeInputs edges n s).1)] := by
  have hcollect : (collectInputs edges n.name s).2.executed = s.executed := by
    unfold collectInputs
    refine foldlRecOn (motive := fun c : Ports V × RunState V => c.2.executed = s.executed) edges _
      rfl fun c hc e _ => ?_
    rw [takeEdge]
    split <;> exact hc
  exact congrArg (· ++ _) hcollect

/-- Taking the inputs of a level notes the nodes that are taken. -/
theorem takeLevel_executed (level : List (Node V)) (s : RunState V) :
    (takeLevel edges level s).2.executed =
      s.executed ++ (takeLevel edges level s).1.map fun t => (t.1.name, t.2) := by
  induction level generalizing s with
  | nil => exact (append_nil _).symm
  | cons n level ih =>
    rw [takeLevel]
    split
    · exact ih s
    · dsimp only
      rw [ih, takeInputs_executed, append_assoc]
      rfl

/-- A level that takes no node leaves the state as it is. -/
theorem takeLevel_of_nil {level : List (Node V)} {s : RunState V}
    (h : (takeLevel edges level s).1 = []) : (takeLevel edges level s).2 = s := by
  induction level with
  | nil => rfl
  | cons n level ih =>
    rw [takeLevel] at h ⊢
    split
    · next hskip =>
      rw [if_pos hskip] at h
      exact ih h
    · next hskip =>
      rw [if_neg hskip] at h
      cases h

section Cons

variable {n : Node V} {nodes : List (Node V)}

/-- Behind a node that succeeds, an inline run goes on from its outputs. -/
theorem executeInline_cons_ok {outputs : Ports V}
    (hrun : n.execute (takeInputs edges n s).1 = .ok outputs) :
    executeInline edges (n :: nodes) s =
      executeInline edges nodes ((takeInputs edges n s).2.store n.name outputs) := by
  rw [executeInline, foldlM_cons, executeSingleNode, finish, hrun]
  rfl

/-- A node that fails ends an inline run. -/
theorem executeInline_cons_error {e : String}
    (hrun : n.execute (takeInputs edges n s).1 = .error e) :
    executeInline edges (n :: nodes) s =
      .error ("node '" ++ n.name ++ "' failed: " ++ e, (takeInputs edges n s).2) := by
  rw [executeInline, foldlM_cons, executeSingleNode, finish, hrun]
  rfl

theorem succeedInTurn_cons_ok {outputs : Ports V}
    (hrun : n.execute (takeInputs edges n s).1 = .ok outputs) :
    SucceedInTurn edges (n :: level) s ↔
      SucceedInTurn edges level ((takeInputs edges n s).2.store n.name outputs) := by
  constructor
  · rintro h done m rest rfl t ht
    exact h (n :: done) m rest rfl t ((executeInline_cons_ok hrun).trans ht)
  · rintro h (_ | ⟨m, done⟩) n' rest heq t ht
    · cases heq
      cases ht
      exact .inl ⟨outputs, hrun⟩
    · obtain ⟨rfl, hlevel⟩ := cons.inj heq
      exact h done n' rest hlevel t ((executeInline_cons_ok hrun).symm.trans ht)

theorem succeedInTurn_cons_error {e : String}
    (hrun : n.execute (takeInputs edges n s).1 = .error e) :
    SucceedInTurn edges (n :: level) s ↔
      (takeLevel edges level (takeInputs edges n s).2).1 = [] := by
  constructor
  · intro h
    refine (h [] n level rfl s rfl).resolve_left ?_
    rintro ⟨outputs, hout⟩
    rw [hrun] at hout
    cases hout
  · rintro h (_ | ⟨m, done⟩) n' rest heq t ht
    · cases heq
      cases ht
      exact .inr h
    · obtain ⟨rfl, -⟩ := cons.inj heq
      rw [executeInline_cons_error hrun] at ht
      cases ht

/-- A level of one node has no other that could run. -/
theorem succeedInTurn_singleton (n : Node V) (s : RunState V) : SucceedInTurn edges [n] s := by
  cases hrun : n.execute (takeInputs edges n s).1 with
  | ok outputs => exact (succeedInTurn_cons_ok hrun).mpr fun done m rest h => by simp at h
  | error e => exact (succeedInTurn_cons_error hrun).mpr rfl

end Cons

/-- Two runs fail, and not in the same way. -/
def FailApart (o o' : Outcome V (RunState V)) : Prop :=
  ∃ e e', o = .error e ∧ o' = .error e' ∧ e' ≠ e

/-- **Collecting first.** A level of independent nodes, none of them skipped in turn, comes to the
same inline and as tasks if a node that fails is the last that would run, and else to another
error. -/
theorem executeTasks_spec (hlevel : level.Pairwise (Independent edges))
    (hfired : FiredInTurn edges level s) :
    (SucceedInTurn edges level s ∧ executeTasks edges level s = executeInline edges level s) ∨
      (¬ SucceedInTurn edges level s ∧
        FailApart (executeInline edges level s) (executeTasks edges level s)) := by
  induction level generalizing s with
  | nil => exact .inl ⟨fun done n rest h => by simp at h, rfl⟩
  | cons n level ih =>
    obtain ⟨hn, hlevel⟩ := pairwise_cons.mp hlevel
    have htasks : executeTasks edges (n :: level) s =
        ((n, (takeInputs edges n s).1) :: (takeLevel edges level (takeInputs edges n s).2).1).foldlM
          finish (takeLevel edges level (takeInputs edges n s).2).2 := by
      rw [executeTasks, takeLevel, if_neg (Bool.eq_false_iff.mp hfired.head)]
    rw [htasks, foldlM_cons, finish]
    cases hrun : n.execute (takeInputs edges n s).1 with
    | ok outputs =>
      -- the others take the same inputs after `n` has left its outputs
      have hrest := ih hlevel (FiredInTurn.of_append [n] hfired (executeInline_cons_ok hrun))
      rw [executeTasks, takeLevel_store hn] at hrest
      rw [succeedInTurn_cons_ok hrun, executeInline_cons_ok hrun]
      exact hrest
    | error e =>
      rw [succeedInTurn_cons_error hrun, executeInline_cons_error hrun]
      by_cases hnone : (takeLevel edges level (takeInputs edges n s).2).1 = []
      · exact .inl ⟨hnone, by rw [takeLevel_of_nil hnone]; rfl⟩
      · -- the nodes behind are noted as tasks, and not inline
        refine .inr ⟨hnone, _, _, rfl, rfl, fun heq => hnone ?_⟩
        have hstate := congrArg (·.2.executed) heq
        dsimp only at hstate
        rw [takeLevel_executed, append_right_eq_self] at hstate
        exact map_eq_nil_iff.mp hstate

/-- A level that skips nothing. -/
theorem foldlM_executeUnlessSkipped (hfired : FiredInTurn edges level s) :
    level.foldlM (executeUnlessSkipped edges) s = executeInline edges level s := by
  induction level generalizing s with
  | nil => rfl
  | cons n level ih =>
    rw [executeInline, foldlM_cons, foldlM_cons, executeUnlessSkipped,
      if_neg (Bool.eq_false_iff.mp hfired.head)]
    cases hone : executeSingleNode edges s n with
    | error e => rfl
    | ok t =>
      refine ih (FiredInTurn.of_append [n] hfired ?_)
      rw [executeInline, foldlM_cons, hone]
      rfl

/-- Nodes run level by level. -/
theorem foldlM_flatten (step : RunState V → Node V → Outcome V (RunState V))
    (levels : List (List (Node V))) (s : RunState V) :
    levels.flatten.foldlM step s = levels.foldlM (fun s level => level.foldlM step s) s := by
  induction levels generalizing s with
  | nil => rfl
  | cons level levels ih =>
    rw [flatten_cons, foldlM_append, foldlM_cons]
    exact bind_congr fun t => ih t

/-- In turn, each level of an inline run succeeds. -/
def LevelsSucceed (edges : List DagEdge) : List (List (Node V)) → RunState V → Prop
  | [], _ => True
  | level :: levels, s => SucceedInTurn edges level s ∧
      ∀ t, executeInline edges level s = .ok t → LevelsSucceed edges levels t

/-- What a level comes to where inline and as tasks it is the same. -/
theorem runLevel_eq (r : Runner) (hfired : FiredInTurn edges level s)
    (htasks : executeTasks edges level s = executeInline edges level s) :
    r.runLevel edges s level = executeInline edges level s := by
  cases r with
  | dag here =>
    rw [Runner.runLevel]
    split
    · rfl
    · exact htasks
  | sequential => rfl
  | checkpoint => exact foldlM_executeUnlessSkipped hfired
  | async => exact htasks

/-- **The levels of a run** whose nodes find their triggers fired: all runners come to what an
inline run comes to, or a node fails before others of its level and the actor's error is another. -/
theorem foldlM_runLevel_spec {levels : List (List (Node V))}
    (hlevels : ∀ level ∈ levels, level.Pairwise (Independent edges))
    (hfired : FiredInTurn edges levels.flatten s) :
    (LevelsSucceed edges levels s ∧ ∀ r : Runner,
        levels.foldlM (r.runLevel edges) s = executeInline edges levels.flatten s) ∨
      (¬ LevelsSucceed edges levels s ∧ FailApart (executeInline edges levels.flatten s)
        (levels.foldlM (Runner.async.runLevel edges) s)) := by
  induction levels generalizing s with
  | nil => exact .inl ⟨trivial, fun _ => rfl⟩
  | cons level levels ih =>
    have hcons : executeInline edges (level :: levels).flatten s =
        executeInline edges level s >>= executeInline edges levels.flatten := by
      rw [flatten_cons, executeInline, foldlM_append]
      rfl
    simp only [foldlM_cons, hcons, LevelsSucceed]
    rcases executeTasks_spec (hlevels level mem_cons_self) hfired.append_left with
      ⟨hturn, htasks⟩ | ⟨hturn, e, e', hinline, htasks, hne⟩
    · have heq : ∀ r : Runner, r.runLevel edges s level = executeInline edges level s := fun r =>
        runLevel_eq r hfired.append_left htasks
      simp only [heq, hturn, true_and]
      cases hone : executeInline edges level s with
      | error e =>
        refine .inl ⟨fun t ht => ?_, fun _ => rfl⟩
        cases ht
      | ok t =>
        simp only [Except.ok.injEq, forall_eq']
        exact ih (forall_mem_cons.mp hlevels).2 (hfired.of_append level hone)
    · refine .inr ⟨fun h => hturn h.1, e, e', by rw [hinline]; rfl, ?_, hne⟩
      rw [show Runner.async.runLevel edges s level = .error e' from htasks]
      rfl

/-- A graph on which the runners have no occasion to differ: in the order of the levels every
node finds its required triggers fired, and one that fails is the last of its level to run. -/
structure Dag.Plain (d : Dag V) (levels : List (List Nat)) : Prop where
  /-- Where a node may fail. -/
  succeed : LevelsSucceed d.edges (levels.map d.level) (Runner.sequential.start d)
  /-- The triggers. -/
  fired : FiredInTurn d.edges (levels.map d.level).flatten (Runner.sequential.start d)

/-- The names of the nodes a run executed. -/
def executedNames (o : Outcome V (RunState V)) : List String :=
  match o with
  | .ok s => s.executed.map (·.1)
  | .error e => e.2.executed.map (·.1)

/-- Executing a node adds its name. -/
theorem executedNames_single (edges : List DagEdge) (s : RunState V) (n : Node V) :
    executedNames (executeSingleNode edges s n) = s.executed.map (·.1) ++ [n.name] := by
  have hnames : (takeInputs edges n s).2.executed.map (·.1) = s.executed.map (·.1) ++ [n.name] := by
    rw [takeInputs_executed, map_append]
    rfl
  rw [executeSingleNode, finish]
  split <;> exact hnames

/-- A checkpointed run adds names of its nodes only. -/
theorem executedNames_unlessSkipped (edges : List DagEdge) (nodes : List (Node V))
    (s : RunState V) :
    ∃ more ⊆ nodes.map (·.name), executedNames (nodes.foldlM (executeUnlessSkipped edges) s) =
      s.executed.map (·.1) ++ more := by
  induction nodes generalizing s with
  | nil => exact ⟨[], nil_subset _, (append_nil _).symm⟩
  | cons n nodes ih =>
    rw [foldlM_cons, executeUnlessSkipped]
    split
    · obtain ⟨more, hsub, hmore⟩ := ih s
      exact ⟨more, fun x hx => mem_cons_of_mem _ (hsub hx), hmore⟩
    · have hone := executedNames_single edges s n
      cases hrun : executeSingleNode edges s n with
      | error e =>
        rw [hrun] at hone
        exact ⟨[n.name], by simp, hone⟩
      | ok t =>
        rw [hrun] at hone
        obtain ⟨more, hsub, hmore⟩ := ih t
        refine ⟨n.name :: more, cons_subset_cons _ hsub, hmore.trans ?_⟩
        rw [show t.executed.map (·.1) = s.executed.map (·.1) ++ [n.name] from hone, append_assoc]
        rfl

/-- An inline run begins with its first node. -/
theorem executedNames_inline (edges : List DagEdge) (nodes : List (Node V)) (s : RunState V) :
    ∃ more, executedNames (executeInline edges nodes s) = s.executed.map (·.1) ++ more ∧
      more.head? = (nodes.map (·.name)).head? := by
  induction nodes generalizing s with
  | nil => exact ⟨[], (append_nil _).symm, rfl⟩
  | cons n nodes ih =>
    have hone := executedNames_single edges s n
    rw [executeInline, foldlM_cons]
    cases hrun : executeSingleNode edges s n with
    | error e =>
      rw [hrun] at hone
      exact ⟨[n.name], hone, rfl⟩
    | ok t =>
      rw [hrun] at hone
      obtain ⟨more, hmore, -⟩ := ih t
      refine ⟨n.name :: more, hmore.trans ?_, rfl⟩
      rw [show t.executed.map (·.1) = s.executed.map (·.1) ++ [n.name] from hone, append_assoc]
      rfl

/-- **A checkpointed run that comes to what an inline run comes to has skipped no node.** -/
theorem fired_of_checkpoint {nodes : List (Node V)} (hnames : (nodes.map (·.name)).Nodup)
    (h : nodes.foldlM (executeUnlessSkipped edges) s = executeInline edges nodes s) :
    FiredInTurn edges nodes s := by
  induction nodes generalizing s with
  | nil => exact fun done n rest heq => by simp at heq
  | cons n nodes ih =>
    obtain ⟨hn, hnodes⟩ := nodup_cons.mp hnames
    have hfired : triggerUnsatisfied edges n s = false := by
      refine Bool.eq_false_iff.mpr fun hskip => hn ?_
      -- the skipped node is not executed later
      obtain ⟨more, hsub, hmore⟩ := executedNames_unlessSkipped edges nodes s
      obtain ⟨more', hmore', hhead⟩ := executedNames_inline edges (n :: nodes) s
      rw [foldlM_cons, executeUnlessSkipped, if_pos hskip] at h
      have hsame := hmore.symm.trans ((congrArg executedNames h).trans hmore')
      exact hsub (append_cancel_left hsame ▸ mem_of_mem_head? hhead)
    rintro (_ | ⟨m, done⟩) n' rest heq t ht
    · cases heq
      cases ht
      exact hfired
    · obtain ⟨rfl, hrest⟩ := cons.inj heq
      rw [foldlM_cons, executeUnlessSkipped, if_neg (Bool.eq_false_iff.mp hfired), executeInline,
        foldlM_cons] at h
      rw [executeInline, foldlM_cons] at ht
      cases hone : executeSingleNode edges s n with
      | error e =>
        rw [hone] at ht
        cases ht
      | ok u =>
        rw [hone] at h ht
        exact ih hnodes h done n' rest hrest t ht

/-- **When the runners agree**, on a graph without a cycle whose names tell nodes apart. If every
required trigger is fired in turn and a node that fails is the last of its level to run, every
runner executes the same nodes with the same inputs and leaves the same values or the same error as
`execute_sequential`; `execute_dag_with_checkpoint` if besides nothing was put on ports before. And
only then: if nothing was put on ports and all agree, the graph is such. -/
theorem runners_agree {d : Dag V} {levels : List (List Nat)}
    (hlevels : d.topologicalLevels = .ok levels) (hnames : (d.nodes.map (·.name)).Nodup) :
    (d.Plain levels → ∀ r : Runner, (r = .checkpoint → ∀ k, d.initialInputs k = none) →
      r.execute d = Runner.sequential.execute d) ∧
    ((∀ k, d.initialInputs k = none) →
      (∀ r : Runner, r.execute d = Runner.sequential.execute d) → d.Plain levels) := by
  have hind : ∀ level ∈ levels.map d.level, level.Pairwise (Independent d.edges) := by
    intro level hlevel
    obtain ⟨l, hl, rfl⟩ := mem_map.mp hlevel
    exact d.topologicalLevels_independent hnames hlevels l hl
  have hrun : ∀ r : Runner, r.execute d =
      (levels.map d.level).foldlM (r.runLevel d.edges) (r.start d) := by
    intro r
    rw [Runner.execute, hlevels]
  have hsequential : Runner.sequential.execute d =
      executeInline d.edges (levels.map d.level).flatten (Runner.sequential.start d) := by
    rw [hrun, executeInline, foldlM_flatten]
    rfl
  have hstart : ∀ r : Runner, (r = .checkpoint → ∀ k, d.initialInputs k = none) →
      r.start d = Runner.sequential.start d := by
    intro r hinit
    cases r with
    | checkpoint => exact congrArg (RunState.mk · _ []) (funext fun k => (hinit rfl k).symm)
    | _ => rfl
  constructor
  · intro hplain r hinit
    rw [hrun, hstart r hinit, hsequential]
    exact ((foldlM_runLevel_spec hind hplain.fired).resolve_right fun h => h.1 hplain.succeed).2 r
  · intro hinit hagree
    have hfired : FiredInTurn d.edges (levels.map d.level).flatten (Runner.sequential.start d) := by
      refine fired_of_checkpoint (d.topologicalLevels_names_nodup hnames hlevels) ?_
      rw [← hsequential, ← hagree .checkpoint, hrun, hstart .checkpoint fun _ => hinit,
        foldlM_flatten]
      rfl
    refine ⟨?_, hfired⟩
    rcases foldlM_runLevel_spec hind hfired with h | ⟨-, e, e', hinline, hasync, hne⟩
    · exact h.1
    · have hsame := hagree .async
      rw [hrun, hsequential, hinline, hstart .async fun _ => hinit, hasync] at hsame
      exact absurd (Except.error.inj hsame) hne

/-- The graph of the gate's documentation: `drain`, then a gate, then `flush` if it passes. -/
def gateDag (pass : Bool) : Dag Unit where
  nodes :=
    [⟨"drain", [], fun _ => .ok fun p => if p = "done" then some () else none⟩,
      ⟨"need_flush", [⟨"trigger", .trigger, true⟩],
        fun _ => .ok fun p => if p = "pass" ∧ pass then some () else none⟩,
      ⟨"flush", [⟨"trigger", .trigger, true⟩], fun _ => .ok fun _ => none⟩]
  edges := [⟨"drain", "done", "need_flush", "trigger"⟩, ⟨"need_flush", "pass", "flush", "trigger"⟩]
  initialInputs _ := none

/-- An open gate: `flush` runs, whoever runs the graph. -/
theorem runners_agree_open_gate :
    executedNames (Runner.async.execute (gateDag true)) = ["drain", "need_flush", "flush"] := by
  have hlevels : (gateDag true).topologicalLevels = .ok [[0], [1], [2]] := by decide +kernel
  have hplain : (gateDag true).Plain [[0], [1], [2]] := by
    constructor
    · exact ⟨succeedInTurn_singleton _ _, fun _ _ => ⟨succeedInTurn_singleton _ _, fun _ _ =>
        ⟨succeedInTurn_singleton _ _, fun _ _ => trivial⟩⟩⟩
    · rintro (_ | ⟨a, _ | ⟨b, _ | ⟨c, done⟩⟩⟩) n rest heq t ht
      · cases heq
        rfl
      · cases heq
        cases ht
        rfl
      · cases heq
        cases ht
        rfl
      · cases done <;> cases heq
  rw [(runners_agree hlevels (by decide)).1 hplain .async (fun h => by cases h)]
  decide +kernel

/-- **A closed gate.** `flush` has a required trigger nobody fired. `execute_sequential` runs it,
and so does `execute_dag`, a level of one node being run inline; the other two skip it. -/
theorem runners_differ :
    executedNames (Runner.sequential.execute (gateDag false)) = ["drain", "need_flush", "flush"] ∧
      executedNames ((Runner.dag false).execute (gateDag false)) =
        ["drain", "need_flush", "flush"] ∧
      executedNames (Runner.checkpoint.execute (gateDag false)) = ["drain", "need_flush"] ∧
      executedNames (Runner.async.execute (gateDag false)) = ["drain", "need_flush"] := by
  decide +kernel

end Lucivy.Luciole
