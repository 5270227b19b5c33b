import Mathlib.Data.Fintype.EquivFin
import Mathlib.Logic.Function.Basic

/-! # Graphs of nodes and their levels

The graphs of the actor library's `dag.rs`: named nodes, edges between their ports, and the
levels in which the nodes may be executed.

* `Node`, `DagEdge`, `Dag` — a node is what it computes from its inputs.
* `countdown`, `levelsFrom`, `Dag.topologicalLevels` — Kahn's algorithm, level by level.
* `countdown_spec` — one pass over the arcs that leave a level.
* `levelsFrom_independent`, `Dag.topologicalLevels_independent` — no arc runs inside a level.
* `levelsFrom_spec`, `Dag.topologicalLevels_fails_iff` — the levels fail on a cycle only. -/

namespace Lucivy.Luciole

open List hiding beq_eq_decide

/-- What a port expects or produces. -/
inductive PortType
  /-- Data of a type, by its `TypeId`. -/
  | typed (id : Nat)
  /-- A signal without payload. -/
  | trigger
  /-- Anything. -/
  | any
  deriving DecidableEq

/-- An input port of a node. -/
structure PortDef where
  name : String
  /-- What it takes. -/
  portType : PortType
  required : Bool

/-- A node and a port. -/
abbrev PortKey := String × String

/-- The values on a node's ports. -/
abbrev Ports (V : Type) := String → Option V

/-- A node: its input ports and its `execute`, which depends on the inputs only. -/
structure Node (V : Type) where
  /-- The name it was added under. -/
  name : String
  inputs : List PortDef
  /-- The outputs it sets, or its error. -/
  execute : Ports V → Except String (Ports V)

/-- An edge from an output port to an input port. -/
structure DagEdge where
  fromNode : String
  fromPort : String
  toNode : String
  toPort : String

/-- A graph of nodes. -/
structure Dag (V : Type) where
  /-- The nodes, in the order they were added. -/
  nodes : List (Node V)
  /-- The edges, in the order they were connected. -/
  edges : List DagEdge
  /-- Values put on ports before the run. -/
  initialInputs : PortKey → Option V

/-! ## `topological_levels` -/

/-- `name_to_idx`: of several nodes of one name, the last. -/
def nodeIndex (names : List String) (name : String) : Option Nat :=
  (names.zipIdx.reverse.find? (·.1 = name)).map (·.2)

/-- An end of an edge, as an index. -/
def resolve (names : List String) (name : String) : Except String Nat :=
  match nodeIndex names name with
  | some i => .ok i
  | none => .error ("edge references unknown node '" ++ name ++ "'")

/-- The arcs `(from, to)` between indices, each once: `dependents` and the first `in_degree`
are read off them. -/
def addArc (names : List String) (arcs : List (Nat × Nat)) (e : DagEdge) :
    Except String (List (Nat × Nat)) := do
  let source ← resolve names e.fromNode
  let target ← resolve names e.toNode
  return if (source, target) ∈ arcs then arcs else arcs ++ [(source, target)]

/-- `dependents[node]`. -/
def dependents (arcs : List (Nat × Nat)) (node : Nat) : List Nat :=
  (arcs.filter (·.1 = node)).map (·.2)

/-- The inner loops of one level: each dependent's degree goes down, and a node whose degree
reaches zero is next. -/
def countdown : List Nat → (Nat → Nat) → List Nat → (Nat → Nat) × List Nat
  | [], degree, next => (degree, next)
  | v :: targets, degree, next =>
    countdown targets (Function.update degree v (degree v - 1))
      (if degree v - 1 = 0 then next ++ [v] else next)

/-- The loop over the levels, `fuel` bounding their number. -/
def levelsFrom (arcs : List (Nat × Nat)) : Nat → (Nat → Nat) → List Nat → List (List Nat)
  | 0, _, _ => []
  | fuel + 1, degree, current =>
    if current = [] then []
    else
      let r := countdown (current.flatMap (dependents arcs)) degree []
      current :: levelsFrom arcs fuel r.1 r.2

/-- `Dag::topological_levels`. A level visits nodes not visited before, so the number of nodes
bounds the number of levels. -/
def Dag.topologicalLevels {V : Type} (d : Dag V) : Except String (List (List Nat)) := do
  let arcs ← d.edges.foldlM (addArc (d.nodes.map (·.name))) []
  let degree := fun v => (arcs.map (·.2)).count v
  let levels := levelsFrom arcs d.nodes.length degree
    ((List.range d.nodes.length).filter (degree · = 0))
  if levels.flatten.length = d.nodes.length then return levels
  else throw "cycle detected in DAG"

/-! ## One pass -/

/-- **One pass.** If every degree counts the targets to come and `rest` others, the pass leaves
`rest`, and next are the targets it leaves at zero, each once. -/
theorem countdown_spec {rest : Nat → Nat} (targets : List Nat) (degree : Nat → Nat)
    (next : List Nat) (h : ∀ v, degree v = targets.count v + rest v) :
    (countdown targets degree next).1 = rest ∧
      ∃ new : List Nat, (countdown targets degree next).2 = next ++ new ∧ new.Nodup ∧
        ∀ v, v ∈ new ↔ v ∈ targets ∧ rest v = 0 := by
  induction targets generalizing degree next with
  | nil =>
    refine ⟨funext fun v => ?_, [], (append_nil _).symm, .nil, fun v => by simp⟩
    change degree v = rest v
    rw [h v, count_nil, Nat.zero_add]
  | cons v targets ih =>
    have hv : degree v - 1 = targets.count v + rest v := by
      rw [h v, count_cons_self]
      omega
    have hstep : ∀ w, Function.update degree v (degree v - 1) w = targets.count w + rest w := by
      intro w
      by_cases hw : w = v
      · subst hw
        rw [Function.update_self, hv]
      · rw [Function.update_of_ne hw, h w, count_cons_of_ne (Ne.symm hw)]
    obtain ⟨hrest, new, hnext, hnodup, hmem⟩ :=
      ih _ (if degree v - 1 = 0 then next ++ [v] else next) hstep
    rw [countdown]
    refine ⟨hrest, ?_⟩
    by_cases hzero : degree v - 1 = 0
    · -- the last arc into `v`: it is pushed here and does not come again
      have hlast : v ∉ targets := fun hin => by
        have := count_pos_iff.mpr hin
        omega
      refine ⟨v :: new, ?_, ?_, fun w => ?_⟩
      · rw [hnext, if_pos hzero, append_assoc, singleton_append]
      · exact nodup_cons.mpr ⟨fun hin => hlast ((hmem v).mp hin).1, hnodup⟩
      · rw [mem_cons, hmem, mem_cons, or_and_right]
        refine or_congr_left (and_iff_left_of_imp ?_).symm
        rintro rfl
        omega
    · refine ⟨new, by rw [hnext, if_neg hzero], hnodup, fun w => ?_⟩
      rw [hmem, mem_cons]
      refine and_congr_left fun hw => ⟨.inr, ?_⟩
      rintro (rfl | hin)
      · exact count_pos_iff.mp (by omega)
      · exact hin

/-! ## The levels -/

section Levels

variable {arcs : List (Nat × Nat)}

/-- The arcs into `v` from nodes outside `done`. -/
def waitingOn (arcs : List (Nat × Nat)) (done : List Nat) (v : Nat) : Nat :=
  (arcs.filter fun p => p.1 ∉ done ∧ p.2 = v).length

theorem waitingOn_eq_zero {done : List Nat} {v : Nat} :
    waitingOn arcs done v = 0 ↔ ∀ u, (u, v) ∈ arcs → u ∈ done := by
  rw [waitingOn, length_eq_zero_iff, filter_eq_nil_iff]
  constructor
  · intro h u hu
    by_contra hdone
    exact h (u, v) hu (by simp [hdone])
  · rintro h ⟨u, w⟩ hp hwait
    obtain ⟨hdone, rfl⟩ := of_decide_eq_true hwait
    exact hdone (h u hp)

variable {done current : List Nat}

/-- Executing `current` takes from every degree the arcs that leave it. -/
theorem waitingOn_append (hnodup : current.Nodup) (hnew : ∀ u ∈ current, u ∉ done) (v : Nat) :
    waitingOn arcs done v =
      (current.flatMap (dependents arcs)).count v + waitingOn arcs (done ++ current) v := by
  induction current generalizing done with
  | nil => simp
  | cons u current ih =>
    obtain ⟨hu, hnodup⟩ := nodup_cons.mp hnodup
    have hdone : ∀ w ∈ current, w ∉ done ++ [u] := by
      intro w hw hin
      rcases mem_append.mp hin with hin | hin
      · exact hnew w (mem_cons_of_mem _ hw) hin
      · exact hu (mem_singleton.mp hin ▸ hw)
    have hone : waitingOn arcs done v =
        (dependents arcs u).count v + waitingOn arcs (done ++ [u]) v := by
      clear ih hdone
      induction arcs with
      | nil => rfl
      | cons p arcs ih =>
        obtain ⟨a, b⟩ := p
        simp only [waitingOn, dependents] at ih ⊢
        by_cases ha : a = u <;> by_cases hb : b = v <;> by_cases hd : a ∈ done <;>
          simp_all <;> omega
    rw [hone, ih hnodup hdone, flatMap_cons, count_append, append_assoc,
      singleton_append, Nat.add_assoc]

/-- The loop's state: `done` holds all that runs before it, the degrees count the arcs from
elsewhere, and what is current waits on nothing. -/
structure LevelState (arcs : List (Nat × Nat)) (done : List Nat) (degree : Nat → Nat)
    (current : List Nat) : Prop where
  fresh : ∀ v ∈ current, v ∉ done
  nodup : current.Nodup
  degrees : degree = waitingOn arcs done
  ready : ∀ v ∈ current, degree v = 0
  /-- Nothing that ran waits. -/
  closed : ∀ v ∈ done, waitingOn arcs done v = 0

/-- Degrees only go down. -/
theorem waitingOn_zero_mono {done more : List Nat} {v : Nat} (h : waitingOn arcs done v = 0) :
    waitingOn arcs (done ++ more) v = 0 :=
  waitingOn_eq_zero.mpr fun u hu => mem_append_left _ (waitingOn_eq_zero.mp h u hu)

theorem LevelState.next {degree : Nat → Nat} (h : LevelState arcs done degree current) :
    let r := countdown (current.flatMap (dependents arcs)) degree []
    LevelState arcs (done ++ current) r.1 r.2 ∧ ∀ v, v ∈ r.2 ↔
      v ∈ current.flatMap (dependents arcs) ∧ waitingOn arcs (done ++ current) v = 0 := by
  intro r
  have hdegree : ∀ v, degree v = (current.flatMap (dependents arcs)).count v +
      waitingOn arcs (done ++ current) v := by
    rw [h.degrees]
    exact waitingOn_append h.nodup h.fresh
  obtain ⟨hrest, new, hnext, hnodup, hmem⟩ := countdown_spec _ _ [] hdegree
  rw [nil_append] at hnext
  subst hnext
  have hzero : ∀ v ∈ done ++ current, waitingOn arcs done v = 0 := by
    rw [← h.degrees]
    exact forall_mem_append.mpr ⟨h.degrees ▸ h.closed, h.ready⟩
  refine ⟨⟨fun v hv hdone => ?_, hnodup, hrest, fun v hv => ?_,
    fun v hv => waitingOn_zero_mono (hzero v hv)⟩, hmem⟩
  · -- a target of the level still waited on it, a node that ran did not
    have hin := ((hmem v).mp hv).1
    have hpos := count_pos_iff.mpr hin
    have hnone := hzero v hdone
    rw [← h.degrees, hdegree v] at hnone
    omega
  · rw [hrest]
    exact ((hmem v).mp hv).2

/-- **No arc runs inside a level**, and a level holds no node twice. -/
theorem levelsFrom_independent (fuel : Nat) {degree : Nat → Nat}
    (h : LevelState arcs done degree current) :
    ∀ level ∈ levelsFrom arcs fuel degree current,
      level.Nodup ∧ ∀ u ∈ level, ∀ v ∈ level, (u, v) ∉ arcs := by
  induction fuel generalizing done current degree with
  | zero => exact forall_mem_nil _
  | succ fuel ih =>
    rw [levelsFrom]
    split
    · exact forall_mem_nil _
    · refine forall_mem_cons.mpr ⟨⟨h.nodup, fun u hu v hv harc => h.fresh u hu ?_⟩, ih h.next.1⟩
      have hready := h.ready v hv
      rw [h.degrees] at hready
      exact waitingOn_eq_zero.mp hready u harc

/-- The nodes below `n` that wait on none of the others ran or are current. -/
structure LevelRun (n : Nat) (arcs : List (Nat × Nat)) (done : List Nat) (degree : Nat → Nat)
    (current : List Nat) : Prop extends LevelState arcs done degree current where
  once : done.Nodup
  inside : ∀ v ∈ done ++ current, v < n
  complete : ∀ v < n, waitingOn arcs done v = 0 → v ∈ done ++ current

variable {n : Nat} {degree : Nat → Nat}

theorem LevelRun.start (arcs : List (Nat × Nat)) (n : Nat) :
    let degree := fun v => (arcs.map (·.2)).count v
    LevelRun n arcs [] degree ((List.range n).filter (degree · = 0)) := by
  intro degree
  have hdegree : degree = waitingOn arcs [] := by
    funext v
    simp only [degree]
    rw [count_eq_countP, countP_map, countP_eq_length_filter, waitingOn]
    simp [Function.comp_def, beq_eq_decide]
  refine ⟨⟨fun _ _ => not_mem_nil, nodup_range.filter _, hdegree,
    fun v hv => by simpa using (mem_filter.mp hv).2, forall_mem_nil _⟩, .nil, ?_, ?_⟩
  · simp +contextual
  · simp +contextual [hdegree]

section Arcs

variable (harcs : ∀ p ∈ arcs, p.2 < n)
include harcs

theorem LevelRun.next (h : LevelRun n arcs done degree current) :
    let r := countdown (current.flatMap (dependents arcs)) degree []
    LevelRun n arcs (done ++ current) r.1 r.2 := by
  intro r
  obtain ⟨hstate, hnext⟩ := h.toLevelState.next
  refine ⟨hstate, h.once.append h.nodup fun v hv hv' => h.fresh v hv' hv,
    forall_mem_append.mpr ⟨h.inside, fun v hv => ?_⟩, fun v hv hzero => ?_⟩
  · obtain ⟨u, -, hu⟩ := mem_flatMap.mp ((hnext v).mp hv).1
    obtain ⟨p, hp, rfl⟩ := mem_map.mp hu
    exact harcs p (mem_filter.mp hp).1
  · by_cases hin : v ∈ done ++ current
    · exact mem_append_left _ hin
    · -- it waited before the level and does not now
      have hwaited := mt (h.complete v hv) hin
      rw [waitingOn_append h.nodup h.fresh, hzero] at hwaited
      exact mem_append_right _ ((hnext v).mpr ⟨count_pos_iff.mp (by omega), hzero⟩)

/-- **The whole loop**: a node runs behind those it waits on, and what never runs waits. -/
theorem levelsFrom_spec (fuel : Nat) (h : LevelRun n arcs done degree current)
    (hfuel : n ≤ done.length + fuel) :
    let levels := levelsFrom arcs fuel degree current
    let visited := done ++ levels.flatten
    LevelRun n arcs visited (waitingOn arcs visited) [] ∧ ∀ u v, (u, v) ∈ arcs →
      v ∈ levels.flatten → u ∈ done ∨ levels.findIdx (u ∈ ·) < levels.findIdx (v ∈ ·) := by
  induction fuel generalizing done current degree with
  | zero =>
    have hle := (subperm_of_subset (h.next harcs).once
      fun v hv => mem_range.mpr (h.inside v hv)).length_le
    rw [length_append, length_range] at hle
    obtain rfl := length_eq_zero_iff.mp (show current.length = 0 by omega)
    exact ⟨by simpa [levelsFrom] using h.degrees ▸ h, by simp [levelsFrom]⟩
  | succ fuel ih =>
    rw [levelsFrom]
    split
    case isTrue hnil =>
      subst hnil
      exact ⟨by simpa using h.degrees ▸ h, by simp⟩
    case isFalse hne =>
      have hpos := length_pos_iff.mpr hne
      obtain ⟨hrun, hlater⟩ := ih (h.next harcs) (by rw [length_append]; omega)
      rw [append_assoc] at hrun
      refine ⟨hrun, fun u v huv hv => ?_⟩
      simp only [findIdx_cons]
      by_cases hcurrent : v ∈ current
      · have hready := h.ready v hcurrent
        rw [h.degrees] at hready
        exact .inl (waitingOn_eq_zero.mp hready u huv)
      · have hbefore := hlater u v huv ((mem_append.mp hv).resolve_left hcurrent)
        by_cases hu : u ∈ current <;> simp_all

end Arcs

end Levels

/-! ## From indices to nodes -/

theorem getElem?_of_nodeIndex {names : List String} {name : String} {i : Nat}
    (h : nodeIndex names name = some i) : names[i]? = some name := by
  obtain ⟨⟨x, j⟩, hfind, rfl⟩ := Option.map_eq_some_iff.mp h
  have hmem := mem_reverse.mp (mem_of_find?_eq_some hfind)
  have hname : x = name := by simpa using find?_some hfind
  rw [mem_zipIdx_iff_getElem?] at hmem
  exact hname ▸ hmem

theorem not_mem_of_nodeIndex {names : List String} {name : String}
    (h : nodeIndex names name = none) : name ∉ names := by
  intro hmem
  obtain ⟨i, hi⟩ := mem_iff_getElem?.mp hmem
  rw [nodeIndex, Option.map_eq_none_iff, find?_eq_none] at h
  exact h (name, i) (by simpa [mem_zipIdx_iff_getElem?] using hi) (by simp)

/-- An edge leads from the node at `i` to the node at `j`. -/
def Leads (names : List String) (edges : List DagEdge) (i j : Nat) : Prop :=
  ∃ e ∈ edges, names[i]? = some e.fromNode ∧ names[j]? = some e.toNode

/-- The arcs are the edges, unless one has an unknown end. -/
theorem arcs_of_edges {names : List String} (hnames : names.Nodup) (edges : List DagEdge)
    (arcs : List (Nat × Nat)) :
    match edges.foldlM (addArc names) arcs with
    | .error _ => ∃ e ∈ edges, e.fromNode ∉ names ∨ e.toNode ∉ names
    | .ok arcs' => ∀ i j, (i, j) ∈ arcs' ↔ (i, j) ∈ arcs ∨ Leads names edges i j := by
  induction edges generalizing arcs with
  | nil => exact fun i j => by simp [Leads]
  | cons e edges ih =>
    rw [foldlM_cons, addArc, resolve, resolve]
    cases hi : nodeIndex names e.fromNode with
    | none => exact ⟨e, mem_cons_self, .inl (not_mem_of_nodeIndex hi)⟩
    | some i =>
      cases hj : nodeIndex names e.toNode with
      | none => exact ⟨e, mem_cons_self, .inr (not_mem_of_nodeIndex hj)⟩
      | some j =>
        have htail := ih (if (i, j) ∈ arcs then arcs else arcs ++ [(i, j)])
        simp only [bind, Except.bind, pure, Except.pure]
        generalize edges.foldlM (addArc names) _ = r at htail ⊢
        cases r with
        | error _ =>
          obtain ⟨e', he, hno⟩ := htail
          exact ⟨e', mem_cons_of_mem _ he, hno⟩
        | ok arcs' =>
          have hat : ∀ {k l : Nat} {name : String}, nodeIndex names name = some k →
              (names[l]? = some name ↔ l = k) := by
            intro k l name hk
            have hk := getElem?_of_nodeIndex hk
            refine ⟨fun hl => ?_, fun hl => hl ▸ hk⟩
            have hlen := (List.getElem?_eq_some_iff.mp hl).1
            exact (List.getElem?_inj hlen hnames).mp (hl.trans hk.symm)
          intro k l
          have hadd : (k, l) ∈ (if (i, j) ∈ arcs then arcs else arcs ++ [(i, j)]) ↔
              (k, l) ∈ arcs ∨ k = i ∧ l = j := by
            split <;> simp +contextual [or_iff_left_of_imp, *]
          rw [htail, hadd, Leads, Leads, exists_mem_cons_iff, hat hi, hat hj, or_assoc]

/-- Two nodes of one level, the first before the second. -/
def Independent {V : Type} (edges : List DagEdge) (a b : Node V) : Prop :=
  a.name ≠ b.name ∧ ∀ e ∈ edges, e.toNode = b.name → e.fromNode ≠ a.name

/-- The nodes of a level. -/
def Dag.level {V : Type} (d : Dag V) (level : List Nat) : List (Node V) :=
  level.filterMap (d.nodes[·]?)

/-- **The nodes of a level are independent**, when names tell nodes apart. -/
theorem Dag.topologicalLevels_independent {V : Type} {d : Dag V} {levels : List (List Nat)}
    (hnames : (d.nodes.map (·.name)).Nodup) (h : d.topologicalLevels = .ok levels) :
    ∀ level ∈ levels, (d.level level).Pairwise (Independent d.edges) := by
  unfold topologicalLevels at h
  cases harcs : d.edges.foldlM (addArc (d.nodes.map (·.name))) [] with
  | error e => rw [harcs] at h; cases h
  | ok arcs =>
    have hall := arcs_of_edges hnames d.edges []
    rw [harcs] at h hall
    have hlevels := levelsFrom_independent d.nodes.length
      (LevelRun.start arcs d.nodes.length).toLevelState
    dsimp only [bind, Except.bind] at h
    split at h
    · cases h
      intro level hlevel
      obtain ⟨hnodup, hnone⟩ := hlevels level hlevel
      refine pairwise_filterMap.mpr (hnodup.imp_of_mem ?_)
      intro i j hi hj hne a ha b hb
      have hat : ∀ {k : Nat} {m : Node V}, d.nodes[k]? = some m →
          (d.nodes.map (·.name))[k]? = some m.name := by
        intro k m hk
        rw [getElem?_map, hk]
        rfl
      have ha := hat ha
      have hb := hat hb
      refine ⟨fun heq => hne ?_, fun e he hto hfrom => hnone i hi j hj ?_⟩
      · exact (List.getElem?_inj (List.getElem?_eq_some_iff.mp ha).1 hnames).mp
          (by rw [ha, hb, heq])
      · exact (hall i j).mpr (.inr ⟨e, he, hfrom ▸ ha, hto ▸ hb⟩)
    · cases h

/-- A node has one level, and its name stands there once. -/
theorem Dag.topologicalLevels_names_nodup {V : Type} {d : Dag V} {levels : List (List Nat)}
    (hnames : (d.nodes.map (·.name)).Nodup) (h : d.topologicalLevels = .ok levels) :
    ((levels.map d.level).flatten.map (·.name)).Nodup := by
  unfold topologicalLevels at h
  cases harcs : d.edges.foldlM (addArc (d.nodes.map (·.name))) [] with
  | error e => rw [harcs] at h; cases h
  | ok arcs =>
    have hall := arcs_of_edges hnames d.edges []
    rw [harcs] at h hall
    have hlt : ∀ p ∈ arcs, p.2 < d.nodes.length := by
      intro p hp
      obtain ⟨e, -, -, hto⟩ := ((hall p.1 p.2).mp hp).resolve_left not_mem_nil
      rw [← length_map (·.name)]
      exact (List.getElem?_eq_some_iff.mp hto).1
    have hrun := (levelsFrom_spec hlt d.nodes.length (.start arcs d.nodes.length)
      (Nat.le_add_left ..)).1.once
    dsimp only [bind, Except.bind] at h
    split at h
    · cases h
      have hflat : ∀ ls : List (List Nat), ((ls.map d.level).flatten.map (·.name)) =
          ls.flatten.filterMap ((d.nodes.map (·.name))[·]?) := by
        intro ls
        simp only [Dag.level, filterMap_flatten, map_flatten, map_map, Function.comp_def,
          map_filterMap, getElem?_map]
      rw [hflat]
      refine hrun.filterMap fun i j name hi hj => ?_
      exact (List.getElem?_inj (List.getElem?_eq_some_iff.mp hi).1 hnames).mp (hi.trans hj.symm)
    · cases h

/-- **The levels fail on a cycle only**; else each node has one level, and an edge ends in a
later level than it starts in. `connect` lets in no edge to an unknown node. -/
theorem Dag.topologicalLevels_fails_iff {V : Type} (d : Dag V)
    (hnames : (d.nodes.map (·.name)).Nodup) (hedges : ∀ e ∈ d.edges,
      e.fromNode ∈ d.nodes.map (·.name) ∧ e.toNode ∈ d.nodes.map (·.name)) :
    let leads := Leads (d.nodes.map (·.name)) d.edges
    match d.topologicalLevels with
    | .error _ => ∃ i, Relation.TransGen leads i i
    | .ok levels => (∀ i, ¬Relation.TransGen leads i i) ∧
        levels.flatten.Perm (range d.nodes.length) ∧
        ∀ i j, leads i j → levels.findIdx (i ∈ ·) < levels.findIdx (j ∈ ·) := by
  intro leads
  have harcs := arcs_of_edges hnames d.edges []
  rw [topologicalLevels]
  generalize d.edges.foldlM (addArc _) [] = r at harcs ⊢
  cases r with
  | error _ =>
    obtain ⟨e, he, hno⟩ := harcs
    exact (hno.elim (· (hedges e he).1) (· (hedges e he).2)).elim
  | ok arcs =>
    simp only [not_mem_nil, false_or] at harcs
    have hlt : ∀ i j, leads i j → i < d.nodes.length ∧ j < d.nodes.length := by
      rintro i j ⟨e, -, hi, hj⟩
      rw [← length_map (·.name)]
      exact ⟨(List.getElem?_eq_some_iff.mp hi).1, (List.getElem?_eq_some_iff.mp hj).1⟩
    obtain ⟨hrun, hordered⟩ := levelsFrom_spec (fun p hp => (hlt _ _ ((harcs _ _).mp hp)).2)
      d.nodes.length (.start arcs d.nodes.length) (Nat.le_add_left ..)
    simp only [bind, Except.bind, pure, Except.pure, throw, throwThe, MonadExceptOf.throw]
    generalize levelsFrom arcs _ _ _ = levels at hrun hordered ⊢
    have hsub : levels.flatten.Subperm (range d.nodes.length) :=
      subperm_of_subset hrun.once fun v hv => mem_range.mpr (hrun.inside v (by simpa using hv))
    by_cases hall : levels.flatten.length = d.nodes.length
    · rw [if_pos hall]
      have hperm := hsub.perm_of_length_le (by simp [hall])
      have hlater : ∀ i j, leads i j → levels.findIdx (i ∈ ·) < levels.findIdx (j ∈ ·) := by
        intro i j hij
        have hin := hperm.mem_iff.mpr (mem_range.mpr (hlt i j hij).2)
        exact (hordered i j ((harcs i j).mpr hij) hin).resolve_left not_mem_nil
      refine ⟨fun i hi => ?_, hperm, hlater⟩
      have hself := hi.lift (fun i => levels.findIdx (i ∈ ·)) hlater
      rw [Relation.transGen_eq_self] at hself
      exact Nat.lt_irrefl _ hself
    · rw [if_neg hall]
      refine by_contra fun hno => hall ?_
      -- without a cycle the nodes can be taken in the order of the edges
      let before (i j : Fin d.nodes.length) := Relation.TransGen leads i j
      have : IsTrans _ before := ⟨fun _ _ _ => .trans⟩
      have : Std.Irrefl before := ⟨fun i hi => hno ⟨i, hi⟩⟩
      have hin : ∀ i : Fin d.nodes.length, i.val ∈ levels.flatten := by
        intro i
        induction i using (Finite.wellFounded_of_trans_of_irrefl before).induction with
        | _ i ih =>
          have hzero : waitingOn arcs levels.flatten i = 0 := by
            refine waitingOn_eq_zero.mpr fun u hu => ?_
            have hu := (harcs u i).mp hu
            exact ih ⟨u, (hlt u i hu).1⟩ (.single hu)
          simpa using hrun.complete i i.2 hzero
      have hle := (subperm_of_subset nodup_range fun i hi => hin ⟨i, mem_range.mp hi⟩).length_le
      rw [length_range] at hle
      exact Nat.le_antisymm (by simpa using hsub.length_le) hle

theorem Dag.topologicalLevels_chain :
    let node (name : String) : Node Unit := ⟨name, [], .ok⟩
    let d : Dag Unit := ⟨[node "a", node "b"], [⟨"a", "", "b", ""⟩], fun _ => none⟩
    ∀ i, ¬Relation.TransGen (Leads ["a", "b"] d.edges) i i := by
  intro node d
  exact (d.topologicalLevels_fails_iff (by decide) (by decide)).1

end Lucivy.Luciole
