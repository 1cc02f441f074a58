import AuxStorage.Lib.Dependency
import AuxStorage.Lib.OrderedMap
import AuxStorage.Text

/-!
# Read Sequences: The Schedule

The nodes of a read sequence name the nodes they depend on. The planner turns the names into
adjacency lists, emits the nodes in **waves** by counting down the dependencies that are still
missing, and, when nodes are left over, walks along missing dependencies until it meets a node
again.

Nodes are numbered by their position. An array with an entry for each node is a function of the
number, and a sorted set is a sorted list without repetitions.
-/

namespace AuxStorage.ReadSequence

open AuxStorage.Dependency
open List
open Function (update update_self update_of_ne)

/-- A node of a read sequence, as far as the schedule reads it: its name, the nodes it is to run
after, and for each input the node that it comes from. -/
structure ReadSequenceNode where
  name : Text
  after : List Text
  inputs : List (Text × Text)
  deriving DecidableEq, Repr

/-- Why a graph is refused. -/
inductive ReadSequenceValidationError
  | invalidNodeName (name : Text)
  | duplicateNodeName (name : Text)
  | unknownNode (node referenced : Text)
  | selfDependency (node : Text)
  | dependencyCycle (cycle : List Text)
  deriving DecidableEq, Repr

/-! ### Sorted sets -/

/-- Insert into a sorted set. -/
def setInsert (x : ℕ) (s : List ℕ) : List ℕ :=
  if x ∈ s then s else s.orderedInsert (· ≤ ·) x

theorem mem_setInsert {x y : ℕ} {s : List ℕ} : y ∈ setInsert x s ↔ y = x ∨ y ∈ s := by
  unfold setInsert
  split_ifs with h
  · constructor
    · exact .inr
    · rintro (rfl | hy)
      · exact h
      · exact hy
  · exact mem_orderedInsert _

theorem nodup_setInsert (x : ℕ) {s : List ℕ} (h : s.Nodup) : (setInsert x s).Nodup := by
  unfold setInsert
  split_ifs with hx
  · exact h
  · exact (perm_orderedInsert (· ≤ ·) x s).nodup_iff.2 (nodup_cons.2 ⟨hx, h⟩)

/-! ### Adjacency -/

/-- A name of letters, digits and underscores, and not empty. -/
def validateNodeName (name : Text) : Except ReadSequenceValidationError Unit :=
  if !name.isEmpty && name.all (fun c => c == '_' || c.isAlphanum) then .ok ()
  else .error (.invalidNodeName name)

/-- The numbers of the nodes by name, continued from `ordinal`. -/
def collectNames : List ReadSequenceNode → ℕ → OrderedMap Text ℕ →
    Except ReadSequenceValidationError (OrderedMap Text ℕ)
  | [], _, names => .ok names
  | node :: rest, ordinal, names => do
      validateNodeName node.name
      if (names.get node.name).isSome then .error (.duplicateNodeName node.name)
      else collectNames rest (ordinal + 1) (names.insert node.name ordinal)

def collectNodeNames (nodes : List ReadSequenceNode) :
    Except ReadSequenceValidationError (OrderedMap Text ℕ) :=
  collectNames nodes 0 .empty

/-- The names that a node depends on. -/
def dependencyNames (node : ReadSequenceNode) : List Text :=
  node.after ++ node.inputs.map Prod.snd

/-- The dependencies and the consumers of each node. -/
structure Adjacency where
  dependencies : ℕ → List ℕ
  consumers : ℕ → List ℕ

/-- Note that `current` depends on `id`, on both sides. -/
def Adjacency.addEdge (adjacency : Adjacency) (current id : ℕ) : Adjacency where
  dependencies := update adjacency.dependencies current
    (setInsert id (adjacency.dependencies current))
  consumers := update adjacency.consumers id
    (setInsert current (adjacency.consumers id))

/-- Add the edges of one node. -/
def addDependencies (names : OrderedMap Text ℕ) (node : ReadSequenceNode) (current : ℕ) :
    List Text → Adjacency → Except ReadSequenceValidationError Adjacency
  | [], adjacency => .ok adjacency
  | dependency :: rest, adjacency =>
    match names.get dependency with
    | none => .error (.unknownNode node.name dependency)
    | some id =>
      if id = current then .error (.selfDependency node.name)
      else addDependencies names node current rest (adjacency.addEdge current id)

/-- Add the edges of all nodes from `ordinal` on. -/
def addNodes (names : OrderedMap Text ℕ) :
    List ReadSequenceNode → ℕ → Adjacency → Except ReadSequenceValidationError Adjacency
  | [], _, adjacency => .ok adjacency
  | node :: rest, ordinal, adjacency => do
      let adjacency ← addDependencies names node ordinal (dependencyNames node) adjacency
      addNodes names rest (ordinal + 1) adjacency

def buildAdjacency (nodes : List ReadSequenceNode) (names : OrderedMap Text ℕ) :
    Except ReadSequenceValidationError Adjacency :=
  addNodes names nodes 0 ⟨fun _ => [], fun _ => []⟩

/-! ### Waves -/

/-- The state of the scheduling loop. -/
structure ScheduleState where
  order : List ℕ
  waves : List (List ℕ)
  remaining : ℕ → ℕ
  waveFor : ℕ → ℕ
  ready : List ℕ

/-- The nodes without missing dependencies. -/
def readyNodes (count : ℕ) (remaining : ℕ → ℕ) : List ℕ :=
  (List.range count).filter fun ordinal => remaining ordinal = 0

/-- Append a node to a wave, which is created if it does not exist. -/
def pushWave (waves : List (List ℕ)) (wave node : ℕ) : List (List ℕ) :=
  let waves :=
    if waves.length ≤ wave then waves ++ List.replicate (wave + 1 - waves.length) [] else waves
  waves.modify wave (· ++ [node])

def emitWave (current order : List ℕ) (waves : List (List ℕ)) (waveFor : ℕ → ℕ) :
    List ℕ × List (List ℕ) :=
  current.foldl
    (fun emitted node => (emitted.1 ++ [node], pushWave emitted.2 (waveFor node) node))
    (order, waves)

/-- One dependency of a consumer is no longer missing. -/
def advanceConsumer (state : ScheduleState) (node consumer : ℕ) : ScheduleState :=
  let remaining := update state.remaining consumer (state.remaining consumer - 1)
  { state with
    remaining := remaining
    waveFor := update state.waveFor consumer
      (max (state.waveFor consumer) (state.waveFor node + 1))
    ready := if remaining consumer = 0 then setInsert consumer state.ready else state.ready }

def advanceWave (current : List ℕ) (consumers : ℕ → List ℕ) (state : ScheduleState) :
    ScheduleState :=
  current.foldl
    (fun state node => (consumers node).foldl (fun state => advanceConsumer state node) state)
    state

/-- Emit the ready nodes, and find out which are ready next. -/
def scheduleWave (adjacency : Adjacency) (state : ScheduleState) : ScheduleState :=
  let emitted := emitWave state.ready state.order state.waves state.waveFor
  advanceWave state.ready adjacency.consumers
    { state with order := emitted.1, waves := emitted.2, ready := [] }

/-- Emit waves until no node is ready, at most `fuel` times. -/
def scheduleLoop (adjacency : Adjacency) : ℕ → ScheduleState → ScheduleState
  | 0, state => state
  | fuel + 1, state =>
    if state.ready = [] then state
    else scheduleLoop adjacency fuel (scheduleWave adjacency state)

/-- The state before the first wave. -/
def initialState (adjacency : Adjacency) (count : ℕ) : ScheduleState :=
  let remaining := fun node => (adjacency.dependencies node).length
  { order := []
    waves := []
    remaining := remaining
    waveFor := fun _ => 0
    ready := readyNodes count remaining }

/-! ### Cycles -/

/-- The least missing dependency of a node. -/
def nextMissing (dependencies : ℕ → List ℕ) (order : List ℕ) (start current : ℕ) : ℕ :=
  (((dependencies current).filter fun node => node ∉ order).min?).getD start

/-- Follow missing dependencies until a node is met again. -/
def cycleWalk (dependencies : ℕ → List ℕ) (order : List ℕ) (start : ℕ) :
    ℕ → List ℕ → ℕ → List ℕ
  | 0, _, _ => []
  | fuel + 1, path, current =>
    if current ∈ path then path.drop (path.idxOf current) ++ [current]
    else cycleWalk dependencies order start fuel (path ++ [current])
      (nextMissing dependencies order start current)

/-- The first node that was not emitted. -/
def cycleStart (order : List ℕ) (count : ℕ) : ℕ :=
  ((List.range count).find? fun node => node ∉ order).getD 0

def deterministicCycle (dependencies : ℕ → List ℕ) (order : List ℕ) (count : ℕ) : List ℕ :=
  cycleWalk dependencies order (cycleStart order count) (count + 1) [] (cycleStart order count)

/-- The name of a node. -/
def nodeName (nodes : List ReadSequenceNode) (node : ℕ) : Text :=
  (nodes[node]?).elim [] ReadSequenceNode.name

/-- The order and the waves, or a cycle. -/
def topologicalSchedule (adjacency : Adjacency) (nodes : List ReadSequenceNode) :
    Except ReadSequenceValidationError (List ℕ × List (List ℕ)) :=
  let final := scheduleLoop adjacency (nodes.length + 1) (initialState adjacency nodes.length)
  if final.order.length ≠ nodes.length then
    .error (.dependencyCycle
      ((deterministicCycle adjacency.dependencies final.order nodes.length).map (nodeName nodes)))
  else .ok (final.order, final.waves)

/-! ### The adjacency lists describe one relation -/

/-- Adjacency lists of nodes below `count` that agree with each other. -/
structure Adjacency.WellFormed (adjacency : Adjacency) (count : ℕ) : Prop where
  nodup : ∀ node, (adjacency.dependencies node).Nodup
  consumers_nodup : ∀ node, (adjacency.consumers node).Nodup
  lt : ∀ node, ∀ dependency ∈ adjacency.dependencies node, dependency < count
  node_lt : ∀ node, ∀ dependency ∈ adjacency.dependencies node, node < count
  ne : ∀ node, node ∉ adjacency.dependencies node
  consumer_iff : ∀ node consumer,
    consumer ∈ adjacency.consumers node ↔ node ∈ adjacency.dependencies consumer

variable {sets : ℕ → List ℕ}

theorem mem_update_setInsert {index x v y : ℕ} :
    y ∈ update sets index (setInsert x (sets index)) v ↔ (v = index ∧ y = x) ∨ y ∈ sets v := by
  rcases eq_or_ne v index with rfl | hv
  · simp [mem_setInsert]
  · simp [hv]

theorem nodup_update_setInsert (h : ∀ v, (sets v).Nodup) (index x v : ℕ) :
    (update sets index (setInsert x (sets index)) v).Nodup := by
  rcases eq_or_ne v index with rfl | hv
  · rw [update_self]
    exact nodup_setInsert x (h v)
  · rw [update_of_ne hv]
    exact h v

variable {adjacency : Adjacency} {count : ℕ}

theorem Adjacency.WellFormed.addEdge {current id : ℕ} (h : adjacency.WellFormed count)
    (hcurrent : current < count) (hid : id < count) (hne : id ≠ current) :
    (adjacency.addEdge current id).WellFormed count := by
  have hmem {v d : ℕ} : d ∈ (adjacency.addEdge current id).dependencies v
      ↔ (v = current ∧ d = id) ∨ d ∈ adjacency.dependencies v := mem_update_setInsert
  refine ⟨nodup_update_setInsert h.nodup _ _, nodup_update_setInsert h.consumers_nodup _ _,
    fun v d hd => ?_, fun v d hd => ?_, fun v hd => ?_, fun v c => ?_⟩
  · rcases hmem.1 hd with ⟨-, rfl⟩ | hd
    · exact hid
    · exact h.lt v d hd
  · rcases hmem.1 hd with ⟨rfl, -⟩ | hd
    · exact hcurrent
    · exact h.node_lt v d hd
  · rcases hmem.1 hd with ⟨rfl, rfl⟩ | hd
    · exact hne rfl
    · exact h.ne v hd
  · rw [hmem, ← h.consumer_iff, and_comm]
    exact mem_update_setInsert

variable {names : OrderedMap Text ℕ} {result : Adjacency}

theorem addDependencies_wellFormed {node : ReadSequenceNode} {current : ℕ}
    {dependencies : List Text} (hnames : ∀ name id, names.get name = some id → id < count)
    (hcurrent : current < count) (hwell : adjacency.WellFormed count)
    (h : addDependencies names node current dependencies adjacency = .ok result) :
    result.WellFormed count := by
  induction dependencies generalizing adjacency with
  | nil =>
    cases h
    exact hwell
  | cons dependency rest ih =>
    rw [addDependencies] at h
    cases hget : names.get dependency with
    | none => rw [hget] at h; cases h
    | some id =>
      simp only [hget] at h
      split_ifs at h with hself
      exact ih (hwell.addEdge hcurrent (hnames _ _ hget) hself) h

variable {nodes : List ReadSequenceNode}

theorem addNodes_wellFormed {ordinal : ℕ}
    (hnames : ∀ name id, names.get name = some id → id < count)
    (hcount : ordinal + nodes.length ≤ count) (hwell : adjacency.WellFormed count)
    (h : addNodes names nodes ordinal adjacency = .ok result) : result.WellFormed count := by
  induction nodes generalizing ordinal adjacency with
  | nil =>
    cases h
    exact hwell
  | cons node rest ih =>
    rw [length_cons] at hcount
    rw [addNodes] at h
    obtain ⟨next, hadd, h⟩ := Except.bind_eq_ok.1 h
    exact ih (by omega) (addDependencies_wellFormed hnames (by omega) hwell hadd) h

theorem collectNames_lt {ordinal : ℕ} {result : OrderedMap Text ℕ}
    (hnames : ∀ name id, names.get name = some id → id < count)
    (hcount : ordinal + nodes.length ≤ count) (h : collectNames nodes ordinal names = .ok result) :
    ∀ name id, result.get name = some id → id < count := by
  induction nodes generalizing ordinal names with
  | nil =>
    cases h
    exact hnames
  | cons node rest ih =>
    rw [length_cons] at hcount
    rw [collectNames] at h
    obtain ⟨-, -, h⟩ := Except.bind_eq_ok.1 h
    split_ifs at h
    refine ih ?_ (by omega) h
    intro name id hget
    rw [OrderedMap.get_insert] at hget
    split_ifs at hget
    · cases hget
      omega
    · exact hnames name id hget

/-- The adjacency lists of a request agree with each other. -/
theorem buildAdjacency_eq_ok (hnames : collectNodeNames nodes = .ok names)
    (h : buildAdjacency nodes names = .ok adjacency) : adjacency.WellFormed nodes.length := by
  refine addNodes_wellFormed (collectNames_lt ?_ (by simp) hnames) (by simp) ?_ h
  · intro name id hget
    rw [OrderedMap.get_empty] at hget
    cases hget
  · exact ⟨by simp, by simp, by simp, by simp, by simp, by simp⟩

/-! ### The named nodes -/

theorem mem_addDependencies {node : ReadSequenceNode} {current v d : ℕ} {dependencies : List Text}
    (h : addDependencies names node current dependencies adjacency = .ok result) :
    d ∈ result.dependencies v ↔ d ∈ adjacency.dependencies v ∨
      v = current ∧ ∃ name ∈ dependencies, names.get name = some d := by
  induction dependencies generalizing adjacency with
  | nil =>
    cases h
    simp
  | cons dependency rest ih =>
    rw [addDependencies] at h
    cases hget : names.get dependency with
    | none => rw [hget] at h; cases h
    | some id =>
      simp only [hget] at h
      split_ifs at h
      have hedge : d ∈ (adjacency.addEdge current id).dependencies v
          ↔ (v = current ∧ d = id) ∨ d ∈ adjacency.dependencies v := mem_update_setInsert
      rw [ih h, hedge, exists_mem_cons_iff, hget, Option.some.injEq, @eq_comm _ id]
      tauto

theorem mem_addNodes {ordinal v d : ℕ} (h : addNodes names nodes ordinal adjacency = .ok result) :
    d ∈ result.dependencies v ↔ d ∈ adjacency.dependencies v ∨ ∃ i node, nodes[i]? = some node ∧
      v = ordinal + i ∧ ∃ name ∈ dependencyNames node, names.get name = some d := by
  induction nodes generalizing ordinal adjacency with
  | nil =>
    cases h
    simp
  | cons node rest ih =>
    rw [addNodes] at h
    obtain ⟨next, hadd, h⟩ := Except.bind_eq_ok.1 h
    rw [ih h, mem_addDependencies hadd, or_assoc]
    refine or_congr_right ⟨?_, ?_⟩
    · rintro (⟨rfl, hname⟩ | ⟨i, other, hother, rfl, hname⟩)
      · exact ⟨0, node, rfl, rfl, hname⟩
      · exact ⟨i + 1, other, hother, by omega, hname⟩
    · rintro ⟨_ | i, other, hother, rfl, hname⟩
      · cases hother
        exact .inl ⟨rfl, hname⟩
      · exact .inr ⟨i, other, hother, by omega, hname⟩

theorem get_collectNames {ordinal id : ℕ} {name : Text} {result : OrderedMap Text ℕ}
    (h : collectNames nodes ordinal names = .ok result) :
    result.get name = some id ↔ names.get name = some id ∨
      ∃ i node, nodes[i]? = some node ∧ node.name = name ∧ id = ordinal + i := by
  induction nodes generalizing ordinal names with
  | nil =>
    cases h
    simp
  | cons node rest ih =>
    rw [collectNames] at h
    obtain ⟨-, -, h⟩ := Except.bind_eq_ok.1 h
    split_ifs at h with hfresh
    rw [ih h, OrderedMap.get_insert]
    constructor
    · rintro (hget | ⟨i, other, hother, hname, rfl⟩)
      · split_ifs at hget with hname
        · cases hget
          exact .inr ⟨0, node, rfl, hname.symm, rfl⟩
        · exact .inl hget
      · exact .inr ⟨i + 1, other, hother, hname, by omega⟩
    · rintro (hget | ⟨_ | i, other, hother, hname, rfl⟩)
      · left
        rw [if_neg, hget]
        rintro rfl
        rw [hget] at hfresh
        exact hfresh rfl
      · cases hother
        exact .inl (if_pos hname.symm)
      · exact .inr ⟨i, other, hother, hname, by omega⟩

/-- **A node depends on the nodes that it names**, to run after them or for an input. -/
theorem mem_dependencies_iff (hnames : collectNodeNames nodes = .ok names)
    (h : buildAdjacency nodes names = .ok adjacency) {v d : ℕ} :
    d ∈ adjacency.dependencies v ↔ ∃ node dependency, nodes[v]? = some node ∧
      nodes[d]? = some dependency ∧
        (dependency.name ∈ node.after ∨ ∃ input ∈ node.inputs, input.2 = dependency.name) := by
  have hget (name : Text) : names.get name = some d ↔
      ∃ dependency, nodes[d]? = some dependency ∧ dependency.name = name := by
    rw [get_collectNames hnames]
    simp
  have hname (node : ReadSequenceNode) (name : Text) : name ∈ dependencyNames node ↔
      name ∈ node.after ∨ ∃ input ∈ node.inputs, input.2 = name := by
    rw [dependencyNames, mem_append, mem_map]
  rw [mem_addNodes h]
  simp only [not_mem_nil, false_or, zero_add, hget, hname]
  constructor
  · rintro ⟨_, node, hnode, rfl, name, hmem, dependency, hdependency, rfl⟩
    exact ⟨node, dependency, hnode, hdependency, hmem⟩
  · rintro ⟨node, dependency, hnode, hdependency, hmem⟩
    exact ⟨v, node, hnode, rfl, _, hmem, dependency, hdependency, rfl⟩

/-! ### A wave -/

theorem modify_length_append (waves : List (List ℕ)) (last : List ℕ) (f : List ℕ → List ℕ) :
    (waves ++ [last]).modify waves.length f = waves ++ [f last] := by
  induction waves with
  | nil => rfl
  | cons wave rest ih => simpa using ih

theorem pushWave_length (waves : List (List ℕ)) (node : ℕ) :
    pushWave waves waves.length node = waves ++ [[node]] := by
  simp [pushWave, modify_length_append]

theorem pushWave_last (waves : List (List ℕ)) (last : List ℕ) (node : ℕ) :
    pushWave (waves ++ [last]) waves.length node = waves ++ [last ++ [node]] := by
  simp [pushWave, modify_length_append]

theorem foldl_emit_last (rest order last : List ℕ) (waves : List (List ℕ)) (waveFor : ℕ → ℕ)
    (h : ∀ node ∈ rest, waveFor node = waves.length) :
    rest.foldl
      (fun emitted node => (emitted.1 ++ [node], pushWave emitted.2 (waveFor node) node))
      (order, waves ++ [last]) = (order ++ rest, waves ++ [last ++ rest]) := by
  induction rest generalizing order last with
  | nil => simp
  | cons node rest ih =>
    rw [foldl_cons, h node (mem_cons_self ..), pushWave_last,
      ih _ _ fun v hv => h v (mem_cons_of_mem _ hv)]
    simp

variable {current order : List ℕ} {waves : List (List ℕ)}

theorem emitWave_eq {waveFor : ℕ → ℕ} (hne : current ≠ [])
    (h : ∀ node ∈ current, waveFor node = waves.length) :
    emitWave current order waves waveFor = (order ++ current, waves ++ [current]) := by
  obtain ⟨node, rest, rfl⟩ := exists_cons_of_ne_nil hne
  rw [emitWave, foldl_cons, h node (mem_cons_self ..), pushWave_length,
    foldl_emit_last _ _ _ _ _ fun v hv => h v (mem_cons_of_mem _ hv)]
  simp

/-- What advancing along a list of edges does, when all of them start in wave `wave` and none
ends where one starts. -/
structure Advanced (before after : ScheduleState) (edges : List (ℕ × ℕ)) (wave : ℕ) : Prop where
  order : after.order = before.order
  waves : after.waves = before.waves
  remaining : ∀ c, after.remaining c = before.remaining c - edges.countP (·.2 = c)
  waveFor : ∀ c, after.waveFor c
    = if c ∈ edges.map Prod.snd then max (before.waveFor c) (wave + 1) else before.waveFor c
  ready : ∀ c, c ∈ after.ready
    ↔ c ∈ edges.map Prod.snd ∧ before.remaining c ≤ edges.countP (·.2 = c)
  nodup : after.ready.Nodup

variable {state : ScheduleState}

theorem Advanced.nil (wave : ℕ) (hready : state.ready = []) : Advanced state state [] wave :=
  ⟨rfl, rfl, by simp, by simp, by simp [hready], by simp [hready]⟩

variable {wave : ℕ}

/-- One more edge. -/
theorem Advanced.snoc {before after : ScheduleState} {edges : List (ℕ × ℕ)} {node consumer : ℕ}
    (h : Advanced before after edges wave) (hnode : after.waveFor node = wave) :
    Advanced before (advanceConsumer after node consumer) (edges ++ [(node, consumer)]) wave := by
  have hcount (c : ℕ) : (edges ++ [(node, consumer)]).countP (·.2 = c)
      = edges.countP (·.2 = c) + if consumer = c then 1 else 0 := by
    simp [countP_append, countP_cons]
  have hmem (c : ℕ) : c ∈ (edges ++ [(node, consumer)]).map Prod.snd
      ↔ c ∈ edges.map Prod.snd ∨ c = consumer := by
    rw [map_append, mem_append, map_singleton, mem_singleton]
  have hremaining (c : ℕ) : (advanceConsumer after node consumer).remaining c
      = before.remaining c - (edges ++ [(node, consumer)]).countP (·.2 = c) := by
    rw [hcount]
    change update after.remaining consumer (after.remaining consumer - 1) c = _
    rcases eq_or_ne c consumer with rfl | hc
    · rw [update_self, h.remaining, if_pos rfl, Nat.sub_sub]
    · rw [update_of_ne hc, h.remaining, if_neg hc.symm, Nat.add_zero]
  refine ⟨h.order, h.waves, hremaining, fun c => ?_, fun c => ?_, ?_⟩
  · change update after.waveFor consumer
      (max (after.waveFor consumer) (after.waveFor node + 1)) c = _
    rw [hnode]
    rcases eq_or_ne c consumer with rfl | hc
    · rw [update_self, if_pos ((hmem c).2 (.inr rfl)), h.waveFor]
      by_cases hold : c ∈ edges.map Prod.snd
      · rw [if_pos hold, max_assoc, max_self]
      · rw [if_neg hold]
    · rw [update_of_ne hc, h.waveFor]
      by_cases hold : c ∈ edges.map Prod.snd
      · rw [if_pos hold, if_pos ((hmem c).2 (.inl hold))]
      · rw [if_neg hold, if_neg fun hnew => ((hmem c).1 hnew).elim hold hc]
  · change (c ∈ if (advanceConsumer after node consumer).remaining consumer = 0 then
      setInsert consumer after.ready else after.ready) ↔ _
    rw [hremaining consumer, hcount, hmem, hcount c, if_pos rfl]
    have hready := h.ready c
    rcases eq_or_ne c consumer with rfl | hc
    · rw [if_pos rfl]
      split_ifs with hle
      · simp only [mem_setInsert, true_or, or_true, true_iff, true_and]
        omega
      · rw [hready]
        simp only [or_true, true_and]
        omega
    · rw [if_neg hc.symm, or_iff_left hc]
      refine Iff.trans ?_ hready
      split_ifs
      · rw [mem_setInsert, or_iff_right hc]
      · rfl
  · change (if _ then setInsert consumer after.ready else after.ready).Nodup
    split_ifs
    · exact nodup_setInsert consumer h.nodup
    · exact h.nodup

/-- The edges that a wave advances along. -/
def waveEdges (current : List ℕ) (consumers : ℕ → List ℕ) : List (ℕ × ℕ) :=
  current.flatMap fun node => (consumers node).map fun consumer => (node, consumer)

theorem advanceWave_eq (current : List ℕ) (consumers : ℕ → List ℕ) (state : ScheduleState) :
    advanceWave current consumers state
      = (waveEdges current consumers).foldl (fun state edge => advanceConsumer state edge.1 edge.2)
        state := by
  rw [advanceWave, waveEdges, foldl_flatMap]
  congr 1
  funext state node
  rw [foldl_map]

/-- Advancing along all edges of a wave. -/
theorem advanceWave_advanced {consumers : ℕ → List ℕ} (hready : state.ready = [])
    (hwave : ∀ node ∈ current, state.waveFor node = wave)
    (hapart : ∀ node ∈ current, ∀ other ∈ current, node ∉ consumers other) :
    Advanced state (advanceWave current consumers state) (waveEdges current consumers) wave := by
  rw [advanceWave_eq]
  have hedges : ∀ edge ∈ waveEdges current consumers,
      edge.1 ∈ current ∧ edge.1 ∉ (waveEdges current consumers).map Prod.snd := by
    intro edge hedge
    simp only [waveEdges, mem_flatMap, mem_map] at hedge
    obtain ⟨node, hnode, consumer, hconsumer, rfl⟩ := hedge
    refine ⟨hnode, fun hmem => ?_⟩
    simp only [waveEdges, mem_map, mem_flatMap] at hmem
    obtain ⟨_, ⟨other, hother, consumer', hconsumer', rfl⟩, heq⟩ := hmem
    exact hapart node hnode other hother (heq ▸ hconsumer')
  -- induction on the edges that are done, with those that are left over as the invariant
  have hloop : ∀ left done after, done ++ left = waveEdges current consumers →
      Advanced state after done wave →
      Advanced state (left.foldl (fun state edge => advanceConsumer state edge.1 edge.2) after)
        (done ++ left) wave := by
    intro left
    induction left with
    | nil =>
      intro done after _ h
      rw [append_nil]
      exact h
    | cons edge rest ih =>
      intro done after heq h
      have hedge := hedges edge (heq ▸ mem_append_right _ (mem_cons_self ..))
      have hnode : after.waveFor edge.1 = wave := by
        rw [h.waveFor, if_neg, hwave _ hedge.1]
        intro hmem
        refine hedge.2 ?_
        rw [← heq, map_append]
        exact mem_append_left _ hmem
      have hnext := ih (done ++ [edge]) _ (by simpa using heq) (h.snoc hnode)
      simpa using hnext
  exact hloop _ [] state rfl (.nil wave hready)

/-! ### The loop -/

/-- The state after `wave` waves: what was emitted is complete up to that level, the counters tell
which dependencies are missing, and the ready nodes are those of the next level. -/
structure Scheduled (adjacency : Adjacency) (count wave : ℕ) (state : ScheduleState) : Prop where
  nodup : state.order.Nodup
  lt : ∀ node ∈ state.order, node < count
  /-- Dependencies come before their consumers. -/
  closed : ∀ front node back, state.order = front ++ node :: back →
    ∀ dependency ∈ adjacency.dependencies node, dependency ∈ front
  length_waves : state.waves.length = wave
  flatten_waves : state.waves.flatten = state.order
  level : ∀ index (nodes : List ℕ), state.waves[index]? = some nodes → ∀ node ∈ nodes,
    Level adjacency.dependencies node index
  remaining : ∀ node, state.remaining node
    = (adjacency.dependencies node).countP fun dependency => dependency ∉ state.order
  ready : ∀ node, node ∈ state.ready
    ↔ node < count ∧ node ∉ state.order ∧
      ∀ dependency ∈ adjacency.dependencies node, dependency ∈ state.order
  ready_nodup : state.ready.Nodup
  ready_level : ∀ node ∈ state.ready, Level adjacency.dependencies node wave
  waveFor_ready : ∀ node ∈ state.ready, state.waveFor node = wave
  waveFor_le : ∀ node, node ∉ state.order → state.waveFor node ≤ wave

theorem initialState_scheduled (adjacency : Adjacency) (count : ℕ) :
    Scheduled adjacency count 0 (initialState adjacency count) := by
  have hready (node : ℕ) : node ∈ (initialState adjacency count).ready
      ↔ node < count ∧ adjacency.dependencies node = [] := by
    simp [initialState, readyNodes]
  refine ⟨.nil, by simp [initialState], by simp [initialState], rfl, rfl, by simp [initialState],
    fun node => ?_, fun node => ?_, ?_, fun node hnode => ?_, fun _ _ => rfl, fun _ _ => le_rfl⟩
  · simp [initialState]
  · rw [hready]
    simp [initialState, eq_nil_iff_forall_not_mem]
  · exact nodup_range.filter _
  · refine Level.zero fun d hd => ?_
    rw [((hready node).1 hnode).2] at hd
    cases hd

/-- The number of edges of a wave into a consumer. -/
theorem countP_waveEdges (hwell : adjacency.WellFormed count) (hnodup : current.Nodup)
    (consumer : ℕ) :
    (waveEdges current adjacency.consumers).countP (·.2 = consumer)
      = (adjacency.dependencies consumer).countP (· ∈ current) := by
  have hcount : (waveEdges current adjacency.consumers).countP (·.2 = consumer)
      = current.countP (· ∈ adjacency.dependencies consumer) := by
    clear hnodup
    induction current with
    | nil => rfl
    | cons node rest ih =>
      have hnode : ((adjacency.consumers node).map fun c => (node, c)).countP (·.2 = consumer)
          = if node ∈ adjacency.dependencies consumer then 1 else 0 := by
        rw [countP_map]
        have heq : (adjacency.consumers node).countP ((fun edge : ℕ × ℕ =>
            decide (edge.2 = consumer)) ∘ fun c => (node, c))
            = (adjacency.consumers node).count consumer := by
          rw [List.count]
          exact countP_congr fun c _ => by simp
        rw [heq, (hwell.consumers_nodup node).count]
        exact if_congr (hwell.consumer_iff node consumer) rfl rfl
      rw [waveEdges, flatMap_cons, countP_append, hnode, countP_cons]
      rw [waveEdges] at ih
      rw [ih, Nat.add_comm]
      simp
  rw [hcount, countP_eq_length_filter, countP_eq_length_filter]
  refine List.Perm.length_eq ((perm_ext_iff_of_nodup (hnodup.filter _)
    ((hwell.nodup consumer).filter _)).2 fun v => ?_)
  simp [and_comm]

theorem mem_waveEdges (hwell : adjacency.WellFormed count) {consumer : ℕ} :
    consumer ∈ (waveEdges current adjacency.consumers).map Prod.snd
      ↔ ∃ node ∈ current, node ∈ adjacency.dependencies consumer := by
  simp [waveEdges, hwell.consumer_iff]

/-- The missing dependencies, split by whether the wave brings them. -/
theorem countP_missing {ready : List ℕ} (hdisjoint : ∀ node ∈ ready, node ∉ order)
    (dependencies : List ℕ) :
    dependencies.countP (· ∉ order)
      = dependencies.countP (· ∉ order ++ ready) + dependencies.countP (· ∈ ready) := by
  induction dependencies with
  | nil => rfl
  | cons d rest ih =>
    rw [countP_cons, countP_cons, countP_cons, ih]
    by_cases hready : d ∈ ready
    · have := hdisjoint d hready
      simp [hready, this]
      omega
    · by_cases horder : d ∈ order <;> simp [hready, horder]
      omega

section Wave

variable (hwell : adjacency.WellFormed count) (h : Scheduled adjacency count wave state)

include h

theorem Scheduled.exists_level {node : ℕ} (hnode : node ∈ state.order) :
    ∃ index < wave, ∃ nodes, state.waves[index]? = some nodes ∧ node ∈ nodes ∧
      Level adjacency.dependencies node index := by
  rw [← h.flatten_waves] at hnode
  obtain ⟨nodes, hnodes, hmem⟩ := mem_flatten.1 hnode
  obtain ⟨index, hindex⟩ := mem_iff_getElem?.1 hnodes
  refine ⟨index, ?_, nodes, hindex, hmem, h.level index nodes hindex node hmem⟩
  rw [← h.length_waves]
  exact (List.getElem?_eq_some_iff.1 hindex).1

/-- Emitted nodes depend on emitted nodes. -/
theorem Scheduled.mem_of_mem {node dependency : ℕ} (hnode : node ∈ state.order)
    (hdep : dependency ∈ adjacency.dependencies node) : dependency ∈ state.order := by
  obtain ⟨front, back, horder⟩ := append_of_mem hnode
  rw [horder]
  exact mem_append_left _ (h.closed front node back horder dependency hdep)

theorem Scheduled.remaining_eq (node : ℕ) :
    state.remaining node
      = (adjacency.dependencies node).countP (· ∉ state.order ++ state.ready)
        + (adjacency.dependencies node).countP (· ∈ state.ready) :=
  (h.remaining node).trans (countP_missing (fun node hnode => ((h.ready node).1 hnode).2.1) _)

/-- Dependencies come before their consumers, also among the nodes that are emitted now. -/
theorem Scheduled.closed_append {front back : List ℕ} {node dependency : ℕ}
    (heq : state.order ++ state.ready = front ++ node :: back)
    (hdep : dependency ∈ adjacency.dependencies node) : dependency ∈ front := by
  rcases append_eq_append_iff.1 heq with ⟨middle, rfl, hsplit⟩ | ⟨middle, hsplit, heq'⟩
  · refine mem_append_left _ (((h.ready node).1 ?_).2.2 dependency hdep)
    rw [hsplit]
    exact mem_append_right _ (mem_cons_self ..)
  · cases middle with
    | nil =>
      rw [append_nil] at hsplit
      rw [nil_append] at heq'
      rw [← hsplit]
      exact ((h.ready node).1 (heq' ▸ mem_cons_self ..)).2.2 dependency hdep
    | cons first rest =>
      rw [cons_append, cons.injEq] at heq'
      rw [← heq'.1] at hsplit
      exact h.closed front node rest hsplit dependency hdep

theorem Scheduled.exists_level_append {node : ℕ} (hnode : node ∈ state.order ++ state.ready) :
    ∃ index ≤ wave, Level adjacency.dependencies node index := by
  rcases mem_append.1 hnode with hnode | hnode
  · obtain ⟨index, hlt, -, -, -, hlevel⟩ := h.exists_level hnode
    exact ⟨index, hlt.le, hlevel⟩
  · exact ⟨wave, le_rfl, h.ready_level node hnode⟩

/-- There are at most `count` emitted nodes. -/
theorem Scheduled.length_le : state.order.Subperm (List.range count) :=
  subperm_of_subset h.nodup fun node hnode => mem_range.2 (h.lt node hnode)

include hwell

/-- A wave emits the ready nodes and advances along their edges. -/
theorem Scheduled.advanced (hne : state.ready ≠ []) :
    Advanced { state with order := state.order ++ state.ready,
                          waves := state.waves ++ [state.ready], ready := [] }
      (scheduleWave adjacency state) (waveEdges state.ready adjacency.consumers) wave := by
  have hemit : emitWave state.ready state.order state.waves state.waveFor
      = (state.order ++ state.ready, state.waves ++ [state.ready]) :=
    emitWave_eq hne fun node hnode => by rw [h.waveFor_ready node hnode, h.length_waves]
  rw [scheduleWave, hemit]
  refine advanceWave_advanced rfl h.waveFor_ready fun node hnode other hother hconsumer => ?_
  -- a ready node depends on emitted nodes only, so not on another ready node
  have hdep := (hwell.consumer_iff other node).1 hconsumer
  exact ((h.ready other).1 hother).2.1 (((h.ready node).1 hnode).2.2 other hdep)

/-- The nodes that become ready are those whose last dependencies were ready. -/
theorem Scheduled.mem_ready_advance (hne : state.ready ≠ []) (node : ℕ) :
    node ∈ (scheduleWave adjacency state).ready
      ↔ node < count ∧ node ∉ state.order ++ state.ready ∧
        ∀ dependency ∈ adjacency.dependencies node, dependency ∈ state.order ++ state.ready := by
  rw [(h.advanced hwell hne).ready, mem_waveEdges hwell, countP_waveEdges hwell h.ready_nodup]
  have hle : state.remaining node ≤ (adjacency.dependencies node).countP (· ∈ state.ready)
      ↔ ∀ dependency ∈ adjacency.dependencies node, dependency ∈ state.order ++ state.ready := by
    have hzero : ∀ a b : ℕ, a + b ≤ b ↔ a = 0 := by omega
    rw [h.remaining_eq, hzero, countP_eq_zero]
    simp only [decide_eq_true_eq, not_not]
  rw [hle]
  constructor
  · rintro ⟨⟨dependency, hdep, hmem⟩, hall⟩
    have hnew := ((h.ready dependency).1 hdep).2.1
    refine ⟨hwell.node_lt node dependency hmem, fun hnode => ?_, hall⟩
    rcases mem_append.1 hnode with hnode | hnode
    · exact hnew (h.mem_of_mem hnode hmem)
    · exact hnew (((h.ready node).1 hnode).2.2 dependency hmem)
  · rintro ⟨hlt, hnew, hall⟩
    refine ⟨?_, hall⟩
    by_contra hnone
    refine hnew (mem_append_right _ ((h.ready node).2 ⟨hlt, fun hold =>
      hnew (mem_append_left _ hold), fun dependency hdep => ?_⟩))
    rcases mem_append.1 (hall dependency hdep) with hold | hready
    · exact hold
    · exact absurd ⟨dependency, hready, hdep⟩ hnone

/-- **A wave** emits the nodes of one level and finds those of the next. -/
theorem Scheduled.advance (hne : state.ready ≠ []) :
    Scheduled adjacency count (wave + 1) (scheduleWave adjacency state) ∧
      (scheduleWave adjacency state).order = state.order ++ state.ready := by
  have hadvanced := h.advanced hwell hne
  have hready := h.mem_ready_advance hwell hne
  have horder : (scheduleWave adjacency state).order = state.order ++ state.ready :=
    hadvanced.order
  have hwaves : (scheduleWave adjacency state).waves = state.waves ++ [state.ready] :=
    hadvanced.waves
  have hbrought (node : ℕ) (hnode : node ∈ (scheduleWave adjacency state).ready) :
      ∃ dependency ∈ state.ready, dependency ∈ adjacency.dependencies node :=
    (mem_waveEdges hwell).1 ((hadvanced.ready node).1 hnode).1
  refine ⟨⟨?_, ?_, ?_, ?_, ?_, ?_, ?_, ?_, hadvanced.nodup, ?_, ?_, ?_⟩, horder⟩
  · rw [horder]
    exact nodup_append.2 ⟨h.nodup, h.ready_nodup, fun a ha b hb heq =>
      ((h.ready b).1 hb).2.1 (heq ▸ ha)⟩
  · rw [horder]
    intro node hnode
    rcases mem_append.1 hnode with hnode | hnode
    · exact h.lt node hnode
    · exact ((h.ready node).1 hnode).1
  · rw [horder]
    exact fun _ _ _ heq _ hdep => h.closed_append heq hdep
  · rw [hwaves, length_append, h.length_waves, length_singleton]
  · rw [hwaves, horder, flatten_append, h.flatten_waves]
    simp
  · rw [hwaves]
    intro index nodes hindex node hnode
    rcases lt_or_ge index state.waves.length with hlt | hge
    · rw [getElem?_append_left hlt] at hindex
      exact h.level index nodes hindex node hnode
    · rw [getElem?_append_right hge, getElem?_singleton] at hindex
      split_ifs at hindex with hzero
      cases hindex
      have : index = wave := by
        have := h.length_waves
        omega
      exact this ▸ h.ready_level node hnode
  · intro node
    rw [hadvanced.remaining, countP_waveEdges hwell h.ready_nodup, horder]
    change state.remaining node - _ = _
    rw [h.remaining_eq, Nat.add_sub_cancel]
  · intro node
    rw [horder]
    exact hready node
  · intro node hnode
    obtain ⟨dependency, hdep, hmem⟩ := hbrought node hnode
    exact Level.succ hmem (h.ready_level dependency hdep) fun d hd =>
      h.exists_level_append (((hready node).1 hnode).2.2 d hd)
  · intro node hnode
    rw [hadvanced.waveFor, if_pos ((mem_waveEdges hwell).2 (hbrought node hnode))]
    have hle := h.waveFor_le node fun hold =>
      ((hready node).1 hnode).2.1 (mem_append_left _ hold)
    exact max_eq_right (hle.trans (Nat.le_succ _))
  · intro node hnode
    rw [horder] at hnode
    have hle := h.waveFor_le node fun hold => hnode (mem_append_left _ hold)
    rw [hadvanced.waveFor]
    change (if _ then max (state.waveFor node) (wave + 1) else state.waveFor node) ≤ _
    split_ifs
    · exact max_le (hle.trans (Nat.le_succ _)) le_rfl
    · exact hle.trans (Nat.le_succ _)

/-- **The loop** ends, with no node ready. -/
theorem scheduleLoop_spec {fuel : ℕ} (hfuel : count < state.order.length + fuel) :
    ∃ wave', Scheduled adjacency count wave' (scheduleLoop adjacency fuel state) ∧
      (scheduleLoop adjacency fuel state).ready = [] := by
  induction fuel generalizing wave state with
  | zero =>
    have hle := h.length_le.length_le
    rw [length_range] at hle
    omega
  | succ fuel ih =>
    rw [scheduleLoop]
    split_ifs with hready
    · exact ⟨wave, h, hready⟩
    · obtain ⟨hnext, horder⟩ := h.advance hwell hready
      refine ih hnext ?_
      have hpos := length_pos_of_ne_nil hready
      rw [horder, length_append]
      omega

/-! ### The walk to a cycle -/

/-- A node that was not emitted. -/
def Missing (order : List ℕ) (count node : ℕ) : Prop := node < count ∧ node ∉ order

variable (hready : state.ready = [])

include hready

/-- A missing node has a missing dependency, and the walk goes there. -/
theorem nextMissing_spec {start node : ℕ} (hnode : Missing state.order count node) :
    nextMissing adjacency.dependencies state.order start node ∈ adjacency.dependencies node ∧
      Missing state.order count
        (nextMissing adjacency.dependencies state.order start node) := by
  have hmissing : ∃ dependency ∈ adjacency.dependencies node, dependency ∉ state.order := by
    by_contra hall
    push Not at hall
    have hmem := (h.ready node).2 ⟨hnode.1, hnode.2, hall⟩
    rw [hready] at hmem
    cases hmem
  obtain ⟨dependency, hdep, hnot⟩ := hmissing
  have hfilter : dependency ∈ (adjacency.dependencies node).filter (· ∉ state.order) :=
    mem_filter.2 ⟨hdep, by simpa using hnot⟩
  cases hmin : ((adjacency.dependencies node).filter (· ∉ state.order)).min? with
  | none =>
    rw [min?_eq_none_iff.1 hmin] at hfilter
    cases hfilter
  | some least =>
    have hleast := mem_filter.1 (min?_mem hmin)
    rw [nextMissing, hmin, Option.getD_some]
    exact ⟨hleast.1, hwell.lt node least hleast.1, by simpa using hleast.2⟩

/-- The walk closes before it runs out of nodes, and what it returns is a cycle. -/
theorem cycleWalk_isCycle {start fuel current : ℕ} {path : List ℕ} (hnodup : path.Nodup)
    (hpath : ∀ node ∈ path, node < count)
    (hcurrent : Missing state.order count current)
    (hchain : (path ++ [current]).IsChain fun a b => b ∈ adjacency.dependencies a)
    (hfuel : count < path.length + fuel) :
    IsCycle adjacency.dependencies
      (cycleWalk adjacency.dependencies state.order start fuel path current) := by
  induction fuel generalizing path current with
  | zero =>
    have hle := (subperm_of_subset hnodup fun node hnode =>
      mem_range.2 (hpath node hnode)).length_le
    rw [length_range] at hle
    omega
  | succ fuel ih =>
    rw [cycleWalk]
    split_ifs with hmem
    · have hdrop : path.drop (path.idxOf current)
          = current :: path.drop (path.idxOf current + 1) := by
        rw [drop_eq_getElem_cons (idxOf_lt_length_of_mem hmem), getElem_idxOf]
      refine ⟨current, path.drop (path.idxOf current + 1), by rw [hdrop], ?_⟩
      rw [← take_append_drop (path.idxOf current) path, append_assoc] at hchain
      exact (isChain_append.1 hchain).2.1
    · obtain ⟨hdep, hmissing⟩ := nextMissing_spec hwell h hready hcurrent
      refine ih ?_ ?_ hmissing ?_ (by rw [length_append, length_singleton]; omega)
      · exact nodup_append.2 ⟨hnodup, nodup_singleton _, fun a ha b hb heq =>
          hmem (mem_singleton.1 hb ▸ heq ▸ ha)⟩
      · intro node hnode
        rcases mem_append.1 hnode with hnode | hnode
        · exact hpath node hnode
        · rw [mem_singleton.1 hnode]
          exact hcurrent.1
      · refine isChain_append.2 ⟨hchain, isChain_singleton _, ?_⟩
        intro last hlast first hfirst
        rw [getLast?_concat, Option.mem_some_iff] at hlast
        rw [head?_cons, Option.mem_some_iff] at hfirst
        rw [← hlast, ← hfirst]
        exact hdep

theorem deterministicCycle_isCycle (hlength : state.order.length ≠ count) :
    IsCycle adjacency.dependencies
      (deterministicCycle adjacency.dependencies state.order count) := by
  have hstart : Missing state.order count (cycleStart state.order count) := by
    cases hfind : (range count).find? fun node => node ∉ state.order with
    | none =>
      refine absurd ?_ hlength
      have hsub : (range count).Subperm state.order :=
        subperm_of_subset nodup_range fun node hnode => by
          simpa using find?_eq_none.1 hfind node hnode
      have hle := hsub.length_le
      have hge := h.length_le.length_le
      rw [length_range] at hle hge
      omega
    | some node =>
      rw [cycleStart, hfind, Option.getD_some]
      exact ⟨mem_range.1 (mem_of_find?_eq_some hfind), by
        simpa using find?_some hfind⟩
  exact cycleWalk_isCycle hwell h hready .nil (by simp) hstart (isChain_singleton _)
    (by simp)

end Wave

/-! ### The schedule -/

/-- What a schedule has to be: every node once, dependencies first, and in the wave whose number
is the length of its longest chain of dependencies. -/
structure IsSchedule (adjacency : Adjacency) (count : ℕ) (order : List ℕ)
    (waves : List (List ℕ)) : Prop where
  perm : order.Perm (List.range count)
  closed : ∀ front node back, order = front ++ node :: back →
    ∀ dependency ∈ adjacency.dependencies node, dependency ∈ front
  flatten : waves.flatten = order
  level : ∀ (index : ℕ) (nodes : List ℕ), waves[index]? = some nodes → ∀ node ∈ nodes,
    Level adjacency.dependencies node index
  earlier : ∀ (index : ℕ) (nodes : List ℕ), waves[index]? = some nodes → ∀ node ∈ nodes,
    ∀ dependency ∈ adjacency.dependencies node,
      ∃ index' < index, ∃ nodes' : List ℕ, waves[index']? = some nodes' ∧ dependency ∈ nodes'

theorem Scheduled.isSchedule (h : Scheduled adjacency count wave state)
    (hlength : state.order.length = count) :
    IsSchedule adjacency count state.order state.waves := by
  refine ⟨h.length_le.perm_of_length_le (by rw [length_range, hlength]), h.closed,
    h.flatten_waves, h.level, ?_⟩
  intro index nodes hindex node hnode dependency hdep
  have hmem : node ∈ state.order := by
    rw [← h.flatten_waves]
    exact mem_flatten.2 ⟨nodes, mem_of_getElem? hindex, hnode⟩
  obtain ⟨index', -, nodes', hindex', hnode', hlevel'⟩ := h.exists_level (h.mem_of_mem hmem hdep)
  exact ⟨index', (h.level index nodes hindex node hnode).lt hdep hlevel', nodes', hindex', hnode'⟩

/-- A schedule of all nodes excludes cycles. -/
theorem IsSchedule.acyclic (hwell : adjacency.WellFormed count)
    (h : IsSchedule adjacency count order waves) : Acyclic adjacency.dependencies := by
  refine acyclic_of_level fun node => ?_
  by_cases hnode : node < count
  · have hmem := h.perm.mem_iff.2 (mem_range.2 hnode)
    rw [← h.flatten] at hmem
    obtain ⟨nodes, hnodes, hmem⟩ := mem_flatten.1 hmem
    obtain ⟨index, hindex⟩ := mem_iff_getElem?.1 hnodes
    exact ⟨index, h.level index nodes hindex node hmem⟩
  · exact ⟨0, Level.zero fun dependency hdep => hnode (hwell.node_lt node dependency hdep)⟩

/-- **The schedule of a read sequence.** A node depends on the nodes that it names. The schedule
exists exactly if the dependencies are acyclic. Then the order has every node once and behind its
dependencies, and the wave of a node is the length of its longest chain of dependencies. Otherwise
the reported cycle is one of the graph. -/
theorem topologicalSchedule_spec {nodes : List ReadSequenceNode} {names : OrderedMap Text ℕ}
    {adjacency : Adjacency} (hnames : collectNodeNames nodes = .ok names)
    (hadjacency : buildAdjacency nodes names = .ok adjacency) :
    (∀ v d, d ∈ adjacency.dependencies v ↔ ∃ node dependency, nodes[v]? = some node ∧
        nodes[d]? = some dependency ∧
          (dependency.name ∈ node.after ∨ ∃ input ∈ node.inputs, input.2 = dependency.name)) ∧
      ((∃ schedule, topologicalSchedule adjacency nodes = .ok schedule)
        ↔ Acyclic adjacency.dependencies) ∧
      (∀ order waves, topologicalSchedule adjacency nodes = .ok (order, waves) →
        IsSchedule adjacency nodes.length order waves) ∧
      ∀ error, topologicalSchedule adjacency nodes = .error error →
        ∃ cycle, error = .dependencyCycle (cycle.map (nodeName nodes)) ∧
          IsCycle adjacency.dependencies cycle := by
  have hwell := buildAdjacency_eq_ok hnames hadjacency
  refine ⟨fun v d => mem_dependencies_iff hnames hadjacency, ?_⟩
  obtain ⟨wave, h, hready⟩ := scheduleLoop_spec hwell
    (initialState_scheduled adjacency nodes.length)
    (show nodes.length < 0 + (nodes.length + 1) by omega)
  by_cases hlength : (scheduleLoop adjacency (nodes.length + 1)
      (initialState adjacency nodes.length)).order.length = nodes.length
  · have hschedule := h.isSchedule hlength
    have heq : topologicalSchedule adjacency nodes = .ok (_, _) := if_neg (not_not.2 hlength)
    refine ⟨⟨fun _ => hschedule.acyclic hwell, fun _ => ⟨_, heq⟩⟩, ?_, ?_⟩
    · intro order waves hok
      cases heq.symm.trans hok
      exact hschedule
    · intro error herror
      cases heq.symm.trans herror
  · have hcycle := deterministicCycle_isCycle hwell h hready hlength
    have heq : topologicalSchedule adjacency nodes = .error (.dependencyCycle _) :=
      if_pos hlength
    refine ⟨⟨?_, fun hacyclic => absurd hacyclic hcycle.not_acyclic⟩, ?_, ?_⟩
    · rintro ⟨schedule, hok⟩
      cases heq.symm.trans hok
    · intro order waves hok
      cases heq.symm.trans hok
    · intro error herror
      cases heq.symm.trans herror
      exact ⟨_, rfl, hcycle⟩

/-- An order that is read after its account and for an input from its customer, who is read for an
input from the account. -/
def orderNodes : List ReadSequenceNode :=
  [⟨text "order", [text "account"], [(text "id", text "customer")]⟩,
    ⟨text "customer", [], [(text "id", text "account")]⟩, ⟨text "account", [], []⟩]

/-- The account is scheduled first and the order last, so the request is acyclic. -/
theorem orderNodes_acyclic : ∃ names adjacency, collectNodeNames orderNodes = .ok names ∧
    buildAdjacency orderNodes names = .ok adjacency ∧
    topologicalSchedule adjacency orderNodes = .ok ([2, 1, 0], [[2], [1], [0]]) ∧
    adjacency.dependencies 0 = [1, 2] ∧ Acyclic adjacency.dependencies :=
  ⟨_, _, rfl, rfl, rfl, rfl, (@topologicalSchedule_spec orderNodes _ _ rfl rfl).2.1.1 ⟨_, rfl⟩⟩

end AuxStorage.ReadSequence
