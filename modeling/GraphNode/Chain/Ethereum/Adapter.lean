import GraphNode.Lib.List

/-!
# The `eth_getLogs` filters of a log filter

An `EthereumLogFilter` says which logs the event handlers of a subgraph want. It has three
parts:

* the pairs of a contract and an event of its data sources (`contracts_and_events_graph`,
  a bipartite graph);
* the events wanted from every contract (`wildcard_events`);
* the events with filters on their indexed arguments (`events_with_topic_filters`).

`EthereumLogFilter::matches` decides a log against it. `eth_get_logs_filters` turns it into
the filters of `eth_getLogs` calls: one per wildcard event, one per topic-filtered event,
and for the graph a greedy vertex cover. The cover takes a vertex of maximal degree, turns
its edges into filters (batching contracts by `get_logs_max_contracts`) and removes it,
until no edge is left. A node answers such a call by `eth_getLogs` semantics
(`EthGetLogsFilter.selects`, alloy's `Filter::matches`), where an empty set of values in a
slot matches anything.

* **The graph is covered exactly** (`exists_covers_graphFilters_iff`), by filters of the
  shape the code asserts before pushing one (`EthGetLogsFilter.GraphShaped`).
* **No log is missed** (`exists_selects_of_matches`).
* **The filters select exactly the logs the filter matches**
  (`ethGetLogsFilters_exact`) as long as no topic filter is an empty list. An empty
  list is where the two sides part: `EventSignatureWithTopics::matches` finds no topic in
  it, while `eth_getLogs` takes it as no filter at all
  (`ethGetLogsFilters_false_positive`).

The graph is a list of edges, one contract and one event each, so it is bipartite by its
type. Its nodes and a node's neighbours come in the order of that list, where `GraphMap`
uses the order of its index maps; the results below use of the vertex taken only that its
degree is maximal, so they hold whichever vertex of maximal degree the code takes.
-/

namespace GraphNode.Ethereum

/-- `alloy::primitives::Address`. -/
abbrev Address := BitVec 160

/-- `alloy::primitives::B256`: an `EventSignature` or a topic. -/
abbrev B256 := BitVec 256

/-- `LogFilterNode`: a vertex of the contract/event graph. -/
inductive LogFilterNode where
  | contract (address : Address)
  | event (sig : B256)
  deriving DecidableEq, Repr

/-- `EventSignatureWithTopics`: an event with filters on its indexed arguments. -/
structure EventSignatureWithTopics where
  address : Option Address
  signature : B256
  topic1 : Option (List B256)
  topic2 : Option (List B256)
  topic3 : Option (List B256)
  deriving DecidableEq, Repr

/-- The test `EventSignatureWithTopics::matches` makes of the `i`-th topic:
`topic_i.as_ref().is_none_or(|t| topics.get(i).is_some_and(|topic| t.contains(topic)))`. -/
def topicMatches (filter : Option (List B256)) (topics : List B256) (i : Nat) : Bool :=
  filter.all fun t => topics[i]?.any t.contains

/-- `address_matches` of `EventSignatureWithTopics::matches`: if `self.address` is `None`,
it's considered a wildcard match. -/
def EventSignatureWithTopics.addressMatches (self : EventSignatureWithTopics)
    (address : Option Address) : Bool :=
  match self.address with
  | some selfAddr => address == some selfAddr
  | none => true

/-- `EventSignatureWithTopics::matches`. -/
def EventSignatureWithTopics.matches (self : EventSignatureWithTopics)
    (address : Option Address) (sig : B256) (topics : List B256) : Bool :=
  self.addressMatches address && self.signature == sig && topicMatches self.topic1 topics 1 &&
    topicMatches self.topic2 topics 2 && topicMatches self.topic3 topics 3

/-- `MergeGraph`, the contract/event graph, as its list of edges. -/
structure MergeGraph where
  edges : List (Address × B256)

/-- `EthereumLogFilter`. The receipt flags of its edges and keys are left out: neither
`matches` nor `eth_get_logs_filters` reads them. -/
structure EthereumLogFilter where
  contractsAndEventsGraph : MergeGraph
  wildcardEvents : List B256
  eventsWithTopicFilters : List EventSignatureWithTopics

/-- The two fields of a `Log` that log filters read. -/
structure Log where
  address : Address
  topics : List B256

/-- `EthGetLogsFilter`: the filter of one `eth_getLogs` call. -/
structure EthGetLogsFilter where
  contracts : List Address
  eventSignatures : List B256
  topic1 : Option (List B256)
  topic2 : Option (List B256)
  topic3 : Option (List B256)
  deriving DecidableEq, Repr

/-! ### The contract/event graph -/

namespace LogFilterNode

/-- Whether a node is an end of an edge. -/
def isEndOf : LogFilterNode → Address × B256 → Bool
  | contract address, edge => edge.1 == address
  | event sig, edge => edge.2 == sig

/-- The other end of an edge of a node. -/
def across : LogFilterNode → Address × B256 → LogFilterNode
  | contract _, edge => event edge.2
  | event _, edge => contract edge.1

end LogFilterNode

namespace MergeGraph

/-- `GraphMap::edge_count`. -/
def edgeCount (g : MergeGraph) : Nat := g.edges.length

/-- `GraphMap::nodes`: the ends of the edges, each once. -/
def nodes (g : MergeGraph) : List LogFilterNode :=
  (g.edges.flatMap fun edge => [.contract edge.1, .event edge.2]).eraseDups

/-- `GraphMap::neighbors`. -/
def neighbors (g : MergeGraph) (n : LogFilterNode) : List LogFilterNode :=
  (g.edges.filter n.isEndOf).map n.across

/-- `GraphMap::remove_node`: the node goes with its edges. -/
def removeNode (g : MergeGraph) (n : LogFilterNode) : MergeGraph :=
  ⟨g.edges.filter fun edge => !n.isEndOf edge⟩

/-- `GraphMap::contains_edge` of an undirected graph. -/
def containsEdge (g : MergeGraph) : LogFilterNode → LogFilterNode → Bool
  | .contract a, .event b | .event b, .contract a => g.edges.contains (a, b)
  | _, _ => false

/-- The vertex `eth_get_logs_filters` takes next:
`g.nodes().max_by_key(|&n| g.neighbors(n).count())`. -/
def maxVertex (g : MergeGraph) : Option LogFilterNode :=
  maxByKey (fun n => (g.neighbors n).length) g.nodes

theorem mem_nodes_contract {g : MergeGraph} {edge : Address × B256} (h : edge ∈ g.edges) :
    LogFilterNode.contract edge.1 ∈ g.nodes := by
  simp only [nodes, List.mem_eraseDups, List.mem_flatMap]
  exact ⟨edge, h, List.mem_cons_self⟩

/-- A graph with an edge has a vertex to take. -/
theorem maxVertex_ne_none {g : MergeGraph} (h : 0 < g.edgeCount) : g.maxVertex ≠ none := by
  obtain ⟨edge, hedge⟩ := List.exists_mem_of_length_pos h
  exact maxByKey_ne_none (List.ne_nil_of_mem (mem_nodes_contract hedge))

/-- **The vertex taken has an edge**, as long as the graph has one: its degree is at least
that of the contract of any edge. -/
theorem exists_isEndOf_maxVertex {g : MergeGraph} (h : 0 < g.edgeCount) {v : LogFilterNode}
    (hv : g.maxVertex = some v) : ∃ edge ∈ g.edges, v.isEndOf edge := by
  obtain ⟨edge, hedge⟩ := List.exists_mem_of_length_pos h
  obtain ⟨-, hmax⟩ := maxByKey_spec hv
  have hcontract : 0 < (g.neighbors (.contract edge.1)).length := by
    simp only [neighbors, List.length_map, List.length_pos_iff_exists_mem, List.mem_filter]
    exact ⟨edge, hedge, by simp [LogFilterNode.isEndOf]⟩
  have hpos := lt_of_lt_of_le hcontract (hmax _ (mem_nodes_contract hedge))
  obtain ⟨n, hn⟩ := List.exists_mem_of_length_pos hpos
  obtain ⟨edge', hedge', -⟩ := List.mem_map.mp hn
  exact ⟨edge', (List.mem_filter.mp hedge').1, (List.mem_filter.mp hedge').2⟩

/-- **The loop makes progress**: removing the vertex taken removes an edge. -/
theorem edgeCount_removeNode_lt {g : MergeGraph} (h : 0 < g.edgeCount) {v : LogFilterNode}
    (hv : g.maxVertex = some v) : (g.removeNode v).edgeCount < g.edgeCount := by
  obtain ⟨edge, hedge, hend⟩ := exists_isEndOf_maxVertex h hv
  exact List.length_filter_lt_length_iff_exists.mpr ⟨edge, hedge, by simp [hend]⟩

end MergeGraph

/-! ### The filters -/

namespace EthGetLogsFilter

/-- `EthGetLogsFilter::from_contract`. -/
def fromContract (address : Address) : EthGetLogsFilter := ⟨[address], [], none, none, none⟩

/-- `EthGetLogsFilter::from_event`. -/
def fromEvent (event : B256) : EthGetLogsFilter := ⟨[], [event], none, none, none⟩

/-- `EthGetLogsFilter::from_event_with_topics`. -/
def fromEventWithTopics (event : EventSignatureWithTopics) : EthGetLogsFilter :=
  ⟨event.address.elim [] fun a => [a], [event.signature], event.topic1, event.topic2,
    event.topic3⟩

/-- The filter the loop starts from at `max_vertex`. -/
def ofNode : LogFilterNode → EthGetLogsFilter
  | .contract address => fromContract address
  | .event eventSig => fromEvent eventSig

end EthGetLogsFilter

/-- One turn of the loop over the neighbours of `max_vertex`: the filters pushed so far and
the filter being built. -/
def addNeighbor (getLogsMaxContracts : Nat) (acc : List EthGetLogsFilter × EthGetLogsFilter) :
    LogFilterNode → List EthGetLogsFilter × EthGetLogsFilter
  | .contract address =>
    -- The batch size was reached, register the filter and start a new one.
    let acc := if acc.2.contracts.length = getLogsMaxContracts then
        (acc.1 ++ [acc.2], .fromEvent acc.2.eventSignatures[0]!)
      else acc
    (acc.1, { acc.2 with contracts := acc.2.contracts ++ [address] })
  | .event eventSig =>
    (acc.1, { acc.2 with eventSignatures := acc.2.eventSignatures ++ [eventSig] })

/-- The filters of one vertex: its neighbours added one by one, then the last filter
pushed. -/
def vertexFilters (getLogsMaxContracts : Nat) (maxVertex : LogFilterNode)
    (neighbors : List LogFilterNode) : List EthGetLogsFilter :=
  let acc := neighbors.foldl (addNeighbor getLogsMaxContracts) ([], .ofNode maxVertex)
  acc.1 ++ [acc.2]

set_option linter.unusedVariables false in
/-- The loop `while g.edge_count() > 0` of `eth_get_logs_filters`. It ends because every
turn removes an edge (`MergeGraph.edgeCount_removeNode_lt`). -/
def graphFilters (getLogsMaxContracts : Nat) (g : MergeGraph) : List EthGetLogsFilter :=
  if h : 0 < g.edgeCount then
    match hv : g.maxVertex with
    | some maxVertex =>
      vertexFilters getLogsMaxContracts maxVertex (g.neighbors maxVertex) ++
        graphFilters getLogsMaxContracts (g.removeNode maxVertex)
    -- `unwrap` of `None`: unreachable (`MergeGraph.maxVertex_ne_none`)
    | none => []
  else []
termination_by g.edgeCount
decreasing_by exact MergeGraph.edgeCount_removeNode_lt h hv

namespace EthereumLogFilter

/-- `EthereumLogFilter::eth_get_logs_filters`. -/
def ethGetLogsFilters (self : EthereumLogFilter) (getLogsMaxContracts : Nat) :
    List EthGetLogsFilter :=
  self.wildcardEvents.map .fromEvent ++ self.eventsWithTopicFilters.map .fromEventWithTopics ++
    graphFilters getLogsMaxContracts self.contractsAndEventsGraph

end EthereumLogFilter

/-- `EthereumLogFilter::matches`. -/
def EthereumLogFilter.matches (self : EthereumLogFilter) (log : Log) : Bool :=
  -- First topic should be event sig
  match log.topics.head? with
  | none => false
  | some sig =>
    self.contractsAndEventsGraph.containsEdge (.contract log.address) (.event sig) ||
      self.wildcardEvents.contains sig ||
      self.eventsWithTopicFilters.any fun e => e.matches (some log.address) sig log.topics

/-! ### What `eth_getLogs` returns -/

/-- alloy's `FilterSet::matches`: a value in the set, or any value (and no value, for a log
with fewer topics) when the set is empty. -/
def filterSetMatches {α : Type} [BEq α] (set : List α) (value : Option α) : Bool :=
  set.isEmpty || value.any set.contains

/-- The logs an `eth_getLogs` call with this filter returns, as alloy's `Filter::matches`
decides for `to_alloy_filter`: the address in the contracts, the first topic in the event
signatures and the `i`-th topic in `topic_i`, where an empty list, or a topic not set,
filters nothing. -/
def EthGetLogsFilter.selects (f : EthGetLogsFilter) (log : Log) : Bool :=
  filterSetMatches f.contracts (some log.address) &&
    filterSetMatches f.eventSignatures log.topics[0]? &&
    filterSetMatches (f.topic1.getD []) log.topics[1]? &&
    filterSetMatches (f.topic2.getD []) log.topics[2]? &&
    filterSetMatches (f.topic3.getD []) log.topics[3]?

/-! ### The filters of one vertex

A contract vertex gives one filter, with all its events; an event vertex gives one filter
per batch of `get_logs_max_contracts` of its contracts, the batches being the pieces
`chunks` cuts. -/

/-- A filter of an event vertex: one batch of its contracts. -/
def eventBatch (sig : B256) (contracts : List Address) : EthGetLogsFilter :=
  ⟨contracts, [sig], none, none, none⟩

/-- Adding events to the filter being built appends them to its event signatures. -/
theorem foldl_addNeighbor_events (n : Nat) (es : List B256) (P : List EthGetLogsFilter)
    (F : EthGetLogsFilter) :
    (es.map .event).foldl (addNeighbor n) (P, F) =
      (P, { F with eventSignatures := F.eventSignatures ++ es }) := by
  induction es generalizing F with
  | nil => simp
  | cons e es ih =>
    rw [List.map_cons, List.foldl_cons]
    simp [addNeighbor, ih]

/-- **A contract vertex gives one filter**: the contract with all its events. -/
theorem vertexFilters_contract (n : Nat) (a : Address) (es : List B256) :
    vertexFilters n (.contract a) (es.map .event) = [⟨[a], es, none, none, none⟩] := by
  simp [vertexFilters, foldl_addNeighbor_events, EthGetLogsFilter.ofNode,
    EthGetLogsFilter.fromContract]

/-- Adding a contract to a batch: it joins the batch, or starts the next one when the batch
is full. -/
theorem addNeighbor_eventBatch (n : Nat) (P : List EthGetLogsFilter) (sig : B256)
    (batch : List Address) (a : Address) :
    addNeighbor n (P, eventBatch sig batch) (.contract a) =
      if batch.length = n then (P ++ [eventBatch sig batch], eventBatch sig [a])
      else (P, eventBatch sig (batch ++ [a])) := by
  by_cases hfull : batch.length = n
  · simp [addNeighbor, eventBatch, hfull, EthGetLogsFilter.fromEvent]
  · simp [addNeighbor, eventBatch, hfull]

/-- The batches of an event vertex, from a batch already begun. -/
theorem foldl_addNeighbor_contracts {n : Nat} (hn : 0 < n) (sig : B256) (cs : List Address) :
    ∀ (P : List EthGetLogsFilter) (batch : List Address), batch ≠ [] → batch.length ≤ n →
      ((cs.map .contract).foldl (addNeighbor n) (P, eventBatch sig batch)).1 ++
          [((cs.map .contract).foldl (addNeighbor n) (P, eventBatch sig batch)).2] =
        P ++ (chunks n (batch ++ cs)).map (eventBatch sig) := by
  have hmax : max n 1 = n := by omega
  induction cs with
  | nil =>
    intro P batch hbatch hlen
    simp [chunks_of_length_le hbatch (hmax ▸ hlen)]
  | cons a cs ih =>
    intro P batch hbatch hlen
    rw [List.map_cons, List.foldl_cons, addNeighbor_eventBatch]
    split_ifs with hfull
    · -- the batch is full: it is pushed, and `a` begins the next one
      rw [ih _ [a] (List.cons_ne_nil a []) (by simp; omega),
        chunks_append_of_length_eq _ hbatch (by omega)]
      simp
    · -- `a` joins the batch
      rw [ih _ (batch ++ [a]) (by simp) (by simp; omega)]
      simp

/-- **An event vertex gives one filter per batch of `get_logs_max_contracts` contracts.** -/
theorem vertexFilters_event {n : Nat} (hn : 0 < n) (sig : B256) {cs : List Address}
    (hcs : cs ≠ []) :
    vertexFilters n (.event sig) (cs.map .contract) = (chunks n cs).map (eventBatch sig) := by
  obtain ⟨a, cs, rfl⟩ := List.exists_cons_of_ne_nil hcs
  have hstart : EthGetLogsFilter.ofNode (.event sig) = eventBatch sig [] := rfl
  have hfirst := addNeighbor_eventBatch n [] sig [] a
  rw [if_neg (by simp; omega), List.nil_append] at hfirst
  simp only [vertexFilters, hstart, List.map_cons, List.foldl_cons, hfirst]
  simpa using foldl_addNeighbor_contracts hn sig cs [] [a] (by simp) (by simp; omega)

namespace MergeGraph

theorem neighbors_contract (g : MergeGraph) (a : Address) :
    g.neighbors (.contract a) =
      ((g.edges.filter fun edge => edge.1 == a).map (·.2)).map .event := by
  simp only [neighbors, List.map_map]
  rfl

theorem neighbors_event (g : MergeGraph) (sig : B256) :
    g.neighbors (.event sig) =
      ((g.edges.filter fun edge => edge.2 == sig).map (·.1)).map .contract := by
  simp only [neighbors, List.map_map]
  rfl

theorem mem_eventsOf_iff (g : MergeGraph) (c : Address) (sig : B256) :
    sig ∈ (g.edges.filter fun edge => edge.1 == c).map (·.2) ↔ (c, sig) ∈ g.edges := by
  simp

theorem mem_contractsOf_iff (g : MergeGraph) (a : Address) (sig : B256) :
    a ∈ (g.edges.filter fun edge => edge.2 == sig).map (·.1) ↔ (a, sig) ∈ g.edges := by
  simp

/-- The vertex taken has a neighbour. -/
theorem neighbors_maxVertex_ne_nil {g : MergeGraph} (h : 0 < g.edgeCount) {v : LogFilterNode}
    (hv : g.maxVertex = some v) : g.neighbors v ≠ [] := by
  obtain ⟨edge, hedge, hend⟩ := exists_isEndOf_maxVertex h hv
  exact List.ne_nil_of_mem (List.mem_map_of_mem (List.mem_filter.mpr ⟨hedge, hend⟩))

end MergeGraph

/-- **The shape of a filter of the graph**: the two assertions `push_filter` makes before
pushing it, the batch size, and no topic. -/
structure EthGetLogsFilter.GraphShaped (n : Nat) (F : EthGetLogsFilter) : Prop where
  contracts_ne_nil : F.contracts ≠ []
  eventSignatures_ne_nil : F.eventSignatures ≠ []
  single : F.contracts.length = 1 ∨ F.eventSignatures.length = 1
  length_contracts_le : F.contracts.length ≤ n
  topics_none : F.topic1 = none ∧ F.topic2 = none ∧ F.topic3 = none

/-- The pairs of a contract and an event a filter of the graph stands for. -/
def EthGetLogsFilter.covers (F : EthGetLogsFilter) (a : Address) (sig : B256) : Prop :=
  a ∈ F.contracts ∧ sig ∈ F.eventSignatures

section Vertex

variable {n : Nat} (hn : 0 < n) {g : MergeGraph} {v : LogFilterNode}
include hn

/-- The filters of a vertex with a neighbour have the shape of a graph filter. -/
theorem graphShaped_of_mem_vertexFilters (hv : g.neighbors v ≠ []) {F : EthGetLogsFilter}
    (hF : F ∈ vertexFilters n v (g.neighbors v)) : F.GraphShaped n := by
  cases v with
  | contract a =>
    rw [MergeGraph.neighbors_contract] at hv hF
    rw [vertexFilters_contract, List.mem_singleton] at hF
    subst hF
    exact ⟨by simp, by simpa using hv, .inl rfl, by simp; omega, rfl, rfl, rfl⟩
  | event sig =>
    rw [MergeGraph.neighbors_event] at hv hF
    rw [vertexFilters_event hn sig (by simpa using hv)] at hF
    obtain ⟨batch, hbatch, rfl⟩ := List.mem_map.mp hF
    obtain ⟨hne, hlen⟩ := length_of_mem_chunks hbatch
    exact ⟨hne, by simp [eventBatch], .inr rfl, by simp only [eventBatch]; omega, rfl, rfl, rfl⟩

/-- **The filters of a vertex cover its edges**, and no other pair. -/
theorem exists_covers_vertexFilters_iff (hv : g.neighbors v ≠ []) (a : Address) (sig : B256) :
    (∃ F ∈ vertexFilters n v (g.neighbors v), F.covers a sig) ↔
      (a, sig) ∈ g.edges ∧ v.isEndOf (a, sig) := by
  cases v with
  | contract c =>
    rw [MergeGraph.neighbors_contract, vertexFilters_contract]
    simp only [List.mem_singleton, exists_eq_left, EthGetLogsFilter.covers,
      MergeGraph.mem_eventsOf_iff, LogFilterNode.isEndOf, beq_iff_eq]
    constructor
    · rintro ⟨rfl, hedge⟩
      exact ⟨hedge, rfl⟩
    · rintro ⟨hedge, rfl⟩
      exact ⟨rfl, hedge⟩
  | event s =>
    rw [MergeGraph.neighbors_event] at hv ⊢
    rw [vertexFilters_event hn s (by simpa using hv)]
    have hbatch : ∀ batch, (eventBatch s batch).covers a sig ↔ a ∈ batch ∧ sig = s := by
      simp [EthGetLogsFilter.covers, eventBatch]
    calc _ ↔ (∃ batch ∈ chunks n ((g.edges.filter fun edge => edge.2 == s).map (·.1)),
            a ∈ batch) ∧ sig = s := by simp [hbatch, ← and_assoc, exists_and_right]
      _ ↔ (a, s) ∈ g.edges ∧ sig = s := by
        rw [exists_mem_chunks_iff, MergeGraph.mem_contractsOf_iff]
      _ ↔ _ := by
        simp only [LogFilterNode.isEndOf, beq_iff_eq]
        constructor
        · rintro ⟨hedge, rfl⟩
          exact ⟨hedge, rfl⟩
        · rintro ⟨hedge, rfl⟩
          exact ⟨hedge, rfl⟩

end Vertex

/-! ### The loop over the graph

Each turn covers the edges of the vertex taken and removes them; the rest is covered by the
turns after it. -/

section Graph

variable {n : Nat} (hn : 0 < n)
include hn

/-- **Every filter of the graph has the shape the code asserts.** -/
theorem graphShaped_of_mem_graphFilters (g : MergeGraph) :
    ∀ F ∈ graphFilters n g, F.GraphShaped n := by
  fun_induction graphFilters n g with
  | case1 g h v hv ih =>
    intro F hF
    rcases List.mem_append.mp hF with hF | hF
    · exact graphShaped_of_mem_vertexFilters hn (MergeGraph.neighbors_maxVertex_ne_nil h hv) hF
    · exact ih F hF
  | case2 => simp
  | case3 => simp

/-- **The filters of the graph cover exactly its edges.** -/
theorem exists_covers_graphFilters_iff (g : MergeGraph) (a : Address) (sig : B256) :
    (∃ F ∈ graphFilters n g, F.covers a sig) ↔ (a, sig) ∈ g.edges := by
  fun_induction graphFilters n g with
  | case1 g h v hv ih =>
    have hvertex :=
      exists_covers_vertexFilters_iff hn (MergeGraph.neighbors_maxVertex_ne_nil h hv) a sig
    simp only [List.mem_append, or_and_right, exists_or, hvertex, ih]
    simp only [MergeGraph.removeNode, List.mem_filter, Bool.not_eq_true']
    -- an edge is an edge of the vertex taken, or an edge left after it
    cases v.isEndOf (a, sig) <;> simp
  | case2 g h hv => exact absurd hv (MergeGraph.maxVertex_ne_none h)
  | case3 g h =>
    have hnil : g.edges = [] := by simpa [MergeGraph.edgeCount] using h
    simp [hnil]

end Graph

/-! ### The logs a filter selects -/

section FilterSet

variable {α : Type} [BEq α]

/-- An empty set filters nothing. -/
@[simp]
theorem filterSetMatches_nil (value : Option α) : filterSetMatches [] value = true := rfl

variable [LawfulBEq α]

/-- A set that is not empty matches the values in it. -/
theorem filterSetMatches_of_ne_nil {set : List α} (hs : set ≠ []) (value : Option α) :
    filterSetMatches set value = true ↔ ∃ x, value = some x ∧ x ∈ set := by
  cases value <;> simp [filterSetMatches, hs]

@[simp]
theorem filterSetMatches_singleton (x : α) (value : Option α) :
    filterSetMatches [x] value = true ↔ value = some x := by
  simp [filterSetMatches_of_ne_nil (List.cons_ne_nil x [])]

end FilterSet

/-- A filter of the graph selects the logs of the pairs it covers. -/
theorem selects_iff_of_graphShaped {n : Nat} {F : EthGetLogsFilter} (hF : F.GraphShaped n)
    (log : Log) :
    F.selects log = true ↔ ∃ sig, log.topics.head? = some sig ∧ F.covers log.address sig := by
  obtain ⟨hc, he, -, -, h1, h2, h3⟩ := hF
  simp only [EthGetLogsFilter.selects, h1, h2, h3, Option.getD_none, filterSetMatches_nil,
    Bool.and_true, Bool.and_eq_true, filterSetMatches_of_ne_nil hc,
    filterSetMatches_of_ne_nil he, ← List.head?_eq_getElem?, EthGetLogsFilter.covers,
    Option.some.injEq, exists_eq_left']
  constructor
  · rintro ⟨ha, sig, hsig, hs⟩
    exact ⟨sig, hsig, ha, hs⟩
  · rintro ⟨sig, hsig, ha, hs⟩
    exact ⟨ha, sig, hsig, hs⟩

theorem selects_fromEvent (sig : B256) (log : Log) :
    (EthGetLogsFilter.fromEvent sig).selects log = true ↔ log.topics.head? = some sig := by
  simp [EthGetLogsFilter.selects, EthGetLogsFilter.fromEvent, ← List.head?_eq_getElem?]

/-- On a topic filter that is not an empty list, `eth_getLogs` and `matches` agree. -/
theorem filterSetMatches_getD {t : Option (List B256)} (ht : t ≠ some []) (topics : List B256)
    (i : Nat) : filterSetMatches (t.getD []) topics[i]? = topicMatches t topics i := by
  cases t with
  | none => rfl
  | some l =>
    cases l with
    | nil => exact absurd rfl ht
    | cons x l => simp [filterSetMatches, topicMatches]

/-- Whatever `matches` accepts in a topic slot, `eth_getLogs` does. -/
theorem filterSetMatches_getD_of_topicMatches {t : Option (List B256)} {topics : List B256}
    {i : Nat} (h : topicMatches t topics i = true) :
    filterSetMatches (t.getD []) topics[i]? = true := by
  cases t with
  | none => rfl
  | some l =>
    cases l with
    | nil => rfl
    | cons x l => rwa [filterSetMatches_getD (by simp)]

theorem filterSetMatches_address (e : EventSignatureWithTopics) (address : Address) :
    filterSetMatches (e.address.elim [] fun a => [a]) (some address) =
      e.addressMatches (some address) := by
  unfold EventSignatureWithTopics.addressMatches
  cases e.address <;> simp [filterSetMatches, beq_eq_decide]

/-- The filter of an event with topics selects every log `matches` accepts. -/
theorem selects_fromEventWithTopics_of_matches {e : EventSignatureWithTopics} {log : Log}
    {sig : B256} (hsig : log.topics.head? = some sig)
    (h : e.matches (some log.address) sig log.topics = true) :
    (EthGetLogsFilter.fromEventWithTopics e).selects log = true := by
  simp only [EventSignatureWithTopics.matches, Bool.and_eq_true, beq_iff_eq] at h
  obtain ⟨⟨⟨⟨haddr, rfl⟩, h1⟩, h2⟩, h3⟩ := h
  simp only [EthGetLogsFilter.selects, EthGetLogsFilter.fromEventWithTopics, Bool.and_eq_true,
    filterSetMatches_address, filterSetMatches_getD_of_topicMatches h1,
    filterSetMatches_getD_of_topicMatches h2, filterSetMatches_getD_of_topicMatches h3]
  simp [haddr, ← List.head?_eq_getElem?, hsig]

/-- No topic filter of the event is an empty list. -/
def EventSignatureWithTopics.NoEmptyTopic (e : EventSignatureWithTopics) : Prop :=
  e.topic1 ≠ some [] ∧ e.topic2 ≠ some [] ∧ e.topic3 ≠ some []

instance : DecidablePred EventSignatureWithTopics.NoEmptyTopic := fun _ =>
  inferInstanceAs (Decidable (_ ∧ _ ∧ _))

/-- **With no empty topic list, the filter of an event with topics selects exactly the logs
`matches` accepts.** -/
theorem selects_fromEventWithTopics_iff {e : EventSignatureWithTopics} (he : e.NoEmptyTopic)
    (log : Log) :
    (EthGetLogsFilter.fromEventWithTopics e).selects log = true ↔
      ∃ sig, log.topics.head? = some sig ∧
        e.matches (some log.address) sig log.topics = true := by
  obtain ⟨h1, h2, h3⟩ := he
  simp only [EthGetLogsFilter.selects, EthGetLogsFilter.fromEventWithTopics,
    EventSignatureWithTopics.matches, filterSetMatches_getD h1, filterSetMatches_getD h2,
    filterSetMatches_getD h3, filterSetMatches_address, Bool.and_eq_true,
    filterSetMatches_singleton, ← List.head?_eq_getElem?, beq_iff_eq]
  simp only [and_assoc]
  constructor
  · rintro ⟨ha, hs, ht⟩
    exact ⟨e.signature, hs, ha, rfl, ht⟩
  · rintro ⟨sig, hs, ha, rfl, ht⟩
    exact ⟨ha, hs, ht⟩

/-- What `EthereumLogFilter::matches` accepts, part by part. -/
theorem matches_iff (f : EthereumLogFilter) (log : Log) :
    f.matches log = true ↔ ∃ sig, log.topics.head? = some sig ∧
      ((log.address, sig) ∈ f.contractsAndEventsGraph.edges ∨ sig ∈ f.wildcardEvents ∨
        ∃ e ∈ f.eventsWithTopicFilters,
          e.matches (some log.address) sig log.topics = true) := by
  unfold EthereumLogFilter.matches
  rcases h : log.topics.head? with _ | sig
  · simp
  · simp [MergeGraph.containsEdge, or_assoc]

/-! ### The filters of a log filter -/

section LogFilter

variable {n : Nat} (hn : 0 < n)
include hn

/-- The filters of the graph select the logs of its edges. -/
theorem exists_selects_graphFilters_iff (g : MergeGraph) (log : Log) :
    (∃ F ∈ graphFilters n g, F.selects log = true) ↔
      ∃ sig, log.topics.head? = some sig ∧ (log.address, sig) ∈ g.edges := by
  constructor
  · rintro ⟨F, hF, hsel⟩
    obtain ⟨sig, hsig, hcov⟩ :=
      (selects_iff_of_graphShaped (graphShaped_of_mem_graphFilters hn g F hF) log).mp hsel
    exact ⟨sig, hsig, (exists_covers_graphFilters_iff hn g _ _).mp ⟨F, hF, hcov⟩⟩
  · rintro ⟨sig, hsig, hedge⟩
    obtain ⟨F, hF, hcov⟩ := (exists_covers_graphFilters_iff hn g _ _).mpr hedge
    exact ⟨F, hF, (selects_iff_of_graphShaped (graphShaped_of_mem_graphFilters hn g F hF) log).mpr
      ⟨sig, hsig, hcov⟩⟩

/-- The logs the filters of a log filter select, part by part. -/
theorem exists_selects_ethGetLogsFilters_iff (f : EthereumLogFilter) (log : Log) :
    (∃ F ∈ f.ethGetLogsFilters n, F.selects log = true) ↔
      (∃ sig ∈ f.wildcardEvents, log.topics.head? = some sig) ∨
      (∃ e ∈ f.eventsWithTopicFilters, (EthGetLogsFilter.fromEventWithTopics e).selects log) ∨
      ∃ sig, log.topics.head? = some sig ∧
        (log.address, sig) ∈ f.contractsAndEventsGraph.edges := by
  simp only [EthereumLogFilter.ethGetLogsFilters, List.mem_append, or_and_right, exists_or,
    ← exists_selects_graphFilters_iff hn]
  simp [selects_fromEvent, or_assoc]

/-- **No log is missed**: every log the filter matches is selected by one of its
`eth_getLogs` filters. -/
theorem exists_selects_of_matches (f : EthereumLogFilter) (log : Log)
    (h : f.matches log = true) : ∃ F ∈ f.ethGetLogsFilters n, F.selects log = true := by
  rw [exists_selects_ethGetLogsFilters_iff hn]
  obtain ⟨sig, hsig, hedge | hwild | ⟨e, he, hmatch⟩⟩ := (matches_iff f log).mp h
  · exact .inr (.inr ⟨sig, hsig, hedge⟩)
  · exact .inl ⟨sig, hwild, hsig⟩
  · exact .inr (.inl ⟨e, he, selects_fromEventWithTopics_of_matches hsig hmatch⟩)

/-- With no empty topic list, every log selected is one the filter matches. -/
theorem matches_of_exists_selects (f : EthereumLogFilter)
    (hf : ∀ e ∈ f.eventsWithTopicFilters, e.NoEmptyTopic) (log : Log)
    (h : ∃ F ∈ f.ethGetLogsFilters n, F.selects log = true) : f.matches log = true := by
  rw [exists_selects_ethGetLogsFilters_iff hn] at h
  rw [matches_iff]
  rcases h with ⟨sig, hwild, hsig⟩ | ⟨e, he, hsel⟩ | ⟨sig, hsig, hedge⟩
  · exact ⟨sig, hsig, .inr (.inl hwild)⟩
  · obtain ⟨sig, hsig, hmatch⟩ := (selects_fromEventWithTopics_iff (hf e he) log).mp hsel
    exact ⟨sig, hsig, .inr (.inr ⟨e, he, hmatch⟩)⟩
  · exact ⟨sig, hsig, .inl hedge⟩

/-- Every filter has at most `get_logs_max_contracts` contracts, and one contract or one
event. -/
theorem length_contracts_of_mem_ethGetLogsFilters (f : EthereumLogFilter) :
    ∀ F ∈ f.ethGetLogsFilters n,
      F.contracts.length ≤ n ∧ (F.contracts.length = 1 ∨ F.eventSignatures.length = 1) := by
  intro F hF
  simp only [EthereumLogFilter.ethGetLogsFilters, List.mem_append, List.mem_map] at hF
  rcases hF with (⟨sig, -, rfl⟩ | ⟨e, -, rfl⟩) | hF
  · exact ⟨by simp [EthGetLogsFilter.fromEvent], .inr rfl⟩
  · -- at most the one address of the event
    refine ⟨?_, .inr rfl⟩
    rcases e with ⟨_ | a, sig, t1, t2, t3⟩ <;> simp [EthGetLogsFilter.fromEventWithTopics]
    omega
  · have hshape := graphShaped_of_mem_graphFilters hn _ F hF
    exact ⟨hshape.length_contracts_le, hshape.single⟩

/-- **The `eth_getLogs` filters of a log filter with no empty topic list select exactly the
logs it matches**, each with at most `get_logs_max_contracts` contracts and with one
contract or one event. -/
theorem ethGetLogsFilters_exact (f : EthereumLogFilter)
    (hf : ∀ e ∈ f.eventsWithTopicFilters, e.NoEmptyTopic) :
    (∀ log, (∃ F ∈ f.ethGetLogsFilters n, F.selects log = true) ↔ f.matches log = true) ∧
      ∀ F ∈ f.ethGetLogsFilters n,
        F.contracts.length ≤ n ∧ (F.contracts.length = 1 ∨ F.eventSignatures.length = 1) :=
  ⟨fun log => ⟨matches_of_exists_selects hn f hf log, exists_selects_of_matches hn f log⟩,
    length_contracts_of_mem_ethGetLogsFilters hn f⟩

end LogFilter

theorem ethGetLogsFilters_exact_two_contracts :
    let f : EthereumLogFilter :=
      ⟨⟨[(1, 7), (2, 7), (2, 8)]⟩, [5], [⟨none, 9, some [4], none, none⟩]⟩
    (0 < 1 ∧ ∀ e ∈ f.eventsWithTopicFilters, e.NoEmptyTopic) ∧
      (∀ log,
        (∃ F ∈ f.ethGetLogsFilters 1, F.selects log = true) ↔ f.matches log = true) ∧
        ∀ F ∈ f.ethGetLogsFilters 1,
          F.contracts.length ≤ 1 ∧ (F.contracts.length = 1 ∨ F.eventSignatures.length = 1) :=
  ⟨⟨Nat.one_pos, by decide⟩, ethGetLogsFilters_exact Nat.one_pos _ (by decide)⟩

/-- **An empty topic list makes `eth_getLogs` return a log `matches` rejects.** An event
with `topic1: [t]` and `topic2: []` has additional topics, so it goes to the topic filters;
`matches` finds no topic in the empty list, while `to_alloy_filter` sends it as an empty
`topic2`, which filters nothing. -/
theorem ethGetLogsFilters_false_positive :
    let e : EventSignatureWithTopics := ⟨none, 1, some [2], some [], none⟩
    let f : EthereumLogFilter := ⟨⟨[]⟩, [], [e]⟩
    let log : Log := ⟨0, [1, 2, 3]⟩
    f.matches log = false ∧ ∀ n, ∃ F ∈ f.ethGetLogsFilters n, F.selects log = true := by
  intro e f log
  refine ⟨by decide, fun n => ⟨.fromEventWithTopics e, ?_, by decide⟩⟩
  simp [f, EthereumLogFilter.ethGetLogsFilters]

end GraphNode.Ethereum
