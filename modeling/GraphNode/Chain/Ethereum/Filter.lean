import GraphNode.Chain.Ethereum.Trigger
import GraphNode.Data.Entity
import GraphNode.Lib.Merge

/-!
# Merging the trigger filters of data sources

A subgraph's block stream asks the chain for the logs, calls and blocks its data sources want,
by three filters. Each is built from the data sources (`from_data_sources`) and grown with
`extend` as data sources are added. A filter of several data sources should want exactly what
one of them wants: `extend` should be a union for what the filter decides.

* **Log filters.** The keys of an `EthereumLogFilter` carry a receipt flag, OR-merged on every
  write (`MergeMap`). `matches` and `requires_transaction_receipt` of an extended filter are
  the disjunctions of those of its parts (`matches_extend`, `requiresTransactionReceipt_extend`),
  and the filter of a concatenation of data sources decides as the extension of the two
  filters (`fromDataSources_append`).
* **Call filters.** An address with an empty set of function selectors stands for every call to
  the address, but `extend` unions the selector sets, so an address that wants every call in
  one filter and some selectors in the other wants only those selectors after `extend`
  (`EthereumCallFilter.extend_drops_all_calls`). Where that does not happen, `matches` of an
  extended filter is the disjunction (`EthereumCallFilter.matches_extend`), and the filters
  `from_data_sources` and `from_mapping` build never hold an empty set
  (`EthereumCallFilter.NoAllCalls`).
* **Block filters.** `extend` keeps, for every address, the earliest start block, unions the
  polling intervals and ORs `trigger_every_block` (`EthereumBlockFilter.extend_spec`).

The keys of the log filter's model in `GraphNode.Chain.Ethereum.Adapter` are the keys here
(`EthereumLogFilter.WithReceipts.keys`); `matches` reads only them. Hash maps are association
lists and hash sets are lists; what the filters decide reads them through lookups and
membership only.
-/

namespace GraphNode.Ethereum

/-! ### Data sources -/

/-- `FunctionSelector`: the first four bytes of the hash of a function's signature. -/
abbrev FunctionSelector := List UInt8

/-- `MappingEventHandler`, with `topic0()` resolved: the handler's `topic0`, or the hash of its
event's signature. -/
structure MappingEventHandler where
  topic0 : B256
  topic1 : Option (List B256)
  topic2 : Option (List B256)
  topic3 : Option (List B256)
  receipt : Bool
  deriving DecidableEq, Repr

/-- `MappingEventHandler::has_additional_topics`. -/
def MappingEventHandler.hasAdditionalTopics (self : MappingEventHandler) : Bool :=
  self.topic1.any (!·.isEmpty) || self.topic2.any (!·.isEmpty) || self.topic3.any (!·.isEmpty)

/-- `MappingCallHandler`, by the selector of its function, `keccak256(function)[..4]`. -/
structure MappingCallHandler where
  selector : FunctionSelector
  deriving DecidableEq, Repr

/-- `Mapping`: the handlers the filters read. -/
structure Mapping where
  eventHandlers : List MappingEventHandler
  callHandlers : List MappingCallHandler
  deriving DecidableEq, Repr

/-- `DataSource`: the fields the filters read. -/
structure DataSource where
  address : Option Address
  startBlock : BlockNumber
  mapping : Mapping
  deriving DecidableEq, Repr

/-! ### Log filters -/

/-- `MergeMap<K>`: a `HashMap<K, bool>` whose values are OR-merged on every write. -/
abbrev MergeMap (K : Type) := AList fun _ : K => Bool

/-- `MergeMap::or_insert`. -/
def MergeMap.orInsert {K : Type} [DecidableEq K] (m : MergeMap K) (k : K) (v : Bool) :
    MergeMap K :=
  insertWith (· || ·) k v m

/-- `EthereumLogFilter` with the receipt flags the model of its keys leaves out: the weight of
each edge (contract, event) of `MergeGraph`, whose `or_add_edge` OR-merges it as `or_insert`
does, and the value of each key of the two maps. -/
structure EthereumLogFilter.WithReceipts where
  contractsAndEventsGraph : MergeMap (Address × B256)
  wildcardEvents : MergeMap B256
  eventsWithTopicFilters : MergeMap EventSignatureWithTopics

/-- The keys of the filter, without their flags. -/
def EthereumLogFilter.WithReceipts.keys (self : EthereumLogFilter.WithReceipts) :
    EthereumLogFilter :=
  ⟨⟨self.contractsAndEventsGraph.keys⟩, self.wildcardEvents.keys,
    self.eventsWithTopicFilters.keys⟩

/-- `EthereumLogFilter::matches`, which reads only the keys. -/
def EthereumLogFilter.WithReceipts.matches (self : EthereumLogFilter.WithReceipts) (log : Log) :
    Bool :=
  self.keys.matches log

namespace EthereumLogFilter.WithReceipts

/-- `EthereumLogFilter::default()`. -/
def empty : WithReceipts := ⟨∅, ∅, ∅⟩

/-- `EthereumLogFilter::requires_transaction_receipt`. -/
def requiresTransactionReceipt (self : WithReceipts) (eventSignature : B256)
    (contractAddress : Option Address) (topics : List B256) : Bool :=
  -- Check for wildcard events first.
  if self.wildcardEvents.lookup eventSignature == some true then true
  -- Next, check events with topic filters.
  else if self.eventsWithTopicFilters.entries.any fun p =>
      p.2 && p.1.matches contractAddress eventSignature topics then true
  -- Finally, check the contracts_and_events_graph if a contract address is specified.
  else match contractAddress with
    | some address => self.contractsAndEventsGraph.lookup (address, eventSignature) == some true
    | none => false

/-- `EthereumLogFilter::is_empty`. -/
def isEmpty (self : WithReceipts) : Bool :=
  self.contractsAndEventsGraph.entries.isEmpty && self.wildcardEvents.entries.isEmpty &&
    self.eventsWithTopicFilters.entries.isEmpty

/-- `EthereumLogFilter::extend`: every edge and key of `other` written into `self`, its flag
OR-merged. -/
def extend (self other : WithReceipts) : WithReceipts :=
  if other.isEmpty then self
  else
    ⟨insertAllWith (· || ·) self.contractsAndEventsGraph other.contractsAndEventsGraph,
      insertAllWith (· || ·) self.wildcardEvents other.wildcardEvents,
      insertAllWith (· || ·) self.eventsWithTopicFilters other.eventsWithTopicFilters⟩

/-- One event handler of a data source at `address`, in `EthereumLogFilter::from_data_sources`. -/
def addEventHandler (address : Option Address) (eventHandler : MappingEventHandler)
    (this : WithReceipts) : WithReceipts :=
  let eventSig := eventHandler.topic0
  let withTopics := fun (address : Option Address) =>
    EventSignatureWithTopics.mk address eventSig eventHandler.topic1 eventHandler.topic2
      eventHandler.topic3
  match address with
  | some contract =>
    if !eventHandler.hasAdditionalTopics then
      { this with contractsAndEventsGraph :=
          this.contractsAndEventsGraph.orInsert (contract, eventSig) eventHandler.receipt }
    else
      { this with eventsWithTopicFilters :=
          this.eventsWithTopicFilters.orInsert (withTopics (some contract)) eventHandler.receipt }
  | none =>
    if !eventHandler.hasAdditionalTopics then
      { this with wildcardEvents := this.wildcardEvents.orInsert eventSig eventHandler.receipt }
    else
      { this with eventsWithTopicFilters :=
          this.eventsWithTopicFilters.orInsert (withTopics address) eventHandler.receipt }

/-- The event handlers of one data source, in `EthereumLogFilter::from_data_sources`. -/
def addDataSource (this : WithReceipts) (ds : DataSource) : WithReceipts :=
  ds.mapping.eventHandlers.foldl (fun this h => addEventHandler ds.address h this) this

/-- `EthereumLogFilter::from_data_sources`. -/
def fromDataSources (dataSources : List DataSource) : WithReceipts :=
  dataSources.foldl addDataSource empty

/-! The filter is read through the flag of each key. -/

/-- A key of one of the three maps. -/
inductive Key where
  | edge (contract : Address) (event : B256)
  | wildcard (event : B256)
  | topics (event : EventSignatureWithTopics)

/-- The flag of a key, `none` where the filter lacks it. -/
def flag (self : WithReceipts) : Key → Option Bool
  | .edge contract event => self.contractsAndEventsGraph.lookup (contract, event)
  | .wildcard event => self.wildcardEvents.lookup event
  | .topics event => self.eventsWithTopicFilters.lookup event

theorem lookup_orInsert {K : Type} [DecidableEq K] (m : MergeMap K) (k : K) (v : Bool) (k' : K) :
    (m.orInsert k v).lookup k' =
      Option.merge (· || ·) (m.lookup k') (if k' = k then some v else none) :=
  lookup_insertWith _ k v m k'

theorem mem_keys_iff {K : Type} [DecidableEq K] (m : MergeMap K) (k : K) :
    k ∈ m.keys ↔ (m.lookup k).isSome := by
  rw [← AList.mem_keys, AList.lookup_isSome]

theorem any_entries_iff {K : Type} [DecidableEq K] (m : MergeMap K) (p : K → Bool) :
    (m.entries.any fun e => e.2 && p e.1) = true ↔ ∃ k, m.lookup k = some true ∧ p k = true := by
  simp only [List.any_eq_true, Bool.and_eq_true]
  constructor
  · rintro ⟨⟨k, v⟩, hmem, hv, hp⟩
    exact ⟨k, AList.mem_lookup_iff.mpr (hv ▸ hmem), hp⟩
  · rintro ⟨k, hk, hp⟩
    exact ⟨⟨k, true⟩, AList.mem_lookup_iff.mp hk, rfl, hp⟩

theorem flag_empty (key : Key) : empty.flag key = none := by
  cases key <;> rfl

theorem flag_of_isEmpty {self : WithReceipts} (h : self.isEmpty = true) (key : Key) :
    self.flag key = none := by
  simp only [isEmpty, Bool.and_eq_true, List.isEmpty_iff] at h
  cases key <;> simp [flag, AList.lookup, h.1.1, h.1.2, h.2, List.dlookup_nil]

/-- **The flags of an extended filter are the OR-merges of those of its parts.** -/
theorem flag_extend (self other : WithReceipts) (key : Key) :
    (self.extend other).flag key = Option.merge (· || ·) (self.flag key) (other.flag key) := by
  unfold extend
  split
  next hempty => rw [flag_of_isEmpty hempty key, Option.merge_none_right]
  next => cases key <;> exact lookup_insertAllWith _ _ _ _

/-- `matches` by the flags: some key the log's first topic selects is present. -/
theorem matches_iff (self : WithReceipts) (log : Log) :
    self.matches log = true ↔ ∃ sig, log.topics.head? = some sig ∧
      ((self.flag (.edge log.address sig)).isSome ∨ (self.flag (.wildcard sig)).isSome ∨
        ∃ e, (self.flag (.topics e)).isSome ∧ e.matches (some log.address) sig log.topics) := by
  simp only [WithReceipts.matches, keys, EthereumLogFilter.matches]
  cases log.topics.head? with
  | none => simp
  | some sig =>
    simp only [MergeGraph.containsEdge, Bool.or_eq_true, List.contains_iff_mem, mem_keys_iff,
      List.any_eq_true, flag, Option.some.injEq, exists_eq_left', or_assoc]

/-- `requires_transaction_receipt` by the flags: some key it checks has the flag `true`. -/
theorem requiresTransactionReceipt_iff (self : WithReceipts) (sig : B256)
    (address : Option Address) (topics : List B256) :
    self.requiresTransactionReceipt sig address topics = true ↔
      self.flag (.wildcard sig) = some true ∨
      (∃ e, self.flag (.topics e) = some true ∧ e.matches address sig topics = true) ∨
      ∃ contract, address = some contract ∧ self.flag (.edge contract sig) = some true := by
  have hany := any_entries_iff self.eventsWithTopicFilters fun e => e.matches address sig topics
  unfold requiresTransactionReceipt
  simp only [flag]
  cases address <;> by_cases hw : self.wildcardEvents.lookup sig = some true <;>
    simp [hw, hany]

theorem merge_or_eq_some_true (a b : Option Bool) :
    Option.merge (· || ·) a b = some true ↔ a = some true ∨ b = some true := by
  cases a <;> cases b <;> simp

/-- **`matches` of an extended filter is the disjunction of those of its parts.** -/
theorem matches_extend (self other : WithReceipts) (log : Log) :
    (self.extend other).matches log = (self.matches log || other.matches log) := by
  rw [Bool.eq_iff_iff, Bool.or_eq_true, matches_iff, matches_iff, matches_iff]
  simp only [flag_extend, Option.isSome_merge, Bool.or_eq_true]
  cases log.topics.head? with
  | none => simp
  | some sig =>
    simp only [Option.some.injEq, exists_eq_left', or_and_right, exists_or]
    simp only [or_assoc, or_left_comm]

/-- **`requires_transaction_receipt` of an extended filter is the disjunction of those of its
parts.** -/
theorem requiresTransactionReceipt_extend (self other : WithReceipts) (sig : B256)
    (address : Option Address) (topics : List B256) :
    (self.extend other).requiresTransactionReceipt sig address topics =
      (self.requiresTransactionReceipt sig address topics ||
        other.requiresTransactionReceipt sig address topics) := by
  rw [Bool.eq_iff_iff, Bool.or_eq_true, requiresTransactionReceipt_iff,
    requiresTransactionReceipt_iff, requiresTransactionReceipt_iff]
  simp only [flag_extend, merge_or_eq_some_true, or_and_right, and_or_left, exists_or]
  simp only [or_assoc, or_left_comm]

/-- Filters with the same flags decide alike. -/
theorem matches_congr {f g : WithReceipts} (h : ∀ key, f.flag key = g.flag key) (log : Log) :
    f.matches log = g.matches log := by
  rw [Bool.eq_iff_iff, matches_iff, matches_iff]
  simp only [h]

theorem requiresTransactionReceipt_congr {f g : WithReceipts} (h : ∀ key, f.flag key = g.flag key)
    (sig : B256) (address : Option Address) (topics : List B256) :
    f.requiresTransactionReceipt sig address topics =
      g.requiresTransactionReceipt sig address topics := by
  rw [Bool.eq_iff_iff, requiresTransactionReceipt_iff, requiresTransactionReceipt_iff]
  simp only [h]

/-- An event handler writes one key, OR-merging its receipt flag. -/
theorem flag_addEventHandler (address : Option Address) (h : MappingEventHandler)
    (this : WithReceipts) (key : Key) :
    (addEventHandler address h this).flag key =
      Option.merge (· || ·) (this.flag key) ((addEventHandler address h empty).flag key) := by
  unfold addEventHandler
  cases address <;> cases h.hasAdditionalTopics <;> cases key <;>
    simp [flag, lookup_orInsert, empty]

theorem flag_addDataSource (this : WithReceipts) (ds : DataSource) (key : Key) :
    (addDataSource this ds).flag key =
      Option.merge (· || ·) (this.flag key) ((addDataSource empty ds).flag key) := by
  have hstep := fun s h => flag_addEventHandler ds.address h s key
  rw [addDataSource, addDataSource, obs_foldl_of_merge _ (fun s : WithReceipts => s.flag key) hstep,
    obs_foldl_of_merge _ (fun s : WithReceipts => s.flag key) hstep, flag_empty,
    Option.merge_none_left]

/-- The flags of `from_data_sources`: those of each data source, OR-merged. -/
theorem flag_fromDataSources (dataSources : List DataSource) (key : Key) :
    (fromDataSources dataSources).flag key =
      mergeAll (· || ·) (fun ds => (addDataSource empty ds).flag key) dataSources := by
  rw [fromDataSources, obs_foldl_of_merge _ (fun s : WithReceipts => s.flag key)
    (fun s ds => flag_addDataSource s ds key), flag_empty, Option.merge_none_left]

/-- **The filter of two lists of data sources decides as the extension of their filters.** -/
theorem fromDataSources_append (A B : List DataSource) :
    (∀ log, (fromDataSources (A ++ B)).matches log =
      ((fromDataSources A).extend (fromDataSources B)).matches log) ∧
    ∀ sig address topics,
      (fromDataSources (A ++ B)).requiresTransactionReceipt sig address topics =
        ((fromDataSources A).extend (fromDataSources B)).requiresTransactionReceipt sig
          address topics := by
  have hflag : ∀ key, (fromDataSources (A ++ B)).flag key =
      ((fromDataSources A).extend (fromDataSources B)).flag key := fun key => by
    rw [flag_extend, flag_fromDataSources, flag_fromDataSources, flag_fromDataSources,
      foldl_merge_append]
  exact ⟨matches_congr hflag, requiresTransactionReceipt_congr hflag⟩

end EthereumLogFilter.WithReceipts

/-! ### Call filters -/

/-- `EthereumCallFilter`: for each address the earliest start block of its data sources and the
selectors of the functions wanted, an empty set standing for every call to the address; and the
selectors wanted of every contract. -/
structure EthereumCallFilter where
  contractAddressesFunctionSignatures :
    AList fun _ : Address => BlockNumber × List FunctionSelector
  wildcardSignatures : List FunctionSelector

/-- `EthereumCallFilter::matches`. -/
def EthereumCallFilter.matches (self : EthereumCallFilter) (call : EthereumCall) : Bool :=
  -- If the input is less than 4 bytes, we assume it's a pure transfer and discard it.
  if call.input.length < 4 then false
  else
    let callSignature := call.input.take 4
    match self.contractAddressesFunctionSignatures.lookup call.«to» with
    -- If the call is to a contract with no specified functions, keep the call
    | some v => if v.2.isEmpty then true
      else v.2.contains callSignature || self.wildcardSignatures.contains callSignature
    -- no contract specific functions, check wildcards
    | none => self.wildcardSignatures.contains callSignature
namespace EthereumCallFilter


/-- `EthereumCallFilter::is_empty`. -/
def isEmpty (self : EthereumCallFilter) : Bool :=
  self.contractAddressesFunctionSignatures.entries.isEmpty && self.wildcardSignatures.isEmpty

/-- The arm of `extend` for an address both filters have: the earlier start block, and the
selectors of both. -/
def extendEntry (existing proposed : BlockNumber × List FunctionSelector) :
    BlockNumber × List FunctionSelector :=
  (min proposed.1 existing.1, existing.2 ++ proposed.2)

/-- `EthereumCallFilter::extend`. -/
def extend (self other : EthereumCallFilter) : EthereumCallFilter :=
  if other.isEmpty then self
  else
    ⟨insertAllWith extendEntry self.contractAddressesFunctionSignatures
        other.contractAddressesFunctionSignatures,
      self.wildcardSignatures ++ other.wildcardSignatures⟩

/-- `FromIterator<(BlockNumber, Address, FunctionSelector)> for EthereumCallFilter`. -/
def fromIter (iter : List (BlockNumber × Address × FunctionSelector)) : EthereumCallFilter :=
  ⟨iter.foldl (fun lookup (startBlock, address, functionSignature) =>
      let entry := (lookup.lookup address).getD (startBlock, [])
      let entry := if entry.1 > startBlock then (startBlock, entry.2) else entry
      lookup.insert address (entry.1, entry.2 ++ [functionSignature])) ∅, []⟩

/-- `EthereumCallFilter::from_data_sources`: the selector of every call handler of a data
source with an address. -/
def fromDataSources (dataSources : List DataSource) : EthereumCallFilter :=
  fromIter (dataSources.flatMap fun ds =>
    match ds.address with
    | some contractAddr =>
      ds.mapping.callHandlers.map fun h => (ds.startBlock, contractAddr, h.selector)
    | none => [])

/-- `EthereumCallFilter::from_mapping`: the selectors of the call handlers, of every contract. -/
def fromMapping (mapping : Mapping) : EthereumCallFilter :=
  ⟨∅, mapping.callHandlers.map (·.selector)⟩

/-- No address stands for every call to it. -/
def NoAllCalls (self : EthereumCallFilter) : Prop :=
  ∀ address v, self.contractAddressesFunctionSignatures.lookup address = some v → v.2 ≠ []

theorem noAllCalls_fromIter (iter : List (BlockNumber × Address × FunctionSelector)) :
    (fromIter iter).NoAllCalls := by
  -- an invariant of the fold: every write appends a selector to the entry it writes
  refine List.foldlRecOn
    (motive := fun lookup : AList fun _ : Address => BlockNumber × List FunctionSelector =>
      ∀ address v, lookup.lookup address = some v → v.2 ≠ []) iter _
    (by simp) ?_
  rintro lookup hlookup ⟨startBlock, address', sig⟩ - address v hv
  by_cases ha : address = address'
  · subst ha
    simp only [AList.lookup_insert, Option.some.injEq] at hv
    simp [← hv]
  · rw [AList.lookup_insert_ne ha] at hv
    exact hlookup address v hv

theorem noAllCalls_fromDataSources (dataSources : List DataSource) :
    (fromDataSources dataSources).NoAllCalls :=
  noAllCalls_fromIter _

theorem noAllCalls_fromMapping (mapping : Mapping) : (fromMapping mapping).NoAllCalls := by
  intro address v hv
  simp [fromMapping] at hv

theorem isEmpty_iff (self : EthereumCallFilter) :
    self.isEmpty = true ↔
      self.contractAddressesFunctionSignatures.entries = [] ∧ self.wildcardSignatures = [] := by
  simp only [isEmpty, Bool.and_eq_true, List.isEmpty_iff]

theorem lookup_extend (self other : EthereumCallFilter) (address : Address) :
    (self.extend other).contractAddressesFunctionSignatures.lookup address =
      Option.merge extendEntry (self.contractAddressesFunctionSignatures.lookup address)
        (other.contractAddressesFunctionSignatures.lookup address) := by
  unfold extend
  split
  next hempty => simp [AList.lookup, ((isEmpty_iff other).mp hempty).1, List.dlookup_nil]
  next => exact lookup_insertAllWith _ _ _ _

theorem wildcardSignatures_extend (self other : EthereumCallFilter) (sig : FunctionSelector) :
    (self.extend other).wildcardSignatures.contains sig =
      (self.wildcardSignatures.contains sig || other.wildcardSignatures.contains sig) := by
  unfold extend
  split
  next hempty => simp [((isEmpty_iff other).mp hempty).2]
  next => simp

theorem noAllCalls_extend {self other : EthereumCallFilter} (hself : self.NoAllCalls)
    (hother : other.NoAllCalls) : (self.extend other).NoAllCalls := by
  intro address v hv
  rw [lookup_extend, Option.merge_eq_some_iff] at hv
  rcases hv with ⟨hs, -⟩ | ⟨-, ho⟩ | ⟨a, b, hs, -, rfl⟩
  · exact hself address v hs
  · exact hother address v ho
  · simp [extendEntry, hself address a hs]

/-- Two filters agree on which addresses stand for every call. -/
def AllCallsAgree (self other : EthereumCallFilter) : Prop :=
  ∀ address v w, self.contractAddressesFunctionSignatures.lookup address = some v →
    other.contractAddressesFunctionSignatures.lookup address = some w → (v.2 = [] ↔ w.2 = [])

theorem allCallsAgree_of_noAllCalls {self other : EthereumCallFilter} (hself : self.NoAllCalls)
    (hother : other.NoAllCalls) : self.AllCallsAgree other :=
  fun address v w hv hw => ⟨fun h => absurd h (hself address v hv),
    fun h => absurd h (hother address w hw)⟩

/-- **`matches` of an extended filter is the disjunction of those of its parts**, as long as no
address stands for every call in one filter and not in the other. -/
theorem matches_extend {self other : EthereumCallFilter} (h : self.AllCallsAgree other)
    (call : EthereumCall) :
    (self.extend other).matches call = (self.matches call || other.matches call) := by
  unfold EthereumCallFilter.matches
  by_cases hlen : call.input.length < 4
  · simp [hlen]
  simp only [hlen, if_false, lookup_extend, wildcardSignatures_extend]
  -- split on the entries of the call's address in both filters
  cases hs : self.contractAddressesFunctionSignatures.lookup call.«to» with
  | none =>
    cases other.contractAddressesFunctionSignatures.lookup call.«to» with
    | none => rfl
    | some w => cases w.2.isEmpty <;> simp [Bool.or_left_comm]
  | some v =>
    cases ho : other.contractAddressesFunctionSignatures.lookup call.«to» with
    | none => cases v.2.isEmpty <;> simp [Bool.or_assoc]
    | some w =>
      have hagree := h call.«to» v w hs ho
      by_cases hv : v.2 = []
      · simp [extendEntry, hv, hagree.mp hv]
      · have hw : w.2 ≠ [] := fun hw => hv (hagree.mpr hw)
        simp only [Option.merge_some_some, extendEntry, List.isEmpty_iff, List.append_eq_nil_iff,
          hv, hw, and_self, if_false, List.contains_append]
        ac_rfl

end EthereumCallFilter

/-! ### Block filters -/

/-- `EthereumBlockFilter`: the start block and polling interval of each polling block handler,
the start block and address of each data source with a call-filtered block handler, and
whether some block handler wants every block. -/
structure EthereumBlockFilter where
  pollingIntervals : List (BlockNumber × Int)
  contractAddresses : List (BlockNumber × Address)
  triggerEveryBlock : Bool

namespace EthereumBlockFilter

/-- `EthereumBlockFilter::is_empty`. -/
def isEmpty (self : EthereumBlockFilter) : Bool :=
  !self.triggerEveryBlock && self.contractAddresses.isEmpty && self.pollingIntervals.isEmpty

/-- `EthereumBlockFilter::find_contract_address`. -/
def findContractAddress (self : EthereumBlockFilter) (candidate : Address) :
    Option (BlockNumber × Address) :=
  self.contractAddresses.find? fun p => candidate == p.2

/-- One address of the other filter, in the loop of `extend`: it replaces the entry of its
address if its start block is earlier, and is added if its address has none. -/
def addContractAddress (self : EthereumBlockFilter) (other : BlockNumber × Address) :
    EthereumBlockFilter :=
  match self.findContractAddress other.2 with
  | some (currentStartBlock, currentAddress) =>
    if other.1 < currentStartBlock then
      { self with contractAddresses :=
          (self.contractAddresses.erase (currentStartBlock, currentAddress)).insert other }
    else self
  | none => { self with contractAddresses := self.contractAddresses.insert other }

/-- `EthereumBlockFilter::extend`. -/
def extend (self other : EthereumBlockFilter) : EthereumBlockFilter :=
  if other.isEmpty then self
  else
    let self := { self with triggerEveryBlock := self.triggerEveryBlock || other.triggerEveryBlock }
    let self := other.contractAddresses.foldl addContractAddress self
    { self with pollingIntervals :=
        other.pollingIntervals.foldl (fun s p => s.insert p) self.pollingIntervals }

/-- The start blocks the filter holds for an address. -/
def startBlocks (self : EthereumBlockFilter) (address : Address) : List BlockNumber :=
  (self.contractAddresses.filter (·.2 == address)).map (·.1)

theorem mem_startBlocks (self : EthereumBlockFilter) (address : Address) (s : BlockNumber) :
    s ∈ self.startBlocks address ↔ (s, address) ∈ self.contractAddresses := by
  simp [startBlocks]

/-- The bounds the start blocks of an address reach after one step of the loop: those reached
before, and the other start block for its own address. -/
theorem exists_le_addContractAddress (self : EthereumBlockFilter) (other : BlockNumber × Address)
    (address : Address) (n : BlockNumber) :
    (∃ s, (s, address) ∈ (self.addContractAddress other).contractAddresses ∧ s ≤ n) ↔
      (∃ s, (s, address) ∈ self.contractAddresses ∧ s ≤ n) ∨
        (other.2 = address ∧ other.1 ≤ n) := by
  unfold addContractAddress
  split
  next currentStartBlock currentAddress hfind =>
    -- the entry found is one of the other address
    obtain ⟨hmem, hcur⟩ : (currentStartBlock, currentAddress) ∈ self.contractAddresses ∧
        other.2 = currentAddress := by
      have h := List.find?_some hfind
      exact ⟨List.mem_of_find?_eq_some hfind, by simpa using h⟩
    subst hcur
    split
    next hlt =>
      simp only [List.mem_insert_iff]
      constructor
      · rintro ⟨s, hs | hs, hsn⟩
        · exact .inr ⟨(Prod.ext_iff.mp hs).2.symm, (Prod.ext_iff.mp hs).1 ▸ hsn⟩
        · exact .inl ⟨s, List.mem_of_mem_erase hs, hsn⟩
      · rintro (⟨s, hs, hsn⟩ | ⟨rfl, hn⟩)
        · by_cases heq : (s, address) = (currentStartBlock, other.2)
          · -- the replaced entry's bound is reached by the earlier start block
            obtain ⟨hs₁, hs₂⟩ := Prod.mk.inj heq
            exact ⟨other.1, .inl (Prod.ext rfl hs₂), (le_of_lt hlt).trans (hs₁ ▸ hsn)⟩
          · exact ⟨s, .inr ((List.mem_erase_of_ne heq).mpr hs), hsn⟩
        · exact ⟨other.1, .inl rfl, hn⟩
    next hge =>
      constructor
      · exact .inl
      · rintro (h | ⟨rfl, hn⟩)
        · exact h
        · exact ⟨currentStartBlock, hmem, (not_lt.mp hge).trans hn⟩
  next hfind =>
    simp only [List.mem_insert_iff]
    constructor
    · rintro ⟨s, hs | hs, hsn⟩
      · exact .inr ⟨(Prod.ext_iff.mp hs).2.symm, (Prod.ext_iff.mp hs).1 ▸ hsn⟩
      · exact .inl ⟨s, hs, hsn⟩
    · rintro (⟨s, hs, hsn⟩ | ⟨rfl, hn⟩)
      · exact ⟨s, .inr hs, hsn⟩
      · exact ⟨other.1, .inl rfl, hn⟩

theorem exists_le_foldl_addContractAddress (others : List (BlockNumber × Address))
    (self : EthereumBlockFilter) (address : Address) (n : BlockNumber) :
    (∃ s, (s, address) ∈ (others.foldl addContractAddress self).contractAddresses ∧ s ≤ n) ↔
      (∃ s, (s, address) ∈ self.contractAddresses ∧ s ≤ n) ∨
        ∃ s, (s, address) ∈ others ∧ s ≤ n := by
  induction others generalizing self with
  | nil => simp
  | cons other others ih =>
    rw [List.foldl_cons, ih, exists_le_addContractAddress]
    simp only [List.mem_cons]
    constructor
    · rintro ((h | ⟨rfl, hn⟩) | ⟨s, hs, hsn⟩)
      · exact .inl h
      · exact .inr ⟨other.1, .inl rfl, hn⟩
      · exact .inr ⟨s, .inr hs, hsn⟩
    · rintro (h | ⟨s, hs | hs, hsn⟩)
      · exact .inl (.inl h)
      · exact .inl (.inr ⟨(Prod.ext_iff.mp hs).2.symm, (Prod.ext_iff.mp hs).1 ▸ hsn⟩)
      · exact .inr ⟨s, hs, hsn⟩

/-- The loop over the addresses changes only the addresses. -/
theorem foldl_addContractAddress_eq (others : List (BlockNumber × Address))
    (self : EthereumBlockFilter) : ∃ contractAddresses,
      others.foldl addContractAddress self = { self with contractAddresses } := by
  induction others generalizing self with
  | nil => exact ⟨self.contractAddresses, rfl⟩
  | cons other others ih =>
    have hstep : ∃ contractAddresses,
        self.addContractAddress other = { self with contractAddresses } := by
      unfold addContractAddress
      split
      · split
        · exact ⟨_, rfl⟩
        · exact ⟨self.contractAddresses, rfl⟩
      · exact ⟨_, rfl⟩
    obtain ⟨l, hl⟩ := hstep
    obtain ⟨l', hl'⟩ := ih (self.addContractAddress other)
    exact ⟨l', by rw [List.foldl_cons, hl', hl]⟩

theorem mem_foldl_insert {α : Type} [BEq α] [LawfulBEq α] (l s : List α) (a : α) :
    a ∈ l.foldl (fun s p => s.insert p) s ↔ a ∈ s ∨ a ∈ l := by
  induction l generalizing s with
  | nil => simp
  | cons b l ih =>
    rw [List.foldl_cons, ih, List.mem_insert_iff, List.mem_cons]
    tauto

theorem isEmpty_iff (self : EthereumBlockFilter) :
    self.isEmpty = true ↔ self.triggerEveryBlock = false ∧ self.contractAddresses = [] ∧
      self.pollingIntervals = [] := by
  simp only [isEmpty, Bool.and_eq_true, Bool.not_eq_true', List.isEmpty_iff, and_assoc]

/-- Past its early return, `extend` ORs the flags, changes the addresses by its loop and adds
the polling intervals. -/
theorem extend_of_not_isEmpty (self : EthereumBlockFilter) {other : EthereumBlockFilter}
    (h : ¬other.isEmpty = true) : ∃ contractAddresses, self.extend other =
      ⟨other.pollingIntervals.foldl (fun s p => s.insert p) self.pollingIntervals,
        contractAddresses, self.triggerEveryBlock || other.triggerEveryBlock⟩ := by
  obtain ⟨l, hl⟩ := foldl_addContractAddress_eq other.contractAddresses
    { self with triggerEveryBlock := self.triggerEveryBlock || other.triggerEveryBlock }
  refine ⟨l, ?_⟩
  rw [extend, if_neg h]
  simp only [hl]

theorem startBlocks_extend_min? (self other : EthereumBlockFilter) (address : Address) :
    ((self.extend other).startBlocks address).min? =
      Option.merge min (self.startBlocks address).min? (other.startBlocks address).min? := by
  unfold extend
  split
  next hempty => simp [startBlocks, ((isEmpty_iff other).mp hempty).2.1]
  next =>
    refine min?_eq_merge_of_exists_le fun n => ?_
    simp only [mem_startBlocks]
    rw [exists_le_foldl_addContractAddress]

theorem mem_pollingIntervals_extend (self other : EthereumBlockFilter)
    (p : BlockNumber × Int) :
    p ∈ (self.extend other).pollingIntervals ↔
      p ∈ self.pollingIntervals ∨ p ∈ other.pollingIntervals := by
  by_cases hempty : other.isEmpty = true
  · simp [extend, hempty, ((isEmpty_iff other).mp hempty).2.2]
  · obtain ⟨l, hl⟩ := extend_of_not_isEmpty self hempty
    rw [hl, mem_foldl_insert]

theorem triggerEveryBlock_extend (self other : EthereumBlockFilter) :
    (self.extend other).triggerEveryBlock =
      (self.triggerEveryBlock || other.triggerEveryBlock) := by
  by_cases hempty : other.isEmpty = true
  · simp [extend, hempty, ((isEmpty_iff other).mp hempty).1]
  · obtain ⟨l, hl⟩ := extend_of_not_isEmpty self hempty
    rw [hl]

/-- **`extend` keeps the earliest start block of every address, unions the polling intervals and
ORs `trigger_every_block`.** -/
theorem extend_spec (self other : EthereumBlockFilter) :
    (∀ address, ((self.extend other).startBlocks address).min? =
      Option.merge min (self.startBlocks address).min? (other.startBlocks address).min?) ∧
    (∀ p, p ∈ (self.extend other).pollingIntervals ↔
      p ∈ self.pollingIntervals ∨ p ∈ other.pollingIntervals) ∧
    (self.extend other).triggerEveryBlock = (self.triggerEveryBlock || other.triggerEveryBlock) :=
  ⟨startBlocks_extend_min? self other, mem_pollingIntervals_extend self other,
    triggerEveryBlock_extend self other⟩

end EthereumBlockFilter

/-- `From<&EthereumBlockFilter> for EthereumCallFilter`: every call to each address of the block
filter, the empty set of selectors standing for all of them. -/
def EthereumCallFilter.ofBlockFilter (blockFilter : EthereumBlockFilter) : EthereumCallFilter :=
  ⟨blockFilter.contractAddresses.foldl (fun lookup (startBlockOpt, address) =>
      lookup.insert address (startBlockOpt, [])) ∅, []⟩

/-- **`extend` turns an address that wants every call into one that wants some selectors.** The
call filter of a block filter with a call-filtered block handler at `1` wants every call to `1`;
the call filter of a call handler at `1` wants the calls of one selector. Extended by the second,
the first no longer wants a call of another selector to `1`, which it wanted and the second
does not. -/
theorem EthereumCallFilter.extend_drops_all_calls :
    let f := ofBlockFilter ⟨[], [(0, 1)], false⟩
    let g := fromIter [(0, 1, [1, 2, 3, 4])]
    let call : EthereumCall := ⟨0, 1, 0, 0, [5, 6, 7, 8], [], 0, 0, none, 0⟩
    f.matches call = true ∧ g.matches call = false ∧ (f.extend g).matches call = false := by
  decide

/-- **The trigger filters merge as unions of what they decide.** For log filters, `matches` and
`requires_transaction_receipt` of an extended filter are the disjunctions of those of its parts,
and the filter of two lists of data sources decides as the extension of their filters. For call
filters, `matches` of an extended filter is the disjunction of those of its parts where no
address wants every call in one filter and some selectors in the other; the call filters of
data sources and of a mapping have no address that wants every call, and `extend` keeps that, so
that the merges of the node are unions. For block filters,
`extend` keeps the earliest start block of every address, unions the polling intervals and ORs
`trigger_every_block`. -/
theorem triggerFilters_extend_union :
    (∀ (f g : EthereumLogFilter.WithReceipts) (log : Log),
      (f.extend g).matches log = (f.matches log || g.matches log)) ∧
    (∀ (f g : EthereumLogFilter.WithReceipts) (sig : B256) (address : Option Address)
      (topics : List B256),
      (f.extend g).requiresTransactionReceipt sig address topics =
        (f.requiresTransactionReceipt sig address topics ||
          g.requiresTransactionReceipt sig address topics)) ∧
    (∀ A B : List DataSource,
      (∀ log, (EthereumLogFilter.WithReceipts.fromDataSources (A ++ B)).matches log =
        ((EthereumLogFilter.WithReceipts.fromDataSources A).extend
          (EthereumLogFilter.WithReceipts.fromDataSources B)).matches log) ∧
      ∀ sig address topics,
        (EthereumLogFilter.WithReceipts.fromDataSources (A ++ B)).requiresTransactionReceipt sig
          address topics =
        ((EthereumLogFilter.WithReceipts.fromDataSources A).extend
          (EthereumLogFilter.WithReceipts.fromDataSources B)).requiresTransactionReceipt sig
            address topics) ∧
    (∀ f g : EthereumCallFilter, f.AllCallsAgree g →
      ∀ call, (f.extend g).matches call = (f.matches call || g.matches call)) ∧
    ((∀ dataSources : List DataSource,
        (EthereumCallFilter.fromDataSources dataSources).NoAllCalls) ∧
      (∀ mapping : Mapping, (EthereumCallFilter.fromMapping mapping).NoAllCalls) ∧
      ∀ f g : EthereumCallFilter, f.NoAllCalls → g.NoAllCalls → (f.extend g).NoAllCalls) ∧
    (∀ f g : EthereumBlockFilter,
      (∀ address, ((f.extend g).startBlocks address).min? =
        Option.merge min (f.startBlocks address).min? (g.startBlocks address).min?) ∧
      (∀ p, p ∈ (f.extend g).pollingIntervals ↔ p ∈ f.pollingIntervals ∨ p ∈ g.pollingIntervals) ∧
      (f.extend g).triggerEveryBlock = (f.triggerEveryBlock || g.triggerEveryBlock)) :=
  ⟨EthereumLogFilter.WithReceipts.matches_extend,
    EthereumLogFilter.WithReceipts.requiresTransactionReceipt_extend,
    EthereumLogFilter.WithReceipts.fromDataSources_append,
    fun _ _ h => EthereumCallFilter.matches_extend h,
    ⟨EthereumCallFilter.noAllCalls_fromDataSources, EthereumCallFilter.noAllCalls_fromMapping,
      fun _ _ => EthereumCallFilter.noAllCalls_extend⟩,
    EthereumBlockFilter.extend_spec⟩

/-- The call filters of two call handlers at `1`, of two selectors, and a call of the second. -/
theorem triggerFilters_extend_union_two_handlers :
    let f := EthereumCallFilter.fromIter [(0, 1, [1, 2, 3, 4])]
    let g := EthereumCallFilter.fromIter [(5, 1, [5, 6, 7, 8])]
    let call : EthereumCall := ⟨0, 1, 0, 0, [5, 6, 7, 8], [], 0, 0, none, 0⟩
    f.AllCallsAgree g ∧ (f.extend g).matches call = (f.matches call || g.matches call) := by
  intro f g call
  have hagree : f.AllCallsAgree g := EthereumCallFilter.allCallsAgree_of_noAllCalls
    (EthereumCallFilter.noAllCalls_fromIter _) (EthereumCallFilter.noAllCalls_fromIter _)
  exact ⟨hagree, triggerFilters_extend_union.2.2.2.1 f g hagree call⟩

end GraphNode.Ethereum
