import NanoStore.Common.SortedMap
import NanoStore.Common.Steps
import NanoStore.Txn.Version
/-!
# Time-series tables

`TimeSeriesTable` of `table/timeseries/mod.rs` and the buckets of
`bucket.rs`: the points of a series lie in buckets of equal length in time,
of which a manager keeps at most a hundred in memory. An append into a
bucket that is not in memory first puts the least recently used bucket on
its page, and then reads the page of the bucket it needs, or makes a new
bucket.

The buckets of a query are looked up among those in memory, so the loop
that is to load them loads none: a bucket on a page is seen again only
after an append into it. Committing stamps the buckets in memory. Reopening
a table restores which buckets have pages, and no bucket.

A page holds the bucket it was written from; whether the bytes of a bucket
or of the metadata fit a page is a parameter, and so is the clock.
-/

namespace NanoStore.Table

open Txn Steps

/-! ## Buckets of time -/

/-- `i64::MAX`. -/
def i64Max : ℤ := 2 ^ 63 - 1

/-- `u64::MAX`, the position of the snapshot that sees all committed points. -/
def u64Max : ℕ := 2 ^ 64 - 1

/-- `as i64` of a `u64`. -/
def asI64 (n : ℕ) : ℤ := if n < 2 ^ 63 then n else n - 2 ^ 64

namespace BucketId

/-- `BucketId::from_timestamp`, for a size that is not zero. -/
def fromTimestamp (timestamp : ℤ) (bucketSize : ℕ) : ℕ :=
  if 0 ≤ timestamp then timestamp.toNat / bucketSize
  else 2 ^ 64 - ((-timestamp).toNat + (bucketSize - 1)) / bucketSize

def startTimestamp (id bucketSize : ℕ) : ℤ :=
  if i64Max.toNat / bucketSize < id then i64Max else id * bucketSize

/-- `BucketId::end_timestamp`, with the addition of `saturating_add`. -/
def endTimestamp (id bucketSize : ℕ) : ℤ :=
  min i64Max (startTimestamp id bucketSize + asI64 bucketSize)

end BucketId

open BucketId

/-- A point deleted by a transaction. -/
structure TimeSeriesTombstone where
  seriesKey : Bytes
  timestamp : ℤ
  tombstoneTxId : TransactionId
  tombstoneLsn : Option ℕ

/-- `TimeBucket`: the points of an interval of time. -/
structure TimeBucket where
  id : ℕ
  startTs : ℤ
  endTs : ℤ
  points : SortedMap ℤ VersionChain
  tombstones : SortedMap ℤ TimeSeriesTombstone
  pageId : Option ℕ
  dirty : Bool
  lastAccessTime : ℕ

/-- The errors of a time-series table: each is a `TableError::Other` with a text of its own. -/
inductive TimeSeriesError
  | outsideBucketRange (timestamp startTs endTs : ℤ)
  | writePage
  | readPage
  | metadataSize
  deriving DecidableEq

/-- The pages of the buckets, and the next page to be allocated. -/
structure BucketPages where
  pages : ℕ → Option TimeBucket
  nextPage : ℕ

structure SeriesBucketEntry where
  seriesKey : Bytes
  bucketPages : List (ℕ × ℕ)

/-- Whether the bytes of a bucket, and those of the metadata, fit a page. -/
structure TimeSeriesEnv where
  bucketFits : TimeBucket → Bool
  metadataFits : List SeriesBucketEntry → Bool

namespace TimeBucket

variable (bucket : TimeBucket)

def new (id bucketSize now : ℕ) : TimeBucket where
  id := id
  startTs := startTimestamp id bucketSize
  endTs := endTimestamp id bucketSize
  points := .empty
  tombstones := .empty
  pageId := none
  dirty := false
  lastAccessTime := now

def touch (now : ℕ) : TimeBucket := { bucket with lastAccessTime := now }

/-- The time is in the interval. -/
def containsTimestamp (timestamp : ℤ) : Bool := bucket.startTs ≤ timestamp ∧ timestamp < bucket.endTs

def insert (timestamp : ℤ) (valueKey : Bytes) (txId : TransactionId) : Except TimeSeriesError TimeBucket :=
  if bucket.containsTimestamp timestamp then
    let chain := (bucket.points.lookup timestamp).getD []
    .ok { bucket with
      points := bucket.points.insert timestamp (.new valueKey txId :: chain)
      dirty := true }
  else .error (.outsideBucketRange timestamp bucket.startTs bucket.endTs)

/-- A tombstone of the time is committed at the snapshot. -/
def isTombstoned (timestamp : ℤ) (snapshot : Snapshot) : Bool :=
  match bucket.tombstones.lookup timestamp with
  | some ⟨_, _, _, some lsn⟩ => lsn ≤ snapshot.lsn
  | _ => false

/-- What a snapshot sees of an entry. -/
def seen (snapshot : Snapshot) (entry : ℤ × VersionChain) : Option (ℤ × Bytes) :=
  if bucket.isTombstoned entry.1 snapshot then none
  else (entry.2.findVisibleInline snapshot).map fun value => (entry.1, value)

/-- `TimeBucket::range`; an inverted range panics. -/
def range (start stop : ℤ) (snapshot : Snapshot) : Option (List (ℤ × Bytes)) :=
  if bucket.points.rangePanics (stop < start) then none
  else some ((bucket.points.entries.filter fun e => start ≤ e.1 ∧ e.1 < stop).filterMap (bucket.seen snapshot))

/-- The last point of the bucket the snapshot sees. -/
def latestBefore (timestamp : ℤ) (snapshot : Snapshot) : Option (ℤ × Bytes) :=
  (bucket.points.entries.filter fun e => e.1 ≤ timestamp).reverse.findSome? (bucket.seen snapshot)

/-- `TimeBucket::commit_versions` and `commit_tombstones`. -/
def commitVersions (txId : TransactionId) (commitLsn : ℕ) : TimeBucket :=
  { bucket with
    points := bucket.points.mapValues (VersionChain.stamp txId commitLsn)
    tombstones := bucket.tombstones.mapValues fun t =>
      if t.tombstoneTxId = txId ∧ t.tombstoneLsn = none then { t with tombstoneLsn := some commitLsn } else t
    dirty := true }

/-- `TimeBucket::flush`: a bucket without a page gets one. -/
def flush (env : TimeSeriesEnv) (store : BucketPages) : Outcome BucketPages TimeSeriesError TimeBucket :=
  let pageId := bucket.pageId.getD store.nextPage
  let nextPage := if bucket.pageId = none then store.nextPage + 1 else store.nextPage
  if env.bucketFits bucket then
    (⟨Function.update store.pages pageId (some bucket), nextPage⟩,
      .ok { bucket with pageId := some pageId, dirty := false })
  else (⟨store.pages, nextPage⟩, .error .writePage)

/-- A bucket is read from its page. -/
def load (store : BucketPages) (pageId now : ℕ) : Except TimeSeriesError TimeBucket :=
  match store.pages pageId with
  | some stored => .ok { stored with pageId := some pageId, dirty := false, lastAccessTime := now }
  | none => .error .readPage

end TimeBucket

/-! ## The buckets of a series -/

/-- The buckets in memory, and the pages of those on disk. -/
structure BucketManager where
  buckets : SortedMap ℕ TimeBucket
  bucketPageMap : SortedMap ℕ ℕ

namespace BucketManager

def new : BucketManager := ⟨.empty, .empty⟩

/-- `max_buckets_in_memory`, as both callers of `BucketManager::new` set it. -/
def maxBucketsInMemory : ℕ := 100

/-- `evict_lru_bucket`: the bucket is out of memory, also if its page cannot be written. -/
def evictLruBucket (env : TimeSeriesEnv) (state : BucketManager × BucketPages) :
    Outcome (BucketManager × BucketPages) TimeSeriesError Unit :=
  let (manager, store) := state
  match manager.buckets.entries.argmin fun e => e.2.lastAccessTime with
  | none => (state, .ok ())
  | some (bucketId, bucket) =>
    let manager := { manager with buckets := manager.buckets.erase bucketId }
    let (store, flushed) := if bucket.dirty then bucket.flush env store else (store, .ok bucket)
    match flushed with
    | .error e => ((manager, store), .error e)
    | .ok bucket =>
      match bucket.pageId with
      | some pageId =>
        (({ manager with bucketPageMap := manager.bucketPageMap.insert bucketId pageId }, store), .ok ())
      | none => ((manager, store), .ok ())

/-- `get_or_create_bucket` behind the eviction: the bucket comes from its page, or is new. -/
def loadOrNew (bucketSize now bucketId : ℕ) (state : BucketManager × BucketPages) :
    Outcome (BucketManager × BucketPages) TimeSeriesError TimeBucket :=
  let (manager, store) := state
  let bucket := match manager.bucketPageMap.lookup bucketId with
    | some pageId => TimeBucket.load store pageId now
    | none => .ok (.new bucketId bucketSize now)
  match bucket with
  | .ok bucket => (({ manager with buckets := manager.buckets.insert bucketId bucket }, store), .ok bucket)
  | .error e => (state, .error e)

/-- `get_or_create_bucket`, for a size that is not zero. -/
def getOrCreateBucket (env : TimeSeriesEnv) (bucketSize now : ℕ) (timestamp : ℤ)
    (state : BucketManager × BucketPages) : Outcome (BucketManager × BucketPages) TimeSeriesError TimeBucket :=
  let bucketId := fromTimestamp timestamp bucketSize
  match state.1.buckets.lookup bucketId with
  | some bucket =>
    (({ state.1 with buckets := state.1.buckets.insert bucketId (bucket.touch now) }, state.2),
      .ok (bucket.touch now))
  | none =>
    andThen (if maxBucketsInMemory ≤ state.1.buckets.entries.length then evictLruBucket env state
        else (state, .ok ()))
      fun state _ => loadOrNew bucketSize now bucketId state

/-- `get_bucket_ids_in_range`: of the buckets in memory. An inverted range panics, and so does a division
by zero. -/
def getBucketIdsInRange (manager : BucketManager) (bucketSize : ℕ) (startTs endTs : ℤ) : Option (List ℕ) :=
  let startBucket := fromTimestamp startTs bucketSize
  let endBucket := fromTimestamp endTs bucketSize
  if bucketSize = 0 ∨ manager.buckets.rangePanics (endBucket < startBucket) then none
  else some ((manager.buckets.entries.map Prod.fst).filter fun id => startBucket ≤ id ∧ id ≤ endBucket)

end BucketManager

/-! ## The table -/

/-- `TimeSeriesTable`, with the buckets' pages and what its root page holds. A panic while the lock of
the state is held for writing poisons it. -/
structure TimeSeriesTable where
  bucketSize : ℕ
  series : SortedMap Bytes BucketManager
  store : BucketPages
  root : List SeriesBucketEntry
  poisoned : Bool

structure TimePointRef where
  seriesKey : Bytes
  timestamp : ℤ
  valueKey : Bytes
  deriving DecidableEq

namespace TimeSeriesTable

def new (bucketSize : ℕ) : TimeSeriesTable := ⟨bucketSize, .empty, ⟨fun _ => none, 0⟩, [], false⟩

variable (env : TimeSeriesEnv) (table : TimeSeriesTable)

/-- `append_point_tx`, with the lock held. -/
def appendLocked (now : ℕ) (seriesKey : Bytes) (timestamp : ℤ) (valueKey : Bytes) (txId : TransactionId) :
    Outcome TimeSeriesTable (Failure TimeSeriesError) Unit :=
  let manager := (table.series.lookup seriesKey).getD .new
  if table.bucketSize = 0 then
    ({ table with series := table.series.insert seriesKey manager, poisoned := true }, .error .panicked)
  else
    let ((manager, store), found) :=
      BucketManager.getOrCreateBucket env table.bucketSize now timestamp (manager, table.store)
    let held (manager : BucketManager) : TimeSeriesTable :=
      { table with series := table.series.insert seriesKey manager, store := store }
    match found with
    | .error e => (held manager, .error (.error e))
    | .ok bucket =>
      match bucket.insert timestamp valueKey txId with
      | .error e => (held manager, .error (.error e))
      | .ok bucket =>
        let bucketId := fromTimestamp timestamp table.bucketSize
        (held { manager with buckets := manager.buckets.insert bucketId bucket }, .ok ())

/-- `append_point_tx`. -/
def appendPointTx (now : ℕ) (seriesKey : Bytes) (timestamp : ℤ) (valueKey : Bytes) (txId : TransactionId) :
    Outcome TimeSeriesTable (Failure TimeSeriesError) Unit :=
  if table.poisoned then (table, .error .panicked)
  else table.appendLocked env now seriesKey timestamp valueKey txId

/-- `commit_versions`: the buckets in memory. -/
def commitVersions (txId : TransactionId) (commitLsn : ℕ) :
    Outcome TimeSeriesTable (Failure TimeSeriesError) Unit :=
  if table.poisoned then (table, .error .panicked)
  else
    ({ table with
        series := table.series.mapValues fun manager =>
          { manager with buckets := manager.buckets.mapValues fun bucket => bucket.commitVersions txId commitLsn } },
      .ok ())

/-- The buckets a scan asks for before it reads: what becomes of each is not looked at. -/
def loadBuckets (now : ℕ) (state : BucketManager × BucketPages) (ids : List ℕ) : BucketManager × BucketPages :=
  ids.foldl (fun state id =>
    (BucketManager.getOrCreateBucket env table.bucketSize now
      (startTimestamp id table.bucketSize) state).1) state

/-- The points of the buckets in memory, in the order of their time. -/
def collect (manager : BucketManager) (startTs endTs : ℤ) (snapshot : Snapshot) : Option (List (ℤ × Bytes)) := do
  let ids ← manager.getBucketIdsInRange table.bucketSize startTs endTs
  let found ← (ids.filterMap manager.buckets.lookup).mapM fun bucket => bucket.range startTs endTs snapshot
  return found.flatten.mergeSort fun p q => p.1 ≤ q.1

/-- `TimeSeriesTableCursor::new_with_snapshot`: the points of the cursor. -/
def scanSeriesSnapshot (now : ℕ) (seriesKey : Bytes) (startTs endTs : ℤ) (snapshot : Snapshot) :
    Outcome TimeSeriesTable (Failure TimeSeriesError) (List (ℤ × Bytes)) :=
  if table.poisoned then (table, .error .panicked)
  else
    match table.series.lookup seriesKey with
    | none => (table, .ok [])
    | some manager =>
      match manager.getBucketIdsInRange table.bucketSize startTs endTs with
      | none => ({ table with poisoned := true }, .error .panicked)
      | some ids =>
        let (manager, store) := table.loadBuckets env now (manager, table.store) ids
        let table := { table with series := table.series.insert seriesKey manager, store := store }
        match table.collect manager startTs endTs snapshot with
        | none => (table, .error .panicked)
        | some points => (table, .ok points)

/-- `scan_series`, bucket by bucket. -/
def scanSeries (now : ℕ) (seriesKey : Bytes) (startTs endTs : ℤ) :
    Outcome TimeSeriesTable (Failure TimeSeriesError) (List (ℤ × Bytes)) :=
  table.scanSeriesSnapshot env now seriesKey startTs endTs (.atLsn u64Max)

/-- `latest_before_snapshot`: backwards through the buckets in memory. -/
def latestBeforeSnapshot (seriesKey : Bytes) (timestamp : ℤ) (snapshot : Snapshot) :
    Except (Failure TimeSeriesError) (Option TimePointRef) :=
  if table.poisoned then .error .panicked
  else
    match table.series.lookup seriesKey with
    | none => .ok none
    | some manager =>
      if table.bucketSize = 0 then .error .panicked
      else
        let bucketId := fromTimestamp timestamp table.bucketSize
        let buckets := (manager.buckets.entries.filter fun e => e.1 ≤ bucketId).reverse
        .ok ((buckets.findSome? fun e => e.2.latestBefore timestamp snapshot).map fun point =>
          ⟨seriesKey, point.1, point.2⟩)

def latestBefore (seriesKey : Bytes) (timestamp : ℤ) : Except (Failure TimeSeriesError) (Option TimePointRef) :=
  table.latestBeforeSnapshot seriesKey timestamp (.atLsn u64Max)

/-- `flush_metadata`: which buckets of which series have pages. -/
def flushMetadata : Outcome TimeSeriesTable (Failure TimeSeriesError) Unit :=
  let entries := table.series.entries.map fun e => ⟨e.1, e.2.bucketPageMap.entries⟩
  if table.poisoned then (table, .error .panicked)
  else if env.metadataFits entries then ({ table with root := entries }, .ok ())
  else (table, .error (.error .metadataSize))

/-- `register_bucket_page` for the buckets of an entry of the metadata. -/
def restore (entry : SeriesBucketEntry) : BucketManager :=
  ⟨.empty, entry.bucketPages.foldl (fun pages e => pages.insert e.1 e.2) .empty⟩

/-- `TimeSeriesTable::open` of the root page, after the table was dropped. -/
def reopen : TimeSeriesTable :=
  { table with
    series := table.root.foldl (fun series entry => series.insert entry.seriesKey (restore entry)) .empty
    poisoned := false }

end TimeSeriesTable

end NanoStore.Table
